import Mathlib
import Offside.Proofs.Expr.Nodes
import Offside.Proofs.Parse.Verdict
import Offside.Proofs.Token.Written

namespace Offside

/-- A name, and operators with a name behind each. -/
structure Chain where
  first : String
  links : List (Operator × String)

namespace Chain

open Lexeme Parse Grammar Offside.Expr

def names (chain : Chain) : List String := chain.first :: chain.links.map (·.2)

/-- All words with single blanks between them. -/
def source (chain : Chain) : String :=
  " ".intercalate (chain.first :: chain.links.flatMap fun p => [p.1.symbol, p.2])

/-- The links before the first sum. -/
def lead (links : List (Operator × String)) : List (Operator × String) :=
  links.takeWhile (·.1.tier = .product)

/-- Each sum with the chain up to the next one. -/
def later : List (Operator × String) → List (Operator × Chain)
  | [] => []
  | (op, y) :: links =>
    if op.tier = .product then later links else (op, ⟨y, lead links⟩) :: later links

/-- The chain cut at its sums. -/
def groups (chain : Chain) : List Chain :=
  ⟨chain.first, lead chain.links⟩ :: (later chain.links).map (·.2)

/-- Operators fold to the left, whatever they are. -/
def folded (chain : Chain) : Expr :=
  chain.links.foldl (fun e p => operation p.1 e (.name p.2 none)) (.name chain.first none)

/-- The groups are folded one by one, and then along the sums. -/
def tree (chain : Chain) : Expr :=
  (later chain.links).foldl (fun e p => operation p.1 e p.2.folded)
    (folded ⟨chain.first, lead chain.links⟩)

/-- There are levels enough for the sums, and behind each of them for the operators of its group. -/
def Fits (chain : Chain) : Prop :=
  chain.groups.length ≤ maxNesting + 1 ∧
    ∀ j (h : j < chain.groups.length), j + chain.groups[j].links.length ≤ maxNesting

instance (chain : Chain) : Decidable chain.Fits := inferInstanceAs (Decidable (_ ∧ _))

/-- A word of the chain is a name without a type, and no literal. -/
def IsUntyped (c : Context) (x : String) : Prop :=
  IsName x ∧ x ≠ "True" ∧ x ≠ "False" ∧ c.value? x = none

end Chain

namespace Expr

/-- Nothing that is known about its type speaks against an operand. -/
def Neutral (e : Expr) : Prop := e.mayBeNumeric = true ∧ e.mayBeComparable = true

theorem neutral_name (x : String) : Neutral (.name x none) := ⟨rfl, rfl⟩

theorem neutral_operation {op : Operator} (hop : op ≠ .arithmetic .equal) (left right : Expr) :
    (operation op left right).Neutral := by
  rcases op with op | op | op
  · cases op <;> first | exact ⟨rfl, rfl⟩ | exact absurd rfl hop
  · exact ⟨rfl, rfl⟩
  · exact ⟨rfl, rfl⟩

theorem checkedOperation_of_neutral (op : Operator) {left right : Expr} (hleft : left.Neutral)
    (hright : right.Neutral) : checkedOperation op left right = .ok (operation op left right) := by
  rcases op with op | op | op
  · exact if_pos (by rw [hleft.1, hright.1]; rfl)
  · exact if_pos (by rw [hleft.2, hright.2]; rfl)
  · rfl

end Expr

namespace Chain

open Lexeme Parse Grammar Offside.Expr

variable {c : Context}

theorem neutral_folded {chain : Chain} (h : ∀ p ∈ chain.links, p.1 ≠ .arithmetic .equal) :
    chain.folded.Neutral := by
  have hlinks {links : List (Operator × String)} {e : Expr} (he : e.Neutral)
      (h : ∀ p ∈ links, p.1 ≠ .arithmetic .equal) :
      (links.foldl (fun e p => operation p.1 e (.name p.2 none)) e).Neutral := by
    induction links generalizing e with
    | nil => exact he
    | cons p links ih =>
      rw [List.forall_mem_cons] at h
      exact ih (neutral_operation h.1 _ _) h.2
  exact hlinks (neutral_name chain.first) h

/-- What a link is written as. -/
def linkPieces (links : List (Operator × String)) : List Piece :=
  links.flatMap fun p => [(.symbol, p.1.symbol), (.name, p.2)]

def groupPieces (groups : List (Operator × Chain)) : List Piece :=
  groups.flatMap fun p => (.symbol, p.1.symbol) :: (.name, p.2.first) :: linkPieces p.2.links

theorem linkPieces_eq (links : List (Operator × String)) :
    linkPieces links = linkPieces (lead links) ++ groupPieces (later links) := by
  induction links with
  | nil => rfl
  | cons p links ih =>
    obtain ⟨op, y⟩ := p
    by_cases hop : op.tier = .product
    · have hlead : lead ((op, y) :: links) = (op, y) :: lead links :=
        List.takeWhile_cons_of_pos (by simpa using hop)
      rw [hlead, later, if_pos hop]
      exact congrArg (fun ws => (.symbol, op.symbol) :: (.name, y) :: ws) ih
    · have hlead : lead ((op, y) :: links) = [] :=
        List.takeWhile_cons_of_neg (by simpa using hop)
      rw [hlead, later, if_neg hop]
      exact congrArg (fun ws => (.symbol, op.symbol) :: (.name, y) :: ws) ih

/-- What the parser needs to know of links: their operators can be written, and their names have no
type. -/
def Plain (c : Context) (links : List (Operator × String)) : Prop :=
  ∀ p ∈ links, p.1 ≠ .arithmetic .equal ∧ IsUntyped c p.2

theorem mem_lead {links : List (Operator × String)} {p : Operator × String} (h : p ∈ lead links) :
    p ∈ links ∧ p.1.tier = .product :=
  ⟨(List.takeWhile_sublist _).mem h, by simpa using List.all_eq_true.1 List.all_takeWhile p h⟩

/-- Each group begins with a sum and goes on with products. -/
structure IsGroup (c : Context) (p : Operator × Chain) : Prop where
  tier : p.1.tier = .sum
  operator : p.1 ≠ .arithmetic .equal
  first : IsUntyped c p.2.first
  links : Plain c p.2.links
  products : ∀ q ∈ p.2.links, q.1.tier = .product

theorem isGroup_of_mem_later {links : List (Operator × String)} (h : Plain c links) :
    ∀ p ∈ later links, IsGroup c p := by
  induction links with
  | nil => exact fun p hp => nomatch hp
  | cons q links ih =>
    obtain ⟨op, y⟩ := q
    have hlinks : Plain c links := fun p hp => h p (List.mem_cons_of_mem _ hp)
    rw [later]
    split
    · exact ih hlinks
    · next hop =>
      obtain ⟨hequal, hy⟩ := h (op, y) List.mem_cons_self
      have htier : op.tier = .sum := by
        cases htier : op.tier with
        | sum => rfl
        | product => exact absurd htier hop
      rw [List.forall_mem_cons]
      exact ⟨⟨htier, hequal, hy, fun p hp => hlinks p (mem_lead hp).1, fun p hp => (mem_lead hp).2⟩,
        ih hlinks⟩

/-- A name before an operator or the end is an operand of its own. -/
theorem sequence_name {below : Option Grammar} {x : String} (hx : IsUntyped c x) {ws : List Piece}
    (hws : ∀ w ∈ ws.head?, ∃ op : Operator, w = (.symbol, op.symbol)) :
    ReadsIn c (sequenceAbove below) ((.name, x) :: ws) (some (.name x none)) ws := by
  obtain ⟨-, htrue, hfalse, htype⟩ := hx
  have hname : ReadsIn c (simpleTermAbove below) ((.name, x) :: ws) (some (.name x none)) ws := by
    rw [← htype]
    exact simpleTerm_nameIn htrue hfalse
  refine .ofFound (sequence_of_term (term_of_simple (.found hname) fun hdot => ?_) fun w hw => ?_)
  · obtain ⟨op, hop⟩ := hws _ hdot
    have hsome := op.ofSymbol?_symbol_isSome
    rw [← (Prod.mk.inj hop).2] at hsome
    cases hsome
  · obtain ⟨op, rfl⟩ := hws w hw
    exact .inr rfl

theorem operand_sum (room : Nat) : (ofRoom room).operand .sum = productAbove (beneath room) := by
  rw [ofRoom_eq_above]
  rfl

theorem operand_product (room : Nat) :
    (ofRoom room).operand .product = sequenceAbove (beneath room) := by
  rw [ofRoom_eq_above]
  rfl

/-- An operator of the tier opens a level, if one is left. -/
theorem fold_verdict {room : Nat} {op : Operator} {tier : Tier} {left : Expr} {ws : List Piece}
    {R : Expr → Assertion} {E : Error → Prop} (hop : op ≠ .arithmetic .equal)
    (htier : op.tier = tier) (hnone : room = 0 → E tooDeep)
    (hsome : ∀ below, room = below + 1 → Verdict (FacingIn c ws) (do
      match ← (ofRoom below).operand tier with
      | none => fail (.missingOperand op)
      | some right =>
        foldAbove (beneath below) tier (← check (checkedOperation op left right))) R E) :
    Verdict (FacingIn c ((.symbol, op.symbol) :: ws)) (foldAbove (beneath room) tier left) R E := by
  refine fold_of_operand hop htier ?_
  cases room with
  | zero => exact Verdict.fail (hnone rfl)
  | succ below =>
    have h := hsome below rfl
    simp only [ofRoom_eq_above below] at h
    show Verdict _ (nested (some (ofRoom below)) _) R E
    rw [ofRoom_eq_above below]
    exact h

theorem head_linkPieces {links : List (Operator × String)} {rest : List Piece}
    (hrest : ∀ w ∈ rest.head?, ∃ op : Operator, w = (.symbol, op.symbol) ∧ op.tier = .sum) :
    ∀ w ∈ (linkPieces links ++ rest).head?, ∃ op : Operator, w = (.symbol, op.symbol) := by
  intro w hw
  cases links with
  | nil =>
    obtain ⟨op, heq, -⟩ := hrest w hw
    exact ⟨op, heq⟩
  | cons p links => exact ⟨p.1, (Option.mem_some.1 hw).symm⟩

/-- A group takes a level for each of its operators. -/
theorem products_verdict {links : List (Operator × String)} (hlinks : Plain c links)
    (hproducts : ∀ p ∈ links, p.1.tier = .product) {rest : List Piece}
    (hrest : ∀ w ∈ rest.head?, ∃ op : Operator, w = (.symbol, op.symbol) ∧ op.tier = .sum)
    {e : Expr} (he : e.Neutral) (room : Nat) :
    Verdict (FacingIn c (linkPieces links ++ rest)) (foldAbove (beneath room) .product e)
      (fun a s => (links.length ≤ room ∧
        a = links.foldl (fun e p => operation p.1 e (.name p.2 none)) e) ∧ FacingIn c rest s)
      (fun a => ¬ links.length ≤ room ∧ a = tooDeep) := by
  -- Over the operators: a level that is opened stays open for the rest of the group.
  induction links generalizing e room with
  | nil =>
    have hstop : ReadsIn c (foldAbove (beneath room) .product e) rest e rest := by
      refine fold_stopIn fun op hop htier => ?_
      obtain ⟨op', heq, hsum⟩ := hrest _ hop
      rw [Operator.tier_eq, ← (Prod.mk.inj heq).2, ← Operator.tier_eq, htier] at hsum
      cases hsum
    exact hstop.consequence (fun _ => id) (fun a s hs => ⟨⟨Nat.zero_le _, hs.1⟩, hs.2⟩)
      fun _ => False.elim
  | cons p links ih =>
    obtain ⟨op, y⟩ := p
    obtain ⟨⟨hop, hy⟩, hlinks⟩ := List.forall_mem_cons.1 hlinks
    obtain ⟨htier, hproducts⟩ := List.forall_mem_cons.1 hproducts
    refine fold_verdict hop htier (fun hroom => ⟨by simp [hroom], rfl⟩) fun below hroom => ?_
    have hright : ReadsIn c ((ofRoom below).operand .product)
        ((.name, y) :: (linkPieces links ++ rest)) (some (.name y none))
        (linkPieces links ++ rest) := by
      rw [operand_product]
      exact sequence_name hy (head_linkPieces hrest)
    have hnode := checkedOperation_of_neutral op he (neutral_name y)
    have hmore := ih hlinks hproducts (neutral_operation hop e (.name y none)) below
    refine Verdict.after hright (Verdict.after (ReadsIn.check hnode) (hmore.consequence
      (fun _ => id) (fun a s hs => ?_) fun a ha => ?_))
    · exact ⟨⟨by rw [List.length_cons]; omega, hs.1.2⟩, hs.2⟩
    · exact ⟨by rw [List.length_cons]; omega, ha.2⟩

/-- From the first sum on. -/
def FitsAfter (room : Nat) (groups : List (Operator × Chain)) : Prop :=
  ∀ j (h : j < groups.length), j + 1 + groups[j].2.links.length ≤ room

theorem fitsAfter_cons {room : Nat} {p : Operator × Chain} {groups : List (Operator × Chain)} :
    FitsAfter (room + 1) (p :: groups) ↔ p.2.links.length ≤ room ∧ FitsAfter room groups := by
  constructor
  · intro h
    have hfirst := h 0 (Nat.zero_lt_succ _)
    refine ⟨by simp at hfirst; omega, fun j hj => ?_⟩
    have hj := h (j + 1) (Nat.succ_lt_succ hj)
    simp at hj
    omega
  · rintro ⟨hfirst, hrest⟩ j hj
    cases j with
    | zero => simp; omega
    | succ j =>
      have hj := hrest j (Nat.lt_of_succ_lt_succ hj)
      simp
      omega

/-- The product that begins with a name. -/
theorem product_verdict {group : Chain} (hfirst : IsUntyped c group.first)
    (hlinks : Plain c group.links) (hproducts : ∀ p ∈ group.links, p.1.tier = .product)
    {rest : List Piece}
    (hrest : ∀ w ∈ rest.head?, ∃ op : Operator, w = (.symbol, op.symbol) ∧ op.tier = .sum)
    (room : Nat) :
    Verdict (FacingIn c ((.name, group.first) :: (linkPieces group.links ++ rest)))
      (productAbove (beneath room))
      (Found (fun e => group.links.length ≤ room ∧ e = group.folded) (FacingIn c rest))
      (fun a => ¬ group.links.length ≤ room ∧ a = tooDeep) := by
  refine Verdict.after (sequence_name hfirst (head_linkPieces hrest)) (Verdict.map ?_)
  exact (products_verdict hlinks hproducts hrest (neutral_name group.first) room).post
    fun e s hs => ⟨⟨e, rfl, hs.1⟩, hs.2⟩

theorem head_groupPieces {groups : List (Operator × Chain)} (h : ∀ p ∈ groups, IsGroup c p) :
    ∀ w ∈ (groupPieces groups).head?, ∃ op : Operator,
      w = (.symbol, op.symbol) ∧ op.tier = .sum := by
  intro w hw
  cases groups with
  | nil => cases hw
  | cons p groups =>
    exact ⟨p.1, (Option.mem_some.1 hw).symm, (h p List.mem_cons_self).tier⟩

/-- A sum takes a level, and so do those behind it, on top of what its own group takes. -/
theorem sums_verdict {groups : List (Operator × Chain)} (h : ∀ p ∈ groups, IsGroup c p) {e : Expr}
    (he : e.Neutral) (room : Nat) :
    Verdict (FacingIn c (groupPieces groups)) (foldAbove (beneath room) .sum e)
      (fun a s => (FitsAfter room groups ∧
        a = groups.foldl (fun e p => operation p.1 e p.2.folded) e) ∧ FacingIn c [] s)
      (fun a => ¬ FitsAfter room groups ∧ a = tooDeep) := by
  -- Over the sums: the group behind a sum gives its levels back, the sum does not.
  induction groups generalizing e room with
  | nil =>
    have hstop : ReadsIn c (foldAbove (beneath room) .sum e) [] e [] := fold_stopIn nofun
    exact hstop.consequence (fun _ => id) (fun a s hs => ⟨⟨nofun, hs.1⟩, hs.2⟩) fun _ => False.elim
  | cons p groups ih =>
    obtain ⟨hp, hgroups⟩ := List.forall_mem_cons.1 h
    have hrest := head_groupPieces hgroups
    refine fold_verdict hp.operator hp.tier (fun hroom => ⟨fun hfits => ?_, rfl⟩)
      fun below hroom => ?_
    · have hfirst := hfits 0 (Nat.zero_lt_succ _)
      omega
    subst hroom
    have hright := product_verdict hp.first hp.links hp.products hrest below
    have hnode : checkedOperation p.1 e p.2.folded = .ok (operation p.1 e p.2.folded) :=
      checkedOperation_of_neutral p.1 he (neutral_folded fun q hq => (hp.links q hq).1)
    have hmore := ih hgroups (neutral_operation hp.operator e p.2.folded) below
    rw [fitsAfter_cons, operand_sum]
    refine Verdict.option (hright.consequence (fun _ => id) (fun _ _ => id) fun a ha => ?_)
      fun right hr => ?_
    · exact ⟨fun hfits => ha.1 hfits.1, ha.2⟩
    · obtain ⟨hlength, rfl⟩ := hr
      refine Verdict.after (ReadsIn.check hnode) (hmore.consequence (fun _ => id)
        (fun a s hs => ⟨⟨⟨hlength, hs.1.1⟩, hs.1.2⟩, hs.2⟩) fun a ha => ?_)
      exact ⟨fun hfits => ha.1 hfits.2, ha.2⟩

theorem fits_iff (chain : Chain) : chain.Fits ↔
    (lead chain.links).length ≤ maxNesting ∧ FitsAfter maxNesting (later chain.links) := by
  unfold Fits FitsAfter groups
  constructor
  · rintro ⟨-, h⟩
    refine ⟨by simpa using h 0 (Nat.zero_lt_succ _), fun j hj => ?_⟩
    have hj := h (j + 1) (by simpa using hj)
    simpa using hj
  · rintro ⟨hlead, h⟩
    have hlength : (later chain.links).length ≤ maxNesting := by
      cases hl : (later chain.links).length with
      | zero => exact Nat.zero_le _
      | succ j =>
        have hj := h j (by omega)
        omega
    refine ⟨by simpa using hlength, fun j hj => ?_⟩
    cases j with
    | zero => simpa using hlead
    | succ j => simpa using h j (by simpa using hj)

theorem toList_source (chain : Chain) :
    chain.source.toList = writtenLine ((.name, chain.first) :: linkPieces chain.links) := by
  have hwords : (chain.first :: chain.links.flatMap fun p => [p.1.symbol, p.2]) =
      ((TokenKind.name, chain.first) :: linkPieces chain.links).map Prod.snd := by
    simp [linkPieces, List.map_flatMap]
  have hwritten : ∀ w ∈ (TokenKind.name, chain.first) :: linkPieces chain.links,
      writtenWord w.1 w.2.toList = w.2.toList := by
    simp [linkPieces, writtenWord]
    grind
  rw [source, hwords, String.toList_intercalate, writtenLine, List.map_map]
  exact congrArg _ (List.map_congr_left fun w hw => (hwritten w hw).symm)

theorem toList_source_prefix (chain : Chain) :
    ∃ rest, chain.source.toList = chain.first.toList ++ rest := by
  cases h : chain.links.flatMap fun p => [p.1.symbol, p.2] with
  | nil => exact ⟨[], by simp [source, h]⟩
  | cons x xs => exact ⟨_, by simp [source, h, String.toList_intercalate]; rfl⟩

theorem lexes_source {chain : Chain} (hnames : ∀ x ∈ chain.names, IsName x) :
    Lexes chain.source.toList ((.name, chain.first) :: linkPieces chain.links) := by
  obtain ⟨hfirst, hrest⟩ := List.forall_mem_cons.1 hnames
  rw [toList_source]
  refine lexes_writtenLine (List.forall_mem_cons.2 ⟨readable_name hfirst, fun w hw => ?_⟩)
  obtain ⟨p, hp, hw⟩ := List.mem_flatMap.1 hw
  rcases List.mem_pair.1 hw with rfl | rfl
  · exact readable_operator p.1
  · exact readable_name (hrest p.2 (List.mem_map_of_mem hp))

theorem sum_verdict {chain : Chain} (hnames : ∀ x ∈ chain.names, IsUntyped c x)
    (hlinks : ∀ p ∈ chain.links, p.1 ≠ .arithmetic .equal) :
    Verdict (FacingIn c ((.name, chain.first) :: linkPieces chain.links))
      (sumAbove (beneath maxNesting))
      (Found (fun e => chain.Fits ∧ e = chain.tree) (FacingIn c []))
      (fun e => ¬ chain.Fits ∧ e = tooDeep) := by
  obtain ⟨hfirst, hrest⟩ := List.forall_mem_cons.1 hnames
  have hplain : Plain c chain.links := fun p hp => ⟨hlinks p hp, hrest p.2 (List.mem_map_of_mem hp)⟩
  have hgroups := isGroup_of_mem_later hplain
  have hproduct := @product_verdict c ⟨chain.first, lead chain.links⟩ hfirst
    (fun p hp => hplain p (mem_lead hp).1) (fun p hp => (mem_lead hp).2)
    _ (head_groupPieces hgroups) maxNesting
  have hneutral : (folded ⟨chain.first, lead chain.links⟩).Neutral :=
    neutral_folded fun p hp => hlinks p (mem_lead hp).1
  rw [linkPieces_eq, fits_iff]
  refine Verdict.option (hproduct.consequence (fun _ => id) (fun _ _ => id) fun e he => ?_)
    fun e he => ?_
  · exact ⟨fun hfits => he.1 hfits.1, he.2⟩
  · obtain ⟨hlead, rfl⟩ := he
    refine Verdict.map ((sums_verdict hgroups hneutral maxNesting).consequence (fun _ => id)
      (fun a s hs => ?_) fun e he => ?_)
    · exact ⟨⟨a, rfl, ⟨hlead, hs.1.1⟩, hs.1.2⟩, hs.2⟩
    · exact ⟨fun hfits => he.1 hfits.2, he.2⟩

/-- A chain of operators is read as its tree if it fits the levels of nesting, and else refused. -/
theorem parse_chain {chain : Chain} (htype : chain.first ≠ "type")
    (hnames : ∀ x ∈ chain.names, IsUntyped c x)
    (hlinks : ∀ p ∈ chain.links, p.1 ≠ .arithmetic .equal) :
    Program.parse chain.source c = if chain.Fits then .ok [chain.tree] else .error tooDeep := by
  have hlexes := lexes_source fun x hx => (hnames x hx).1
  have hword : ((TokenKind.name, chain.first) :: linkPieces chain.links).head? ≠
      some (.name, "type") := fun heq => htype (Prod.mk.inj (Option.some.inj heq)).2
  have hstatement := statement_of_sum hword nofun (sum_verdict hnames hlinks)
  have hskip : skipBlanks true chain.source.toList = chain.source.toList := by
    obtain ⟨rest, hrest⟩ := toList_source_prefix chain
    rw [hrest]
    exact skipBlanks_name (hnames chain.first List.mem_cons_self).1 true rest
  obtain ⟨e, ⟨hfits, rfl⟩, he⟩ | ⟨e, ⟨hfits, rfl⟩, he⟩ :=
    parse_of_verdict ⟨rfl, hlexes _ _ rfl⟩ hskip hstatement
  · rw [he, if_pos hfits]
  · rw [he, if_neg hfits]

theorem parse_chain_equality :
    let chain : Chain := ⟨"a", [(.arithmetic .add, "b"), (.comparison .equal, "type"),
      (.connective .or, "d"), (.arithmetic .subtract, "e")]⟩
    let c := Context.empty.setValue "f" .int
    let tree := Expr.arithmetic .subtract
      (.arithmetic .add (.name "a" none) (.connective .or
        (.comparison .equal (.name "b" none) (.name "type" none)) (.name "d" none)))
      (.name "e" none)
    chain.first ≠ "type" ∧ (∀ x ∈ chain.names, IsUntyped c x) ∧
      (∀ p ∈ chain.links, p.1 ≠ .arithmetic .equal) ∧
      Program.parse "a + b == type || d - e" c = .ok [tree] := by
  intro chain c tree
  have htype : chain.first ≠ "type" := by decide
  have hnames : ∀ x ∈ chain.names, IsUntyped c x := by
    simp only [chain, names, List.map, List.forall_mem_cons]
    exact ⟨⟨rfl, by decide, by decide, rfl⟩, ⟨rfl, by decide, by decide, rfl⟩,
      ⟨rfl, by decide, by decide, rfl⟩, ⟨rfl, by decide, by decide, rfl⟩,
      ⟨rfl, by decide, by decide, rfl⟩, nofun⟩
  have hlinks : ∀ p ∈ chain.links, p.1 ≠ .arithmetic .equal := by decide
  have hsource : chain.source = "a + b == type || d - e" := by decide
  have htree : chain.tree = tree := rfl
  have hparse := parse_chain htype hnames hlinks
  rw [if_pos (by decide), hsource, htree] at hparse
  exact ⟨htype, hnames, hlinks, hparse⟩

end Chain

end Offside
