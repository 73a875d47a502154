import Mathlib
import Offside.Proofs.Parse.Verdict
import Offside.Proofs.Token.Written

namespace Offside

/-- A member as it is written behind a point: a name, or the digits of an index. -/
inductive Member where
  | name (x : String)
  | index (digits : String)

namespace Member

open Lexeme Parse Grammar Offside.Expr

def text : Member → String
  | .name x => x
  | .index digits => digits

def isIndex : Member → Bool
  | .name _ => false
  | .index _ => true

/-- Names are no literals, and indices are integers that there are. -/
def Valid : Member → Prop
  | .name x => IsName x ∧ x ≠ "True" ∧ x ≠ "False"
  | .index digits => digits ≠ "" ∧ (∀ d ∈ digits.toList, isDigit d = true) ∧
    Decimal.value digits.toList < 0x8000000000000000

/-- The key that a member is written for. -/
def key (c : Context) : Member → Expr
  | .name x => .name x (c.value? x)
  | .index digits => .constant (.int (Int64.ofNat (Decimal.value digits.toList)))

/-- A name and its members, joined by points. -/
def source (x : String) (members : List Member) : String :=
  ".".intercalate (x :: members.map text)

/-- The keys that are read. From the left on, two indices are taken for one fraction. -/
def keys (c : Context) : List Member → List Expr
  | [] => []
  | .index m :: .index n :: members =>
    .constant (.float (Decimal.readFloat (m ++ "." ++ n).toList)) :: keys c members
  | m :: members => m.key c :: keys c members

/-- Accesses nest to the left. -/
def chain (target : Expr) (keys : List Expr) : Expr := keys.foldl .member target

/-- No index has another one behind it. -/
def Apart (members : List Member) : Prop :=
  members.IsChain fun m n => ¬ (m.isIndex = true ∧ n.isIndex = true)

variable {c : Context}

/-- The words that are read behind points. -/
def pieces : List Member → List Piece
  | [] => []
  | .index m :: .index n :: members => (.float, m ++ "." ++ n) :: pieces members
  | .index m :: members => (.integer, m) :: pieces members
  | .name x :: members => (.name, x) :: pieces members

/-- What the members are written as. -/
def spelling (members : List Member) : List Char :=
  members.flatMap fun m => '.' :: m.text.toList

theorem toList_source (x : String) (members : List Member) :
    (source x members).toList = x.toList ++ spelling members := by
  have hpoint : ".".toList = ['.'] := rfl
  rw [source, String.toList_intercalate, List.map_cons, hpoint, intercalate_cons, spelling]
  simp [List.flatMap_map]

theorem head_spelling {members : List Member} {d : Char} (h : d ∈ (spelling members).head?) :
    d = '.' := by
  cases members with
  | nil => cases h
  | cons m members => exact (Option.mem_some.1 h).symm

theorem ends_spelling {p : Char → Bool} (hp : p '.' = false) (members : List Member) :
    Ends p (spelling members) := by
  intro d hd
  rw [head_spelling hd]
  exact hp

theorem valid_index {digits : String} (h : (index digits).Valid) :
    ∃ d ds, digits.toList = d :: ds ∧ ∀ e ∈ d :: ds, isDigit e = true := by
  obtain ⟨hne, hdigits, -⟩ := h
  cases hd : digits.toList with
  | nil => exact absurd (String.toList_eq_nil_iff.1 hd) hne
  | cons d ds => exact ⟨d, ds, rfl, hd ▸ hdigits⟩

/-- A letter or a digit begins a member. -/
theorem Valid.head {m : Member} (h : m.Valid) (rest : List Char) :
    ∃ d ds, m.text.toList ++ rest = d :: ds ∧ isSymbolChar d = false ∧
      (m.isIndex = false → isDigit d = false) := by
  cases m with
  | name x =>
    obtain ⟨d, ds, hd, hletter, -⟩ := isName_iff.1 h.1
    refine ⟨d, ds ++ rest, by rw [text, hd, List.cons_append], by simp [isSymbolChar, hletter], ?_⟩
    intro _
    cases hdigit : isDigit d with
    | false => rfl
    | true => exact absurd hletter (by simp [not_letter_of_isDigit hdigit])
  | index digits =>
    obtain ⟨d, ds, hd, hdigits⟩ := valid_index h
    refine ⟨d, ds ++ rest, by rw [text, hd, List.cons_append], ?_, fun hname => ?_⟩
    · simp [isSymbolChar, hdigits d List.mem_cons_self]
    · cases hname

/-- A point before a member is a word of its own. -/
theorem lexes_point {m : Member} (hm : m.Valid) {rest : List Char} {ws : List Piece}
    (h : Lexes (m.text.toList ++ rest) ws) :
    Lexes ('.' :: (m.text.toList ++ rest)) ((.symbol, ".") :: ws) := by
  obtain ⟨d, ds, hd, hsymbol, -⟩ := hm.head rest
  have hword : IsWord ['.'] .symbol ['.'] (m.text.toList ++ rest) := by
    refine .symbol rfl rfl rfl nofun fun e he => ?_
    rw [hd] at he
    exact Option.mem_some.1 he ▸ hsymbol
  have hpoint : Lexes (['.'] ++ (m.text.toList ++ rest)) ((.symbol, String.ofList ['.']) :: ws) :=
    Lexes.ofWord hword (by decide) h
  exact hpoint

theorem noFraction_spelling {members : List Member} (hmembers : ∀ m ∈ members, m.Valid)
    (h : ∀ m ∈ members.head?, m.isIndex = false) : NoFraction (spelling members) := by
  intro d ds heq
  cases members with
  | nil => cases heq
  | cons m members =>
    obtain ⟨e, es, he, -, hdigit⟩ := (hmembers m List.mem_cons_self).head (spelling members)
    have hsame : '.' :: (m.text.toList ++ spelling members) = '.' :: d :: ds := heq
    rw [he] at hsame
    injection hsame with _ hsame
    injection hsame with hsame
    exact hsame ▸ hdigit (h m rfl)

theorem lexes_index {digits : String} (h : (index digits).Valid) {members : List Member}
    (hmembers : ∀ m ∈ members, m.Valid) (hnext : ∀ m ∈ members.head?, m.isIndex = false)
    {ws : List Piece} (hws : Lexes (spelling members) ws) :
    Lexes (digits.toList ++ spelling members) ((.integer, digits) :: ws) := by
  obtain ⟨d, ds, hd, hdigits⟩ := valid_index h
  have hword : IsWord (d :: ds) .integer (d :: ds) (spelling members) :=
    .integer hdigits (ends_spelling rfl members) (noFraction_spelling hmembers hnext)
  have hvisible := visible_of_isNameChar (c := d)
    (by simp [isNameChar, hdigits d List.mem_cons_self])
  have hlexes := Lexes.ofWord hword hvisible hws
  rwa [← hd, String.ofList_toList] at hlexes

/-- Digits on both sides of a point are one word. -/
theorem lexes_fraction {m n : String} (hm : (index m).Valid) (hn : (index n).Valid)
    {members : List Member} {ws : List Piece} (hws : Lexes (spelling members) ws) :
    Lexes (m.toList ++ '.' :: (n.toList ++ spelling members)) ((.float, m ++ "." ++ n) :: ws) := by
  obtain ⟨d, ds, hd, hdigits⟩ := valid_index hm
  obtain ⟨e, es, he, hfraction⟩ := valid_index hn
  have hword : IsWord (d :: (ds ++ '.' :: e :: es)) .float (d :: (ds ++ '.' :: e :: es))
      (spelling members) := .float hdigits hfraction (ends_spelling rfl members)
  have hvisible := visible_of_isNameChar (c := d)
    (by simp [isNameChar, hdigits d List.mem_cons_self])
  have hlexes := Lexes.ofWord hword hvisible hws
  have htext : d :: (ds ++ '.' :: e :: es) = (m ++ "." ++ n).toList := by
    rw [String.toList_append, String.toList_append, hd, he]
    simp
  rw [htext, String.ofList_toList, ← htext] at hlexes
  rw [hd, he]
  simpa using hlexes

/-- Points and what is read behind them. -/
def pointed (ws : List Piece) : List Piece := ws.flatMap fun w => [(.symbol, "."), w]

theorem lexes_spelling {members : List Member} (h : ∀ m ∈ members, m.Valid) :
    Lexes (spelling members) (pointed (pieces members)) := by
  fun_induction pieces members with
  | case1 => exact Lexes.nil
  | case2 m n members ih =>
    obtain ⟨hm, h⟩ := List.forall_mem_cons.1 h
    obtain ⟨hn, h⟩ := List.forall_mem_cons.1 h
    exact lexes_point hm (lexes_fraction hm hn (ih h))
  | case3 m members hnext ih =>
    obtain ⟨hm, h⟩ := List.forall_mem_cons.1 h
    refine lexes_point hm (lexes_index hm h (fun n hn => ?_) (ih h))
    cases members with
    | nil => cases hn
    | cons n' members =>
      cases Option.mem_some.1 hn
      cases n with
      | name x => rfl
      | index digits => exact absurd rfl (hnext digits members)
  | case4 x members ih =>
    obtain ⟨hx, h⟩ := List.forall_mem_cons.1 h
    exact lexes_point hx (Lexes.name hx.1 (ends_spelling rfl members) (ih h))

/-- The key that a word stands for. -/
def keyOf (c : Context) : Piece → Expr
  | (.name, x) => .name x (c.value? x)
  | (.integer, digits) => .constant (.int (Int64.ofNat (Decimal.value digits.toList)))
  | (_, digits) => .constant (.float (Decimal.readFloat digits.toList))

theorem keys_eq (members : List Member) : keys c members = (pieces members).map (keyOf c) := by
  fun_induction pieces members with
  | case1 => rfl
  | case2 m n members ih =>
    rw [keys, ih]
    rfl
  | case3 m members hnext ih =>
    rw [keys, ih, List.map_cons, keyOf, key]
    exact fun _ n ms _ hms => hnext n ms hms
  | case4 x members ih =>
    rw [keys, ih, List.map_cons, keyOf, key]
    exact nofun

theorem length_pieces_le (members : List Member) : (pieces members).length ≤ members.length := by
  fun_induction pieces members <;> simp <;> omega

/-- The word is a key wherever it stands. -/
def IsKey (w : Piece) : Prop :=
  ∀ (c : Context) (below : Option Grammar) (rest : List Piece),
    ReadsIn c (simpleTermAbove below) (w :: rest) (some (keyOf c w)) rest

theorem isKey_of_mem {members : List Member} (h : ∀ m ∈ members, m.Valid) :
    ∀ w ∈ pieces members, IsKey w := by
  fun_induction pieces members with
  | case1 => exact nofun
  | case2 m n members ih =>
    obtain ⟨-, h⟩ := List.forall_mem_cons.1 h
    obtain ⟨-, h⟩ := List.forall_mem_cons.1 h
    exact List.forall_mem_cons.2 ⟨fun _ _ _ => simpleTerm_floatIn _, ih h⟩
  | case3 m members hnext ih =>
    obtain ⟨hm, h⟩ := List.forall_mem_cons.1 h
    exact List.forall_mem_cons.2 ⟨fun _ _ _ => simpleTerm_integerIn hm.2.2, ih h⟩
  | case4 x members ih =>
    obtain ⟨hx, h⟩ := List.forall_mem_cons.1 h
    exact List.forall_mem_cons.2 ⟨fun _ _ _ => simpleTerm_nameIn hx.2.1 hx.2.2, ih h⟩

/-- Every access takes a level. -/
theorem members_readsIn {ws : List Piece} (hws : ∀ w ∈ ws, IsKey w) {room : Nat}
    (hroom : ws.length ≤ room) (target : Expr) :
    ReadsIn c (membersAbove (beneath room) target) (pointed ws)
      (chain target (ws.map (keyOf c))) [] := by
  induction ws generalizing room target with
  | nil =>
    have hend : ([] : List Piece).head? ≠ some (.symbol, ".") := nofun
    exact (accept_skipsIn hend).bind .pure
  | cons w ws ih =>
    obtain ⟨hw, hws⟩ := List.forall_mem_cons.1 hws
    obtain ⟨below, rfl⟩ : ∃ below, room = below + 1 := by
      cases room with
      | zero => exact absurd hroom (Nat.not_succ_le_zero _)
      | succ below => exact ⟨below, rfl⟩
    refine (accept_readsIn .symbol ".").bind ?_
    rw [if_pos rfl, beneath, ofRoom_eq_above, nested]
    exact (hw c (beneath below) (pointed ws)).bind
      (ih hws (Nat.le_of_succ_le_succ hroom) (.member target (keyOf c w)))

theorem term_readsIn {x : String} (hx : x ≠ "True" ∧ x ≠ "False") {members : List Member}
    (hmembers : ∀ m ∈ members, m.Valid) (hlength : members.length ≤ maxNesting) :
    ReadsIn c (termAbove (beneath maxNesting)) ((.name, x) :: pointed (pieces members))
      (some (chain (.name x (c.value? x)) (keys c members))) [] := by
  have hroom := Nat.le_trans (length_pieces_le members) hlength
  rw [keys_eq]
  exact (simpleTerm_nameIn hx.1 hx.2).bind
    (.map (members_readsIn (isKey_of_mem hmembers) hroom _))

theorem length_keys_le (members : List Member) : (keys c members).length ≤ members.length := by
  rw [keys_eq, List.length_map]
  exact length_pieces_le members

/-- A fraction takes the place of two indices. -/
theorem apart_of_length_keys {members : List Member}
    (h : (keys c members).length = members.length) : Apart members := by
  -- A pair of indices makes the keys fewer than the members, and nothing later makes up for it.
  fun_induction keys c members with
  | case1 => exact .nil
  | case2 m n members ih =>
    have hle := length_keys_le (c := c) members
    simp only [List.length_cons] at h
    omega
  | case3 m members hnext ih =>
    have hrest := ih (by simpa using h)
    cases members with
    | nil => exact .singleton m
    | cons n members =>
      refine List.isChain_cons_cons.2 ⟨fun hboth => ?_, hrest⟩
      cases m with
      | name x => cases hboth.1
      | index m =>
        cases n with
        | name x => cases hboth.2
        | index n => exact hnext m n members rfl rfl

theorem keys_of_apart {members : List Member} (h : Apart members) :
    keys c members = members.map (key c) := by
  fun_induction keys c members with
  | case1 => rfl
  | case2 m n members ih => exact absurd ⟨rfl, rfl⟩ (List.isChain_cons_cons.1 h).1
  | case3 m members hnext ih => rw [ih (List.IsChain.of_cons h), List.map_cons]

theorem keys_eq_iff_apart (members : List Member) :
    keys c members = members.map (key c) ↔ Apart members := by
  refine ⟨fun h => apart_of_length_keys (c := c) ?_, keys_of_apart⟩
  rw [h, List.length_map]

/-- The chain is read point by point, but for points between digits. -/
theorem parse_keys {x : String} (hx : IsName x ∧ x ∉ ["type", "True", "False"])
    {members : List Member} (hmembers : ∀ m ∈ members, m.Valid)
    (hlength : members.length ≤ maxNesting) :
    Program.parse (source x members) c = .ok [chain (.name x (c.value? x)) (keys c members)] := by
  obtain ⟨hname, hx⟩ := hx
  have hx : x ≠ "type" ∧ x ≠ "True" ∧ x ≠ "False" := by simpa using hx
  have hsum := sum_of_term (E := fun _ => False)
    (.found (term_readsIn (c := c) hx.2 hmembers hlength)) bare_nil nofun
  have hword : ((TokenKind.name, x) :: pointed (pieces members)).head? ≠ some (.name, "type") :=
    fun heq => hx.1 (Prod.mk.inj (Option.some.inj heq)).2
  have hstatement := statement_of_sum hword nofun hsum
  have hlexes : Lexes (source x members).toList ((.name, x) :: pointed (pieces members)) := by
    rw [toList_source]
    exact Lexes.name hname (ends_spelling rfl members) (lexes_spelling hmembers)
  have hskip : skipBlanks true (source x members).toList = (source x members).toList := by
    rw [toList_source]
    exact skipBlanks_name hname true _
  obtain ⟨e, rfl, he⟩ | ⟨e, hfalse, -⟩ :=
    parse_of_verdict ⟨rfl, hlexes _ _ rfl⟩ hskip hstatement
  · exact he
  · exact hfalse.elim

theorem chain_append (target : Expr) (ks : List Expr) (k : Expr) :
    chain target (ks ++ [k]) = .member (chain target ks) k := by
  rw [chain, List.foldl_append]
  rfl

theorem chain_inj {x : String} {t : Option Ty} {ks js : List Expr}
    (h : chain (.name x t) ks = chain (.name x t) js) : ks = js := by
  induction ks using List.reverseRecOn generalizing js with
  | nil =>
    induction js using List.reverseRecOn with
    | nil => rfl
    | append_singleton js j _ =>
      rw [chain_append] at h
      cases h
  | append_singleton ks k ih =>
    induction js using List.reverseRecOn with
    | nil =>
      rw [chain_append] at h
      cases h
    | append_singleton js j _ =>
      rw [chain_append, chain_append] at h
      injection h with hks hk
      rw [ih hks, hk]

/-- A chain of members nests to the left. Its keys are the members as they are written just when no
two indices stand side by side; two that do are one fraction. -/
theorem parse_members {x : String} (hx : IsName x ∧ x ∉ ["type", "True", "False"])
    {members : List Member} (hmembers : ∀ m ∈ members, m.Valid)
    (hlength : members.length ≤ maxNesting) (c : Context) :
    Program.parse (source x members) c = .ok [chain (.name x (c.value? x)) (keys c members)] ∧
      (Program.parse (source x members) c =
        .ok [chain (.name x (c.value? x)) (members.map (key c))] ↔ Apart members) := by
  have hparse := parse_keys (c := c) hx hmembers hlength
  refine ⟨hparse, ?_⟩
  rw [hparse, ← keys_eq_iff_apart (c := c)]
  constructor
  · intro h
    injection h with h
    injection h with h
    exact chain_inj h
  · intro h
    rw [h]

theorem parse_members_matrix :
    let members : List Member := [.name "row", .index "007", .name "type", .index "1"]
    let c := Context.empty.setValue "row" .int
    (IsName "m" ∧ "m" ∉ ["type", "True", "False"]) ∧ (∀ m ∈ members, m.Valid) ∧
      members.length ≤ maxNesting ∧
      Program.parse "m.row.007.type.1" c = .ok [.member (.member (.member (.member (.name "m" none)
        (.name "row" (some .int))) (.constant (.int 7))) (.name "type" none))
        (.constant (.int 1))] := by
  intro members c
  have hx : IsName "m" ∧ "m" ∉ ["type", "True", "False"] := by decide
  have hmembers : ∀ m ∈ members, m.Valid := by
    simp only [members, List.forall_mem_cons]
    refine ⟨⟨rfl, by decide, by decide⟩, ⟨by decide, ?_, by decide⟩, ⟨rfl, by decide, by decide⟩,
      ⟨by decide, ?_, by decide⟩, nofun⟩ <;> exact List.all_eq_true.1 rfl
  have hlength : members.length ≤ maxNesting := by decide
  have hapart : Apart members := by
    refine List.isChain_cons_cons.2 ⟨by decide, List.isChain_cons_cons.2 ⟨by decide, ?_⟩⟩
    exact List.isChain_cons_cons.2 ⟨by decide, .singleton _⟩
  exact ⟨hx, hmembers, hlength, (parse_members hx hmembers hlength c).2.2 hapart⟩

/-- Two indices are not read as two members. -/
theorem parse_members_fraction :
    let members : List Member := [.index "1", .index "2"]
    (IsName "a" ∧ "a" ∉ ["type", "True", "False"]) ∧ (∀ m ∈ members, m.Valid) ∧
      members.length ≤ maxNesting ∧
      Program.parse "a.1.2" =
        .ok [.member (.name "a" none) (.constant (.float (Decimal.readFloat "1.2".toList)))] ∧
      Program.parse "a.1.2" ≠ .ok [.member (.member (.name "a" none) (.constant (.int 1)))
        (.constant (.int 2))] := by
  intro members
  have hx : IsName "a" ∧ "a" ∉ ["type", "True", "False"] := by decide
  have hmembers : ∀ m ∈ members, m.Valid := by
    simp only [members, List.forall_mem_cons]
    refine ⟨⟨by decide, ?_, by decide⟩, ⟨by decide, ?_, by decide⟩, nofun⟩ <;>
      exact List.all_eq_true.1 rfl
  have hlength : members.length ≤ maxNesting := by decide
  have hkeys : keys {} members = [.constant (.float (Decimal.readFloat "1.2".toList))] := by
    simp only [members, keys]
    rfl
  have hparse : Program.parse "a.1.2" =
      .ok [.member (.name "a" none) (.constant (.float (Decimal.readFloat "1.2".toList)))] := by
    have hsource : "a.1.2" = source "a" members := by decide
    rw [hsource, parse_keys hx hmembers hlength, hkeys]
    rfl
  refine ⟨hx, hmembers, hlength, hparse, fun h => ?_⟩
  rw [hparse] at h
  injection h with h
  injection h with h
  injection h with h
  cases h

end Member

end Offside
