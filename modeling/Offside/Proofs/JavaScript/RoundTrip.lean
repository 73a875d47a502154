import Offside.Proofs.JavaScript.Link
import Offside.Proofs.Parse.Reading

namespace Offside

open Lexeme Parse Grammar

/-- A name that stands for itself in an expression. -/
def IsVariable (x : String) : Prop := IsName x ∧ x ∉ ["type", "True", "False"]

instance (x : String) : Decidable (IsVariable x) := inferInstanceAs (Decidable (_ ∧ _))

theorem IsVariable.ne {x : String} (h : IsVariable x) : x ≠ "True" ∧ x ≠ "False" := by
  constructor
  · intro heq
    exact absurd (heq ▸ h.2) (by decide)
  · intro heq
    exact absurd (heq ▸ h.2) (by decide)

def Operator.IsShared : Operator → Prop
  | .arithmetic op => op ≠ .power ∧ op ≠ .equal
  | .comparison op => op ≠ .equal ∧ op ≠ .notEqual
  | .connective _ => True

instance (op : Operator) : Decidable op.IsShared :=
  match op with
  | .arithmetic _ | .comparison _ => inferInstanceAs (Decidable (_ ∧ _))
  | .connective _ => inferInstanceAs (Decidable True)

namespace Operator.IsShared

variable {op : Operator}

theorem javaScript_eq (h : op.IsShared) : op.javaScript = op.symbol := by
  cases op with
  | arithmetic op => exact if_neg h.2
  | comparison op =>
    cases op with
    | equal => exact absurd rfl h.1
    | notEqual => exact absurd rfl h.2
    | _ => rfl
  | connective op => rfl

theorem ne_power (h : op.IsShared) : op ≠ .arithmetic .power := by
  intro heq
  subst heq
  exact h.1 rfl

theorem ne_equal (h : op.IsShared) : op ≠ .arithmetic .equal := by
  intro heq
  subst heq
  exact h.2 rfl

end Operator.IsShared

namespace Expr

/-- Numbers, names, shared operators and applications of a name to one argument. -/
inductive OperatorTree : Expr → Prop
  | integer {n : Int64} : 0 ≤ n.toInt → OperatorTree (.constant (.int n))
  | name {x : String} : IsVariable x → OperatorTree (.name x none)
  | operation {op : Operator} {left right e : Expr} : op.IsShared → OperatorTree left →
    OperatorTree right → checkedOperation op left right = .ok e → OperatorTree e
  | application {f : String} {argument e : Expr} {expected : Option Ty} : IsVariable f →
    OperatorTree argument → checkedApply [.name f none, argument] expected = .ok e →
    OperatorTree e

theorem height_application (f : String) (t : Option Ty) (argument : Expr) :
    (Expr.apply (.name f t) [argument]).height = argument.height + 1 := by
  simp [height, heightOfAll]

/-- What may follow a word. -/
def Boundary (cs : List Char) : Prop := ∀ c ∈ cs.head?, c = ' ' ∨ c = '(' ∨ c = ')'

theorem Boundary.ends {cs : List Char} (h : Boundary cs) {p : Char → Bool}
    (hp : p ' ' = false ∧ p '(' = false ∧ p ')' = false) : Ends p cs := by
  intro c hc
  rcases h c hc with rfl | rfl | rfl
  · exact hp.1
  · exact hp.2.1
  · exact hp.2.2

theorem boundary_cons {c : Char} {cs : List Char} (h : c = ' ' ∨ c = '(' ∨ c = ')') :
    Boundary (c :: cs) := fun _ hd => Option.mem_some.1 hd ▸ h

/-- No blank and no comment stands first. -/
def Visible (cs : List Char) : Prop :=
  ∃ c ds, cs = c :: ds ∧ 32 < c.toNat ∧ c ≠ '-' ∧ c ≠ '\x7b'

theorem Visible.append {cs : List Char} (h : Visible cs) (ds : List Char) : Visible (cs ++ ds) := by
  obtain ⟨c, cs, rfl, hc⟩ := h
  exact ⟨c, cs ++ ds, rfl, hc⟩

theorem Visible.skipBlanks_eq {cs : List Char} (h : Visible cs) (lines : Bool) :
    skipBlanks lines cs = cs := by
  obtain ⟨c, ds, rfl, hc, hdash, hbrace⟩ := h
  exact skipBlanks_of_toNat hc (fun h => absurd h hdash) hbrace

theorem Visible.ofNameChar {c : Char} {cs : List Char} (h : isNameChar c = true) :
    Visible (c :: cs) :=
  ⟨c, cs, rfl, visible_of_isNameChar h⟩

/-- The text consists of the pieces and begins with the first of them. -/
structure Spelled (text : List Char) (ws : List Piece) : Prop where
  lexes {cs : List Char} {rest : List Piece} : Boundary cs → Lexes cs rest →
    Lexes (text ++ cs) (ws ++ rest)
  visible : Visible text
  opens : ∃ w vs, ws = w :: vs ∧ w ≠ (.name, "type") ∧ w.1 ≠ .symbol

/-- A tree is read from its text, if so many levels may be open. -/
structure Written (e : Expr) (ws : List Piece) : Prop where
  spelled : Spelled e.javaScript.toList ws
  reads {room : Nat} {rest : List Piece} : 2 * e.height ≤ room → Closed rest →
    Reads (sumAbove (beneath room)) (ws ++ rest) (some e) rest

structure WrittenOperand (e : Expr) (ws : List Piece) : Prop where
  spelled : Spelled (e.operand e.javaScript).toList ws
  reads {room : Nat} {rest : List Piece} : 2 * e.height + 1 ≤ room → Stop rest →
    Reads (sequenceAbove (beneath room)) (ws ++ rest) (some e) rest

theorem Spelled.ne_opening {text : List Char} {ws : List Piece} (h : Spelled text ws)
    (rest : List Piece) : (ws ++ rest).head? ≠ some (.name, "type") ∧
      ∀ symbol, (ws ++ rest).head? ≠ some (.symbol, symbol) := by
  obtain ⟨w, vs, rfl, htype, hsymbol⟩ := h.opens
  refine ⟨fun h => htype (Option.some.inj h), fun symbol h => hsymbol ?_⟩
  rw [Option.some.inj h]

variable {e left right argument : Expr} {ws vs : List Piece}

theorem Written.statement (h : Written e ws) {room : Nat} {rest : List Piece}
    (hroom : 2 * e.height ≤ room) (hrest : Closed rest) :
    Reads (ofRoom room).statement (ws ++ rest) (some (.expression e)) rest := by
  obtain ⟨htype, hsymbol⟩ := h.spelled.ne_opening rest
  exact statement_reads htype (hsymbol _) (h.reads hroom hrest) hrest

/-- Text in parentheses. -/
theorem Spelled.group {text : List Char} (h : Spelled text ws) :
    Spelled ('(' :: (text ++ [')'])) ((.delimiter, "(") :: (ws ++ [(.delimiter, ")")])) where
  lexes {cs rest} _ hcs := by
    have hclose := h.lexes (boundary_cons (.inr (.inr rfl))) (Lexes.paren (.inr rfl) hcs)
    have hopen := Lexes.paren (.inl rfl) hclose
    simpa using hopen
  visible := ⟨_, _, rfl, by decide, by decide, by decide⟩
  opens := ⟨_, _, rfl, fun h => (nomatch h), fun h => (nomatch h)⟩

theorem Written.group_reads (h : Written e ws) {room : Nat} {rest : List Piece}
    (hroom : 2 * e.height + 1 ≤ room) :
    Reads (simpleTermAbove (beneath room)) ((.delimiter, "(") :: (ws ++ (.delimiter, ")") :: rest))
      (some e) rest := by
  cases room with
  | zero => exact absurd hroom (Nat.not_succ_le_zero _)
  | succ room =>
    have hclosed : Closed ((.delimiter, ")") :: rest) := fun _ hw => (Option.mem_some.1 hw).symm
    exact simpleTerm_group (inner_reads (h.statement (Nat.le_of_succ_le_succ hroom) hclosed))

theorem Written.operand (h : Written e ws) (hatomic : e.isAtomic = false) :
    WrittenOperand e ((.delimiter, "(") :: (ws ++ [(.delimiter, ")")])) where
  spelled := by
    have htext : (e.operand e.javaScript).toList = '(' :: (e.javaScript.toList ++ [')']) := by
      rw [Expr.operand, if_neg (by simp [hatomic]), String.toList_append, String.toList_append]
      rfl
    rw [htext]
    exact h.spelled.group
  reads {room rest} hroom hrest := by
    have hterm := term_reads (h.group_reads hroom) (hrest.head_ne rfl)
    simpa using sequence_one hterm hrest

/-- An atom is an operand as it is. -/
theorem written_atomic (hatomic : e.isAtomic = true) (hspelled : Spelled e.javaScript.toList ws)
    (h : ∀ room rest, 2 * e.height ≤ room → Stop rest →
      Reads (sequenceAbove (beneath room)) (ws ++ rest) (some e) rest) :
    Written e ws ∧ WrittenOperand e ws := by
  refine ⟨⟨hspelled, fun hroom hrest => ?_⟩, ⟨?_, fun hroom hrest => h _ _ (by omega) hrest⟩⟩
  · exact sum_of_sequence (h _ _ hroom hrest.stop) hrest
  · rwa [Expr.operand, if_pos hatomic]

theorem spelled_name {x : String} (hx : IsVariable x) : Spelled x.toList [(.name, x)] where
  lexes hboundary hcs := Lexes.name hx.1 (hboundary.ends (by decide)) hcs
  visible := by
    obtain ⟨c, cs, hc, -, hchars⟩ := isName_iff.1 hx.1
    rw [hc]
    exact .ofNameChar (hchars c (hc ▸ List.mem_cons_self))
  opens := by
    refine ⟨_, _, rfl, fun h => hx.2 ?_, fun h => nomatch h⟩
    rw [(Prod.mk.inj h).2]
    decide

theorem spelled_integer (n : Nat) :
    Spelled (Decimal.natural n).toList [(.integer, Decimal.natural n)] where
  lexes hboundary hcs := by
    have hpoint := hboundary.ends (p := (· = '.')) (by decide)
    refine Lexes.integer (hboundary.ends (by decide)) (fun h => ?_) hcs
    exact absurd (hpoint _ h) (by decide)
  visible := by
    have hdigits := Decimal.digits_isDigit n
    obtain ⟨c, cs, hc, -⟩ := Decimal.natural_head n
    rw [Decimal.natural, String.toList_ofList] at hc ⊢
    rw [hc] at hdigits ⊢
    exact .ofNameChar (by simp [isNameChar, hdigits c List.mem_cons_self])
  opens := ⟨_, _, rfl, fun h => (nomatch h), fun h => (nomatch h)⟩

theorem written_integer {n : Int64} (h : 0 ≤ n.toInt) :
    ∃ ws, Written (.constant (.int n)) ws ∧ WrittenOperand (.constant (.int n)) ws := by
  refine ⟨[(.integer, Decimal.natural n.toInt.natAbs)],
    written_atomic rfl ?_ fun room rest _ hrest => ?_⟩
  · rw [javaScript, Literal.javaScript, Decimal.integer_of_nonneg h]
    exact spelled_integer _
  · exact sequence_one (term_reads (simpleTerm_integer h) (hrest.head_ne rfl)) hrest

theorem written_name {x : String} (h : IsVariable x) :
    ∃ ws, Written (.name x none) ws ∧ WrittenOperand (.name x none) ws := by
  refine ⟨[(.name, x)], written_atomic rfl (spelled_name h) fun room rest _ hrest => ?_⟩
  exact sequence_one (term_reads (simpleTerm_name h.ne.1 h.ne.2) (hrest.head_ne rfl)) hrest

theorem toList_application (f : String) (t : Option Ty) (argument : Expr) :
    (Expr.apply (.name f t) [argument]).javaScript.toList =
      f.toList ++ '(' :: (argument.javaScript.toList ++ [')']) := by
  have hopen : "(".toList = ['('] := rfl
  have hclose : ")".toList = [')'] := rfl
  rw [javaScript, javaScript, javaScripts, javaScripts, String.intercalate_singleton]
  simp only [String.toList_append, hopen, hclose, List.append_assoc, List.cons_append,
    List.nil_append]

theorem written_application {f : String} {expected : Option Ty} (hf : IsVariable f)
    (h : Written argument vs) (he : checkedApply [.name f none, argument] expected = .ok e) :
    ∃ ws, Written e ws ∧ WrittenOperand e ws := by
  obtain ⟨callee, arguments, hterms, rfl⟩ := eq_apply_of_checked he
  cases hterms
  have hgroup := h.spelled.group
  have hspelled : Spelled (Expr.apply (.name f none) [argument]).javaScript.toList
      ((.name, f) :: (.delimiter, "(") :: (vs ++ [(.delimiter, ")")])) := by
    rw [toList_application]
    refine ⟨fun hboundary hcs => ?_, (spelled_name hf).visible.append _, ?_⟩
    · rw [List.append_assoc]
      exact (spelled_name hf).lexes (boundary_cons (.inr (.inl rfl))) (hgroup.lexes hboundary hcs)
    · obtain ⟨w, _, hw, hne⟩ := (spelled_name hf).opens
      cases hw
      exact ⟨_, _, rfl, hne⟩
  refine ⟨_, written_atomic rfl hspelled fun room rest hroom hrest => ?_⟩
  rw [height_application] at hroom
  have hcallee : Reads (termAbove (beneath room))
      ((.name, f) :: (.delimiter, "(") :: (vs ++ (.delimiter, ")") :: rest)) (some (.name f none))
      ((.delimiter, "(") :: (vs ++ (.delimiter, ")") :: rest)) :=
    term_reads (simpleTerm_name hf.ne.1 hf.ne.2) (fun h => nomatch h)
  have hargument : Reads (termAbove (beneath room))
      ((.delimiter, "(") :: (vs ++ (.delimiter, ")") :: rest)) (some argument) rest :=
    term_reads (h.group_reads (by omega)) (hrest.head_ne rfl)
  have hsequence := sequence_apply (List.cons_ne_nil _ _) hcallee hargument hrest rfl
  rw [List.cons_append, List.cons_append, List.append_assoc, List.singleton_append]
  exact hsequence

theorem toList_operation {op : Operator} (hop : op.IsShared) (left right : Expr) :
    (operation op left right).javaScript.toList =
      (left.operand left.javaScript).toList ++ ' ' :: (op.symbol.toList ++
        ' ' :: (right.operand right.javaScript).toList) := by
  have hblank : " ".toList = [' '] := rfl
  rw [javaScript_operation hop.ne_power, hop.javaScript_eq]
  simp only [String.toList_append, hblank, List.append_assoc, List.cons_append, List.nil_append]

theorem spelled_operation {op : Operator} (hop : op.IsShared) (hleft : WrittenOperand left ws)
    (hright : WrittenOperand right vs) :
    Spelled (operation op left right).javaScript.toList (ws ++ (.symbol, op.symbol) :: vs) := by
  rw [toList_operation hop]
  refine ⟨fun hboundary hcs => ?_, hleft.spelled.visible.append _, ?_⟩
  · have hoperand := hright.spelled.lexes hboundary hcs
    have hsymbol := (Lexes.operator op hoperand.blank).blank
    have htext := hleft.spelled.lexes (boundary_cons (.inl rfl)) hsymbol
    simpa using htext
  · obtain ⟨w, us, rfl, hne⟩ := hleft.spelled.opens
    exact ⟨_, _, rfl, hne⟩

theorem written_operation {op : Operator} (hop : op.IsShared) (hleft : WrittenOperand left ws)
    (hright : WrittenOperand right vs) (he : checkedOperation op left right = .ok e) :
    Written e (ws ++ (.symbol, op.symbol) :: vs) := by
  obtain rfl := eq_operation_of_checked he
  refine ⟨spelled_operation hop hleft hright, fun {room rest} hroom hrest => ?_⟩
  rw [height_operation] at hroom
  obtain ⟨below, rfl⟩ : ∃ below, room = below + 1 := ⟨room - 1, by omega⟩
  have hstop : Stop ((.symbol, op.symbol) :: (vs ++ rest)) := fun _ hw =>
    .inr ⟨op, (Option.mem_some.1 hw).symm⟩
  have hl : Reads (sequenceAbove (beneath (below + 1))) (ws ++ (.symbol, op.symbol) :: (vs ++ rest))
      (some left) ((.symbol, op.symbol) :: (vs ++ rest)) := hleft.reads (by omega) hstop
  have hr : Reads (sequenceAbove (beneath below)) (vs ++ rest) (some right) rest :=
    hright.reads (by omega) hrest.stop
  rw [List.append_assoc, List.cons_append]
  exact sum_operation hop.ne_equal hl hr hrest he

/-- A tree and what it is as an operand are read from their texts. -/
theorem OperatorTree.written (h : OperatorTree e) :
    ∃ ws vs, Written e ws ∧ WrittenOperand e vs := by
  induction h with
  | integer hn =>
    obtain ⟨ws, hw⟩ := written_integer hn
    exact ⟨ws, ws, hw⟩
  | name hx =>
    obtain ⟨ws, hw⟩ := written_name hx
    exact ⟨ws, ws, hw⟩
  | application hf _ he ih =>
    obtain ⟨vs, -, hv, -⟩ := ih
    obtain ⟨ws, hw⟩ := written_application hf hv he
    exact ⟨ws, ws, hw⟩
  | operation hop _ _ he hleft hright =>
    obtain ⟨-, ws, -, hl⟩ := hleft
    obtain ⟨-, vs, -, hr⟩ := hright
    have hw := written_operation hop hl hr he
    obtain rfl := eq_operation_of_checked he
    exact ⟨_, _, hw, hw.operand (isAtomic_operation _ _ _)⟩

/-- The text of such a tree is read as the tree itself. -/
theorem parse_javaScript (h : OperatorTree e) (hheight : e.height ≤ 32) :
    Program.parse e.javaScript = .ok [e] := by
  obtain ⟨ws, -, hw, -⟩ := h.written
  have hroom : 2 * e.height ≤ maxNesting := by
    unfold maxNesting
    omega
  have hend : Grammar.Closed [] := fun _ h => nomatch h
  have hboundary : Boundary [] := fun _ h => nomatch h
  have hlexes := hw.spelled.lexes hboundary Lexes.nil
  have hread := hw.statement hroom hend
  rw [List.append_nil, List.append_nil] at hlexes
  rw [List.append_nil] at hread
  exact parse_of_reads ⟨rfl, hlexes _ _ rfl⟩ (hw.spelled.visible.skipBlanks_eq true) hread

theorem parse_javaScript_nested :
    let sum := Expr.arithmetic .add (.name "x" none) (.constant (.int 1))
    let call := Expr.apply (.name "f" none)
      [.arithmetic .floorDivide (.name "y" none) (.constant (.int 2))]
    let tree := Expr.comparison .less (.arithmetic .multiply sum call) (.constant (.int 3))
    OperatorTree tree ∧ tree.height ≤ 32 ∧ Program.parse tree.javaScript = .ok [tree] := by
  intro sum call tree
  have hadd : checkedOperation (.arithmetic .add) (.name "x" none) (.constant (.int 1)) =
      .ok sum := rfl
  have hdivide : checkedOperation (.arithmetic .floorDivide) (.name "y" none)
      (.constant (.int 2)) = .ok (.arithmetic .floorDivide (.name "y" none) (.constant (.int 2))) :=
    rfl
  have happly : checkedApply [.name "f" none,
      .arithmetic .floorDivide (.name "y" none) (.constant (.int 2))] none = .ok call := rfl
  have hmultiply : checkedOperation (.arithmetic .multiply) sum call =
      .ok (.arithmetic .multiply sum call) := rfl
  have hless : checkedOperation (.comparison .less) (.arithmetic .multiply sum call)
      (.constant (.int 3)) = .ok tree := rfl
  have hname {x : String} (h : IsVariable x) : OperatorTree (.name x none) := .name h
  have hinteger {n : Int64} (h : 0 ≤ n.toInt) : OperatorTree (.constant (.int n)) := .integer h
  have hsum := OperatorTree.operation (by decide) (hname (by decide)) (hinteger (by decide)) hadd
  have hquotient :=
    OperatorTree.operation (by decide) (hname (by decide)) (hinteger (by decide)) hdivide
  have hcall := OperatorTree.application (by decide) hquotient happly
  have hproduct := OperatorTree.operation (by decide) hsum hcall hmultiply
  have htree := OperatorTree.operation (by decide) hproduct (hinteger (by decide)) hless
  have hheight : tree.height ≤ 32 := by decide
  exact ⟨htree, hheight, parse_javaScript htree hheight⟩

end Expr

end Offside
