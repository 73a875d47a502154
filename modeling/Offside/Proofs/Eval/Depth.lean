import Mathlib
import Offside.Proofs.Expr.Nodes
import Offside.Proofs.Parse.Reading
import Offside.Proofs.Value.Exact
import Offside.Program

namespace Offside

namespace Arithmetic

variable {op : Arithmetic} {cause : RuntimeError}

theorem cause_of_onInts {a b : Int} (hop : op.Integral b) (h : op.onInts a b = .error cause) :
    cause = .divisionByZero ∨ cause = .integerOverflow op := by
  obtain ⟨-, hr⟩ | ⟨-, r, -, hr | ⟨-, hr⟩⟩ := onInts_cases a hop
  · cases hr.symm.trans h
    exact .inl rfl
  · cases hr.symm.trans h
    exact .inr rfl
  · cases hr.symm.trans h

theorem cause_of_onFloats {x y : Float} (h : op.onFloats x y = .error cause) :
    cause = .divisionByZero := by
  cases op with
  | floorDivide =>
    simp only [onFloats] at h
    split at h <;> cases h
    rfl
  | _ => cases h

theorem cause_of_onNumbers {m n : Number} (hequal : op ≠ .equal)
    (h : op.onNumbers m n = .error cause) :
    cause = .divisionByZero ∨ cause = .integerOverflow op := by
  unfold onNumbers at h
  split at h
  · split at h
    · exact .inl (cause_of_onFloats h)
    · next hints => exact cause_of_onInts (integral_iff.2 ⟨hequal, hints⟩) h
  · exact .inl (cause_of_onFloats h)

/-- Why arithmetic fails. -/
theorem cause_of_apply {a b : Value} (h : op.apply a b = .error cause) :
    (cause = .divisionByZero ∨ cause = .integerOverflow op) ∨
      cause = .notNumbers op a.kind b.kind ∧ (a.number? = none ∨ b.number? = none) := by
  unfold apply at h
  split at h
  · split at h
    · cases h
    · next hequal => exact .inl (cause_of_onNumbers hequal h)
  · next hnumbers =>
    cases h
    refine .inr ⟨rfl, ?_⟩
    cases ha : a.number? with
    | none => exact .inl rfl
    | some m =>
      cases hb : b.number? with
      | none => exact .inr rfl
      | some n => exact absurd hb (hnumbers m n ha)

end Arithmetic

theorem Comparison.cause_of_apply {op : Comparison} {a b : Value} {cause : RuntimeError}
    (h : op.apply a b = .error cause) : cause = .notComparable a.kind b.kind := by
  unfold apply at h
  split at h
  · cases h
  · cases h
  · split at h
    · cases h
    · cases h
    · split at h <;> cases h
      rfl

namespace Eval

/-- Evaluation that does not end because it nests too deeply. -/
def StaysWithin {α : Type} (p : Eval α) : Prop :=
  ∀ env env', p env ≠ .error (.runtime .nestedTooDeeply) env'

namespace StaysWithin

variable {α β : Type} {p : Eval α} {f : α → Eval β}

theorem pure (a : α) : StaysWithin (Pure.pure a : Eval α) := fun _ _ h => nomatch h

theorem bind (hp : StaysWithin p) (hf : ∀ a, StaysWithin (f a)) : StaysWithin (p >>= f) := by
  intro env env' h
  cases hrun : p env with
  | ok a env₁ =>
    rw [bind_of_ok hrun] at h
    exact hf a env₁ env' h
  | error e env₁ =>
    rw [bind_of_error hrun] at h
    cases h
    exact hp env env' hrun

theorem check {r : Except RuntimeError α} (h : r ≠ .error .nestedTooDeeply) :
    StaysWithin (Eval.check r) := by
  cases r with
  | ok a => exact pure a
  | error cause =>
    intro env env' heq
    cases heq
    exact h rfl

end StaysWithin

end Eval

namespace Expr

open Eval Lexeme Parse Grammar

/-- Literals and operators, however they are grouped. -/
inductive Calculation : Expr → Prop
  | constant (value : Literal) : Calculation (.constant value)
  | operation (op : Operator) {left right : Expr} (hleft : Calculation left)
      (hright : Calculation right) : Calculation (operation op left right)

/-- How many operators stand one in the left operand of the other. -/
def leftHeight : Expr → Nat
  | .comparison _ left _ | .connective _ left _ | .arithmetic _ left _ => left.leftHeight + 1
  | _ => 0

theorem Calculation.staysWithin {e : Expr} (he : Calculation e) {host : Host} {room : Nat}
    (h : e.height < room) : StaysWithin (evaluateWithin host room e) := by
  induction he generalizing room with
  | constant value =>
    cases room with
    | zero => exact absurd h (Nat.not_lt_zero _)
    | succ room => exact .pure _
  | @operation op left right _ _ hleft hright =>
    cases room with
    | zero => exact absurd h (Nat.not_lt_zero _)
    | succ room =>
      rw [height_operation] at h
      have hl : StaysWithin (evaluateWithin host room left) := hleft (by omega)
      have hr : StaysWithin (evaluateWithin host room right) := hright (by omega)
      cases op with
      | arithmetic op =>
        refine hl.bind fun a => hr.bind fun b => .check fun hcause => ?_
        obtain (hcause | hcause) | ⟨hcause, -⟩ := Arithmetic.cause_of_apply hcause <;> cases hcause
      | comparison op =>
        refine hl.bind fun a => hr.bind fun b => StaysWithin.bind (.check fun hcause => ?_) fun _ => .pure _
        cases Comparison.cause_of_apply hcause
      | connective op =>
        refine hl.bind fun a => ?_
        split
        · exact .pure a
        · exact hr

/-- The left operands are reached whatever the values are. -/
theorem evaluateWithin_of_le_leftHeight {host : Host} {room : Nat} {e : Expr}
    (h : room ≤ e.leftHeight) (env : Environment) :
    evaluateWithin host room e env = .error (.runtime .nestedTooDeeply) env := by
  induction room generalizing e with
  | zero => rfl
  | succ room ih =>
    cases e with
    | comparison op left right => exact bind_of_error (ih (Nat.le_of_succ_le_succ h))
    | connective op left right => exact bind_of_error (ih (Nat.le_of_succ_le_succ h))
    | arithmetic op left right => exact bind_of_error (ih (Nat.le_of_succ_le_succ h))
    | _ => exact absurd h (Nat.not_succ_le_zero room)

def one : Expr := .constant (.int 1)

/-- The operator and a 1, so many times over. -/
def onesText (op : Arithmetic) : Nat → List Char
  | 0 => []
  | n + 1 => ' ' :: (op.symbol.toList ++ ' ' :: '1' :: onesText op n)

def onesPieces (op : Arithmetic) : Nat → List Piece
  | 0 => []
  | n + 1 => (.symbol, op.symbol) :: (.integer, "1") :: onesPieces op n

def withOnes (op : Arithmetic) : Nat → Expr → Expr
  | 0, e => e
  | n + 1, e => withOnes op n (.arithmetic op e one)

theorem calculation_withOnes {op : Arithmetic} {n : Nat} {e : Expr} (he : Calculation e) :
    Calculation (withOnes op n e) := by
  induction n generalizing e with
  | zero => exact he
  | succ n ih => exact ih (.operation (.arithmetic op) he (.constant _))

theorem leftHeight_withOnes (op : Arithmetic) (n : Nat) (e : Expr) :
    (withOnes op n e).leftHeight = e.leftHeight + n := by
  induction n generalizing e with
  | zero => rfl
  | succ n ih =>
    rw [withOnes, ih, leftHeight]
    omega

theorem mayBeNumeric_withOnes {op : Arithmetic} (hop : op.resultTy.isNumeric = true) (n : Nat)
    {e : Expr} (he : e.mayBeNumeric = true) : (withOnes op n e).mayBeNumeric = true := by
  induction n generalizing e with
  | zero => exact he
  | succ n ih => exact ih hop

/-- Nothing or a blank comes next. -/
def Spaced (cs : List Char) : Prop := ∀ c ∈ cs.head?, c = ' '

theorem Spaced.nil : Spaced [] := fun _ h => nomatch h

theorem natural_one : Decimal.natural 1 = "1" := by cbv

theorem lexes_one {cs : List Char} {ws : List Piece} (hcs : Spaced cs) (h : Lexes cs ws) :
    Lexes ('1' :: cs) ((.integer, "1") :: ws) := by
  have hend : Ends isDigit cs := fun c hc => hcs c hc ▸ rfl
  have hpoint : cs.head? ≠ some '.' := fun hd => absurd (hcs _ hd) (by decide)
  have hlexes := Lexes.integer (n := 1) hend hpoint h
  rw [natural_one] at hlexes
  exact hlexes

theorem spaced_onesText {op : Arithmetic} {n : Nat} {cs : List Char} (hcs : Spaced cs) :
    Spaced (onesText op n ++ cs) := by
  cases n with
  | zero => exact hcs
  | succ n => exact fun c hc => (Option.mem_some.1 hc).symm

theorem lexes_onesText (op : Arithmetic) (n : Nat) {cs : List Char} {ws : List Piece}
    (hcs : Spaced cs) (h : Lexes cs ws) : Lexes (onesText op n ++ cs) (onesPieces op n ++ ws) := by
  induction n with
  | zero => exact h
  | succ n ih =>
    have hones := lexes_one (spaced_onesText hcs) ih
    have hoperator := (Lexes.operator (.arithmetic op) hones.blank).blank
    simpa [onesText, onesPieces, Operator.symbol] using hoperator

theorem sequence_reads_one {below : Option Grammar} {ws : List Piece} (h : Stop ws) :
    Reads (sequenceAbove below) ((.integer, "1") :: ws) (some one) ws := by
  have hinteger : Reads (simpleTermAbove below) ((.integer, Decimal.natural 1) :: ws) (some one) ws :=
    simpleTerm_integer (n := 1) (by decide)
  rw [natural_one] at hinteger
  exact sequence_one (term_reads hinteger (h.head_ne rfl)) h

/-- Nothing comes next, or a sum after products. -/
def Trails (op : Arithmetic) (ws : List Piece) : Prop :=
  ∀ w ∈ ws.head?, (Operator.arithmetic op).tier = .product ∧ w = (.symbol, "+")

theorem Trails.nil {op : Arithmetic} : Trails op [] := fun _ h => nomatch h

theorem Trails.tier_eq {op : Arithmetic} {ws : List Piece} (h : Trails op ws) {op' : Operator}
    (hop' : ws.head? = some (.symbol, op'.symbol)) :
    (Operator.arithmetic op).tier = .product ∧ op'.tier = .sum := by
  obtain ⟨htier, heq⟩ := h _ hop'
  injection heq with _ hsymbol
  refine ⟨htier, ?_⟩
  rw [Operator.tier_eq, hsymbol]
  rfl

theorem Trails.stop {op : Arithmetic} {ws : List Piece} (h : Trails op ws) : Stop ws :=
  fun w hw => .inr ⟨.arithmetic .add, (h w hw).2⟩

theorem stop_onesPieces {op : Arithmetic} {n : Nat} {ws : List Piece} (h : Trails op ws) :
    Stop (onesPieces op n ++ ws) := by
  cases n with
  | zero => exact h.stop
  | succ n => exact fun w hw => .inr ⟨.arithmetic op, (Option.mem_some.1 hw).symm⟩

/-- What stands between two operators of the chain. -/
theorem operand_reads_one {op : Arithmetic} {room n : Nat} {ws : List Piece} (h : Trails op ws) :
    Reads ((ofRoom room).operand (Operator.arithmetic op).tier)
      ((.integer, "1") :: (onesPieces op n ++ ws)) (some one) (onesPieces op n ++ ws) := by
  have hsequence : Reads (sequenceAbove (beneath room)) ((.integer, "1") :: (onesPieces op n ++ ws))
      (some one) (onesPieces op n ++ ws) := sequence_reads_one (stop_onesPieces h)
  rw [ofRoom_eq_above]
  cases htier : (Operator.arithmetic op).tier with
  | product => exact hsequence
  | sum =>
    refine hsequence.bind (.map (fold_stop fun op' hop' => ?_))
    have hsum : op'.tier = .sum := by
      cases n with
      | zero => exact (h.tier_eq hop').2
      | succ n =>
        injection hop' with hop'
        injection hop' with _ hsymbol
        rw [Operator.tier_eq, ← hsymbol]
        exact (Operator.tier_eq (.arithmetic op)).symm.trans htier
    rw [hsum]
    exact fun h => nomatch h

/-- Each operator of a chain opens a level, and all are closed behind it. -/
theorem fold_reads_ones (op : Arithmetic) (hop : op.resultTy.isNumeric = true) {room n : Nat}
    (hroom : n ≤ room) {ws : List Piece} (hws : Trails op ws) {e : Expr}
    (he : e.mayBeNumeric = true) :
    Reads (foldAbove (beneath room) (Operator.arithmetic op).tier e) (onesPieces op n ++ ws)
      (withOnes op n e) ws := by
  induction n generalizing room e with
  | zero =>
    refine fold_stop fun op' hop' => ?_
    rw [(hws.tier_eq hop').1, (hws.tier_eq hop').2]
    exact fun h => nomatch h
  | succ n ih =>
    obtain ⟨below, rfl⟩ : ∃ below, room = below + 1 := ⟨room - 1, by omega⟩
    have hne : Operator.arithmetic op ≠ .arithmetic .equal := by
      intro heq
      cases heq
      cases hop
    have hchecked : checkedOperation (.arithmetic op) e one = .ok (.arithmetic op e one) := by
      have hone : one.mayBeNumeric = true := rfl
      simp [checkedOperation, checkedArithmetic, he, hone]
    have hmore : Reads ((ofRoom below).fold (Operator.arithmetic op).tier (.arithmetic op e one))
        (onesPieces op n ++ ws) (withOnes op n (.arithmetic op e one)) ws := by
      rw [ofRoom_eq_above]
      exact ih (by omega) hop
    exact fold_operation hne (operand_reads_one hws) hchecked hmore

/-- `1 * 1 * … + 1 + …` with so many products and sums. -/
def chainText (products sums : Nat) : List Char :=
  '1' :: (onesText .multiply products ++ (onesText .add sums ++ []))

def chainPieces (products sums : Nat) : List Piece :=
  (.integer, "1") :: (onesPieces .multiply products ++ (onesPieces .add sums ++ []))

def chain (products sums : Nat) : Expr := withOnes .add sums (withOnes .multiply products one)

theorem calculation_chain (products sums : Nat) : Calculation (chain products sums) :=
  calculation_withOnes (calculation_withOnes (.constant _))

theorem leftHeight_chain (products sums : Nat) :
    (chain products sums).leftHeight = products + sums := by
  have hone : one.leftHeight = 0 := rfl
  rw [chain, leftHeight_withOnes, leftHeight_withOnes, hone, Nat.zero_add]

theorem lexes_chainText (products sums : Nat) :
    Lexes (chainText products sums) (chainPieces products sums) := by
  have hsums := lexes_onesText .add sums .nil Lexes.nil
  have hspaced : Spaced (onesText .add sums ++ []) := spaced_onesText .nil
  exact lexes_one (spaced_onesText hspaced) (lexes_onesText .multiply products hspaced hsums)

/-- The products have all levels of nesting, and so have the sums behind them. -/
theorem sum_reads_chain {products sums : Nat} (hproducts : products ≤ maxNesting)
    (hsums : sums ≤ maxNesting) :
    Reads (sumAbove (beneath maxNesting)) (chainPieces products sums) (some (chain products sums))
      [] := by
  have hplus : Trails .multiply (onesPieces .add sums ++ []) := by
    cases sums with
    | zero => exact .nil
    | succ sums => exact fun w hw => ⟨rfl, (Option.mem_some.1 hw).symm⟩
  have hproduct : Reads (productAbove (beneath maxNesting)) (chainPieces products sums)
      (some (withOnes .multiply products one)) (onesPieces .add sums ++ []) :=
    (sequence_reads_one (stop_onesPieces hplus)).bind
      (.map (fold_reads_ones .multiply rfl hproducts hplus rfl))
  have hnumeric : (withOnes .multiply products one).mayBeNumeric = true :=
    mayBeNumeric_withOnes rfl products rfl
  exact hproduct.bind (.map (fold_reads_ones .add rfl hsums .nil hnumeric))

theorem first_chain {products sums : Nat} (hproducts : products ≤ maxNesting)
    (hsums : sums ≤ maxNesting) :
    Parse.run first (String.ofList (chainText products sums)) = .ok (some (chain products sums)) := by
  have hfacing : Facing (chainPieces products sums)
      (.ofSource (String.ofList (chainText products sums))) := by
    refine ⟨rfl, lexes_chainText products sums _ _ ?_⟩
    rw [String.toList_ofList]
  refine first_of_reads hfacing ?_ (statement_reads ?_ ?_ (sum_reads_chain hproducts hsums) nofun)
  · rw [String.toList_ofList]
    exact skipBlanks_of_toNat (by decide) (fun h => absurd h (by decide)) (by decide)
  · exact fun h => nomatch h
  · exact fun h => nomatch h

end Expr

namespace Program

open Offside.Expr

theorem evaluateFirst_of_first {host : Host} {source : String} {e : Expr}
    (h : Parse.run Parse.first source = .ok (some e)) :
    evaluateFirst host source = e.evaluate host := by
  rw [evaluateFirst, h]

/-- A calculation is evaluated without nesting too deeply if no path through it has more nodes than
evaluations may nest, and never if the path along the left operands has. -/
theorem evaluateFirst_calculation {host : Host} {source : String} {e : Expr}
    (h : Parse.run Parse.first source = .ok (some e)) (he : Calculation e) (env : Environment) :
    (e.height < maxEvaluations → ∀ env',
      evaluateFirst host source env ≠ .error (.runtime .nestedTooDeeply) env') ∧
    (maxEvaluations ≤ e.leftHeight →
      evaluateFirst host source env = .error (.runtime .nestedTooDeeply) env) := by
  rw [evaluateFirst_of_first h]
  exact ⟨fun hheight => he.staysWithin hheight env, fun hleft =>
    evaluateWithin_of_le_leftHeight hleft env⟩

set_option maxRecDepth 4000 in
theorem evaluateFirst_calculation_mixed :
    let source := "(1 + 2) * 3 < 10 && True"
    ∃ e, Parse.run Parse.first source = .ok (some e) ∧ Calculation e ∧ e.height < maxEvaluations ∧
      ∀ host env env', evaluateFirst host source env ≠
        .error (.runtime .nestedTooDeeply) env' := by
  intro source
  have hsource : source.toList = ['(', '1', ' ', '+', ' ', '2', ')', ' ', '*', ' ', '3', ' ', '<',
    ' ', '1', '0', ' ', '&', '&', ' ', 'T', 'r', 'u', 'e'] := by decide
  have h : Parse.run Parse.first source = .ok (some
      (operation (.connective .and)
        (operation (.comparison .less)
          (operation (.arithmetic .multiply)
            (operation (.arithmetic .add) (.constant (.int 1)) (.constant (.int 2)))
            (.constant (.int 3)))
          (.constant (.int 10)))
        (.constant (.bool true)))) := by
    cbv
  have he := Calculation.operation (.connective .and)
    (.operation (.comparison .less)
      (.operation (.arithmetic .multiply)
        (.operation (.arithmetic .add) (.constant (.int 1)) (.constant (.int 2)))
        (.constant (.int 3)))
      (.constant (.int 10)))
    (.constant (.bool true))
  exact ⟨_, h, he, by decide, fun host env => (evaluateFirst_calculation h he env).1 (by decide)⟩

/-- A chain of products before a chain of sums is accepted and evaluated too deeply. -/
theorem evaluateFirst_chain :
    let source := String.ofList (chainText 64 64)
    Parse.run Parse.first source = .ok (some (chain 64 64)) ∧ Calculation (chain 64 64) ∧
      ∀ host env, evaluateFirst host source env = .error (.runtime .nestedTooDeeply) env := by
  intro source
  have h : Parse.run Parse.first source = .ok (some (chain 64 64)) :=
    first_chain (Nat.le_refl _) (Nat.le_refl _)
  refine ⟨h, calculation_chain 64 64, fun host env => ?_⟩
  rw [evaluateFirst_of_first h]
  refine evaluateWithin_of_le_leftHeight ?_ env
  rw [leftHeight_chain]
  exact Nat.le_refl _

end Program

end Offside
