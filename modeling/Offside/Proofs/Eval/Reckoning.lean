import Mathlib
import Offside.Host.Sample
import Offside.Proofs.Eval.Depth
import Offside.Proofs.Eval.Kinds

namespace Offside

namespace Value

theorem HasTy.number {v : Value} {t : Ty} (h : v.HasTy t) (ht : t.isNumeric = true) :
    v.HasTy .number := by
  cases h with
  | int n | intNumber n => exact .intNumber n
  | float x | floatNumber x => exact .floatNumber x
  | string s | bool b => cases ht

theorem HasTy.number?_ne_none {v : Value} (h : v.HasTy .number) : v.number? ≠ none := by
  cases h <;> exact nofun

end Value

namespace Arithmetic

variable {op : Arithmetic} {a b : Value}

theorem number_of_apply {v : Value} (hop : op.resultTy.isNumeric = true)
    (h : op.apply a b = .ok v) : v.HasTy .number := by
  obtain hty | ⟨-, z, rfl⟩ := hasTy_apply h
  · exact hty.number hop
  · exact .floatNumber z

theorem cause_of_apply_numbers (ha : a.HasTy .number) (hb : b.HasTy .number)
    {cause : RuntimeError} (h : op.apply a b = .error cause) :
    cause = .divisionByZero ∨ cause = .integerOverflow op :=
  (cause_of_apply h).resolve_right fun hnone =>
    hnone.2.elim ha.number?_ne_none hb.number?_ne_none

end Arithmetic

/-- A name is bound to a number. -/
def Environment.Numbers (env : Environment) : Expr → Prop
  | .name x _ => ∃ v, env.bindings.find? x = some v ∧ v.HasTy .number
  | _ => True

namespace Expr

/-- What can be made of numbers and of names of numbers by operators. -/
inductive Reckoning : Expr → Prop
  | int (n : Int64) : Reckoning (.constant (.int n))
  | float (x : Float) : Reckoning (.constant (.float x))
  | name (x : String) {t : Ty} (ht : t = .int ∨ t = .float ∨ t = .number) :
      Reckoning (.name x (some t))
  | arithmetic {op : Arithmetic} {left right e : Expr} (hleft : left.Reckoning)
      (hright : right.Reckoning) (he : checkedArithmetic op left right = .ok e) : Reckoning e

theorem mayBeNumeric_of_checked {op : Arithmetic} {left right e : Expr}
    (h : checkedArithmetic op left right = .ok e) :
    left.mayBeNumeric = true ∧ right.mayBeNumeric = true := by
  unfold checkedArithmetic at h
  split at h
  · next hnumeric => exact Bool.and_eq_true_iff.1 hnumeric
  · cases h

/-- Why an evaluation in so much room may fail. -/
def MayFail (room : Nat) (e : Expr) (cause : RuntimeError) : Prop :=
  cause = .divisionByZero ∨ (∃ op, cause = .integerOverflow op) ∨
    cause = .nestedTooDeeply ∧ room ≤ e.height

theorem MayFail.mono {room room' : Nat} {e e' : Expr} {cause : RuntimeError}
    (h : MayFail room e cause) (hle : room ≤ e.height → room' ≤ e'.height) :
    MayFail room' e' cause :=
  h.imp_right (Or.imp_right (And.imp_right hle))

section

variable {host : Host} {room : Nat} {env : Environment} {left right : Expr}

theorem evaluateWithin_name {x : String} {t : Option Ty} {v : Value}
    (hx : env.bindings.find? x = some v) :
    evaluateWithin host (room + 1) (.name x t) env = .ok v env := by
  have hfind : Eval.find? x env = .ok (some v) env := congrArg (EStateM.Result.ok · env) hx
  exact bind_of_ok hfind

theorem evaluateWithin_arithmetic {op : Arithmetic} {a b : Value}
    (ha : evaluateWithin host room left env = .ok a env)
    (hb : evaluateWithin host room right env = .ok b env) :
    evaluateWithin host (room + 1) (.arithmetic op left right) env =
      (Eval.check (op.apply a b) : Eval Value) env :=
  (bind_of_ok ha).trans (bind_of_ok hb)

end

/-- The value is a number where the static type is that of numbers. There is none only for a
division by zero, an overflow or a tree that is higher than the room. -/
theorem evaluateWithin_reckoning {e : Expr} (he : e.Reckoning) {env : Environment}
    (hnames : e.All env.Numbers) (host : Host) (room : Nat) :
    (∃ v, evaluateWithin host room e env = .ok v env ∧
        (e.mayBeNumeric = true → v.HasTy .number)) ∨
      ∃ cause, evaluateWithin host room e env = .error (.runtime cause) env ∧
        MayFail room e cause := by
  induction room generalizing e with
  | zero => exact .inr ⟨_, rfl, .inr (.inr ⟨rfl, Nat.zero_le _⟩)⟩
  | succ room ih =>
    cases he with
    | int n => exact .inl ⟨.int n, rfl, fun _ => .intNumber n⟩
    | float x => exact .inl ⟨.float x, rfl, fun _ => .floatNumber x⟩
    | name x ht =>
      obtain ⟨v, hx, hv⟩ := all_name.1 hnames
      exact .inl ⟨v, evaluateWithin_name hx, fun _ => hv⟩
    | @arithmetic op left right _ hleft hright hchecked =>
      cases eq_arithmetic_of_checked hchecked
      obtain ⟨hl, hr⟩ := mayBeNumeric_of_checked hchecked
      obtain ⟨-, hnl, hnr⟩ := (@all_operation _ (.arithmetic op) left right).1 hnames
      have hheight : (Expr.arithmetic op left right).height = max left.height right.height + 1 :=
        rfl
      obtain ⟨a, ha, hanumber⟩ | ⟨cause, hcause, hwhy⟩ := ih hleft hnl
      · obtain ⟨b, hb, hbnumber⟩ | ⟨cause, hcause, hwhy⟩ := ih hright hnr
        · rw [evaluateWithin_arithmetic ha hb]
          cases h : op.apply a b with
          | ok v =>
            exact .inl ⟨v, rfl, fun hop => Arithmetic.number_of_apply hop h⟩
          | error cause =>
            obtain hwhy | hwhy := Arithmetic.cause_of_apply_numbers (hanumber hl) (hbnumber hr) h
            · exact .inr ⟨cause, rfl, .inl hwhy⟩
            · exact .inr ⟨cause, rfl, .inr (.inl ⟨op, hwhy⟩)⟩
        · exact .inr ⟨cause, (bind_of_ok ha).trans (bind_of_error hcause),
            hwhy.mono fun hle => by omega⟩
      · exact .inr ⟨cause, bind_of_error hcause, hwhy.mono fun hle => by omega⟩

/-- `x * 2 - y`, where `x` counts as a float but is bound to an integer. -/
theorem evaluateWithin_reckoning_names :
    let product := Expr.arithmetic .multiply (.name "x" (some .float)) (.constant (.int 2))
    let e := Expr.arithmetic .subtract product (.name "y" (some .number))
    let env := { Environment.empty with
      bindings := (Bindings.empty.insert "x" (.int 8)).insert "y" (.int 3) }
    e.Reckoning ∧ e.All env.Numbers ∧
      evaluateWithin Host.sample maxEvaluations e env = .ok (.int 13) env ∧
      (Value.int 13).HasTy .number := by
  intro product e env
  have hproduct : checkedArithmetic .multiply (.name "x" (some .float)) (.constant (.int 2)) =
      .ok product := rfl
  have hdifference : checkedArithmetic .subtract product (.name "y" (some .number)) = .ok e := rfl
  have he : e.Reckoning :=
    .arithmetic (.arithmetic (.name "x" (.inr (.inl rfl))) (.int 2) hproduct)
      (.name "y" (.inr (.inr rfl))) hdifference
  have hx : ∃ v, env.bindings.find? "x" = some v ∧ v.HasTy .number := ⟨_, rfl, .intNumber 8⟩
  have hy : ∃ v, env.bindings.find? "y" = some v ∧ v.HasTy .number := ⟨_, rfl, .intNumber 3⟩
  have hnames : e.All env.Numbers := by
    simpa [e, product, Expr.All, nodes, Environment.Numbers] using ⟨hx, hy⟩
  have hvalue : evaluateWithin Host.sample maxEvaluations e env = .ok (.int 13) env := by cbv
  refine ⟨he, hnames, hvalue, ?_⟩
  obtain ⟨v, hv, hnumber⟩ | ⟨cause, hcause, -⟩ :=
    evaluateWithin_reckoning he hnames Host.sample maxEvaluations
  · cases hv.symm.trans hvalue
    exact hnumber rfl
  · cases hcause.symm.trans hvalue

end Expr

end Offside
