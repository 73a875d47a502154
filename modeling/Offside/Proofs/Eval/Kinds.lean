import Mathlib
import Offside.Eval.Evaluate
import Offside.Host.Sample
import Offside.Proofs.Bind
import Offside.Proofs.Expr.Nodes
import Offside.Proofs.Value.Exact

namespace Offside

/-- Integers and floats are numbers as well. -/
inductive Value.HasTy : Value → Ty → Prop
  | int (n : Int64) : HasTy (.int n) .int
  | float (x : Float) : HasTy (.float x) .float
  | intNumber (n : Int64) : HasTy (.int n) .number
  | floatNumber (x : Float) : HasTy (.float x) .number
  | string (s : String) : HasTy (.string s) .string
  | bool (b : Bool) : HasTy (.bool b) .bool

theorem Value.hasTy_ofLiteral (value : Literal) : (ofLiteral value).HasTy value.ty := by
  cases value with
  | int n => exact .int n
  | float x => exact .float x
  | string s => exact .string s
  | bool b => exact .bool b

namespace Arithmetic

open Value

variable {op : Arithmetic} {v : Value}

theorem int_of_onInts {a b : Int} (hop : op.Integral b) (h : op.onInts a b = .ok v) :
    ∃ n, v = .int n := by
  obtain ⟨-, hr⟩ | ⟨-, r, -, hr | ⟨-, hr⟩⟩ := onInts_cases a hop
  · cases hr.symm.trans h
  · cases hr.symm.trans h
  · cases hr.symm.trans h
    exact ⟨_, rfl⟩

/-- Of the operators on floats only the quotient that is rounded down gives integers. -/
theorem onFloats_kind {x y : Float} (h : op.onFloats x y = .ok v) :
    op = .floorDivide ∧ (∃ n, v = .int n) ∨ op ≠ .floorDivide ∧ ∃ z, v = .float z := by
  cases op with
  | floorDivide =>
    refine .inl ⟨rfl, ?_⟩
    simp only [onFloats] at h
    split at h
    · cases h
      exact ⟨_, rfl⟩
    · cases h
  | _ =>
    cases h
    exact .inr ⟨by decide, _, rfl⟩

theorem hasTy_of_int {n : Int64} (hdivide : op ≠ .divide) (hequal : op ≠ .equal) :
    (Value.int n).HasTy op.resultTy := by
  cases op with
  | divide => exact absurd rfl hdivide
  | equal => exact absurd rfl hequal
  | floorDivide | remainder => exact .int n
  | _ => exact .intNumber n

theorem hasTy_of_float {x : Float} (hfloor : op ≠ .floorDivide) (hequal : op ≠ .equal) :
    (Value.float x).HasTy op.resultTy ∨ op = .remainder ∧ ∃ z, Value.float x = .float z := by
  cases op with
  | floorDivide => exact absurd rfl hfloor
  | equal => exact absurd rfl hequal
  | remainder => exact .inr ⟨rfl, x, rfl⟩
  | divide => exact .inl (.float x)
  | _ => exact .inl (.floatNumber x)

theorem hasTy_onFloats {x y : Float} (hequal : op ≠ .equal) (h : op.onFloats x y = .ok v) :
    v.HasTy op.resultTy ∨ op = .remainder ∧ ∃ z, v = .float z := by
  obtain ⟨rfl, n, rfl⟩ | ⟨hfloor, z, rfl⟩ := onFloats_kind h
  · exact .inl (.int n)
  · exact hasTy_of_float hfloor hequal

theorem hasTy_onNumbers {a b : Number} (hequal : op ≠ .equal) (h : op.onNumbers a b = .ok v) :
    v.HasTy op.resultTy ∨ op = .remainder ∧ ∃ z, v = .float z := by
  unfold onNumbers at h
  split at h
  · split at h
    · exact hasTy_onFloats hequal h
    · next hints =>
      obtain ⟨n, rfl⟩ := int_of_onInts (integral_iff.2 ⟨hequal, hints⟩) h
      exact .inl (hasTy_of_int (fun hdivide => hints (.inl hdivide)) hequal)
  · exact hasTy_onFloats hequal h

/-- A result is of the type of its operator, unless it is the remainder of floats. -/
theorem hasTy_apply {a b : Value} (h : op.apply a b = .ok v) :
    v.HasTy op.resultTy ∨ op = .remainder ∧ ∃ z, v = .float z := by
  unfold apply at h
  split at h
  · split at h
    · next hequal =>
      cases h
      rw [hequal]
      exact .inl (.bool _)
    · next hequal => exact hasTy_onNumbers hequal h
  · cases h

end Arithmetic

namespace Expr

open Eval

/-- What can be made of constants by operators on numbers and by definitions. -/
inductive Computation : Expr → Prop
  | constant (value : Literal) : Computation (.constant value)
  | arithmetic {op : Arithmetic} {left right e : Expr} (hleft : left.Computation)
      (hright : right.Computation) (he : checkedArithmetic op left right = .ok e) : Computation e
  | define {x : String} {value e : Expr} {declared : Option Ty} (hvalue : value.Computation)
      (he : checkedDefine x value declared = .ok e) : Computation e

/-- The tree without the definitions around it. -/
def defined : Expr → Expr
  | .define _ value _ => value.defined
  | e => e

/-- A remainder, perhaps with names given to it. -/
def IsRemainder (e : Expr) : Prop := ∃ left right, e.defined = .arithmetic .remainder left right

theorem eq_arithmetic_of_checked {op : Arithmetic} {left right e : Expr}
    (h : checkedArithmetic op left right = .ok e) : e = .arithmetic op left right :=
  eq_operation_of_checked (show checkedOperation (.arithmetic op) left right = .ok e from h)

/-- A definition is of the type of its value, if that is known. -/
theorem eq_define_of_checked_of_ty {x : String} {value e : Expr} {declared : Option Ty} {t : Ty}
    (hvalue : value.ty = some t) (h : checkedDefine x value declared = .ok e) :
    e = .define x value (some t) := by
  rw [eq_define_of_checked h, hvalue, Option.some_or]

theorem Computation.exists_ty {e : Expr} (h : e.Computation) : ∃ t, e.ty = some t := by
  induction h with
  | constant value => exact ⟨value.ty, rfl⟩
  | @arithmetic op _ _ _ _ _ he =>
    rw [eq_arithmetic_of_checked he]
    exact ⟨op.resultTy, rfl⟩
  | define _ he ih =>
    obtain ⟨t, ht⟩ := ih
    rw [eq_define_of_checked_of_ty ht he]
    exact ⟨t, rfl⟩

theorem Computation.ty_of_isRemainder {e : Expr} (h : e.Computation) (hr : e.IsRemainder) :
    e.ty = some .int := by
  obtain ⟨left, right, hr⟩ := hr
  induction h with
  | constant value => cases hr
  | arithmetic _ _ he =>
    cases eq_arithmetic_of_checked he
    cases hr
    rfl
  | define hvalue he ih =>
    obtain ⟨t, ht⟩ := hvalue.exists_ty
    cases eq_define_of_checked_of_ty ht he
    exact ht.symm.trans (ih hr)

section

variable {host : Host} {room : Nat} {env after : Environment} {v : Value}

theorem apply_of_evaluate {op : Arithmetic} {left right : Expr}
    (h : evaluateWithin host (room + 1) (.arithmetic op left right) env = .ok v after) :
    ∃ a b, op.apply a b = .ok v := by
  obtain ⟨a, between, -, h⟩ := bind_ok h
  obtain ⟨b, last, -, h⟩ := bind_ok h
  refine ⟨a, b, ?_⟩
  cases hv : op.apply a b with
  | ok w =>
    rw [hv] at h
    cases h
    rfl
  | error cause =>
    rw [hv] at h
    cases h

theorem define_of_evaluate {x : String} {value : Expr} {t : Option Ty}
    (h : evaluateWithin host (room + 1) (.define x value t) env = .ok v after) :
    (∃ between, evaluateWithin host room value env = .ok v between) ∧
      after.bindings.find? x = some v := by
  obtain ⟨w, between, hw, h⟩ := bind_ok h
  cases h
  exact ⟨⟨between, hw⟩, Bindings.find?_insert_self _ _ _⟩

theorem Computation.hasTy_or_remainder {e : Expr} (he : e.Computation) {t : Ty}
    (ht : e.ty = some t) (hv : evaluateWithin host room e env = .ok v after) :
    v.HasTy t ∨ e.IsRemainder ∧ t = .int ∧ ∃ z, v = .float z := by
  induction he generalizing room t after with
  | constant value =>
    cases room with
    | zero => cases hv
    | succ room =>
      cases ht
      cases hv
      exact .inl (Value.hasTy_ofLiteral value)
  | arithmetic _ _ he =>
    cases eq_arithmetic_of_checked he
    cases room with
    | zero => cases hv
    | succ room =>
      cases ht
      obtain ⟨a, b, hab⟩ := apply_of_evaluate hv
      refine (Arithmetic.hasTy_apply hab).imp_right ?_
      rintro ⟨rfl, hz⟩
      exact ⟨⟨_, _, rfl⟩, rfl, hz⟩
  | define hvalue he ih =>
    obtain ⟨u, hu⟩ := hvalue.exists_ty
    cases eq_define_of_checked_of_ty hu he
    cases room with
    | zero => cases hv
    | succ room =>
      cases ht
      obtain ⟨between, hv⟩ := (define_of_evaluate hv).1
      exact ih hu hv

end

/-- The value of a computation is of its static type, except for remainders that are floats. A
definition stores that value, so a name declared as an integer may come to be bound to a float. -/
theorem evaluateWithin_hasTy {e : Expr} (he : e.Computation) {t : Ty} (ht : e.ty = some t)
    {host : Host} {room : Nat} {env after : Environment} {v : Value}
    (hv : evaluateWithin host room e env = .ok v after) :
    (v.HasTy t ↔ ¬ (e.IsRemainder ∧ ∃ z, v = .float z)) ∧
      ∀ x value u, e = .define x value u → after.bindings.find? x = some v := by
  have hcases := he.hasTy_or_remainder ht hv
  refine ⟨⟨fun hty => ?_, fun hno => ?_⟩, ?_⟩
  · rintro ⟨hremainder, z, rfl⟩
    cases ht.symm.trans (he.ty_of_isRemainder hremainder)
    cases hty
  · exact hcases.resolve_right fun h => hno ⟨h.1, h.2.2⟩
  · rintro x value u rfl
    cases room with
    | zero => cases hv
    | succ room => exact (define_of_evaluate hv).2

theorem evaluateWithin_hasTy_quotient :
    let quotient := Expr.arithmetic .floorDivide (.constant (.int 7)) (.constant (.int 2))
    let e := Expr.define "x" quotient (some .int)
    let after := { Environment.empty with bindings := Bindings.empty.insert "x" (.int 3) }
    e.Computation ∧ evaluateWithin Host.sample maxEvaluations e .empty = .ok (.int 3) after ∧
      (Value.int 3).HasTy .int ∧ after.bindings.find? "x" = some (.int 3) := by
  intro quotient e after
  have hchecked : checkedArithmetic .floorDivide (.constant (.int 7)) (.constant (.int 2)) =
      .ok quotient := rfl
  have haccepted : checkedDefine "x" quotient (some .int) = .ok e := rfl
  have he : e.Computation := .define (.arithmetic (.constant _) (.constant _) hchecked) haccepted
  have hvalue : evaluateWithin Host.sample maxEvaluations e .empty = .ok (.int 3) after := by cbv
  obtain ⟨hty, hstored⟩ := evaluateWithin_hasTy he rfl hvalue
  refine ⟨he, hvalue, hty.2 ?_, hstored "x" quotient (some .int) rfl⟩
  rintro ⟨-, z, hz⟩
  cases hz

/-- The remainder of a float is a float, and a name that is declared as an integer takes it. -/
theorem evaluateWithin_float_remainder :
    let remainder := Expr.arithmetic .remainder (.constant (.float 7.5)) (.constant (.int 2))
    let e := Expr.define "x" remainder (some .int)
    checkedArithmetic .remainder (.constant (.float 7.5)) (.constant (.int 2)) = .ok remainder ∧
      checkedDefine "x" remainder (some .int) = .ok e ∧ e.ty = some .int ∧
      ∃ v after, evaluateWithin Host.sample maxEvaluations e .empty = .ok v after ∧
        after.bindings.find? "x" = some v ∧ ¬ v.HasTy .int := by
  refine ⟨rfl, rfl, rfl, _, _, rfl, Bindings.find?_insert_self _ _ _, fun h => ?_⟩
  cases h

end Expr

end Offside
