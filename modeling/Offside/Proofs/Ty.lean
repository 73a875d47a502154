import Offside.Ty

namespace Offside.Ty

theorem fits_self (t : Ty) : t.fits t = true := by
  unfold fits
  split
  · next h => rw [h]; rfl
  · exact decide_eq_true rfl

/-- The types of the parameters that a function of type `t` takes one after another. -/
def inputs : Ty → List Ty
  | .function input output => input :: output.inputs
  | _ => []

/-- What is left of `t` behind all of its parameters. It is no function type. -/
def result : Ty → Ty
  | .function _ output => output.result
  | t => t

/-- The types along the arrows of `t`, down to what is left behind all of its parameters. -/
def spine (t : Ty) : List Ty := t.inputs ++ [t.result]

/-- `a → b → r` for the parameters `[a, b]`. -/
def arrows (inputs : List Ty) (result : Ty) : Ty := inputs.foldr .function result

@[simp] theorem arrows_nil (r : Ty) : arrows [] r = r := rfl

@[simp] theorem arrows_cons (t : Ty) (ts : List Ty) (r : Ty) :
    arrows (t :: ts) r = .function t (arrows ts r) := rfl

theorem arrows_append (ts us : List Ty) (r : Ty) :
    arrows (ts ++ us) r = arrows ts (arrows us r) :=
  List.foldr_append

theorem arrows_inputs (t : Ty) : arrows t.inputs t.result = t := by
  induction t with
  | function input output _ ih => rw [inputs, result, arrows_cons, ih]
  | _ => rfl

theorem isFunction_result (t : Ty) : t.result.isFunction = false := by
  induction t with
  | function input output _ ih => exact ih
  | _ => rfl

theorem inputs_of_not_isFunction {t : Ty} (h : t.isFunction = false) : t.inputs = [] := by
  cases t with
  | function input output => cases h
  | _ => rfl

theorem result_of_not_isFunction {t : Ty} (h : t.isFunction = false) : t.result = t := by
  cases t with
  | function input output => cases h
  | _ => rfl

theorem accepts_of_not_isFunction {t : Ty} (h : t.isFunction = false) (a : Ty) :
    t.accepts a = false := by
  cases t with
  | function input output => cases h
  | _ => rfl

theorem accepts_one (input output : Ty) {a : Ty} (h : a.isFunction = false) :
    (function input output).accepts a = decide (input = a) := by
  cases a with
  | function b c => cases h
  | _ => rfl

theorem isFunction_arrows {r : Ty} (h : r.isFunction = false) (ts : List Ty) :
    (arrows ts r).isFunction = !ts.isEmpty := by
  cases ts with
  | nil => exact h
  | cons t ts => rfl

/-- A function accepts a chain of types just when the chain begins that of its parameters, the end
of the chain included. -/
theorem accepts_arrows {r c : Ty} (hr : r.isFunction = false) (hc : c.isFunction = false)
    (ts as : List Ty) : (arrows ts r).accepts (arrows as c) = true ↔ as ++ [c] <+: ts := by
  induction ts generalizing as with
  | nil => simp [accepts_of_not_isFunction hr]
  | cons t ts ih =>
    cases as with
    | nil =>
      rw [arrows_cons, arrows_nil, accepts_one _ _ hc, List.nil_append, List.cons_prefix_cons]
      simp [eq_comm]
    | cons a as =>
      rw [arrows_cons, arrows_cons, accepts, List.cons_append, List.cons_prefix_cons, ← ih]
      have hempty : (arrows ts r).accepts (arrows as c) = true → ts ≠ [] := by
        rintro h rfl
        rw [arrows_nil, accepts_of_not_isFunction hr] at h
        cases h
      simp only [Bool.and_eq_true, decide_eq_true_eq, isFunction_arrows hr]
      constructor
      · rintro ⟨⟨rfl, -⟩, h⟩
        exact ⟨rfl, h⟩
      · rintro ⟨rfl, h⟩
        exact ⟨⟨rfl, by simpa using hempty h⟩, h⟩

/-- A function can be applied to arguments of a chained type just when the spine of the chain begins
the types of its parameters. -/
theorem accepts_iff_spine_prefix (f a : Ty) : f.accepts a = true ↔ a.spine <+: f.inputs := by
  have hchains := accepts_arrows f.isFunction_result a.isFunction_result f.inputs a.inputs
  rwa [arrows_inputs, arrows_inputs] at hchains

theorem afterArguments_arrows (ts : List Ty) (r : Ty) (n : Nat) (h : n ≤ ts.length) :
    afterArguments n (some (arrows ts r)) = some (arrows (ts.drop n) r) := by
  induction n generalizing ts with
  | zero => rfl
  | succ n ih =>
    cases ts with
    | nil => cases h
    | cons t ts => exact ih ts (Nat.le_of_succ_le_succ h)

end Offside.Ty
