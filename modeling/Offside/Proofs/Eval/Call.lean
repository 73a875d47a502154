import Offside.Proofs.Bind
import Offside.Proofs.Eval.Rules

namespace Offside

open Eval

namespace Value

variable (host : Host) (run : Expr → Eval Value) (stack : Nat)

theorem callWithin_native (id : Nat) (name : String) (arguments : List Value) :
    (Value.native id name).callWithin host run stack arguments = ask host id name arguments := by
  rw [callWithin]

theorem callWithin_of_kind {v : Value} (hkind : v.kind ≠ "function") (arguments : List Value) :
    v.callWithin host run stack arguments = fail (.notFunction v.kind) := by
  rw [callWithin]
  · rintro id params body bound rfl
    exact hkind rfl
  · rintro id name rfl
    exact hkind rfl

section

variable {p : Eval Value} {params : List String} {arguments : List Value} {env after : Environment}

theorem inCopy_of_ok {v : Value} (h : p (env.withArguments params arguments) = .ok v after) :
    inCopy (params.zip arguments) p env = .ok v (after.withBindingsOf env) := by
  unfold Environment.withArguments at h
  unfold inCopy
  rw [h]
  rfl

theorem inCopy_of_error {cause : Error}
    (h : p (env.withArguments params arguments) = .error cause after) :
    inCopy (params.zip arguments) p env = .error cause (after.withBindingsOf env) := by
  unfold Environment.withArguments at h
  unfold inCopy
  rw [h]
  rfl

end

/-- What becomes of the result of a body that `missing` arguments were given to. -/
def passOn (host : Host) (run : Expr → Eval Value) (stack missing : Nat) (result : Value) :
    List Value → Eval Value
  | [] => return result
  | next :: others =>
    if missing = 0 then
      match stack with
      | 0 => throw .aborted
      | stack + 1 => result.callWithin host run stack (next :: others)
    else result.callWithin host run stack (next :: others)

theorem passOn_of_pos {rest : List Value} (hrest : 0 < rest.length) (missing : Nat)
    (result : Value) :
    passOn host run (stack + 1) missing result rest =
      result.callWithin host run (if missing = 0 then stack else stack + 1) rest := by
  cases rest with
  | nil => cases hrest
  | cons next others =>
    by_cases hmissing : missing = 0
    · rw [passOn, if_pos hmissing, if_pos hmissing]
    · rw [passOn, if_neg hmissing, if_neg hmissing]

/-- A function that waits for `missing` arguments. -/
theorem callWithin_function (i : Nat) {params : List String} (body : Expr) {bound : List Value}
    {missing : Nat} (hmissing : bound.length + missing = params.length) (arguments : List Value) :
    (Value.function i params body bound).callWithin host run stack arguments =
      if arguments.length < missing then newFunction params body (bound ++ arguments)
      else
        inCopy (params.zip (bound ++ arguments.take missing)) (run body) >>= fun result =>
          passOn host run stack missing result (arguments.drop missing) := by
  have hsub : params.length - bound.length = missing := by omega
  rw [callWithin, hsub, if_neg (by omega)]
  split
  · rfl
  · refine congrArg _ (funext fun result => ?_)
    generalize arguments.drop missing = rest
    cases rest with
    | nil => rfl
    | cons next others => cases stack <;> rfl

/-- A function with more bound arguments than parameters cannot be called. -/
theorem callWithin_overfull (i : Nat) {params : List String} (body : Expr) {bound : List Value}
    (hmany : params.length < bound.length) (arguments : List Value) :
    (Value.function i params body bound).callWithin host run stack arguments = throw .aborted := by
  rw [callWithin, if_pos hmany]

section

variable {host run} {run' : Expr → Eval Value} {stack missing : Nat} {result result' : Value}
  {rest rest' : List Value}

/-- What holds of giving the results back, of the end of the stack, and of calls with what is passed
on, which have fewer arguments or less stack. -/
theorem passOn_cases₂ {Q : Eval Value → Eval Value → Prop} (hlength : rest.length = rest'.length)
    (hall : rest.length = 0 → Q (pure result) (pure result'))
    (haborted : Q (throw .aborted) (throw .aborted))
    (hcalls : ∀ left, left ≤ stack → (missing = 0 → left < stack) → 0 < rest.length →
      Q (result.callWithin host run left rest) (result'.callWithin host run' left rest')) :
    Q (passOn host run stack missing result rest)
      (passOn host run' stack missing result' rest') := by
  by_cases hrest : rest.length = 0
  · obtain rfl := List.eq_nil_of_length_eq_zero hrest
    obtain rfl := List.eq_nil_of_length_eq_zero (hlength.symm.trans hrest)
    exact hall rfl
  · have hpos := Nat.pos_of_ne_zero hrest
    obtain ⟨next, others, rfl⟩ := List.exists_cons_of_length_pos hpos
    obtain ⟨next', others', rfl⟩ := List.exists_cons_of_length_pos (hlength ▸ hpos)
    unfold passOn
    by_cases hmissing : missing = 0
    · simp only [if_pos hmissing]
      cases stack with
      | zero => exact haborted
      | succ stack => exact hcalls stack (Nat.le_succ _) (fun _ => Nat.lt_succ_self _) hpos
    · simp only [if_neg hmissing]
      exact hcalls stack (Nat.le_refl _) (absurd · hmissing) hpos

theorem passOn_cases {Q : Eval Value → Prop} (hall : rest.length = 0 → Q (pure result))
    (haborted : Q (throw .aborted))
    (hcalls : ∀ left, left ≤ stack → (missing = 0 → left < stack) → 0 < rest.length →
      Q (result.callWithin host run left rest)) :
    Q (passOn host run stack missing result rest) :=
  @passOn_cases₂ host run run stack missing result result rest rest (fun p _ => Q p) rfl hall
    haborted hcalls

end

/-- Induction over calls. A function passes on fewer arguments than it got, or has less stack. -/
theorem call_induct {motive : Nat → Value → List Value → Prop}
    (overfull : ∀ stack i params body bound arguments, params.length < bound.length →
      motive stack (.function i params body bound) arguments)
    (function : ∀ stack i params body bound arguments missing,
      bound.length + missing = params.length →
      (∀ left v rest, rest.length + left < arguments.length + stack → motive left v rest) →
        motive stack (.function i params body bound) arguments)
    (native : ∀ stack i name arguments, motive stack (.native i name) arguments)
    (other : ∀ stack v arguments, v.kind ≠ "function" → motive stack v arguments)
    (stack : Nat) (v : Value) (arguments : List Value) : motive stack v arguments := by
  induction hmeasure : arguments.length + stack using Nat.strongRecOn
    generalizing stack v arguments with
  | ind measure ih =>
    cases v with
    | function i params body bound =>
      rcases Nat.lt_or_ge params.length bound.length with hmany | hroom
      · exact overfull _ _ _ _ _ _ hmany
      · obtain ⟨missing, hmissing⟩ := Nat.exists_eq_add_of_le hroom
        exact function _ _ _ _ _ _ missing hmissing.symm fun left w rest hless =>
          ih _ (hmeasure ▸ hless) _ _ _ rfl
    | native i name => exact native _ _ _ _
    | _ => exact other _ _ _ (by simp [kind])

end Value

namespace Expr

/-- What is done with the values of the parts of an expression. -/
def finish (host : Host) (run : Expr → Eval Value) : Expr → List Value → Eval Value
  | .constant value, [] => return .ofLiteral value
  | .name x _, [] => do
    match ← find? x with
    | some v => return v
    | none => fail (.undefinedName x)
  | .comparison op _ _, [a, b] => check ((op.apply a b).map .bool)
  | .connective op _ right, [a] => if op.isDecidedBy a then return a else run right
  | .arithmetic op _ _, [a, b] => check (op.apply a b)
  | .define x _ _, [v] => do
    Eval.define x v
    return v
  | .apply _ _, f :: vs => f.callWith host run vs
  | .member _ key, v :: keys =>
    match Key.ofExpr? key, keys with
    | some k, [] => check (v.member k)
    | none, [w] => check ((Key.ofValue w).bind v.member)
    | _, _ => throw .aborted
  | .lambda params body, [] => newFunction params body []
  | .function f _ _ _, [] => fail (.onlyCompiled f)
  | _, _ => throw .aborted

/-- An evaluation goes through the parts from left to right, and then does what is left to do. -/
theorem evaluateWithin_succ (host : Host) (room : Nat) (e : Expr) :
    e.evaluateWithin host (room + 1) =
      e.parts.mapM (evaluateWithin host room) >>= e.finish host (evaluateWithin host room) := by
  cases e with
  | comparison op left right =>
    simp only [evaluateWithin, parts, List.mapM_cons, List.mapM_nil, bind_assoc, pure_bind, finish]
    refine congrArg _ (funext fun a => congrArg _ (funext fun b => ?_))
    cases op.apply a b <;> rfl
  | connective op left right =>
    simp only [evaluateWithin, parts, List.mapM_cons, List.mapM_nil, bind_assoc, pure_bind, finish]
  | arithmetic op left right =>
    simp only [evaluateWithin, parts, List.mapM_cons, List.mapM_nil, bind_assoc, pure_bind, finish]
  | define x value t =>
    simp only [evaluateWithin, parts, List.mapM_cons, List.mapM_nil, bind_assoc, pure_bind, finish]
  | apply callee arguments =>
    simp only [evaluateWithin, parts, List.mapM_cons, bind_assoc, pure_bind, finish]
  | member target key =>
    cases hkey : Key.ofExpr? key with
    | some k =>
      simp only [evaluateWithin, parts, hkey, Option.isSome_some, if_true, List.mapM_cons,
        List.mapM_nil, bind_assoc, pure_bind, finish]
    | none =>
      simp only [evaluateWithin, parts, hkey, Option.isSome_none, Bool.false_eq_true, if_false,
        List.mapM_cons, List.mapM_nil, bind_assoc, pure_bind, finish]
      refine congrArg _ (funext fun v => congrArg _ (funext fun w => ?_))
      cases Key.ofValue w <;> rfl
  | _ => rfl

end Expr

end Offside
