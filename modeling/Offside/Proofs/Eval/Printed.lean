import Mathlib
import Offside.Program
import Offside.Proofs.Eval.Frame

namespace Offside

open Eval

/-- What has been printed stays. -/
theorem Eval.traces_output : Traces fun _ env after => env.output <+: after.output where
  refl _ _ := List.prefix_rfl
  trans := List.IsPrefix.trans
  mono h _ := h
  identity _ := List.prefix_rfl
  native _ reply := by
    unfold Reply.outcome
    cases reply.result <;> exact List.prefix_append _ _
  define _ _ _ := List.prefix_rfl
  copy h := h

namespace Program

variable {host : Host} {xs ys : List Expr} {env after : Environment} {v : Value}

theorem evaluateAll_prints (host : Host) (es : List Expr) :
    Leads (fun env after => env.output <+: after.output) (evaluateAll host es) := by
  induction es with
  | nil => exact fun _ => List.prefix_rfl
  | cons e es ih =>
    have hfirst := traces_output.evaluateWithin host Expr.maxEvaluations e
    cases es with
    | nil => exact hfirst
    | cons e' es => exact @Traces.bind _ _ _ traces_output [] _ _ hfirst fun _ => ih

theorem evaluateAll_append (hne : ys ≠ []) (h : evaluateAll host xs env = .ok v after) :
    evaluateAll host (xs ++ ys) env = evaluateAll host ys after := by
  induction xs generalizing env with
  | nil => cases h
  | cons x xs ih =>
    cases xs with
    | nil =>
      obtain ⟨y, ys, rfl⟩ := List.exists_cons_of_ne_nil hne
      exact bind_of_ok h
    | cons x' xs =>
      change (x.evaluate host >>= fun _ => evaluateAll host (x' :: xs)) env = .ok v after at h
      cases hfirst : x.evaluate host env with
      | error e between =>
        rw [bind_of_error hfirst] at h
        cases h
      | ok w between =>
        rw [bind_of_ok hfirst] at h
        exact (bind_of_ok hfirst).trans (ih h)

/-- What the first statements have printed stays in front. -/
theorem output_evaluateAll_append (h : evaluateAll host xs env = .ok v after) (ys : List Expr) :
    after.output <+: (finalState (evaluateAll host (xs ++ ys) env)).output := by
  by_cases hne : ys = []
  · rw [hne, List.append_nil, h]
    exact List.prefix_rfl
  · rw [evaluateAll_append hne h]
    exact evaluateAll_prints host ys after

end Program

end Offside
