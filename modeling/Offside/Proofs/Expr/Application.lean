import Offside.Expr.Basic
import Offside.Proofs.Ty

namespace Offside.Expr

open Ty

theorem chainTy_of_types {es : List Expr} {front : List Ty} {last : Ty}
    (h : es.map ty = (front ++ [last]).map some) : chainTy es = some (arrows front last) := by
  induction front generalizing es with
  | nil =>
    cases es with
    | nil => cases h
    | cons e es =>
      cases es with
      | nil => exact (List.cons.inj h).1
      | cons e' es => cases (List.cons.inj h).2
  | cons t front ih =>
    cases es with
    | nil => cases h
    | cons e es =>
      obtain ⟨he, hes⟩ := List.cons.inj h
      cases es with
      | nil => simp at hes
      | cons e' es =>
        rw [chainTy, he, ih hes]
        · rfl
        · exact List.cons_ne_nil e' es

theorem checkedApply_eq_ok_iff {callee : Expr} {arguments : List Expr} {t a : Ty}
    (hcallee : callee.ty = some t) (hchain : chainTy arguments = some a) (e : Expr) :
    checkedApply (callee :: arguments) (chainTy arguments) = .ok e ↔
      t.accepts a = true ∧ e = .apply callee arguments := by
  rw [checkedApply, hcallee, hchain]
  dsimp only
  rw [acceptsArguments]
  cases t.accepts a with
  | true => simp [eq_comm]
  | false => simp

/-- With all types known an application is accepted just when the types of its arguments begin those
of the parameters; a function as last argument counts as the chain of its own parameters and its
result. What is accepted has the type that the other parameters leave. -/
theorem checkedApply_iff_prefix {callee : Expr} {arguments : List Expr} {t : Ty}
    {front : List Ty} {last : Ty} (hcallee : callee.ty = some t)
    (harguments : arguments.map ty = (front ++ [last]).map some) :
    ((∃ e, checkedApply (callee :: arguments) (chainTy arguments) = .ok e) ↔
      front ++ last.inputs ++ [last.result] <+: t.inputs) ∧
    (last.isFunction = false →
      ((∃ e, checkedApply (callee :: arguments) (chainTy arguments) = .ok e) ↔
        front ++ [last] <+: t.inputs)) ∧
    ∀ e, checkedApply (callee :: arguments) (chainTy arguments) = .ok e →
      e = .apply callee arguments ∧
        e.ty = some (arrows (t.inputs.drop arguments.length) t.result) := by
  have hchain : chainTy arguments = some (arrows (front ++ last.inputs) last.result) := by
    rw [chainTy_of_types harguments, arrows_append, arrows_inputs]
  have haccepts := accepts_arrows t.isFunction_result last.isFunction_result t.inputs
    (front ++ last.inputs)
  rw [arrows_inputs] at haccepts
  have hok (e : Expr) := checkedApply_eq_ok_iff hcallee hchain e
  have hiff : (∃ e, checkedApply (callee :: arguments) (chainTy arguments) = .ok e) ↔
      front ++ last.inputs ++ [last.result] <+: t.inputs := by
    rw [← haccepts]
    exact ⟨fun ⟨e, he⟩ => ((hok e).1 he).1, fun h => ⟨_, (hok _).2 ⟨h, rfl⟩⟩⟩
  refine ⟨hiff, fun hlast => ?_, fun e he => ?_⟩
  · rw [hiff, inputs_of_not_isFunction hlast, result_of_not_isFunction hlast, List.append_nil]
  · obtain ⟨h, rfl⟩ := (hok e).1 he
    have hlength := (haccepts.1 h).length_le
    have hcount := congrArg List.length harguments
    simp only [List.length_map, List.length_append, List.length_singleton] at hlength hcount
    have hle : arguments.length ≤ t.inputs.length := by omega
    refine ⟨rfl, ?_⟩
    calc (Expr.apply callee arguments).ty
        = afterArguments arguments.length (some (arrows t.inputs t.result)) := by
          rw [ty, hcallee, arrows_inputs]
      _ = some (arrows (t.inputs.drop arguments.length) t.result) :=
          afterArguments_arrows _ _ _ hle

/-- A function of type `(Int → Int) → Int → List Bool → Bool` takes a function and a number. -/
theorem checkedApply_iff_prefix_higher_order :
    let endo := Ty.function .int .int
    let t := Ty.function endo (.function .int (.function (.list .bool) .bool))
    let callee := Expr.name "f" (some t)
    let arguments := [Expr.name "inc" (some endo), .constant (.int 1)]
    callee.ty = some t ∧
      arguments.map ty = ([endo] ++ [Ty.int]).map some ∧ Ty.int.isFunction = false ∧
      (∃ e, checkedApply (callee :: arguments) (chainTy arguments) = .ok e) ∧
      (Expr.apply callee arguments).ty = some (.function (.list .bool) .bool) := by
  intro endo t callee arguments
  have hcallee : callee.ty = some t := rfl
  have harguments : arguments.map ty = ([endo] ++ [Ty.int]).map some := rfl
  obtain ⟨-, hfirst, htype⟩ := checkedApply_iff_prefix hcallee harguments
  obtain ⟨e, he⟩ := (hfirst rfl).2 ⟨[.list .bool], rfl⟩
  obtain ⟨rfl, ht⟩ := htype e he
  exact ⟨hcallee, harguments, rfl, ⟨_, he⟩, ht⟩

/-- A function as last argument is mistaken for several arguments: a parameter of its type refuses
it, and two parameters of the types that it relates take it for both. -/
theorem checkedApply_function_argument :
    let endo := Ty.function .int .int
    let argument := Expr.name "g" (some endo)
    let takesFunction := Expr.name "f" (some (.function endo .int))
    let takesTwo := Expr.name "f" (some (.function .int endo))
    [endo] <+: (Ty.function endo .int).inputs ∧
      (∀ e, checkedApply [takesFunction, argument] (chainTy [argument]) ≠ .ok e) ∧
      ¬ [endo] <+: (Ty.function .int endo).inputs ∧
      checkedApply [takesTwo, argument] (chainTy [argument]) = .ok (.apply takesTwo [argument]) := by
  refine ⟨⟨[], rfl⟩, fun e he => ?_, fun h => ?_, rfl⟩
  · cases he
  · cases (List.cons_prefix_cons.1 h).1

end Offside.Expr
