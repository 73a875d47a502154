import Mathlib
import Offside.Proofs.Eval.Counter
import Offside.Proofs.Eval.Identity

namespace Offside

namespace Eval

variable {α β : Type}

/-- The second computation does what the first one does, unless the first one nests too deeply. -/
def UpTo (p q : Eval α) : Prop :=
  ∀ env, (∃ after, p env = .error (.runtime .nestedTooDeeply) after) ∨ q env = p env

namespace UpTo

variable {p q : Eval α} {f g : α → Eval β}

theorem refl (p : Eval α) : UpTo p p := fun _ => .inr rfl

theorem fail (q : Eval α) : UpTo (Eval.fail .nestedTooDeeply) q := fun env => .inl ⟨env, rfl⟩

theorem bind (hp : UpTo p q) (hf : ∀ a, UpTo (f a) (g a)) :
    UpTo (p >>= f) (q >>= g) := by
  intro env
  obtain ⟨after, hrun⟩ | hsame := hp env
  · exact .inl ⟨after, bind_of_error hrun⟩
  · cases hrun : p env with
    | ok a between =>
      rw [hrun] at hsame
      rw [bind_of_ok hrun, bind_of_ok hsame]
      exact hf a between
    | error e after =>
      rw [hrun] at hsame
      rw [bind_of_error hrun, bind_of_error hsame]
      exact .inr rfl

theorem mapM {γ : Type} {f g : γ → Eval α} (hf : ∀ a, UpTo (f a) (g a)) (as : List γ) :
    UpTo (as.mapM f) (as.mapM g) := by
  induction as with
  | nil => exact refl _
  | cons a as ih =>
    rw [List.mapM_cons, List.mapM_cons]
    exact (hf a).bind fun b => ih.bind fun bs => refl _

theorem inCopy (h : UpTo p q) (entries : List (String × Value)) :
    UpTo (Eval.inCopy entries p) (Eval.inCopy entries q) := by
  intro env
  unfold Eval.inCopy
  obtain ⟨after, hrun⟩ | hsame := h { env with bindings := env.bindings.insertAll entries }
  · rw [hrun]
    exact .inl ⟨_, rfl⟩
  · rw [hsame]
    exact .inr rfl

/-- What the first computation comes to without too deep a nesting, the second one comes to. -/
theorem eq (h : UpTo p q) {env : Environment}
    (hends : ∀ after, p env ≠ .error (.runtime .nestedTooDeeply) after) : q env = p env :=
  (h env).resolve_left fun ⟨after, hrun⟩ => hends after hrun

end UpTo

end Eval

namespace Value

open Eval

variable {host : Host} {run run' : Expr → Eval Value}

/-- A call does the same with bodies that do the same up to too deep a nesting. -/
theorem callWithin_upTo (hrun : ∀ e, UpTo (run e) (run' e)) (stack : Nat) (v : Value)
    (arguments : List Value) :
    UpTo (v.callWithin host run stack arguments) (v.callWithin host run' stack arguments) := by
  induction stack, v, arguments using call_induct with
  | overfull stack i params body bound arguments hmany =>
    rw [callWithin_overfull host run stack i body hmany,
      callWithin_overfull host run' stack i body hmany]
    exact .refl _
  | function stack i params body bound arguments missing hmissing ih =>
    rw [callWithin_function host run stack i body hmissing,
      callWithin_function host run' stack i body hmissing]
    split
    · exact .refl _
    · next hmany =>
      refine ((hrun body).inCopy _).bind fun result => passOn_cases₂ rfl (fun _ => .refl _)
        (.refl _) fun left hleft hless hpos => ih _ _ _ ?_
      rw [List.length_drop] at hpos ⊢
      omega
  | native stack i name arguments =>
    rw [callWithin_native, callWithin_native]
    exact .refl _
  | other stack v arguments hkind =>
    rw [callWithin_of_kind host run stack hkind, callWithin_of_kind host run' stack hkind]
    exact .refl _

end Value

namespace Expr

open Eval

/-- More room is no matter up to the end of the room. -/
theorem evaluateWithin_upTo (host : Host) {room room' : Nat} (hroom : room ≤ room') (e : Expr) :
    UpTo (e.evaluateWithin host room) (e.evaluateWithin host room') := by
  induction room generalizing room' e with
  | zero => exact .fail _
  | succ room ih =>
    obtain ⟨more, rfl⟩ : ∃ more, room' = more + 1 := ⟨room' - 1, by omega⟩
    have hdeeper (e : Expr) :
        UpTo (e.evaluateWithin host room) (e.evaluateWithin host more) :=
      ih (Nat.le_of_succ_le_succ hroom) e
    cases e with
    | constant value => exact .refl _
    | name x t => exact .refl _
    | comparison op left right =>
      exact (hdeeper left).bind fun a => (hdeeper right).bind fun b => .refl _
    | connective op left right =>
      refine (hdeeper left).bind fun a => ?_
      split
      · exact .refl _
      · exact hdeeper right
    | arithmetic op left right =>
      exact (hdeeper left).bind fun a => (hdeeper right).bind fun b => .refl _
    | define x value t => exact (hdeeper value).bind fun v => .refl _
    | apply callee arguments =>
      exact (hdeeper callee).bind fun f => (UpTo.mapM hdeeper arguments).bind fun vs =>
        f.callWithin_upTo hdeeper host.stack vs
    | member target key =>
      refine (hdeeper target).bind fun v => ?_
      cases Key.ofExpr? key with
      | some k => exact .refl _
      | none => exact (hdeeper key).bind fun w => .refl _
    | lambda params body => exact .refl _
    | function f params body t => exact .refl _

/-- An evaluation that does not come to the end of its room has the same outcome in more room. From
bindings that differ in identities it has the same one but for identities. -/
theorem evaluateWithin_roomier {host : Host} {room room' : Nat} (hroom : room ≤ room') {e : Expr}
    {env : Environment}
    (hends : ∀ after, e.evaluateWithin host room env ≠ .error (.runtime .nestedTooDeeply) after) :
    e.evaluateWithin host room' env = e.evaluateWithin host room env ∧
      ∀ ids : Nat → Nat, ids.Injective → ∀ env' : Environment,
        env.Matches ids Eq Eq env' →
          Outcome.Matches (Environment.Matches ids Eq Eq) (Value.Matches ids Eq)
            (e.evaluateWithin host room env) (e.evaluateWithin host room' env') := by
  have hsame := (e.evaluateWithin_upTo host hroom).eq hends
  refine ⟨hsame, fun ids hids env' henv => ?_⟩
  rw [← hsame]
  exact e.evaluateWithin_parallel hids Names.exact_eq (fun _ => rfl) host room' env env' henv

end Expr

namespace CountingEval

/-- An evaluation with `depth` others open that does not nest too deeply comes to the same with fewer
of them open: the same value or error, bindings and printed lines. From bindings that differ in
identities it comes to the same but for identities. -/
theorem evaluate_shallower {host : Host} {spare depth depth' : Nat} (hdepth : depth' ≤ depth)
    {e : Expr} {env : Environment}
    (hends : ∀ after, (evaluate host (Expr.maxEvaluations + spare) e).atDepth depth env ≠
      .error (.runtime .nestedTooDeeply) after) :
    let run := (evaluate host (Expr.maxEvaluations + spare) e).atDepth
    run depth = e.evaluateWithin host (Expr.maxEvaluations - depth) ∧
      run depth' env = run depth env ∧
      ∀ ids : Nat → Nat, ids.Injective → ∀ env' : Environment,
        env.Matches ids Eq Eq env' →
          Outcome.Matches (Environment.Matches ids Eq Eq) (Value.Matches ids Eq) (run depth env)
            (run depth' env') := by
  intro run
  have hrun (d : Nat) : run d = e.evaluateWithin host (Expr.maxEvaluations - d) :=
    (evaluate_mirrors host (by omega) e).atDepth_eq
  have hends : ∀ after, run depth env ≠ .error (.runtime .nestedTooDeeply) after := hends
  rw [hrun] at hends ⊢
  rw [hrun]
  exact ⟨rfl, Expr.evaluateWithin_roomier (Nat.sub_le_sub_left hdepth _) hends⟩

set_option maxRecDepth 4000 in
theorem evaluate_shallower_call :
    let e := Expr.apply (.lambda ["x"] (.lambda ["y"] (.name "x" none))) [.constant (.int 1)]
    let run := (evaluate Host.sample (Expr.maxEvaluations + 0) e).atDepth
    (0 ≤ 126 ∧ ∀ after, run 126 .empty ≠ .error (.runtime .nestedTooDeeply) after) ∧
      run 126 .empty = .ok (.function 1 ["y"] (.name "x" none) []) { unused := 2 } ∧
      run 127 .empty = .error (.runtime .nestedTooDeeply) .empty ∧
      run 0 .empty = run 126 .empty ∧
      Outcome.Matches (Environment.Matches (· + 7) Eq Eq) (Value.Matches (· + 7) Eq)
        (run 126 .empty) (run 0 { unused := 7 }) := by
  intro e run
  have hvalue : run 126 .empty =
      .ok (.function 1 ["y"] (.name "x" none) []) { unused := 2 } := by
    unfold run e
    cbv
  have hcutOff : run 127 .empty = .error (.runtime .nestedTooDeeply) .empty := by
    unfold run e
    cbv
  have hends : ∀ after, run 126 .empty ≠ .error (.runtime .nestedTooDeeply) after := by
    rw [hvalue]
    rintro after ⟨⟩
  have hids : (fun i : Nat => i + 7).Injective := fun _ _ => Nat.add_right_cancel
  have henv : Environment.empty.Matches (· + 7) Eq Eq { unused := 7 } :=
    ⟨fun _ _ _ => .none, fun _ _ h _ => h, fun k => by show 0 + k + 7 = 7 + k; omega, .nil, rfl⟩
  obtain ⟨-, hsame, hmatches⟩ := evaluate_shallower (Nat.zero_le 126) hends
  exact ⟨⟨Nat.zero_le _, hends⟩, hvalue, hcutOff, hsame,
    hmatches _ hids _ henv⟩

end CountingEval

end Offside
