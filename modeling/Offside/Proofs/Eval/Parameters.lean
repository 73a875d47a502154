import Mathlib
import Offside.Proofs.Eval.Identity

namespace Offside

variable {shared : String → Prop} {host : Host}

namespace Program

/-- In a program and an environment none of whose functions uses `p` as a name from outside, the
parameter `p` of any functions may be called `q` instead if nothing uses `q`: the outcome is the
same but for the code of these functions, which natives must not tell apart. -/
theorem evaluateAll_reparametrized {p q : String}
    (hhost : host.Respects id (Expr.Renamed (fun x => x ≠ p ∧ x ≠ q) (Expr.Reparametrized p q)
      (.same fun x => x ≠ p ∧ x ≠ q))) {es es' : List Expr}
    (hes : List.Forall₂ (Expr.Reparametrized p q) es es')
    (hsees : ∀ e ∈ es, e.All (Expr.Sees (· ≠ p)))
    (hfresh : ∀ e ∈ es, e.All fun n => ¬ n.Mentions q) {env : Environment}
    (henv : env.Over (fun _ => True) (·.All (Expr.Sees fun x => x ≠ p ∧ x ≠ q))) :
    Outcome.Matches (Environment.Matches id (Expr.Reparametrized p q) Eq)
      (Value.Matches id (Expr.Reparametrized p q)) (evaluateAll host es env)
      (evaluateAll host es' env) := by
  obtain ⟨hlength, hzip⟩ := List.forall₂_iff_zip.1 hes
  have hrenamed : List.Forall₂ (Expr.Renamed (fun x => x ≠ p ∧ x ≠ q) (Expr.Reparametrized p q) Eq)
      es es' := by
    refine List.forall₂_iff_zip.2 ⟨hlength, fun he => ?_⟩
    obtain ⟨hmem, -⟩ := List.of_mem_zip he
    exact (hzip he).renamed (hsees _ hmem) (hfresh _ hmem) fun _ _ => rfl
  have hself : env.Matches id (Expr.Renamed _ (Expr.Reparametrized p q) (.same _)) Eq env :=
    henv.matches (fun e _ => .same e) (fun _ _ => rfl) (fun _ _ => id) fun _ => rfl
  have hrun := Expr.Renamed.evaluateAll hhost Function.injective_id Names.exact_eq
    (fun _ _ => rfl) hrenamed env env hself
  exact hrun.mono (fun _ _ h => h.mono_code fun _ _ _ _ => Expr.Renamed.code_of_lambda)
    fun _ _ h => h.mono fun _ _ _ _ => Expr.Renamed.code_of_lambda

set_option maxRecDepth 4000 in
theorem evaluateAll_reparametrized_call :
    let successor := Expr.lambda ["y"] (.arithmetic .add (.name "y" none) (.constant (.int 1)))
    let g := fun x => Expr.lambda [x] (.apply (.name "h" none) [.name x none])
    let program := fun x =>
      [Expr.define "x" (.constant (.int 1)) none, .define "h" successor none,
        .define "g" (g x) none, .apply (.name "g" none) [.constant (.int 5)]]
    List.Forall₂ (Expr.Reparametrized "x" "z") (program "x") (program "z") ∧
      (∀ e ∈ program "x", e.All (Expr.Sees (· ≠ "x"))) ∧
      (∀ e ∈ program "x", e.All fun n => ¬ n.Mentions "z") ∧
      Environment.empty.Over (fun _ => True) (·.All (Expr.Sees fun x => x ≠ "x" ∧ x ≠ "z")) ∧
      (∃ after, evaluateAll Host.sample (program "x") .empty = .ok (.int 6) after) ∧
      Outcome.Matches (Environment.Matches id (Expr.Reparametrized "x" "z") Eq)
        (Value.Matches id (Expr.Reparametrized "x" "z"))
        (evaluateAll Host.sample (program "x") .empty)
        (evaluateAll Host.sample (program "z") .empty) := by
  intro successor g program
  have hes : List.Forall₂ (Expr.Reparametrized "x" "z") (program "x") (program "z") :=
    .cons (.same _) (.cons (.same _) (.cons (.define (.param (by decide))) (.cons (.same _) .nil)))
  have hsees : ∀ e ∈ program "x", e.All (Expr.Sees (· ≠ "x")) := by
    simp [program, successor, g, Expr.All, Expr.nodes, Expr.nodesOfAll, Expr.Sees, Expr.free,
      Expr.freeInAll]
  have hfresh : ∀ e ∈ program "x", e.All fun n => ¬ n.Mentions "z" := by
    simp [program, successor, g, Expr.All, Expr.nodes, Expr.nodesOfAll, Expr.Mentions]
  have henv : Environment.empty.Over (fun _ => True)
      (·.All (Expr.Sees fun x => x ≠ "x" ∧ x ≠ "z")) := Environment.over_empty _ _
  have hvalue : evaluateAll Host.sample (program "x") .empty = .ok (.int 6)
      { bindings := ⟨[("g", .function 1 ["x"] (.apply (.name "h" none) [.name "x" none]) []),
          ("h", .function 0 ["y"] (.arithmetic .add (.name "y" none) (.constant (.int 1))) []),
          ("x", .int 1)]⟩, unused := 2 } := by
    simp only [program, g, successor, evaluateAll]
    cbv
  exact ⟨hes, hsees, hfresh, henv, ⟨_, hvalue⟩,
    evaluateAll_reparametrized (Host.sample_respects _ _) hes hsees hfresh henv⟩

set_option maxRecDepth 4000 in
/-- A caller's parameter hides the global that its callee means, unless it is renamed. -/
theorem evaluateAll_sees_caller :
    let program := fun x =>
      [Expr.define "x" (.constant (.int 1)) none,
        .define "f" (.lambda ["a"] (.name "x" none)) none,
        .define "g" (.lambda [x] (.apply (.name "f" none) [.constant (.int 0)])) none,
        .apply (.name "g" none) [.constant (.int 5)]]
    List.Forall₂ (Expr.Reparametrized "x" "z") (program "x") (program "z") ∧
      (∀ e ∈ program "x", e.All fun n => ¬ n.Mentions "z") ∧
      (∃ after, evaluateAll Host.sample (program "x") .empty = .ok (.int 5) after) ∧
      (∃ after, evaluateAll Host.sample (program "z") .empty = .ok (.int 1) after) ∧
      ¬ Outcome.Matches (Environment.Matches id (Expr.Reparametrized "x" "z") Eq)
        (Value.Matches id (Expr.Reparametrized "x" "z"))
        (evaluateAll Host.sample (program "x") .empty)
        (evaluateAll Host.sample (program "z") .empty) := by
  intro program
  have hes : List.Forall₂ (Expr.Reparametrized "x" "z") (program "x") (program "z") :=
    .cons (.same _) (.cons (.same _) (.cons (.define (.param (by decide))) (.cons (.same _) .nil)))
  have hfresh : ∀ e ∈ program "x", e.All fun n => ¬ n.Mentions "z" := by
    simp [program, Expr.All, Expr.nodes, Expr.nodesOfAll, Expr.Mentions]
  have hvalue : ∀ x n, (x, n) ∈ [("x", 5), ("z", 1)] →
      evaluateAll Host.sample (program x) .empty = .ok (.int n)
        { bindings := ⟨[("g", .function 1 [x] (.apply (.name "f" none) [.constant (.int 0)]) []),
            ("f", .function 0 ["a"] (.name "x" none) []), ("x", .int 1)]⟩, unused := 2 } := by
    simp only [List.mem_cons, Prod.mk.injEq, List.not_mem_nil, or_false]
    simp only [program, evaluateAll]
    rintro x n (⟨rfl, rfl⟩ | ⟨rfl, rfl⟩) <;> cbv
  refine ⟨hes, hfresh, ⟨_, hvalue "x" 5 (by simp)⟩, ⟨_, hvalue "z" 1 (by simp)⟩, ?_⟩
  rw [hvalue "x" 5 (by simp), hvalue "z" 1 (by simp)]
  rintro (⟨⟨⟩, -⟩)

end Program

namespace Value

/-- The first run sees `v` under the name `a`. The second one does not, and has given out an identity
before. -/
theorem matches_insert {env : Environment} {a : String} {v : Value}
    (henv : env.Over (· < env.unused) (·.All (Expr.Sees shared)))
    (hshared : shared a → env.bindings.find? a = some v) :
    ({ env with bindings := env.bindings.insert a v } : Environment).Matches (skip env.unused)
      (Expr.Renamed shared (SameCode shared) (.same shared)) (.same shared)
      { env with unused := env.unused + 1 } := by
  have hself : env.Matches (skip env.unused) (Expr.Renamed shared (SameCode shared) (.same shared))
      (.same shared) { env with unused := env.unused + 1 } :=
    henv.matches SameCode.refl (fun _ => skip_of_lt) (fun _ _ => And.left) (skip_add env.unused)
  refine ⟨?_, fun _ _ hxy _ => hxy.1, hself.unused, hself.memory, hself.output⟩
  rintro x y ⟨rfl, hx⟩
  have hsame := hself.bindings x x ⟨rfl, hx⟩
  by_cases hxa : x = a
  · rw [hxa] at hsame hx ⊢
    rw [Bindings.find?_insert_self, ← hshared hx]
    exact hsame
  · rw [Bindings.find?_insert_of_ne _ _ hxa]
    exact hsame

section

variable (run : Expr → Eval Value) {a b : String} {e : Expr} {v w : Value}

theorem callWith_two (i : Nat) :
    (Value.function i [a, b] e []).callWith host run [v, w] =
      Eval.inCopy [(a, v), (b, w)] (run e) := by
  rw [callWith, callWithin_function host run host.stack i _ (rfl : _ + 2 = _), if_neg (by simp)]
  exact bind_pure _

theorem callWith_one (i : Nat) :
    (Value.function i [b] e []).callWith host run [w] = Eval.inCopy [(b, w)] (run e) := by
  rw [callWith, callWithin_function host run host.stack i _ (rfl : _ + 1 = _), if_neg (by simp)]
  exact bind_pure _

theorem callWith_surplus (i : Nat) :
    (Value.function i [a] e []).callWith host run [v, w] =
      Eval.inCopy [(a, v)] (run e) >>= fun result => result.callWith host run [w] := by
  rw [callWith, callWithin_function host run host.stack i _ (rfl : _ + 1 = _), if_neg (by simp)]
  rfl

end

/-- A function of two parameters and one that takes them one after the other come to the same, but
for identities that are given out on the way, if no function gets at the parameter `a` from outside
or `a` is bound to `v` anyway. -/
theorem callWith_curried
    (hhost : host.Preserves (Value.Over (fun _ => True) (·.All (Expr.Sees shared))))
    {a b : String} {e : Expr} {v w : Value} {env : Environment} (hshared : shared a → env.bindings.find? a = some v)
    (he : (Expr.lambda [b] e).All (Expr.Sees shared))
    (hw : w.Over (· < env.unused) (·.All (Expr.Sees shared)))
    (henv : env.Over (· < env.unused) (·.All (Expr.Sees shared))) (i j room : Nat) :
    ∃ ids : Nat → Nat, ids.Injective ∧ (∀ i, i < env.unused → ids i = i) ∧
      Outcome.Matches (Environment.Matches ids Eq Eq) (Value.Matches ids Eq)
        ((Value.function i [a, b] e []).callWith host (Expr.evaluateWithin host room) [v, w] env)
        ((Value.function j [a] (.lambda [b] e) []).callWith host (Expr.evaluateWithin host room)
          [v, w] env) := by
  have hcode : ∀ params body params' body',
      Expr.Renamed shared (SameCode shared) (.same shared) (.lambda params body)
        (.lambda params' body') → Expr.lambda params body = .lambda params' body' :=
    fun _ _ _ _ => Expr.eq_of_renamed_lambda
  have hself {ids : Nat → Nat} (hstay : ∀ i, i < env.unused → ids i = i) {unused : Nat}
      (hnext : ∀ k, ids (env.unused + k) = unused + k) :
      env.Matches ids (Expr.Renamed shared (SameCode shared) (.same shared)) Eq
        { env with unused } :=
    henv.matches SameCode.refl hstay (fun _ _ => id) hnext
  rw [callWith_two, callWith_surplus]
  cases room with
  | zero =>
    have hsame : env.Matches id _ Eq env := hself (fun _ _ => rfl) fun _ => rfl
    exact ⟨id, Function.injective_id, fun _ _ => rfl, .error _ (hsame.mono_code hcode)⟩
  | succ room =>
    -- The inner function takes an identity that the other run does not give out.
    have hfirst : Eval.inCopy [(a, v)] (Expr.evaluateWithin host (room + 1) (.lambda [b] e)) env =
        .ok (.function env.unused [b] e []) { env with unused := env.unused + 1 } := rfl
    rw [bind_of_ok hfirst, callWith_one]
    have hstay : ∀ i, i < env.unused → skip env.unused i = i := fun i => skip_of_lt
    have hkept : ∀ x, x ∈ [b] ∨ shared x → Names.bind (.same shared) b b x x := fun x hx =>
      Names.bindAll_self (hx.imp_right fun hx => ⟨rfl, hx⟩)
    have hbody : Expr.Renamed shared (SameCode shared) (.bind (.same shared) b b) e e :=
      .refl SameCode.refl (Expr.all_lambda.1 he).2 fun x hx => hkept x (he.self x hx)
    have hcopies := (matches_insert henv hshared).bind b b (hw.matches SameCode.refl hstay)
    have hids := skip_injective env.unused
    have hrun := hbody.evaluateWithin (hhost.respects hids) hids (room + 1)
      (Names.exact_same.bind b b) (fun x hx => hkept x (.inr hx)) _ _ hcopies
    refine ⟨skip env.unused, hids, hstay, .inCopy (hrun.mono (fun _ _ h => h)
      fun _ _ h => h.mono hcode) fun after after' hafter => ?_⟩
    have hrestored := (hself hstay (skip_add env.unused)).withBindingsOf hafter
    exact hrestored.mono_code hcode

set_option maxRecDepth 4000 in
theorem callWith_curried_product :
    let product := Expr.arithmetic .multiply (.name "b" none) (.name "k" none)
    let env : Environment := { bindings := Bindings.empty.insert "k" (.int 10) }
    let run := Expr.evaluateWithin Host.sample Expr.maxEvaluations
    (Expr.lambda ["b"] product).All (Expr.Sees (· ≠ "a")) ∧
      (Value.int 2).Over (· < env.unused) (·.All (Expr.Sees (· ≠ "a"))) ∧
      env.Over (· < env.unused) (·.All (Expr.Sees (· ≠ "a"))) ∧
      (Value.function 0 ["a", "b"] product []).callWith Host.sample run [.int 1, .int 2] env =
        .ok (.int 20) env ∧
      ∃ ids : Nat → Nat, ids.Injective ∧ (∀ i, i < env.unused → ids i = i) ∧
        Outcome.Matches (Environment.Matches ids Eq Eq) (Value.Matches ids Eq)
          ((Value.function 0 ["a", "b"] product []).callWith Host.sample run [.int 1, .int 2] env)
          ((Value.function 1 ["a"] (.lambda ["b"] product) []).callWith Host.sample run
            [.int 1, .int 2] env) := by
  intro product env run
  have hbody : (Expr.lambda ["b"] product).All (Expr.Sees (· ≠ "a")) := by
    simp [product, Expr.All, Expr.nodes, Expr.Sees, Expr.free]
  have henv : env.Over (· < env.unused) (·.All (Expr.Sees (· ≠ "a"))) := by
    refine ⟨fun x v hx => ?_, List.forall_mem_nil _⟩
    rw [Bindings.find?_insert] at hx
    split at hx
    · cases hx
      exact .int 10
    · cases hx
  have hvalue : (Value.function 0 ["a", "b"] product []).callWith Host.sample run
      [.int 1, .int 2] env = .ok (.int 20) env := by
    unfold product env run
    cbv
  exact ⟨hbody, .int 2, henv, hvalue, callWith_curried (Host.sample_preserves .int .float .string)
    (absurd rfl) hbody (.int 2) henv 0 1 Expr.maxEvaluations⟩

set_option maxRecDepth 4000 in
/-- The inner function of a curried one does not keep the parameter of the outer one. -/
theorem callWith_curried_forgets :
    let run := Expr.evaluateWithin Host.sample Expr.maxEvaluations
    let both := (Value.function 0 ["a", "b"] (.name "a" none) []).callWith Host.sample run
      [.int 1, .int 2] .empty
    let curried := (Value.function 0 ["a"] (.lambda ["b"] (.name "a" none)) []).callWith Host.sample
      run [.int 1, .int 2] .empty
    both = .ok (.int 1) .empty ∧
      curried = .error (.runtime (.undefinedName "a")) { Environment.empty with unused := 1 } ∧
      ∀ ids : Nat → Nat,
        ¬ Outcome.Matches (Environment.Matches ids Eq Eq) (Value.Matches ids Eq) both curried := by
  intro run both curried
  have hboth : both = .ok (.int 1) .empty := by
    unfold both run
    cbv
  have hcurried : curried =
      .error (.runtime (.undefinedName "a")) { Environment.empty with unused := 1 } := by
    unfold curried run
    cbv
  refine ⟨hboth, hcurried, fun ids h => ?_⟩
  rw [hboth, hcurried] at h
  cases h

end Value

end Offside
