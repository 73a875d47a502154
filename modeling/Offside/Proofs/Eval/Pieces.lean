import Mathlib
import Offside.Proofs.Eval.Adequacy
import Offside.Proofs.Eval.Identity

namespace Offside

open Eval

/-- A function is called with `xs`, and what it gives back with `ys`. -/
inductive CallsInTurn (calls : Value → List Value → Environment → Outcome Value → Prop) (f : Value)
    (xs ys : List Value) (env : Environment) : Outcome Value → Prop
  | fails {cause : Error} {after : Environment} (hfirst : calls f xs env (.error cause after)) :
      CallsInTurn calls f xs ys env (.error cause after)
  | passesOn {v : Value} {between : Environment} {r : Outcome Value}
      (hfirst : calls f xs env (.ok v between)) (hrest : calls v ys between r) :
      CallsInTurn calls f xs ys env r

section

variable {call : Request → Reply} {run : Expr → Environment → Outcome Value → Prop} {i j : Nat}
  {params : List String} {body : Expr} {bound xs ys arguments : List Value} {missing : Nat}
  {env : Environment} {r : Outcome Value}

/-- What can become of a call of a function that waits for `missing` arguments. -/
theorem calls_function_iff (hmissing : bound.length + missing = params.length) :
    Calls call run (.function i params body bound) arguments env r ↔
      arguments.length < missing ∧ r = newFunction params body (bound ++ arguments) env ∨
      (∃ cause after, Enters run params body bound arguments env missing (.error cause after) ∧
        r = .error cause (after.withBindingsOf env)) ∨
      ∃ v after, Enters run params body bound arguments env missing (.ok v after) ∧
        (arguments.length = missing ∧ r = .ok v (after.withBindingsOf env) ∨
          missing < arguments.length ∧
            Calls call run v (arguments.drop missing) (after.withBindingsOf env) r) := by
  have hcount {other : Nat} (h : bound.length + other = params.length) : other = missing :=
    Nat.add_left_cancel (h.trans hmissing.symm)
  constructor
  · intro h
    cases h with
    | waits h hfew =>
      cases hcount h
      exact .inl ⟨hfew, rfl⟩
    | fails h =>
      cases hcount h.missing_eq
      exact .inr (.inl ⟨_, _, h, rfl⟩)
    | returns h hall =>
      cases hcount h.missing_eq
      exact .inr (.inr ⟨_, _, h, .inl ⟨hall, rfl⟩⟩)
    | passesOn h hmany hrest =>
      cases hcount h.missing_eq
      exact .inr (.inr ⟨_, _, h, .inr ⟨hmany, hrest⟩⟩)
    | notFunction hkind => exact absurd rfl hkind
  · rintro (⟨hfew, rfl⟩ | ⟨cause, after, h, rfl⟩ | ⟨v, after, h, ⟨hall, rfl⟩ | ⟨hmany, hrest⟩⟩)
    · exact .waits hmissing hfew
    · exact .fails h
    · exact .returns h hall
    · exact .passesOn h hmany hrest

theorem calls_few_iff (hmissing : bound.length + missing = params.length)
    (hfew : arguments.length < missing) :
    Calls call run (.function i params body bound) arguments env r ↔
      r = newFunction params body (bound ++ arguments) env := by
  rw [calls_function_iff hmissing]
  constructor
  · rintro (⟨-, h⟩ | ⟨_, _, h, -⟩ | ⟨_, _, h, -⟩)
    · exact h
    · exact absurd h.enough hfew.not_ge
    · exact absurd h.enough hfew.not_ge
  · exact fun h => .inl ⟨hfew, h⟩

/-- A function that waits for just `xs` is done with them before it passes on the others. -/
theorem calls_append_iff (hmissing : bound.length + xs.length = params.length) (hys : ys ≠ []) :
    Calls call run (.function i params body bound) (xs ++ ys) env r ↔
      CallsInTurn (Calls call run) (.function i params body bound) xs ys env r := by
  have hmany : xs.length < (xs ++ ys).length := by
    rw [List.length_append]
    exact Nat.lt_add_of_pos_right (List.length_pos_iff.2 hys)
  have henters {q : Outcome Value} : Enters run params body bound (xs ++ ys) env xs.length q ↔
      Enters run params body bound xs env xs.length q :=
    ⟨fun h => ⟨hmissing, le_rfl, by simpa using h.body⟩,
      fun h => ⟨hmissing, hmany.le, by simpa using h.body⟩⟩
  rw [calls_function_iff hmissing, List.drop_left]
  constructor
  · rintro (⟨hfew, -⟩ | ⟨cause, after, h, rfl⟩ | ⟨v, after, h, ⟨hall, -⟩ | ⟨-, hrest⟩⟩)
    · exact absurd hfew hmany.not_gt
    · exact .fails (.fails (henters.1 h))
    · exact absurd hall hmany.ne'
    · exact .passesOn (.returns (henters.1 h) rfl) hrest
  · rintro (hfirst | ⟨hfirst, hrest⟩)
    · obtain ⟨-, ⟨⟩⟩ | ⟨cause, after, h, ⟨⟩⟩ | ⟨v, after, -, ⟨-, ⟨⟩⟩ | ⟨hless, -⟩⟩ :=
        (calls_function_iff hmissing).1 hfirst
      · exact .inr (.inl ⟨_, _, henters.2 h, rfl⟩)
      · exact absurd hless (Nat.lt_irrefl _)
    · obtain ⟨hfew, -⟩ | ⟨cause, after, -, ⟨⟩⟩ | ⟨v, after, h, ⟨-, ⟨⟩⟩ | ⟨hless, -⟩⟩ :=
        (calls_function_iff hmissing).1 hfirst
      · exact absurd hfew (Nat.lt_irrefl _)
      · exact .inr (.inr ⟨_, _, henters.2 h, .inr ⟨hmany, hrest⟩⟩)
      · exact absurd hless (Nat.lt_irrefl _)

/-- A function that waits for more than `xs` does not tell whether it got them before. -/
theorem calls_bound_iff (hmissing : bound.length + missing = params.length)
    (hxs : xs.length < missing) :
    Calls call run (.function i params body bound) (xs ++ ys) env r ↔
      Calls call run (.function j params body (bound ++ xs)) ys env r := by
  have hleft : (bound ++ xs).length + (missing - xs.length) = params.length := by
    rw [List.length_append]
    omega
  have htake : (xs ++ ys).take missing = xs ++ ys.take (missing - xs.length) := by
    rw [List.take_append, List.take_of_length_le hxs.le]
  have hdrop : (xs ++ ys).drop missing = ys.drop (missing - xs.length) := by
    rw [List.drop_append, List.drop_of_length_le hxs.le, List.nil_append]
  have henters {q : Outcome Value} : Enters run params body bound (xs ++ ys) env missing q ↔
      Enters run params body (bound ++ xs) ys env (missing - xs.length) q := by
    have hbody : bound ++ (xs ++ ys).take missing = bound ++ xs ++ ys.take (missing - xs.length) := by
      rw [htake, List.append_assoc]
    refine ⟨fun ⟨_, henough, h⟩ => ⟨hleft, ?_, hbody ▸ h⟩, fun ⟨_, henough, h⟩ =>
      ⟨hmissing, ?_, hbody.symm ▸ h⟩⟩
    · rw [List.length_append] at henough
      omega
    · rw [List.length_append]
      omega
  have hfew : (xs ++ ys).length < missing ↔ ys.length < missing - xs.length := by
    rw [List.length_append]
    omega
  have hall : (xs ++ ys).length = missing ↔ ys.length = missing - xs.length := by
    rw [List.length_append]
    omega
  have hmany : missing < (xs ++ ys).length ↔ missing - xs.length < ys.length := by
    rw [List.length_append]
    omega
  rw [calls_function_iff hmissing, calls_function_iff hleft, List.append_assoc, hdrop]
  simp only [henters, hfew, hall, hmany]

end

theorem Outcome.matches_self (r : Outcome Value) :
    Outcome.Matches (Environment.Matches id Eq Eq) (Value.Matches id Eq) r r := by
  have hover (v : Value) : v.Over (fun _ => True) fun _ => True :=
    .all (fun _ => trivial) (fun _ => trivial) v
  have hvalue (v : Value) : v.Matches id Eq v := (hover v).matches_self fun _ _ => rfl
  have hafter (env : Environment) : env.Matches id Eq Eq env :=
    Environment.Over.matches_self ⟨fun _ v _ => hover v, fun v _ => hover v⟩ (fun _ _ => rfl)
      fun _ => rfl
  cases r with
  | ok v env => exact .ok (hvalue v) (hafter env)
  | error cause env => exact .error cause (hafter env)

theorem Outcome.Matches.aborts_iff {E : Environment → Environment → Prop}
    {V : Value → Value → Prop} {r r' : Outcome Value} (h : Outcome.Matches E V r r') :
    r.Aborts ↔ r'.Aborts := by
  cases h <;> exact Iff.rfl

section

variable {host : Host} {ids : Nat → Nat} (hids : ids.Injective) {room : Nat} {v v' : Value}
  (hv : v.Matches ids Eq v') {vs vs' : List Value}
  (hvs : List.Forall₂ (Value.Matches ids Eq) vs vs') {env env' : Environment}
  (henv : env.Matches ids Eq Eq env')
include hids hv hvs henv

theorem Calls.exists_matches {r : Outcome Value}
    (h : Calls host.call (Evaluates host.call room) v vs env r) :
    ∃ r', Calls host.call (Evaluates host.call room) v' vs' env' r' ∧
      Outcome.Matches (Environment.Matches ids Eq Eq) (Value.Matches ids Eq) r r' := by
  obtain ⟨hr, hstack⟩ := calls_iff.1 h
  obtain ⟨stack, rfl⟩ := hstack.exists
  have hparallel := Value.callWithin_parallel hids hv hvs (host.withStack stack) room stack _ _ henv
  exact ⟨_, calls_of_callWith (mt hparallel.aborts_iff.2 hr), hparallel⟩

theorem Calls.exists_matched {r' : Outcome Value}
    (h : Calls host.call (Evaluates host.call room) v' vs' env' r') :
    ∃ r, Calls host.call (Evaluates host.call room) v vs env r ∧
      Outcome.Matches (Environment.Matches ids Eq Eq) (Value.Matches ids Eq) r r' := by
  obtain ⟨hr, hstack⟩ := calls_iff.1 h
  obtain ⟨stack, rfl⟩ := hstack.exists
  have hparallel := Value.callWithin_parallel hids hv hvs (host.withStack stack) room stack _ _ henv
  exact ⟨_, calls_of_callWith (mt hparallel.aborts_iff.1 hr), hparallel⟩

end

namespace Value

/-- A function that waits for at least as many arguments as `xs` has comes to the same if it is given
`xs` and then `ys`, or all of them at once, but for identities that are given out on the way. The
rules that say so are those of the calls that have stack enough. -/
theorem calls_append {host : Host} {i missing room : Nat} {params : List String} {body : Expr}
    {bound xs ys : List Value} {env : Environment}
    (hmissing : bound.length + missing = params.length) (hxs : xs.length ≤ missing) (hys : ys ≠ [])
    (hvalues : ∀ v ∈ .function i params body bound :: (xs ++ ys),
      v.Over (· < env.unused) fun _ => True)
    (henv : env.Over (· < env.unused) fun _ => True) :
    let f := Value.function i params body bound
    let calls := Calls host.call (Evaluates host.call room)
    (∀ v vs env r, calls v vs env r ↔ ComesTo (fun stack => v.callWith (host.withStack stack)
      (Expr.evaluateWithin (host.withStack stack) room) vs) env r) ∧
    ∃ ids : Nat → Nat, ids.Injective ∧ (∀ k, k < env.unused → ids k = k) ∧
      (∀ r, calls f (xs ++ ys) env r → ∃ r', CallsInTurn calls f xs ys env r' ∧
        Outcome.Matches (Environment.Matches ids Eq Eq) (Value.Matches ids Eq) r r') ∧
      ∀ r', CallsInTurn calls f xs ys env r' → ∃ r, calls f (xs ++ ys) env r ∧
        Outcome.Matches (Environment.Matches ids Eq Eq) (Value.Matches ids Eq) r r' := by
  intro f calls
  refine ⟨fun v vs env r => calls_iff, ?_⟩
  rw [List.forall_mem_cons] at hvalues
  obtain hfew | rfl := hxs.lt_or_eq
  · -- The function that keeps `xs` takes an identity that the other run does not give out.
    have hturn {r' : Outcome Value} : CallsInTurn calls f xs ys env r' ↔
        calls f (xs ++ ys) { env with unused := env.unused + 1 } r' := by
      refine Iff.trans ?_ (calls_bound_iff (j := env.unused) hmissing hfew).symm
      constructor
      · rintro (hfirst | ⟨hfirst, hrest⟩)
        · cases (calls_few_iff hmissing hfew).1 hfirst
        · cases (calls_few_iff hmissing hfew).1 hfirst
          exact hrest
      · exact .passesOn (.waits hmissing hfew)
    have hstay : ∀ k, k < env.unused → skip env.unused k = k := fun _ => skip_of_lt
    have hf : f.Matches (skip env.unused) Eq f := hvalues.1.matches_self hstay
    have hvs : List.Forall₂ (Value.Matches (skip env.unused) Eq) (xs ++ ys) (xs ++ ys) :=
      List.forall₂_same.2 fun v hv => (hvalues.2 v hv).matches_self hstay
    have hids := skip_injective env.unused
    have hafter := henv.matches_self hstay (skip_add env.unused)
    refine ⟨skip env.unused, hids, hstay, fun r h => ?_, fun r' h => ?_⟩
    · obtain ⟨r', h', hmatches⟩ := h.exists_matches hids hf hvs hafter
      exact ⟨r', hturn.2 h', hmatches⟩
    · exact (hturn.1 h).exists_matched hids hf hvs hafter
  · exact ⟨id, Function.injective_id, fun _ _ => rfl,
      fun r h => ⟨r, (calls_append_iff hmissing hys).1 h, r.matches_self⟩,
      fun r h => ⟨r, (calls_append_iff hmissing hys).2 h, r.matches_self⟩⟩

set_option maxRecDepth 4000 in
theorem calls_append_lambda :
    let body := Expr.lambda ["c"] (.name "c" none)
    let f := Value.function 0 ["a", "b"] body []
    let env : Environment := { unused := 1 }
    let calls := Calls Host.sample.call (Evaluates Host.sample.call Expr.maxEvaluations)
    (∀ v ∈ f :: ([.int 1] ++ [.int 2]), v.Over (· < env.unused) fun _ => True) ∧
      env.Over (· < env.unused) (fun _ => True) ∧
      calls f ([.int 1] ++ [.int 2]) env
        (.ok (.function 1 ["c"] (.name "c" none) []) { unused := 2 }) ∧
      CallsInTurn calls f [.int 1] [.int 2] env
        (.ok (.function 2 ["c"] (.name "c" none) []) { unused := 3 }) ∧
      (∀ v vs env r, calls v vs env r ↔ ComesTo (fun stack =>
        v.callWith (Host.sample.withStack stack)
          (Expr.evaluateWithin (Host.sample.withStack stack) Expr.maxEvaluations) vs) env r) ∧
      ∃ ids : Nat → Nat, ids.Injective ∧ (∀ k, k < env.unused → ids k = k) ∧
        (∀ r, calls f ([.int 1] ++ [.int 2]) env r →
          ∃ r', CallsInTurn calls f [.int 1] [.int 2] env r' ∧
            Outcome.Matches (Environment.Matches ids Eq Eq) (Value.Matches ids Eq) r r') ∧
        ∀ r', CallsInTurn calls f [.int 1] [.int 2] env r' →
          ∃ r, calls f ([.int 1] ++ [.int 2]) env r ∧
            Outcome.Matches (Environment.Matches ids Eq Eq) (Value.Matches ids Eq) r r' := by
  intro body f env calls
  have hf : f.Over (· < env.unused) fun _ => True :=
    .function Nat.zero_lt_one trivial fun v hv => absurd hv List.not_mem_nil
  have hvalues : ∀ v ∈ f :: ([.int 1] ++ [.int 2]), v.Over (· < env.unused) fun _ => True :=
    List.forall_mem_cons.2 ⟨hf, List.forall_mem_cons.2 ⟨.int 1, List.forall_mem_singleton.2 (.int 2)⟩⟩
  have henv : env.Over (· < env.unused) fun _ => True := ⟨nofun, nofun⟩
  have hbody (n : Nat) (between : Environment) (hn : between.unused = n) :
      Evaluates Host.sample.call Expr.maxEvaluations body between
        (.ok (.function n ["c"] (.name "c" none) []) { between with unused := n + 1 }) := by
    subst hn
    exact .whole .nil .lambda
  refine ⟨hvalues, henv, ?_, ?_, calls_append (rfl : _ + 2 = _) (by decide) (List.cons_ne_nil _ _)
    hvalues henv⟩
  · exact .returns ⟨rfl, le_rfl, hbody 1 _ rfl⟩ rfl
  · have hkept : calls f [.int 1] env
        (.ok (.function 1 ["a", "b"] body [.int 1]) { unused := 2 }) :=
      .waits (rfl : _ + 2 = _) (by decide)
    have hrest : calls (.function 1 ["a", "b"] body [.int 1]) [.int 2] { unused := 2 }
        (.ok (.function 2 ["c"] (.name "c" none) []) { unused := 3 }) :=
      .returns ⟨(rfl : _ + 1 = _), le_rfl, hbody 2 _ rfl⟩ rfl
    exact .passesOn hkept hrest

end Value

end Offside
