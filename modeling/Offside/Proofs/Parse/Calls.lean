import Offside.Program
import Offside.Proofs.Bind
import Offside.Proofs.Parse.Progress

namespace Offside

namespace Parse

variable {α β : Type}

/-- The state that a parser leaves behind, whether it has failed or not. -/
def stateAfter (p : Parse α) (s : ParseState) : ParseState :=
  match p s with
  | .ok _ t => t
  | .error _ t => t

theorem stateAfter_of_ok {p : Parse α} {s t : ParseState} {a : α} (h : p s = .ok a t) :
    stateAfter p s = t := by
  rw [stateAfter, h]

theorem check_ok {r : Except Error α} {s t : ParseState} {a : α} (h : check r s = .ok a t) :
    r = .ok a := by
  cases r with
  | ok b =>
    cases h
    rfl
  | error e => cases h

theorem run_of_ok {p : Parse α} {source : String} {c : Context} {a : α} {s : ParseState}
    (h : p (.ofSource source c) = .ok a s) : run p source c = .ok a := by
  unfold run EStateM.run
  rw [h]

theorem run_of_error {p : Parse α} {source : String} {c : Context} {e : Error} {s : ParseState}
    (h : p (.ofSource source c) = .error e s) : run p source c = .error e := by
  unfold run EStateM.run
  rw [h]

theorem run_ok {p : Parse α} {source : String} {c : Context} {a : α}
    (h : run p source c = .ok a) : ∃ s, p (.ofSource source c) = .ok a s := by
  cases hp : p (.ofSource source c) with
  | ok b s =>
    rw [run_of_ok hp] at h
    cases h
    exact ⟨s, rfl⟩
  | error e s =>
    rw [run_of_error hp] at h
    cases h

/-- A loop that reads items as long as there are some comes to an end by itself: the bound on its
steps does not show. -/
theorem selfEnding_of_size_lt {item : Parse (Option α)}
    (hitem : ∀ s a t, item s = .ok (some a) t → t.tokens.size < s.tokens.size)
    {loop : Nat → Parse (List α)}
    (hloop : ∀ n, loop (n + 1) = do
      match ← item with
      | none => return []
      | some a => return a :: (← loop n)) : SelfEnding loop := by
  intro m n s hm hn
  induction m generalizing n s with
  | zero => omega
  | succ m ih =>
    cases n with
    | zero => omega
    | succ n =>
      rw [hloop, hloop]
      refine bind_congr rfl fun o t ho => ?_
      cases o with
      | none => rfl
      | some a =>
        have ht := hitem s a t ho
        exact bind_congr (ih _ _ (by omega) (by omega)) fun _ _ _ => rfl

theorem namesWithin_selfEnding : SelfEnding namesWithin :=
  selfEnding_of_size_lt (fun _ _ _ => name?_size_lt) fun _ =>
    congrArg (name? >>= ·) (funext fun o => by cases o <;> rfl)

theorem termsAbove_selfEnding (room : Nat) :
    SelfEnding (Grammar.termsAbove (Grammar.beneath room)) :=
  selfEnding_of_size_lt (fun _ _ _ => Grammar.termAbove_size_lt) fun _ =>
    congrArg (Grammar.termAbove _ >>= ·) (funext fun o => by cases o <;> rfl)

theorem skipLines_spent {n k : Nat} {E : Assertion} :
    Triple (Spent n k) skipLines (fun _ => Spent n k) E :=
  fun _ hs => progress.skipLines hs

theorem next_atEnd {n k : Nat} :
    Triple (Spent n k) next
      (fun o s => match o with
        | none => s.tokens.AtEnd
        | some _ => Spent n (k + 1) s)
      (Spent n (k + 1)) := by
  intro s hs
  unfold Spent at hs
  unfold next
  cases h : s.tokens.next with
  | ok o t =>
    cases o with
    | none => exact TokenStream.atEnd_iff_size.2 (TokenStream.next_none h)
    | some token =>
      have ht := TokenStream.next_some h
      show t.size + (k + 1) ≤ n
      omega
  | error e t =>
    have ht := TokenStream.next_error h
    show t.size + (k + 1) ≤ n
    omega

/-- With enough steps a statement is only missed where nothing is left. -/
theorem statementWithin_spec {steps n : Nat} (hn : n < steps) :
    Triple (Spent n 0) (statementWithin steps)
      (fun o s => match o with
        | none => s.tokens.AtEnd
        | some _ => Spent n 1 s)
      (Spent n 1) := by
  induction steps generalizing n with
  | zero => omega
  | succ steps ih =>
    refine skipLines_spent.bind fun _ => (Grammar.statement_spent n).bind fun o => ?_
    cases o with
    | some statement =>
      have hend := (Tracking.Holds.terminator (T := progress) 1) n
      refine Triple.bind (hend.post fun _ s ⟨k, hk, hs, _⟩ => hs.less hk) fun _ => .pure fun _ => id
    | none =>
      refine (next_atEnd (n := n) (k := 0)).bind fun o => ?_
      cases o with
      | none => exact .pure fun _ => id
      | some token =>
        show Triple (Spent n 1) _ _ (Spent n 1)
        dsimp only
        split
        · cases n with
          | zero => exact fun s hs => absurd hs (Nat.not_succ_le_zero _)
          | succ n =>
            refine (ih (Nat.lt_of_succ_lt_succ hn)).consequence (fun _ => Nat.le_of_succ_le_succ)
              (fun o t ht => ?_) fun _ => Nat.le_succ_of_le
            cases o with
            | none => exact ht
            | some statement => exact Nat.le_succ_of_le ht
        · exact .fail fun _ => id

theorem statementWithin_selfEnding : SelfEnding statementWithin := by
  intro m n s hm hn
  induction m generalizing n s with
  | zero => omega
  | succ m ih =>
    cases n with
    | zero => omega
    | succ n =>
      refine bind_congr rfl fun _ t ht => ?_
      have hskip := (skipLines_spent (E := fun _ => True)).ok (Nat.le_refl (s.tokens.size + 0)) ht
      refine bind_congr rfl fun o u hu => ?_
      cases o with
      | some found => rfl
      | none =>
        have hle := (Grammar.statement_spent t.tokens.size).ok (Nat.le_refl _) hu
        refine bind_congr rfl fun o v hv => ?_
        cases o with
        | none => rfl
        | some token =>
          have hlt := next_size_lt hv
          unfold Spent at hskip hle
          dsimp only
          split
          · exact ih _ _ (by omega) (by omega)
          · rfl

/-- A call finds a statement or fails, and then something is used up, or nothing is left. -/
theorem statement_spec (s : ParseState) :
    match statement s with
    | .ok none t => t.tokens.AtEnd
    | .ok (some _) t => t.tokens.size < s.tokens.size
    | .error _ t => t.tokens.size < s.tokens.size := by
  have h := statementWithin_spec (Nat.lt_succ_self s.tokens.size) s (Nat.le_refl _)
  show match statementWithin (s.tokens.size + 1) s with
    | .ok none t => t.tokens.AtEnd
    | .ok (some _) t => t.tokens.size < s.tokens.size
    | .error _ t => t.tokens.size < s.tokens.size
  cases hs : statementWithin (s.tokens.size + 1) s with
  | ok o t =>
    rw [hs] at h
    cases o with
    | none => exact h
    | some statement => exact h
  | error e t =>
    rw [hs] at h
    exact h

theorem atEnd_of_statement {s t : ParseState} (h : statement s = .ok none t) : t.tokens.AtEnd := by
  have hs := statement_spec s
  rwa [h] at hs

theorem size_lt_of_statement {s t : ParseState} {found : Statement}
    (h : statement s = .ok (some found) t) : t.tokens.size < s.tokens.size := by
  have hs := statement_spec s
  rwa [h] at hs

theorem statement_of_atEnd {s : ParseState} (h : s.tokens.AtEnd) :
    ∃ t, statement s = .ok none t ∧ t.tokens.AtEnd := by
  have hs := statement_spec s
  have hz := TokenStream.atEnd_iff_size.1 h
  cases hr : statement s with
  | ok o t =>
    rw [hr] at hs
    cases o with
    | none => exact ⟨t, rfl, hs⟩
    | some statement => exact absurd hs (by omega)
  | error e t =>
    rw [hr] at hs
    exact absurd hs (by simp only; omega)

end Parse

namespace Grammar

open Parse

theorem definition_of_headNames? (below : Option Grammar) {target : Expr} {x : String}
    {params : List String} (h : target.headNames? = some (x :: params)) :
    definition below target = functionDefinition below x params := by
  unfold definition
  rw [h]

/-- A definition has a head of names, a name, or nothing that can be defined. -/
theorem definition_cases (below : Option Grammar) (target : Expr) :
    (∃ x params, target.headNames? = some (x :: params) ∧
        definition below target = functionDefinition below x params) ∨
      (∃ x t, target = .name x t ∧ definition below target = variableDefinition below x) ∨
      definition below target = fail .assignedExpression := by
  unfold definition
  split
  · next x params hnames => exact .inl ⟨x, params, hnames, rfl⟩
  · next x t _ => exact .inr (.inl ⟨x, t, rfl, rfl⟩)
  · exact .inr (.inr rfl)

theorem resolveTy_of_some {x : String} {s : ParseState} {t : Ty}
    (h : (Ty.ofName? x).or (s.context.alias? x) = some t) : resolveTy x s = .ok t s := by
  refine (bind_of_ok (show (MonadState.get : Parse ParseState) s = .ok s s from rfl)).trans ?_
  rw [h]
  rfl

theorem resolveTy_of_none {x : String} {s : ParseState}
    (h : (Ty.ofName? x).or (s.context.alias? x) = none) :
    resolveTy x s = .error (.type (.unknownTy x)) s := by
  refine (bind_of_ok (show (MonadState.get : Parse ParseState) s = .ok s s from rfl)).trans ?_
  rw [h]
  rfl

theorem setValues_ok (typed : List (String × Ty)) (s : ParseState) :
    typed.forM (fun p => setValue p.1 p.2) s =
      .ok () { s with context := typed.foldl (fun c p => c.setValue p.1 p.2) s.context } := by
  induction typed generalizing s with
  | nil => rfl
  | cons p ps ih => exact (bind_of_ok rfl).trans (ih _)

end Grammar

/-- The state of a reader that has been called so often. A failed call does not stop it. -/
def ParseState.afterCalls (s : ParseState) : Nat → ParseState
  | 0 => s
  | n + 1 => (Parse.stateAfter Parse.statement s).afterCalls n

namespace Parse

theorem afterCalls_succ (s : ParseState) (n : Nat) :
    s.afterCalls (n + 1) = stateAfter statement (s.afterCalls n) := by
  induction n generalizing s with
  | zero => rfl
  | succ n ih => exact ih (stateAfter statement s)

/-- What a call keeps, also when it fails, is kept by any number of calls. -/
theorem Triple.afterCalls {I : Assertion} {Q : Option Statement → Assertion}
    (h : Triple I statement Q I) (hQ : ∀ o t, Q o t → I t) {s : ParseState} (hs : I s) (n : Nat) :
    I (s.afterCalls n) := by
  induction n with
  | zero => exact hs
  | succ n ih =>
    have hcall := h _ ih
    rw [afterCalls_succ, stateAfter]
    cases hr : statement (s.afterCalls n) with
    | ok o t =>
      rw [hr] at hcall
      exact hQ o t hcall
    | error e t =>
      rw [hr] at hcall
      exact hcall

theorem afterCalls_of_atEnd {s : ParseState} (h : s.tokens.AtEnd) (n : Nat) :
    (s.afterCalls n).tokens.AtEnd := by
  induction n with
  | zero => exact h
  | succ n ih =>
    obtain ⟨t, ht, hend⟩ := statement_of_atEnd ih
    rw [afterCalls_succ, stateAfter, ht]
    exact hend

theorem size_stateAfter_lt {s : ParseState} (h : ∀ t, statement s ≠ .ok none t) :
    (stateAfter statement s).tokens.size < s.tokens.size := by
  have hs := statement_spec s
  unfold stateAfter
  cases hr : statement s with
  | ok o t =>
    rw [hr] at hs
    cases o with
    | none => exact absurd hr (h t)
    | some found => exact hs
  | error e t =>
    rw [hr] at hs
    exact hs

theorem stateAfter_eq_afterwards (p : Parse α) (s : ParseState) :
    stateAfter p s = afterwards p s := by
  unfold stateAfter afterwards
  cases p s <;> rfl

theorem afterCalls_eq_iterate (s : ParseState) (n : Nat) :
    s.afterCalls n = (afterwards statement)^[n] s := by
  induction n with
  | zero => rfl
  | succ n ih =>
    rw [afterCalls_succ, ih, stateAfter_eq_afterwards, Function.iterate_succ_apply']

/-- From some call on, at the latest after as many as there are units to read, nothing is left. -/
theorem calls_end (s : ParseState) :
    ∃ n ≤ s.tokens.size, ∀ k,
      (k < n → ∀ t, statement (s.afterCalls k) ≠ .ok none t) ∧
      (n ≤ k → statement (s.afterCalls k) = .ok none (s.afterCalls (k + 1)) ∧
        (s.afterCalls (k + 1)).tokens.AtEnd) := by
  have hlast (s t : ParseState) (h : statement s = .ok none t) : ∃ u, statement t = .ok none u := by
    obtain ⟨u, hu, -⟩ := statement_of_atEnd (atEnd_of_statement h)
    exact ⟨u, hu⟩
  have hless (s : ParseState) (h : ∀ t, statement s ≠ .ok none t) :
      (afterwards statement s).tokens.size < s.tokens.size :=
    stateAfter_eq_afterwards statement s ▸ size_stateAfter_lt h
  obtain ⟨n, hn, hcalls⟩ := exists_calls_end (fun s => s.tokens.size) hless hlast s
  refine ⟨n, hn, fun k => ?_⟩
  rw [afterCalls_eq_iterate, afterCalls_eq_iterate]
  obtain ⟨hbefore, hafter⟩ := hcalls k
  exact ⟨hbefore, fun hk => ⟨hafter hk, atEnd_of_statement (hafter hk)⟩⟩

theorem expressionsWithin_cases {steps : Nat} {s t : ParseState} {es : List Expr}
    (h : expressionsWithin (steps + 1) s = .ok es t) :
    (∃ u, statement s = .ok none u ∧ es = []) ∨
      (∃ u, statement s = .ok (some .declaration) u ∧ expressionsWithin steps u = .ok es t) ∨
      ∃ u e rest, statement s = .ok (some (.expression e)) u ∧
        expressionsWithin steps u = .ok rest t ∧ es = e :: rest := by
  obtain ⟨o, u, hs, h⟩ := bind_ok h
  cases o with
  | none =>
    cases h
    exact .inl ⟨_, hs, rfl⟩
  | some found =>
    cases found with
    | declaration => exact .inr (.inl ⟨u, hs, h⟩)
    | expression e =>
      obtain ⟨rest, v, hrest, h⟩ := bind_ok h
      cases h
      exact .inr (.inr ⟨u, e, rest, hs, hrest, rfl⟩)

/-- Calling for one statement after another, also after failures, finds or refuses something at most
as often as the source has bytes. From then on every call tells that nothing is left. The loops of
a call end by themselves: more steps than they are given change nothing. -/
theorem calls_reach_end (source : String) (context : Context) :
    (∃ n ≤ byteLength source.toList, ∀ k,
      let s := (ParseState.ofSource source context).afterCalls k
      let t := (ParseState.ofSource source context).afterCalls (k + 1)
      (k < n → ∀ u, statement s ≠ .ok none u) ∧
      (n ≤ k → statement s = .ok none t ∧ t.tokens.AtEnd)) ∧
    (∀ steps s, s.tokens.size < steps →
      statementWithin steps s = statement s ∧ namesWithin steps s = names s ∧
      ∀ room, Grammar.termsAbove (Grammar.beneath room) steps s =
        (do Grammar.termsAbove (Grammar.beneath room) (← Parse.steps)) s) := by
  refine ⟨?_, fun steps s h => ?_⟩
  · obtain ⟨n, hn, hcalls⟩ := calls_end (ParseState.ofSource source context)
    refine ⟨n, ?_, hcalls⟩
    have hsize := length_le_byteLength source.toList
    simp only [ParseState.ofSource, TokenStream.ofSource, TokenStream.size, List.length_nil] at hn
    omega
  · have hsteps := Nat.lt_succ_self s.tokens.size
    refine ⟨statementWithin_selfEnding _ _ s h hsteps, namesWithin_selfEnding _ _ s h hsteps, ?_⟩
    exact fun room => termsAbove_selfEnding room _ _ s h hsteps

end Parse

end Offside
