import Mathlib.Logic.Function.Iterate

namespace Offside

variable {ε σ α β : Type}

theorem bind_congr {p q : EStateM ε σ α} {f g : α → EStateM ε σ β} {s : σ} (hp : p s = q s)
    (h : ∀ a t, q s = .ok a t → f a t = g a t) : (p >>= f) s = (q >>= g) s := by
  show EStateM.bind p f s = EStateM.bind q g s
  unfold EStateM.bind
  rw [hp]
  cases hq : q s with
  | ok a t => exact h a t hq
  | error e t => rfl

theorem bind_eq {p q : EStateM ε σ α} {s t : σ} (h : p s = q t) (f : α → EStateM ε σ β) :
    (p >>= f) s = (q >>= f) t := by
  show EStateM.bind p f s = EStateM.bind q f t
  unfold EStateM.bind
  rw [h]

theorem bind_of_ok {p : EStateM ε σ α} {f : α → EStateM ε σ β} {s t : σ} {a : α}
    (h : p s = .ok a t) : (p >>= f) s = f a t := by
  show EStateM.bind p f s = f a t
  unfold EStateM.bind
  rw [h]

theorem bind_of_error {p : EStateM ε σ α} {f : α → EStateM ε σ β} {s t : σ} {e : ε}
    (h : p s = .error e t) : (p >>= f) s = .error e t := by
  show EStateM.bind p f s = .error e t
  unfold EStateM.bind
  rw [h]

theorem bind_ok {p : EStateM ε σ α} {f : α → EStateM ε σ β} {s t : σ} {b : β}
    (h : (p >>= f) s = .ok b t) : ∃ a u, p s = .ok a u ∧ f a u = .ok b t := by
  change EStateM.bind p f s = .ok b t at h
  unfold EStateM.bind at h
  cases hp : p s with
  | ok a u =>
    rw [hp] at h
    exact ⟨a, u, rfl, h⟩
  | error e u =>
    rw [hp] at h
    cases h

/-- The state that a computation leaves behind, whether it has failed or not. -/
def afterwards (p : EStateM ε σ α) (s : σ) : σ :=
  match p s with
  | .ok _ t => t
  | .error _ t => t

theorem afterwards_of_ok {p : EStateM ε σ α} {s t : σ} {a : α} (h : p s = .ok a t) :
    afterwards p s = t := by
  rw [afterwards, h]

/-- A computation is called again and again, also after failures. Calls that find something, or fail
on it, make the state smaller; where a call finds nothing all later ones do. -/
theorem exists_calls_end {p : EStateM ε σ (Option α)} (size : σ → Nat)
    (hless : ∀ s, (∀ t, p s ≠ .ok none t) → size (afterwards p s) < size s)
    (hlast : ∀ s t, p s = .ok none t → ∃ u, p t = .ok none u) (s : σ) :
    ∃ n ≤ size s, ∀ k,
      (k < n → ∀ t, p ((afterwards p)^[k] s) ≠ .ok none t) ∧
      (n ≤ k → p ((afterwards p)^[k] s) = .ok none ((afterwards p)^[k + 1] s)) := by
  induction hz : size s using Nat.strongRecOn generalizing s with
  | ind _ ih =>
    subst hz
    by_cases hnone : ∃ t, p s = .ok none t
    · have hstays (k : Nat) : ∃ t, p ((afterwards p)^[k] s) = .ok none t := by
        induction k with
        | zero => exact hnone
        | succ k ihk =>
          obtain ⟨t, ht⟩ := ihk
          rw [Function.iterate_succ_apply', afterwards_of_ok ht]
          exact hlast _ t ht
      refine ⟨0, Nat.zero_le _, fun k => ⟨fun hk => absurd hk (Nat.not_lt_zero k), fun _ => ?_⟩⟩
      obtain ⟨t, ht⟩ := hstays k
      rw [Function.iterate_succ_apply', afterwards_of_ok ht, ht]
    · have hfound : ∀ t, p s ≠ .ok none t := fun t ht => hnone ⟨t, ht⟩
      have hlt := hless s hfound
      obtain ⟨n, hn, hcalls⟩ := ih _ hlt (afterwards p s) rfl
      refine ⟨n + 1, Nat.succ_le_of_lt (Nat.lt_of_le_of_lt hn hlt), fun k => ?_⟩
      cases k with
      | zero => exact ⟨fun _ => hfound, fun h => absurd h (Nat.not_succ_le_zero n)⟩
      | succ k =>
        obtain ⟨hbefore, hafter⟩ := hcalls k
        exact ⟨fun hk => hbefore (Nat.lt_of_succ_lt_succ hk),
          fun hk => hafter (Nat.le_of_succ_le_succ hk)⟩

end Offside
