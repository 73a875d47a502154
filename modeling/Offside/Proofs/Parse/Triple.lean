import Offside.Parse.State

namespace Offside.Parse

abbrev Assertion := ParseState → Prop

/-- From a state with `P`, the parser ends with a result and a state in `Q` or fails in `E`. -/
def Triple {α : Type} (P : Assertion) (p : Parse α) (Q : α → Assertion) (E : Assertion) : Prop :=
  ∀ s, P s → match p s with
    | .ok a t => Q a t
    | .error _ t => E t

namespace Triple

variable {α β : Type} {P P' : Assertion} {Q Q' : α → Assertion} {R : β → Assertion}
  {E E' : Assertion} {p : Parse α}

theorem ok (h : Triple P p Q E) {s t : ParseState} {a : α} (hs : P s) (hp : p s = .ok a t) :
    Q a t := by
  have hh := h s hs
  rw [hp] at hh
  exact hh

theorem consequence (h : Triple P p Q E) (hP : ∀ s, P' s → P s) (hQ : ∀ a s, Q a s → Q' a s)
    (hE : ∀ s, E s → E' s) : Triple P' p Q' E' := by
  intro s hs
  have hh := h s (hP s hs)
  cases hp : p s with
  | ok a t =>
    rw [hp] at hh
    exact hQ a t hh
  | error e t =>
    rw [hp] at hh
    exact hE t hh

theorem pre (h : Triple P p Q E) (hP : ∀ s, P' s → P s) : Triple P' p Q E :=
  h.consequence hP (fun _ _ => id) (fun _ => id)

theorem post (h : Triple P p Q E) (hQ : ∀ a s, Q a s → Q' a s) : Triple P p Q' E :=
  h.consequence (fun _ => id) hQ (fun _ => id)

theorem trivial : Triple P p (fun _ _ => True) (fun _ => True) := by
  intro s _
  cases p s <;> exact True.intro

theorem pure {a : α} (h : ∀ s, P s → Q a s) : Triple P (Pure.pure a) Q E := h

theorem throw {e : Error} (h : ∀ s, P s → E s) :
    Triple P (MonadExcept.throw e : Parse α) Q E := h

theorem fail {cause : ParseError} (h : ∀ s, P s → E s) :
    Triple P (Parse.fail cause : Parse α) Q E := h

/-- What does not depend on the state may be assumed from the outside. -/
theorem assume {φ : Prop} (h : φ → Triple P p Q E) : Triple (fun s => P s ∧ φ) p Q E :=
  fun s hs => h hs.2 s hs.1

theorem bind {f : α → Parse β} (hp : Triple P p Q E) (hf : ∀ a, Triple (Q a) (f a) R E) :
    Triple P (p >>= f) R E := by
  intro s hs
  have hh := hp s hs
  show match EStateM.bind p f s with
    | .ok b t => R b t
    | .error _ t => E t
  unfold EStateM.bind
  cases h : p s with
  | ok a t =>
    rw [h] at hh
    exact hf a t hh
  | error e t =>
    rw [h] at hh
    exact hh

theorem check {r : Except Error α} (hok : ∀ a, r = .ok a → ∀ s, P s → Q a s)
    (hE : ∀ s, P s → E s) : Triple P (Parse.check r) Q E := by
  cases r with
  | ok a => exact pure (hok a rfl)
  | error e => exact throw hE

theorem inScope {P₀ E₀ : Assertion} {Q₀ : α → Assertion} (h : Triple P p Q E)
    (hP : ∀ s, P₀ s → P { s with context := s.context.enter })
    (hQ : ∀ a s, Q a s → Q₀ a { s with context := s.context.exit })
    (hE : ∀ s, E s → E₀ { s with context := s.context.exit }) : Triple P₀ (inScope p) Q₀ E₀ := by
  intro s hs
  have hh := h _ (hP s hs)
  unfold Parse.inScope
  cases hp : p { s with context := s.context.enter } with
  | ok a t =>
    rw [hp] at hh
    exact hQ a t hh
  | error e t =>
    rw [hp] at hh
    exact hE t hh

/-- A parser may look at the state to decide what to do. -/
theorem get {f : ParseState → Parse α} (h : ∀ s, P s → Triple (· = s) (f s) Q E) :
    Triple P (MonadState.get >>= f) Q E := by
  intro s hs
  exact h s hs s rfl

end Triple

end Offside.Parse
