import Offside.Proofs.Parse.Simulation

namespace Offside

/-- Two tokens that differ at most in their places. -/
def Token.Same (t u : Token) : Prop := ∃ span, u = { t with span }

theorem Token.Same.kind_eq {t u : Token} (h : t.Same u) : u.kind = t.kind := by
  obtain ⟨span, rfl⟩ := h
  rfl

namespace TokenStream

/-- The same word comes, and what follows it is in `C`, or none comes, and what follows is in `S`.
Nothing is asked where the first one fails. -/
inductive Aligned (C S : TokenStream → TokenStream → Prop) : Step → Step → Prop
  | word {token token' : Token} {s t : TokenStream} (hsame : token.Same token')
      (hkind : token.kind ≠ .terminator) (h : C s t) :
      Aligned C S (.ok (some token) s) (.ok (some token') t)
  | stop {o o' : Option Token} {s t : TokenStream} (ho : Wordless o) (ho' : Wordless o')
      (h : S s t) : Aligned C S (.ok o s) (.ok o' t)
  | failure {e : Error} {s : TokenStream} {r : Step} : Aligned C S (.error e s) r

/-- Streams in `C` give the same words and stop together. They are in `S` where they have stopped,
and back in `C` where the next statement begins, unless the first one has none. -/
structure InStep (C S : TokenStream → TokenStream → Prop) : Prop where
  handed {s t : TokenStream} : C s t → s.pending = [] ∧ t.pending = []
  next {s t : TokenStream} : C s t → Aligned C S s.next t.next
  skip {s t : TokenStream} : C s t ∨ S s t → s.Blank ∨ C s.skipLines t.skipLines

variable {C S : TokenStream → TokenStream → Prop} {s t : TokenStream}

/-- Within a statement: the last word or stop may have been handed back. -/
inductive Reading (C S : TokenStream → TokenStream → Prop) : TokenStream → TokenStream → Prop
  | line {s t : TokenStream} (h : C s t) : Reading C S s t
  | back {s t : TokenStream} {token token' : Token} (h : C s t) (hsame : token.Same token')
      (hkind : token.kind ≠ .terminator) : Reading C S (s.push token) (t.push token')
  | stop {s s' t t' : TokenStream} {o o' : Option Token} (hs : s.next = .ok o s')
      (ho : Wordless o) (ht : t.next = .ok o' t') (ho' : Wordless o') (h : S s' t') :
      Reading C S s t

/-- Between two statements: a delimiter may have been handed back. -/
inductive Between (C S : TokenStream → TokenStream → Prop) : TokenStream → TokenStream → Prop
  | line {s t : TokenStream} (h : C s t ∨ S s t) : Between C S s t
  | back {s t : TokenStream} {token token' : Token} (h : C s t) (hsame : token.Same token')
      (hkind : token.kind = .delimiter) : Between C S (s.push token) (t.push token')

theorem Reading.next (hC : InStep C S) (h : Reading C S s t) : Aligned C S s.next t.next := by
  cases h with
  | line h => exact hC.next h
  | back h hsame hkind => exact .word hsame hkind h
  | stop hs ho ht ho' h =>
    rw [hs, ht]
    exact .stop ho ho' h

/-- The stop is left where it is. -/
theorem Reading.ofStop {s t s' t' : TokenStream} {o o' : Option Token} (hs : s.next = .ok o s')
    (ho : Wordless o) (ht : t.next = .ok o' t') (ho' : Wordless o') (h : S s' t') :
    Reading C S (o.elim s' s'.push) (o'.elim t' t'.push) := by
  have hback {u u' : TokenStream} {o : Option Token} (hu : u.next = .ok o u') :
      (o.elim u' u'.push).next = .ok o u' := by
    cases o with
    | none => exact next_of_none hu
    | some token => rfl
  exact .stop (hback hs) ho (hback ht) ho' h

theorem InStep.companions (hC : InStep C S) : Companions C (Reading C S) where
  behind := .line
  back span h hkind := .back h ⟨span, rfl⟩ hkind
  next {s t} h := by
    have halign := h.next hC
    generalize hs : s.next = r, ht : t.next = r' at halign
    cases halign with
    | word hsame hkind h =>
      obtain ⟨span, rfl⟩ := hsame
      exact .word hkind h
    | stop ho ho' h => exact .stop ho ho'.concludes (.ofStop hs ho ht ho' h)
    | failure => exact .failure

/-- A delimiter that was handed back stays before blank lines. -/
theorem skipLines_push {s : TokenStream} {token : Token} (hs : s.pending = [])
    (hkind : token.kind = .delimiter) : (s.push token).skipLines = s.skipLines.push token := by
  simp [TokenStream.skipLines, TokenStream.push, hs, hkind]

/-- Behind blank lines the next statement begins in both, unless none begins in the first one. -/
theorem Between.skip (hC : InStep C S) (h : Between C S s t) :
    Quiet s.skipLines.next ∨ Reading C S s.skipLines t.skipLines := by
  cases h with
  | line h =>
    obtain hblank | hline := hC.skip h
    · exact .inl (blank_iff_pause.1 hblank).quiet
    · exact .inr (.line hline)
  | back h hsame hkind =>
    obtain ⟨hs, ht⟩ := hC.handed h
    rw [skipLines_push hs hkind, skipLines_push ht (hsame.kind_eq.trans hkind)]
    obtain hblank | hline := hC.skip (.inl h)
    · exact .inl (.inr ⟨hkind, blank_iff_pause.1 hblank⟩)
    · exact .inr (.back hline hsame (hkind ▸ nofun))

end TokenStream

namespace Parse

open TokenStream

variable {α : Type} {C S : TokenStream → TokenStream → Prop}

/-- From states with tokens in `P` and the same context, `q` gives what `p` gives, and leaves tokens
in `Q` and the same context. -/
def Tracks (P Q : TokenStream → TokenStream → Prop) (p q : Parse α) : Prop :=
  ∀ s t a s', P s.tokens t.tokens → t.context = s.context → p s = .ok a s' →
    ∃ t', q t = .ok a t' ∧ Q s'.tokens t'.tokens ∧ t'.context = s'.context

/-- A simulation that allows for no failure. -/
theorem Simulates.tracks {P : TokenStream → TokenStream → Prop} {p q : Parse α}
    (h : Simulates P (fun _ => False) p q fun a b => b = a) : Tracks P P p q := by
  intro s t a s' hP hcontext hp
  have hq := h s t a s' hP hcontext hp
  cases hqt : q t with
  | error e t' =>
    rw [hqt] at hq
    exact hq.elim
  | ok b t' =>
    rw [hqt] at hq
    obtain ⟨rfl, hP, hcontext⟩ := hq
    exact ⟨t', rfl, hP, hcontext⟩

/-- A statement ends where no word comes, or before a delimiter. -/
theorem terminator_iff {s s' : ParseState} : terminator s = .ok () s' ↔
    ∃ o u, s.tokens.next = .ok o u ∧ (Wordless o ∧ s' = { s with tokens := u } ∨
      ∃ token, o = some token ∧ token.kind = .delimiter ∧
        s' = { s with tokens := u.push token }) := by
  constructor
  · intro h
    obtain ⟨o, u, ho, h⟩ := bind_ok h
    obtain ⟨v, hv, rfl⟩ := next_ok ho
    refine ⟨o, v, hv, ?_⟩
    cases o with
    | none =>
      cases h
      exact .inl ⟨wordless_none, rfl⟩
    | some token =>
      cases hkind : token.kind <;> simp only [hkind] at h <;> cases h
      · exact .inr ⟨token, rfl, hkind, rfl⟩
      · exact .inl ⟨fun _ ht => Option.mem_some.1 ht ▸ hkind, rfl⟩
  · rintro ⟨o, u, hu, ⟨ho, rfl⟩ | ⟨token, rfl, hkind, rfl⟩⟩
    · rw [terminator, bind_of_ok (next_of_tokens hu)]
      cases o with
      | none => rfl
      | some token =>
        have hkind : token.kind = .terminator := ho token rfl
        dsimp only
        rw [hkind]
        rfl
    · rw [terminator, bind_of_ok (next_of_tokens hu)]
      dsimp only
      rw [hkind]
      rfl

theorem terminator_tracks (hC : InStep C S) :
    Tracks (Reading C S) (Between C S) terminator terminator := by
  intro s t a s' hR hcontext hp
  obtain ⟨o, u, hu, hend⟩ := terminator_iff.1 hp
  have halign := hR.next hC
  rw [hu] at halign
  generalize ht : t.tokens.next = r at halign
  cases halign with
  | word hsame hkind h =>
    obtain ⟨ho, -⟩ | ⟨_, ⟨⟩, hdelimiter, rfl⟩ := hend
    · exact absurd (ho _ rfl) hkind
    · exact ⟨_, terminator_iff.2 ⟨_, _, ht, .inr ⟨_, rfl, hsame.kind_eq.trans hdelimiter, rfl⟩⟩,
        .back h hsame hdelimiter, hcontext⟩
  | stop ho ho' h =>
    obtain ⟨-, rfl⟩ | ⟨token, rfl, hdelimiter, -⟩ := hend
    · exact ⟨_, terminator_iff.2 ⟨_, _, ht, .inl ⟨ho', rfl⟩⟩, .line (.inr h), hcontext⟩
    · exact nomatch hdelimiter.symm.trans (ho token rfl)

section

variable {s t s' : ParseState} {st : Statement}

/-- Where a statement begins in the first stream it begins in the second one. -/
theorem lineStatement_tracks (hC : InStep C S) (h : Between C S s.tokens t.tokens)
    (hcontext : t.context = s.context) (hs : lineStatement s = .ok (some st) s') :
    ∃ t', lineStatement t = .ok (some st) t' ∧ Reading C S s'.tokens t'.tokens ∧
      t'.context = s'.context := by
  have hR := (h.skip hC).resolve_left (not_quiet_of_lineStatement hs)
  rw [lineStatement_eq] at hs ⊢
  have hstatement := Grammar.statement_simulates (E := fun _ => False) hC.companions
    (Nat.lt_irrefl Grammar.maxNesting)
  exact hstatement.tracks
    { s with tokens := s.tokens.skipLines } { t with tokens := t.tokens.skipLines } _ _ hR hcontext
    hs

theorem statement_tracks (hC : InStep C S) (h : Between C S s.tokens t.tokens)
    (hcontext : t.context = s.context) (hs : statement s = .ok (some st) s') :
    ∃ t', statement t = .ok (some st) t' ∧ Between C S s'.tokens t'.tokens ∧
      t'.context = s'.context := by
  obtain ⟨u, hu, hs'⟩ := statement_some.1 hs
  obtain ⟨v, hv, hR, hcontext⟩ := lineStatement_tracks hC h hcontext hu
  obtain ⟨t', ht', hB, hcontext⟩ := terminator_tracks hC u v () s' hR hcontext hs'
  exact ⟨t', statement_some.2 ⟨v, hv, ht'⟩, hB, hcontext⟩

/-- Statement by statement, whole rows are read from both streams. -/
theorem row_tracks (hC : InStep C S) {es : List Expr} (hrow : Row s es s')
    (h : Between C S s.tokens t.tokens) (hcontext : t.context = s.context) :
    ∃ t', Row t es t' ∧ Between C S s'.tokens t'.tokens ∧ t'.context = s'.context := by
  induction hrow generalizing t with
  | nil => exact ⟨t, .nil, h, hcontext⟩
  | declaration hs _ ih =>
    obtain ⟨u, hu, hB, hcontext⟩ := statement_tracks hC h hcontext hs
    obtain ⟨t', hrow, hB, hcontext⟩ := ih hB hcontext
    exact ⟨t', .declaration hu hrow, hB, hcontext⟩
  | expression hs _ ih =>
    obtain ⟨u, hu, hB, hcontext⟩ := statement_tracks hC h hcontext hs
    obtain ⟨t', hrow, hB, hcontext⟩ := ih hB hcontext
    exact ⟨t', .expression hu hrow, hB, hcontext⟩

end

end Parse

end Offside
