import Offside.Proofs.Parse.InStep
import Offside.Proofs.Token.Places

namespace Offside

open Lexeme

namespace Lexeme

/-- No line follows that is not blank. -/
def Last (text : List Char) : Prop :=
  ∀ c cs, text = c :: cs → isLineBreak c = true ∧ (nextLine 0 cs).2 = []

/-- A line ends here and the next one is not indented, or there is none. -/
def Stops (text : List Char) : Prop :=
  ∀ c cs, text = c :: cs → isLineBreak c = true ∧ ((nextLine 0 cs).1 = 0 ∨ (nextLine 0 cs).2 = [])

theorem Last.stops {text : List Char} (h : Last text) : Stops text :=
  fun c cs htext => (h c cs htext).imp_right .inr

theorem last_nil : Last [] := nofun

theorem Last.skipBlanks_eq {text : List Char} (h : Last text) : skipBlanks true text = [] := by
  cases text with
  | nil => rw [skipBlanks]
  | cons c cs =>
    obtain ⟨hc, hlast⟩ := h c cs rfl
    rw [skipBlanks_cons (.inr ⟨rfl, hc⟩), ← skipBlanks_nextLine 0, hlast, skipBlanks]

/-- Texts in `T` are read alike, as long as the first one lasts; what is left of the second one then is
in `E`. Lines of the widths in `levels` may be open for the first one only. -/
structure ReadAlike (levels : List Nat) (T : List Char → List Char → Prop) (E : List Char → Prop) :
    Prop where
  blanks {cs ds : List Char} : T cs ds → T (skipBlanks false cs) (skipBlanks false ds)
  lines {cs ds : List Char} : T cs ds →
    skipBlanks true cs = [] ∨ T (skipBlanks true cs) (skipBlanks true ds)
  used {cs ds : List Char} : T cs ds → skipBlanks true cs = [] → E (skipBlanks true ds)
  last {cs ds : List Char} : T cs ds → Last cs → Stops ds
  line {c : Char} {cs ds : List Char} : T (c :: cs) ds → isLineBreak c = true →
    (nextLine 0 cs).2 ≠ [] → ∃ d ds', ds = d :: ds' ∧ isLineBreak d = true ∧
      (nextLine 0 ds').1 = (nextLine 0 cs).1 ∧ T (nextLine 0 cs).2 (nextLine 0 ds').2
  deeper {c : Char} {cs ds : List Char} : T (c :: cs) ds → isLineBreak c = true →
    (nextLine 0 cs).2 ≠ [] → 0 < (nextLine 0 cs).1 → ∀ level ∈ levels, level < (nextLine 0 cs).1
  word {c : Char} {cs ds : List Char} {w : Word} : T (c :: cs) ds →
    skipBlanks false (c :: cs) = c :: cs → skipBlanks false ds = ds → isLineBreak c = false →
    read c cs = .ok w → ∃ ds' rest, ds = c :: ds' ∧ read c ds' = .ok ⟨w.kind, w.text, rest⟩ ∧ T w.rest rest

end Lexeme

namespace TokenStream

variable {levels : List Nat} {T : List Char → List Char → Prop} {E : List Char → Prop}
  {s t : TokenStream}

/-- Two streams over texts in `T`, with the same lines open, but for some of the outermost. -/
structure Abreast (levels : List Nat) (T : List Char → List Char → Prop) (s t : TokenStream) :
    Prop where
  pending : s.pending = [] ∧ t.pending = []
  indents : ∃ outer, (∀ level ∈ outer, level ∈ levels) ∧ s.indents = t.indents ++ outer
  texts : T s.rest t.rest

/-- Behind a stop one text may have been read further than the other, but no word further. -/
def PastStop (levels : List Nat) (T : List Char → List Char → Prop) (E : List Char → Prop)
    (s t : TokenStream) : Prop :=
  (s.Blank ∧ t.pending = [] ∧ E (Lexeme.skipBlanks true t.rest)) ∨
    Abreast levels T s.skipLines t.skipLines

theorem wordless_terminator (text : String) (span : Span) :
    Wordless (some ⟨.terminator, text, span⟩) := fun _ h => Option.mem_some.1 h ▸ rfl

/-- Where the words of a line stop, no word is read, whichever lines are open. -/
theorem read_stops (s : TokenStream) {text : List Char} (h : Stops text) :
    ∃ o s', s.read text = .ok o s' ∧ Wordless o ∧ s'.pending = s.pending ∧
      Lexeme.skipBlanks true s'.rest = Lexeme.skipBlanks true text := by
  have hend (s : TokenStream) : ∃ o s', s.read [] = .ok o s' ∧ Wordless o ∧
      s'.pending = s.pending ∧ Lexeme.skipBlanks true s'.rest = Lexeme.skipBlanks true [] := by
    rw [read]
    cases s.indents with
    | nil => exact ⟨_, _, rfl, wordless_none, rfl, rfl⟩
    | cons width outer => exact ⟨_, _, rfl, wordless_terminator _ _, rfl, rfl⟩
  cases text with
  | nil => exact hend s
  | cons c cs =>
    obtain ⟨hc, hline⟩ := h c cs rfl
    have hskip : Lexeme.skipBlanks true (c :: cs) = Lexeme.skipBlanks true cs :=
      skipBlanks_cons (.inr ⟨rfl, hc⟩)
    rw [read, if_pos hc]
    split
    · next hwidth =>
      have hlast := hline.resolve_left fun hzero => by omega
      rw [hskip, ← skipBlanks_nextLine 0, hlast, Lexeme.skipBlanks]
      exact hend { s with indents := _ }
    · exact ⟨_, _, rfl, wordless_terminator _ _, rfl, hskip.symm⟩

theorem pending_skipLines (h : s.pending = []) : s.skipLines.pending = [] := by
  simp [skipLines, h]

theorem Abreast.skipLines (hT : ReadAlike levels T E) (h : Abreast levels T s t) :
    s.Blank ∨ Abreast levels T s.skipLines t.skipLines := by
  obtain hblank | htexts := hT.lines h.texts
  · exact .inl ⟨hblank, pending_skipLines h.pending.1⟩
  · exact .inr ⟨⟨pending_skipLines h.pending.1, pending_skipLines h.pending.2⟩, h.indents, htexts⟩

/-- The outer lines do not decide whether a line goes on, as long as it is deeper. -/
theorem headD_append_lt {indents outer : List Nat} {width : Nat}
    (h : 0 < width → ∀ level ∈ outer, level < width) :
    (indents ++ outer).headD 0 < width ↔ indents.headD 0 < width := by
  cases indents with
  | cons level indents => exact Iff.rfl
  | nil =>
    cases outer with
    | nil => exact Iff.rfl
    | cons level outer =>
      show level < width ↔ 0 < width
      exact ⟨fun hlevel => by omega, fun hwidth => h hwidth level List.mem_cons_self⟩

/-- One line less is open. -/
theorem tail_append {levels indents outer : List Nat} (h : levels = indents ++ outer) :
    ∃ outer', levels.tail = indents.tail ++ outer' ∧ ∀ level ∈ outer', level ∈ outer := by
  subst h
  cases indents with
  | nil => exact ⟨outer.tail, rfl, fun _ => List.mem_of_mem_tail⟩
  | cons width indents => exact ⟨outer, rfl, fun _ => id⟩

theorem read_last (hT : ReadAlike levels T E) {text text' : List Char}
    (hpending : s.pending = [] ∧ t.pending = []) (htexts : T text text') (hlast : Last text) :
    Aligned (Abreast levels T) (PastStop levels T E) (s.read text) (t.read text') := by
  obtain ⟨o, s', hs, ho, hkept, hrest⟩ := s.read_stops hlast.stops
  obtain ⟨o', t', ht, ho', hkept', hrest'⟩ := t.read_stops (hT.last htexts hlast)
  rw [hs, ht]
  refine .stop ho ho' (.inl ⟨⟨?_, ?_⟩, ?_, ?_⟩)
  · exact hrest.trans hlast.skipBlanks_eq
  · show s'.pending.dropWhile _ = []
    rw [hkept, hpending.1]
    rfl
  · exact hkept'.trans hpending.2
  · rw [hrest']
    exact hT.used htexts hlast.skipBlanks_eq

theorem read_aligned (hT : ReadAlike levels T E) {text text' : List Char}
    (hpending : s.pending = [] ∧ t.pending = [])
    (hindents : ∃ outer, (∀ level ∈ outer, level ∈ levels) ∧ s.indents = t.indents ++ outer)
    (htexts : T text text') (hskip : Lexeme.skipBlanks false text = text)
    (hskip' : Lexeme.skipBlanks false text' = text') :
    Aligned (Abreast levels T) (PastStop levels T E) (s.read text) (t.read text') := by
  fun_induction read s text generalizing t text' with
  | case1 s h =>
    have hend := read_last (s := s) hT hpending htexts last_nil
    have hs : s.read [] = .ok none { s with rest := [] } := by rw [read, h]
    rwa [hs] at hend
  | case2 s width outer h =>
    have hend := read_last (s := s) hT hpending htexts last_nil
    rwa [read, h] at hend
  | case3 s c cs hc hw ih =>
    by_cases hlast : (nextLine 0 cs).2 = []
    · have hend := read_last (s := s) hT hpending htexts fun d ds h => by cases h; exact ⟨hc, hlast⟩
      rwa [read.eq_2 s c cs, if_pos hc, if_pos hw] at hend
    · obtain ⟨d, ds, rfl, hd, hwidth, hline⟩ := hT.line htexts hc hlast
      obtain ⟨outer, houter, hsame⟩ := hindents
      have hdeeper : t.indents.headD 0 < (nextLine 0 cs).1 := by
        rw [hsame] at hw
        refine (headD_append_lt fun hpos level hlevel => ?_).1 hw
        exact hT.deeper htexts hc hlast hpos level (houter level hlevel)
      rw [read.eq_2 t d ds, if_pos hd, hwidth, if_pos hdeeper]
      refine ih (t := { t with indents := _ }) hpending ⟨outer, houter, ?_⟩ (hT.blanks hline)
        (skipBlanks_idem false _) (skipBlanks_idem false _)
      exact congrArg (_ :: ·) hsame
  | case4 s c cs hc hw =>
    by_cases hlast : (nextLine 0 cs).2 = []
    · have hend := read_last (s := s) hT hpending htexts fun d ds h => by cases h; exact ⟨hc, hlast⟩
      rwa [read.eq_2 s c cs, if_pos hc, if_neg hw] at hend
    · have hlines := hT.lines htexts
      have hused := hT.used htexts
      obtain ⟨d, ds, rfl, hd, hwidth, hline⟩ := hT.line htexts hc hlast
      obtain ⟨outer, houter, hsame⟩ := hindents
      have hdeeper : ¬ t.indents.headD 0 < (nextLine 0 cs).1 := by
        rw [hsame] at hw
        refine fun hlt => hw ((headD_append_lt fun hpos level hlevel => ?_).2 hlt)
        exact hT.deeper htexts hc hlast hpos level (houter level hlevel)
      rw [skipBlanks_cons (.inr ⟨rfl, hc⟩), skipBlanks_cons (.inr ⟨rfl, hd⟩)] at hlines hused
      rw [read.eq_2 t d ds, if_pos hd, hwidth, if_neg hdeeper]
      refine .stop (wordless_terminator _ _) (wordless_terminator _ _) ?_
      obtain hblank | hlines := hlines
      · exact .inl ⟨⟨hblank, pending_skipLines hpending.1⟩, hpending.2, hused hblank⟩
      · refine .inr ⟨⟨pending_skipLines hpending.1, pending_skipLines hpending.2⟩, ?_, hlines⟩
        obtain ⟨outer', htail, houter'⟩ := tail_append hsame
        exact ⟨outer', fun level hlevel => houter level (houter' level hlevel), htail⟩
  | case5 s c cs hc word hr =>
    obtain ⟨ds, rest, rfl, hr', hrest⟩ := hT.word htexts hskip hskip' (Bool.eq_false_iff.2 hc) hr
    rw [read.eq_2 t c ds, if_neg hc, hr']
    obtain ⟨spelling, -, hword⟩ := isWord_of_read hr
    exact .word ⟨_, rfl⟩ hword.kind_ne_terminator ⟨hpending, hindents, hrest⟩
  | case6 s c cs hc rest hr => exact .failure

/-- Texts that are read alike make streams that are read alike. -/
theorem inStep_of_readAlike (hT : ReadAlike levels T E) :
    InStep (Abreast levels T) (PastStop levels T E) where
  handed h := h.pending
  next {s t} h := by
    rw [TokenStream.next, TokenStream.next, h.pending.1, h.pending.2]
    exact read_aligned hT h.pending h.indents (hT.blanks h.texts) (skipBlanks_idem false _)
      (skipBlanks_idem false _)
  skip h := by
    obtain h | ⟨hs, -⟩ | h := h
    · exact h.skipLines hT
    · exact .inl hs
    · exact .inr h

/-- Where nothing is left of the first text, the second one is in `E`. -/
theorem Between.used (hT : ReadAlike levels T E)
    (h : Between (Abreast levels T) (PastStop levels T E) s t) (hs : s.Blank) :
    t.skipLines.pending = [] ∧ E t.skipLines.rest := by
  cases h with
  | line h =>
    obtain h | ⟨-, ht, hE⟩ | h := h
    · exact ⟨pending_skipLines h.pending.2, hT.used h.texts hs.1⟩
    · exact ⟨pending_skipLines ht, hE⟩
    · have hE : E (Lexeme.skipBlanks true (Lexeme.skipBlanks true t.rest)) :=
        hT.used h.texts (by rw [hs.1, Lexeme.skipBlanks])
      rw [skipBlanks_idem] at hE
      exact ⟨h.pending.2, hE⟩
  | back h hsame hkind =>
    rw [Blank, skipLines_push h.pending.1 hkind] at hs
    cases hs.2

end TokenStream

namespace Parse

open TokenStream

/-- What is read from the first text is read from the second one, up to where `E` holds. -/
theorem row_readAlike {levels : List Nat} {T : List Char → List Char → Prop} {E : List Char → Prop}
    (hT : ReadAlike levels T E) {s s' t : ParseState} {es : List Expr} (hrow : Row s es s')
    (hblank : s'.tokens.Blank)
    (h : Between (Abreast levels T) (PastStop levels T E) s.tokens t.tokens)
    (hcontext : t.context = s.context) :
    ∃ t', Row t es t' ∧ t'.tokens.skipLines.pending = [] ∧ E t'.tokens.skipLines.rest := by
  obtain ⟨t', hrow', hbetween, -⟩ :=
    row_tracks (inStep_of_readAlike hT) hrow h hcontext
  exact ⟨t', hrow', hbetween.used hT hblank⟩

end Parse

end Offside
