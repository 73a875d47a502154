import Mathlib
import Offside.Proofs.Bind
import Offside.Proofs.Token.Cover
import Offside.Proofs.Token.Cursor

namespace Offside

open Lexeme

namespace Cursor

section

variable {c : Cursor}

/-- One cursor comes to stand as another one does, without ending a call before. -/
inductive Reaches : Cursor → Cursor → Prop
  | refl {c : Cursor} : Reaches c c
  | next {c d : Cursor} (hover : c.isOver = false) (h : Reaches c.step d) : Reaches c d

theorem Reaches.trans {d e : Cursor} (h : Reaches c d) (h' : Reaches d e) : Reaches c e := by
  induction h with
  | refl => exact h'
  | next hover _ ih => exact .next hover (ih h')

theorem Reaches.eq_of_isOver {d : Cursor} (h : Reaches c d) (hover : c.isOver = true) : c = d := by
  cases h with
  | refl => rfl
  | next hnot => exact absurd (hnot.symm.trans hover) Bool.false_ne_true

theorem Reaches.of_step {d : Cursor} (h : Reaches c d) (hover : c.isOver = false)
    (hend : d.isOver = true) : Reaches c.step d := by
  cases h with
  | refl => exact absurd (hover.symm.trans hend) Bool.false_ne_true
  | next _ h => exact h

/-- The cursor where such bytes are still ahead. -/
def before (c : Cursor) (rest : List Char) (task : Task) : Cursor :=
  { c with index := c.source.length - rest.length, task }

section

variable {cs rest : List Char} {task : Task}

theorem left_before (h : rest <:+ c.source) : (c.before rest task).left = rest :=
  (List.suffix_iff_eq_drop.1 h).symm

theorem go_before {n : Nat} (h : cs <:+ c.source) (hn : n ≤ cs.length) (task' : Task) :
    (c.before cs task).go n task' = c.before (cs.drop n) task' := by
  have hlength := h.length_le
  simp only [before, go, List.length_drop, Cursor.mk.injEq, true_and, and_true]
  omega

theorem dropWhile_reaches {p : Char → Bool} (hover : (c.before cs task).isOver = false)
    (hstep : ∀ b bs, p b = true → b :: bs <:+ c.source →
      (c.before (b :: bs) task).step = (c.before (b :: bs) task).go 1 task)
    (h : cs <:+ c.source) : (c.before cs task).Reaches (c.before (cs.dropWhile p) task) := by
  induction cs with
  | nil => exact .refl
  | cons b bs ih =>
    cases hb : p b with
    | false =>
      rw [List.dropWhile_cons_of_neg (by simp [hb])]
      exact .refl
    | true =>
      have hbs : bs <:+ c.source := (List.suffix_cons b bs).trans h
      refine .next hover ?_
      rw [List.dropWhile_cons_of_pos hb, hstep b bs hb h, go_before h (Nat.le_add_left 1 _)]
      exact ih hover hbs

theorem passLine_reaches (h : cs <:+ c.source) : (c.before cs .lineComment).Reaches
    (c.before (cs.dropWhile fun b => !isLineBreak b) .seek) := by
  have hrest : cs.dropWhile (fun b => !isLineBreak b) <:+ c.source :=
    (List.dropWhile_suffix _).trans h
  have hhead := List.head?_dropWhile_not (fun b => !isLineBreak b) cs
  refine (dropWhile_reaches (p := fun b => !isLineBreak b) rfl (fun b bs hb h => ?_) h).trans
    (.next rfl ?_)
  · show (c.before (b :: bs) .lineComment).passLine (c.before (b :: bs) .lineComment).left = _
    rw [left_before h, passLine, if_neg (by simpa using hb)]
  · show ((c.before _ .lineComment).passLine (c.before _ .lineComment).left).Reaches _
    rw [left_before hrest]
    cases hcs : cs.dropWhile fun b => !isLineBreak b with
    | nil => exact .refl
    | cons b bs =>
      rw [hcs] at hhead
      rw [passLine, if_pos (by simpa using hhead)]
      exact .refl

theorem passBlock_reaches (h : cs <:+ c.source) (depth : Nat) :
    (c.before cs (.blockComment depth)).Reaches (c.before (afterComment depth cs) .seek) := by
  have hstep {cs : List Char} (h : cs <:+ c.source) (depth : Nat) :
      (c.before cs (.blockComment depth)).step =
        (c.before cs (.blockComment depth)).passBlock depth cs := by
    show (c.before cs (.blockComment depth)).passBlock depth _ = _
    rw [left_before h]
  fun_induction afterComment depth cs with
  | case1 cs =>
    refine .next rfl ?_
    rw [hstep h]
    exact .refl
  | case2 depth hdepth =>
    refine .next rfl ?_
    rw [hstep h, passBlock]
    · exact .refl
    · exact hdepth
  | case3 depth cs ih =>
    refine .next rfl ?_
    rw [hstep h, passBlock, go_before h (Nat.le_add_left 2 _)]
    exact ih ((List.suffix_append ['\x7b', '-'] cs).trans h)
  | case4 depth cs ih =>
    refine .next rfl ?_
    rw [hstep h, passBlock, go_before h (Nat.le_add_left 2 _)]
    exact ih ((List.suffix_append ['-', '\x7d'] cs).trans h)
  | case5 depth b cs hopen hclose ih =>
    refine .next rfl ?_
    rw [hstep h, passBlock, go_before h (Nat.le_add_left 1 _)]
    · exact ih ((List.suffix_cons b cs).trans h)
    · exact hopen
    · exact hclose

theorem seek_step (h : cs <:+ c.source) :
    (c.before cs .seek).step = (c.before cs .seek).seek cs := by
  show (c.before cs .seek).seek (c.before cs .seek).left = _
  rw [left_before h]

theorem seek_reaches (h : cs <:+ c.source) :
    (c.before cs .seek).Reaches (c.before (skipBlanks false cs) .seek) := by
  fun_induction skipBlanks false cs with
  | case1 => exact .refl
  | case2 rest ih =>
    have hrest : rest <:+ c.source := (List.suffix_append ['-', '-'] rest).trans h
    refine .next rfl ?_
    rw [seek_step h, seek, go_before h (Nat.le_add_left 2 _)]
    exact (passLine_reaches hrest).trans (ih ((List.dropWhile_suffix _).trans hrest))
  | case3 rest ih =>
    obtain ⟨comment, hcomment⟩ := exists_append_afterComment 1 rest
    have hrest : rest <:+ c.source := (List.suffix_append ['\x7b', '-'] rest).trans h
    refine .next rfl ?_
    rw [seek_step h, seek, go_before h (Nat.le_add_left 2 _)]
    exact (passBlock_reaches hrest 1).trans (ih (.trans ⟨comment, hcomment.symm⟩ hrest))
  | case4 b rest hline hblock hgap ih =>
    refine .next rfl ?_
    rw [seek_step h, seek, if_pos (by simpa using hgap), go_before h (Nat.le_add_left 1 _)]
    · exact ih ((List.suffix_cons b rest).trans h)
    · exact hline
    · exact hblock
  | case5 b rest hline hblock hgap => exact .refl

/-- How a call ends that has come upon a word at `start`. -/
def ended (c : Cursor) (start : Nat) : Except (List Char) Word → Cursor
  | .ok word => (c.before word.rest .seek).find word.kind start
  | .error rest => (c.before rest .seek).refuse start

theorem passWord_step (h : cs <:+ c.source) (kind : TokenKind) (start : Nat) :
    (c.before cs (.word kind start)).step =
      (c.before cs (.word kind start)).passWord kind start cs := by
  show (c.before cs _).passWord kind start (c.before cs (.word kind start)).left = _
  rw [left_before h]

theorem goesOn_reaches (h : cs <:+ c.source) (kind : TokenKind) (start : Nat) :
    (c.before cs (.word kind start)).Reaches
      (c.before (cs.dropWhile (goesOn kind)) (.word kind start)) := by
  refine dropWhile_reaches rfl (fun b bs hb h => ?_) h
  rw [passWord_step h, passWord, if_pos hb]

/-- A word ends where it does not go on; a point may still go on with a whole number. -/
theorem passWord_reaches (h : cs <:+ c.source) {kind : TokenKind} (hkind : kind ≠ .integer)
    (start : Nat) : (c.before cs (.word kind start)).Reaches
      ((c.before (cs.dropWhile (goesOn kind)) .seek).find kind start) := by
  have hrest : cs.dropWhile (goesOn kind) <:+ c.source := (List.dropWhile_suffix _).trans h
  have hends := ends_dropWhile (goesOn kind) cs
  refine (goesOn_reaches h kind start).trans (.next rfl ?_)
  rw [passWord_step hrest]
  cases hcs : cs.dropWhile (goesOn kind) with
  | nil => exact .refl
  | cons b bs =>
    have hb : goesOn kind b = false := hends b (by rw [hcs]; rfl)
    rw [passWord, if_neg (by simp [hb]), if_neg fun hpoint => hkind hpoint.1]
    exact .refl

theorem number_reaches {d : Char} (hd : isDigit d = true) (h : cs <:+ c.source) (start : Nat) :
    (c.before cs (.word .integer start)).Reaches (c.ended start (.ok (readNumber (d :: cs)))) := by
  have hrest : cs.dropWhile isDigit <:+ c.source := (List.dropWhile_suffix _).trans h
  have hends := ends_dropWhile isDigit cs
  refine (goesOn_reaches h .integer start).trans (.next rfl ?_)
  show (c.before (cs.dropWhile isDigit) (.word .integer start)).step.Reaches _
  rw [passWord_step hrest]
  unfold readNumber
  dsimp only
  rw [List.dropWhile_cons_of_pos hd]
  split
  · next d rest hcs =>
    rw [hcs] at hrest ⊢
    rw [passWord, if_neg (by decide)]
    cases hd : isDigit d with
    | true =>
      rw [if_pos ⟨rfl, rfl, hd⟩, if_pos rfl, go_before hrest (Nat.le_add_left 1 _)]
      exact passWord_reaches ((List.suffix_cons '.' _).trans hrest) (by decide) start
    | false =>
      rw [if_neg fun hpoint => Bool.false_ne_true (hd.symm.trans hpoint.2.2),
        if_neg Bool.false_ne_true]
      exact .refl
  · next hpoint =>
    cases hcs : cs.dropWhile isDigit with
    | nil => exact .refl
    | cons b bs =>
      have hb : isDigit b = false := hends b (by rw [hcs]; rfl)
      rw [passWord, if_neg (by simp [goesOn, hb]), if_neg]
      · exact .refl
      · rintro ⟨-, rfl, hdigit⟩
        cases bs with
        | nil => cases hdigit
        | cons d rest => exact hpoint d rest hcs

theorem passString_reaches (h : cs <:+ c.source) (start : Nat) :
    (c.before cs (.string start)).Reaches (c.ended start (readString cs)) := by
  have hstep {cs : List Char} (h : cs <:+ c.source) : (c.before cs (.string start)).step =
      (c.before cs (.string start)).passString start cs := by
    show (c.before cs _).passString start (c.before cs (.string start)).left = _
    rw [left_before h]
  have hrest : cs.dropWhile isStringChar <:+ c.source := (List.dropWhile_suffix _).trans h
  have hends := ends_dropWhile isStringChar cs
  refine (dropWhile_reaches (p := isStringChar) rfl (fun b bs hb h => ?_) h).trans (.next rfl ?_)
  · have hb : ¬ b = '"' ∧ isLineBreak b = false := by simpa [isStringChar] using hb
    rw [hstep h, passString, if_neg hb.1, if_neg (by rw [hb.2]; decide)]
  · rw [hstep hrest]
    cases hcs : cs.dropWhile isStringChar with
    | nil =>
      rw [readString_of_ne (by simp [hcs]), hcs]
      exact .refl
    | cons b bs =>
      rw [hcs] at hrest
      by_cases hb : b = '"'
      · subst hb
        rw [readString_of_quote hcs, passString, if_pos rfl, go_before hrest (Nat.le_add_left 1 _)]
        exact .refl
      · have hstring : isStringChar b = false := hends b (by rw [hcs]; rfl)
        have hbreak : isLineBreak b = true := by simpa [isStringChar, hb] using hstring
        rw [readString_of_ne (by simp [hcs, hb]), hcs, passString, if_neg hb, if_pos hbreak]
        exact .refl

theorem passLongString_reaches (h : cs <:+ c.source) (start : Nat) :
    (c.before cs (.longString start)).Reaches (c.ended start (readLongString cs)) := by
  have hstep {cs : List Char} (h : cs <:+ c.source) : (c.before cs (.longString start)).step =
      (c.before cs (.longString start)).passLongString start cs := by
    show (c.before cs _).passLongString start (c.before cs (.longString start)).left = _
    rw [left_before h]
  unfold readLongString
  fun_induction splitAtQuotes cs with
  | case1 =>
    refine .next rfl ?_
    rw [hstep h]
    exact .refl
  | case2 rest =>
    refine .next rfl ?_
    rw [hstep h, passLongString, go_before h (Nat.le_add_left 3 _)]
    exact .refl
  | case3 b cs hquotes ih =>
    refine .next rfl ?_
    rw [hstep h, passLongString, go_before h (Nat.le_add_left 1 _)]
    · have hcs := ih ((List.suffix_cons b cs).trans h)
      cases hsplit : splitAtQuotes cs with
      | none =>
        rw [hsplit] at hcs
        exact hcs
      | some parts =>
        rw [hsplit] at hcs
        exact hcs
    · exact hquotes

theorem beginQuote_reaches {bs : List Char} (h : '"' :: bs <:+ c.source) (task : Task) :
    ((c.before ('"' :: bs) task).beginWord '"' bs).Reaches
      (c.ended (c.source.length - ('"' :: bs).length) (Lexeme.read '"' bs)) := by
  have hbs : bs <:+ c.source := (List.suffix_cons '"' bs).trans h
  unfold beginWord
  rw [if_pos rfl]
  split
  · rw [go_before h (Nat.le_add_left 3 _)]
    exact passLongString_reaches ((List.suffix_append ['"', '"'] _).trans hbs) _
  · next hshort =>
    rw [read_quote_short hshort, go_before h (Nat.le_add_left 1 _)]
    exact passString_reaches hbs _

theorem beginWord_reaches {b : Char} {bs : List Char} (h : b :: bs <:+ c.source) (task : Task) :
    ((c.before (b :: bs) task).beginWord b bs).Reaches
      (c.ended (c.source.length - (b :: bs).length) (Lexeme.read b bs)) := by
  have hbs : bs <:+ c.source := (List.suffix_cons b bs).trans h
  have hgo {task' : Task} : (c.before (b :: bs) task).go 1 task' = c.before bs task' :=
    go_before h (Nat.le_add_left 1 _) task'
  by_cases hquote : b = '"'
  · subst hquote
    exact beginQuote_reaches h task
  unfold beginWord Lexeme.read
  rw [if_neg hquote, if_neg hquote]
  split
  · rw [hgo]
    exact passWord_reaches hbs (by decide) _
  split
  · next hb =>
    rw [hgo]
    exact number_reaches hb hbs _
  split
  · rw [hgo]
    exact .refl
  · rw [hgo]
    exact passWord_reaches hbs (by decide) _

/-- The cursor looks ahead as far as the next line. -/
theorem measure_reaches (start width : Nat) (h : cs <:+ c.source) :
    Reaches { c with task := .measure start (c.source.length - cs.length) width }
      (c.settle start (c.source.length - (nextLine width cs).2.length) (nextLine width cs).1) := by
  have hstep {cs : List Char} (h : cs <:+ c.source) (width : Nat) :
      step { c with task := .measure start (c.source.length - cs.length) width } =
        measure { c with task := .measure start (c.source.length - cs.length) width } start
          (c.source.length - cs.length) width cs := by
    show measure _ _ _ _ (c.source.drop (c.source.length - cs.length)) = _
    rw [← List.suffix_iff_eq_drop.1 h]
  have hplace {b : Char} {cs : List Char} (h : b :: cs <:+ c.source) :
      c.source.length - (b :: cs).length + 1 = c.source.length - cs.length := by
    have hlength := h.length_le
    rw [List.length_cons] at hlength ⊢
    omega
  fun_induction nextLine width cs with
  | case1 width =>
    refine .next rfl ?_
    rw [hstep h]
    exact .refl
  | case2 width b cs hb ih =>
    refine .next rfl ?_
    rw [hstep h, measure, if_pos hb, hplace h]
    exact ih ((List.suffix_cons b cs).trans h)
  | case3 width b cs hbreak hb ih =>
    refine .next rfl ?_
    rw [hstep h, measure, if_neg hbreak, if_pos hb, hplace h]
    exact ih ((List.suffix_cons b cs).trans h)
  | case4 width b cs hbreak hb =>
    refine .next rfl ?_
    rw [hstep h, measure, if_neg hbreak, if_neg hb]
    exact .refl

/-- Where no blank and no comment stands, a line ends or a word begins. -/
theorem seek_word {b : Char} {bs : List Char} (hskip : skipBlanks false (b :: bs) = b :: bs) :
    c.seek (b :: bs) = if isLineBreak b then c.go 1 (.measure c.index (c.index + 1) 0)
      else c.beginWord b bs := by
  obtain ⟨hblank, -, hcomment⟩ := noComment_of_skipBlanks hskip
  rw [seek, if_neg (by simp [hblank])]
  · rintro rest rfl rfl
    exact hcomment (.inl rfl) rfl
  · rintro rest rfl rfl
    exact hcomment (.inr rfl) rfl

theorem lineBreak_reaches {b : Char} {bs : List Char} (h : b :: bs <:+ c.source)
    (hskip : skipBlanks false (b :: bs) = b :: bs) (hb : isLineBreak b = true) :
    (c.before (b :: bs) .seek).Reaches ((c.before bs .seek).settle
      (c.source.length - (b :: bs).length) (c.source.length - (nextLine 0 bs).2.length)
      (nextLine 0 bs).1) := by
  have hlength := h.length_le
  have hplace : c.source.length - (b :: bs).length + 1 = c.source.length - bs.length := by
    rw [List.length_cons] at hlength ⊢
    omega
  refine .next rfl ?_
  rw [seek_step h, seek_word hskip, if_pos hb, go_before h (Nat.le_add_left 1 _)]
  show ((c.before bs (.measure _ (c.source.length - (b :: bs).length + 1) 0))).Reaches _
  rw [hplace]
  exact measure_reaches (c := c.before bs .seek) _ 0 ((List.suffix_cons b bs).trans h)

theorem word_reaches {b : Char} {bs : List Char} (h : b :: bs <:+ c.source)
    (hskip : skipBlanks false (b :: bs) = b :: bs) (hb : isLineBreak b = false) :
    (c.before (b :: bs) .seek).Reaches
      (c.ended (c.source.length - (b :: bs).length) (Lexeme.read b bs)) := by
  refine .next rfl ?_
  rw [seek_step h, seek_word hskip, if_neg (by simp [hb])]
  exact beginWord_reaches h .seek

end

/-- Where a cursor stands when a call of a stream has ended so. -/
def ending (source : List Char) : EStateM.Result Error TokenStream (Option Token) → Cursor
  | .ok found s => ⟨source, s.position s.rest, s.indents,
      .over (.ok (found.map fun token => (token.kind, token.span)))⟩
  | .error e s => ⟨source, s.position s.rest, s.indents, .over (.error e)⟩

/-- The stream reads what the cursor reads, with the same lines open. -/
structure Mirrors (c : Cursor) (s : TokenStream) : Prop where
  length : s.length = c.source.length
  indents : s.indents = c.indents

theorem Mirrors.position {s : TokenStream} (h : c.Mirrors s) (cs : List Char) :
    s.position cs = c.source.length - (bytes cs).length := by
  rw [TokenStream.position, h.length, length_bytes]

theorem Mirrors.span {s : TokenStream} (h : c.Mirrors s) (cs ds : List Char) :
    s.span cs ds = ⟨c.source.length - (bytes cs).length, c.source.length - (bytes ds).length⟩ := by
  rw [TokenStream.span, h.position, h.position]

theorem Mirrors.ending_ok {s : TokenStream} (h : c.Mirrors s) (found : Option Token)
    (cs : List Char) (indents : List Nat) :
    ending c.source (.ok found { s with rest := cs, indents }) =
      { c.before (bytes cs) .seek with indents }.stop
        (.ok (found.map fun token : Token => (token.kind, token.span))) := by
  show Cursor.mk _ (s.position cs) _ _ = _
  rw [h.position]
  rfl

theorem Mirrors.ending_error {s : TokenStream} (h : c.Mirrors s) (e : Error) (cs : List Char) :
    ending c.source (.error e { s with rest := cs }) =
      (c.before (bytes cs) .seek).stop (.error e) := by
  show Cursor.mk _ (s.position cs) s.indents _ = _
  rw [h.position, h.indents]
  rfl

theorem suffix_bytes {gap cs ds : List Char} (hgap : cs = gap ++ ds) : bytes ds <:+ bytes cs :=
  ⟨bytes gap, by rw [hgap, bytes_append]⟩

/-- Whatever the stream finds, the cursor comes to find it too. -/
theorem read_reaches {s : TokenStream} {text : List Char} (h : c.Mirrors s)
    (htext : bytes text <:+ c.source) (hskip : skipBlanks false text = text) :
    (c.before (bytes text) .seek).Reaches (ending c.source (s.read text)) := by
  have hbytes : skipBlanks false (bytes text) = bytes text := by rw [skipBlanks_bytes, hskip]
  fun_induction TokenStream.read s text generalizing c with
  | case1 s hs =>
    have hindents : (c.before [] .seek).indents = [] := h.indents ▸ hs
    refine .next rfl ?_
    rw [bytes_nil] at htext ⊢
    rw [seek_step htext, seek, finish, hindents, h.ending_ok, h.indents]
    exact .refl
  | case2 s width outer hs =>
    have hindents : (c.before [] .seek).indents = width :: outer := h.indents ▸ hs
    refine .next rfl ?_
    rw [bytes_nil] at htext ⊢
    rw [seek_step htext, seek, finish, hindents, h.ending_ok, h.span]
    exact .refl
  | case3 s b cs hb hw ih =>
    obtain ⟨gap, hgap, -⟩ := exists_filler_nextLine 0 cs
    obtain ⟨gap', hgap', -⟩ := exists_filler_skipBlanks false (nextLine 0 cs).2
    rw [bytes_ascii (not_foreign_of_isGap (.inr hb))] at htext hbytes ⊢
    have hline : bytes (nextLine 0 cs).2 <:+ c.source :=
      (suffix_bytes hgap).trans ((List.suffix_cons b _).trans htext)
    refine (lineBreak_reaches htext hbytes hb).trans ?_
    rw [nextLine_bytes, settle, if_pos (h.indents ▸ hw)]
    -- The call goes on from the deeper line, with that line open for both of them.
    refine (seek_reaches (c := { c with indents := (nextLine 0 cs).1 :: c.indents }) hline).trans ?_
    rw [skipBlanks_bytes]
    refine ih ⟨h.length, congrArg _ h.indents⟩ ((suffix_bytes hgap').trans hline)
      (skipBlanks_idem _ _) ?_
    rw [skipBlanks_bytes, skipBlanks_idem]
  | case4 s b cs hb hw =>
    have hascii := bytes_ascii (not_foreign_of_isGap (.inr hb)) cs
    rw [hascii] at htext hbytes ⊢
    have hspan : s.span (b :: cs) cs = ⟨c.source.length - (b :: bytes cs).length,
        c.source.length - (b :: bytes cs).length + 1⟩ := by
      have hlength := htext.length_le
      rw [List.length_cons] at hlength
      rw [h.span, hascii, List.length_cons, Span.mk.injEq]
      omega
    refine (lineBreak_reaches htext hbytes hb).trans ?_
    rw [nextLine_bytes, settle, if_neg (h.indents ▸ hw), h.ending_ok, h.indents, hspan]
    exact .refl
  | case5 s b cs hb word hr =>
    -- The word begins with `d`, the first byte of a character that may have several.
    obtain ⟨d, ds, hd, hbreak, hread⟩ := read_bytes b cs
    have hspan := h.span (b :: cs) word.rest
    rw [hd] at htext hbytes hspan ⊢
    have hword := word_reaches htext hbytes (by simpa [hbreak] using hb)
    rw [hread, hr] at hword
    rw [h.ending_ok, h.indents, hspan]
    exact hword
  | case6 s b cs hb rest hr =>
    obtain ⟨d, ds, hd, hbreak, hread⟩ := read_bytes b cs
    have hspan := h.span (b :: cs) rest
    rw [hd] at htext hbytes hspan ⊢
    have hword := word_reaches htext hbytes (by simpa [hbreak] using hb)
    rw [hread, hr] at hword
    rw [h.ending_error, hspan]
    exact hword

end

end Cursor

namespace TokenStream

variable {s : TokenStream}

/-- The stream after a call, which may have failed. -/
def afterCall : TokenStream → TokenStream := afterwards next

/-- What finds nothing has come to the end of the source with no line open. -/
theorem read_none {t : TokenStream} {text : List Char} (h : s.read text = .ok none t) :
    t = ⟨s.length, [], [], s.pending⟩ := by
  fun_induction read s text with
  | case1 s hs =>
    cases h
    rw [hs]
  | case2 s width outer hs => cases h
  | case3 s c cs hc hw ih => exact ih h
  | case4 s c cs hc hw => cases h
  | case5 s c cs hc word hr => cases h
  | case6 s c cs hc rest hr => cases h

/-- Calls find or refuse something as often as there are units to read at most, and from then on
nothing more. -/
theorem calls_end (s : TokenStream) : ∃ n ≤ s.size, ∀ k,
    (k < n → ∀ t, (afterCall^[k] s).next ≠ .ok none t) ∧
    (n ≤ k → (afterCall^[k] s).next = .ok none (afterCall^[k + 1] s)) := by
  refine exists_calls_end (p := next) size (fun s hfound => ?_) (fun s t h => ?_) s
  · unfold afterwards
    cases h : s.next with
    | ok o t =>
      cases o with
      | none => exact absurd h (hfound t)
      | some token => exact next_some h
    | error e t => exact next_error h
  · exact ⟨t, next_of_none h⟩

/-- The stream reads the rest of a source, given by its bytes, with nothing handed back. -/
structure ReadsOn (s : TokenStream) (source : List Char) : Prop where
  length : s.length = source.length
  pending : s.pending = []
  rest : bytes s.rest <:+ source

theorem ReadsOn.behind {source : List Char} {event : Except Error Token} {t : TokenStream}
    (h : s.ReadsOn source) (hfinds : s.Finds s.rest event t) : t.ReadsOn source := by
  obtain ⟨gap, word, hrest, -, -, -, hlength, hpending⟩ := hfinds
  rw [← List.append_assoc] at hrest
  exact ⟨hlength.trans h.length, hpending.trans h.pending,
    (Cursor.suffix_bytes hrest).trans h.rest⟩

theorem ReadsOn.afterCall {source : List Char} (h : s.ReadsOn source) :
    s.afterCall.ReadsOn source := by
  have hfinds := next_finds h.pending
  unfold TokenStream.afterCall afterwards
  cases hnext : s.next with
  | error e t =>
    rw [hnext] at hfinds
    exact h.behind hfinds
  | ok o t =>
    rw [hnext] at hfinds
    cases o with
    | some token => exact h.behind hfinds
    | none =>
      rw [next, h.pending] at hnext
      rw [read_none hnext]
      exact ⟨h.length, h.pending, List.nil_suffix⟩

end TokenStream

namespace Cursor

variable {source : List Char} {s : TokenStream}

/-- Where a cursor stands when a call of a stream begins. -/
def beginning (source : List Char) (s : TokenStream) : Cursor :=
  ⟨source, s.position s.rest, s.indents, .seek⟩

theorem step_ending (source : List Char) (s : TokenStream) :
    (ending source s.next).step = beginning source s.afterCall := by
  unfold TokenStream.afterCall afterwards
  cases s.next <;> rfl

theorem isOver_ending (source : List Char)
    (result : EStateM.Result Error TokenStream (Option Token)) :
    (ending source result).isOver = true := by
  cases result <;> rfl

theorem call_reaches (h : s.ReadsOn source) :
    (beginning source s).Reaches (ending source s.next) := by
  obtain ⟨gap, hgap, -⟩ := exists_filler_skipBlanks false s.rest
  have hmirrors : Mirrors (beginning source s) s := ⟨h.length, rfl⟩
  have hbefore : beginning source s = (beginning source s).before (bytes s.rest) .seek := by
    show Cursor.mk _ (s.position s.rest) _ _ = _
    rw [hmirrors.position]
    rfl
  have hskip := seek_reaches (c := beginning source s) h.rest
  rw [← hbefore, skipBlanks_bytes] at hskip
  unfold TokenStream.next
  rw [h.pending]
  exact hskip.trans (read_reaches hmirrors ((suffix_bytes hgap).trans h.rest) (skipBlanks_idem _ _))

/-- At any time the call that is under way, one after those that have ended before, ends as the call
of the stream with the same number does. -/
theorem iterate_reaches (h : s.ReadsOn source) (i : Nat) :
    let k := Nat.count (beginning source s).Ends i
    (TokenStream.afterCall^[k] s).ReadsOn source ∧
      (step^[i] (beginning source s)).Reaches
        (ending source (TokenStream.afterCall^[k] s).next) := by
  induction i with
  | zero => exact ⟨h, call_reaches h⟩
  | succ i ih =>
    obtain ⟨hreads, hreaches⟩ := ih
    have hend := isOver_ending source
      (TokenStream.afterCall^[Nat.count (beginning source s).Ends i] s).next
    dsimp only
    rw [Function.iterate_succ_apply', Nat.count_succ]
    cases hover : (step^[i] (beginning source s)).isOver with
    | true =>
      -- The step out of a call that has ended begins the next one, where the stream stands by then.
      have hends : (beginning source s).Ends i := hover
      rw [if_pos hends, Function.iterate_succ_apply', hreaches.eq_of_isOver hover, step_ending]
      exact ⟨hreads.afterCall, call_reaches hreads.afterCall⟩
    | false =>
      have hgoing : ¬ (beginning source s).Ends i := fun hends =>
        Bool.false_ne_true (hover.symm.trans hends)
      rw [if_neg hgoing, Nat.add_zero]
      exact ⟨hreads, hreaches.of_step hover hend⟩

theorem length_ofSource (source : String) :
    (ofSource source).source.length = source.utf8ByteSize := by
  show (source.toUTF8.data.toList.map Char.ofUInt8).length = _
  rw [← bytes_toList, length_bytes, byteLength_toList]

theorem iterate_ofSource (source : String) (i : Nat) :
    (step^[i] (ofSource source)).source = (ofSource source).source ∧
      (step^[i] (ofSource source)).Within ∧ Growing (step^[i] (ofSource source)).indents :=
  iterate_keeps ⟨Nat.le_refl _, Nat.zero_le _⟩ ⟨.nil, List.forall_mem_nil _⟩ i

theorem exists_ends_ofSource (source : String) (i : Nat) :
    ∃ j ≤ 2 * source.utf8ByteSize + 2, (ofSource source).Ends (i + j) := by
  obtain ⟨hsource, hwithin, -⟩ := iterate_ofSource source i
  obtain ⟨j, hj, hend⟩ := exists_ends hwithin
  have hle := (step^[i] (ofSource source)).toGo_le
  rw [hsource, length_ofSource] at hle
  refine ⟨j, by omega, ?_⟩
  rw [Ends, Nat.add_comm, Function.iterate_add_apply]
  exact hend

/-- Where the call of some number ends, the stream ends it too. -/
theorem iterate_nth (source : String) (k : Nat) :
    step^[Nat.nth (ofSource source).Ends k] (ofSource source) =
      ending (ofSource source).source (TokenStream.afterCall^[k] (.ofSource source)).next := by
  have hinfinite : (Set.ofPred (ofSource source).Ends).Infinite := by
    -- Behind every step there is one more that ends a call.
    refine Set.infinite_of_forall_exists_gt fun i => ?_
    obtain ⟨j, -, hend⟩ := exists_ends_ofSource source (i + 1)
    exact ⟨i + 1 + j, hend, Nat.lt_of_lt_of_le (Nat.lt_succ_self i) (Nat.le_add_right _ _)⟩
  have hreads : (TokenStream.ofSource source).ReadsOn (ofSource source).source :=
    ⟨(byteLength_toList source).trans (length_ofSource source).symm, rfl,
      ⟨[], bytes_toList source⟩⟩
  have hbegin : beginning (ofSource source).source (.ofSource source) = ofSource source := by
    show Cursor.mk _ (byteLength source.toList - byteLength source.toList) _ _ = _
    rw [Nat.sub_self]
    rfl
  have hreaches := (iterate_reaches hreads (Nat.nth (ofSource source).Ends k)).2
  rw [hbegin, Nat.count_nth_of_infinite hinfinite] at hreaches
  exact hreaches.eq_of_isOver (Nat.nth_mem_of_infinite hinfinite k)

/-- A cursor takes small steps over the bytes of a source, call after call, also after failures. It
never goes back nor past the end of the source, and at all times the widths of the open lines are
positive and grow, the latest first. From any time on the call that is under way ends within twice
as many steps as the source has bytes and two. The calls end as those of the stream do: with the
same token, failure or nothing, and in the same place. At most as many of them as the source has
bytes find a token or fail; once a call finds nothing, no later one does. -/
theorem calls_advance (source : String) :
    let cursor := fun i => step^[i] (ofSource source)
    let stream := fun k => TokenStream.afterCall^[k] (.ofSource source)
    (∀ i, (cursor i).index ≤ (cursor (i + 1)).index ∧ (cursor i).index ≤ source.utf8ByteSize ∧
      Growing (cursor i).indents) ∧
    (∀ i, ∃ j ≤ 2 * source.utf8ByteSize + 2, (ofSource source).Ends (i + j)) ∧
    (∀ k, cursor (Nat.nth (ofSource source).Ends k) =
      ending (ofSource source).source (stream k).next) ∧
    ∃ n ≤ source.utf8ByteSize, ∀ k,
      (k < n → ∀ t, (stream k).next ≠ .ok none t) ∧
      (n ≤ k → (stream k).next = .ok none (stream (k + 1))) := by
  refine ⟨fun i => ?_, exists_ends_ofSource source, iterate_nth source, ?_⟩
  · obtain ⟨hsource, hwithin, hgrowing⟩ := iterate_ofSource source i
    have hindex : (step^[i] (ofSource source)).index ≤ source.utf8ByteSize := by
      rw [← length_ofSource, ← hsource]
      exact hwithin.index.trans hwithin.reach
    refine ⟨?_, hindex, hgrowing⟩
    show _ ≤ (step^[i + 1] (ofSource source)).index
    rw [Function.iterate_succ_apply']
    exact (step_advances hwithin).index
  · obtain ⟨n, hn, hcalls⟩ := TokenStream.calls_end (.ofSource source)
    have hsize := length_le_byteLength source.toList
    rw [byteLength_toList] at hsize
    exact ⟨n, hn.trans hsize, hcalls⟩

end Cursor

end Offside
