import Offside.Proofs.Parse.ReadAlike
import Offside.Proofs.Token.Comments
import Offside.Proofs.Token.Lines

namespace Offside

open Lexeme

namespace Lexeme

/-- No comment begins here. -/
def Uncommented (text : List Char) : Prop := ∀ c cs, text = c :: cs → NoComment c cs

instance (text : List Char) : Decidable (Uncommented text) :=
  match text with
  | [] => isTrue nofun
  | c :: cs => decidable_of_iff (c = '-' ∨ c = '\x7b' → cs.head? ≠ some '-')
      ⟨fun h _ _ heq => by cases heq; exact h, fun h => h c cs rfl⟩

/-- What may stand on a line: words that can be read, without comments. -/
structure Plain (cs : List Char) : Prop where
  lineBreak : ∀ c ∈ cs, isLineBreak c = false
  uncommented : Throughout Uncommented cs
  closed : (leaves cs).isSome

/-- The line is not indented, nor is it blank. -/
def Flush (cs : List Char) : Prop := ∃ c ∈ cs.head?, isBlank c = false

theorem Flush.exists_cons {cs : List Char} (h : Flush cs) :
    ∃ c rest, cs = c :: rest ∧ isBlank c = false := by
  obtain ⟨c, hc, hblank⟩ := h
  obtain ⟨rest, hrest⟩ := List.head?_eq_some_iff.1 hc
  exact ⟨c, rest, hrest, hblank⟩

namespace Plain

variable {cs ds tail : List Char}

theorem place (h : Plain cs) (hplace : Place cs ds) (hclosed : (leaves ds).isSome) : Plain ds where
  lineBreak c hc := h.lineBreak c (hplace.suffix.subset hc)
  uncommented := h.uncommented.place hplace
  closed := hclosed

theorem skip (h : Plain cs) (lines : Bool) : Plain (skipBlanks lines cs) := by
  refine h.place (place_skipBlanks lines cs) ?_
  rw [leaves_congr (skipBlanks_skipBlanks lines cs)]
  exact h.closed

theorem separate (h : Plain cs) (htail : Parted tail) : Throughout (Separate tail) cs := by
  intro text htext
  have hnone := h.uncommented text htext
  refine ⟨fun rest heq => ?_, fun rest heq => ?_, fun c _ _ hdash => ?_⟩
  · exact absurd rfl (hnone _ _ heq (.inr rfl))
  · exact absurd rfl (hnone _ _ heq (.inl rfl))
  · rcases htail '-' hdash with h | h <;> cases h

theorem skipBlanks_append (h : Plain cs) (htail : Parted tail) (lines : Bool) :
    skipBlanks lines (cs ++ tail) =
      if skipBlanks lines cs = [] then skipBlanks lines tail else skipBlanks lines cs ++ tail :=
  Lexeme.skipBlanks_append lines (h.separate htail)

/-- A line begins with a word. -/
theorem skipBlanks_flush (h : Plain cs) (hflush : Flush cs) (lines : Bool) :
    skipBlanks lines cs = cs := by
  obtain ⟨c, rest, rfl, hblank⟩ := hflush.exists_cons
  have hbreak := h.lineBreak c List.mem_cons_self
  exact skipBlanks_of_noComment hblank (fun _ => hbreak) (h.uncommented.here c rest rfl)

theorem skipBlanks_flush_append (h : Plain cs) (hflush : Flush cs) (htail : Parted tail)
    (lines : Bool) : skipBlanks lines (cs ++ tail) = cs ++ tail := by
  obtain ⟨c, rest, hcs, -⟩ := hflush.exists_cons
  rw [h.skipBlanks_append htail, h.skipBlanks_flush hflush, if_neg (hcs ▸ List.cons_ne_nil c rest)]

end Plain

/-- Lines, each after what indents it. They go deeper one by one, the first one deeper than `width`. -/
inductive Deepening : (width : Nat) → List (List Char × List Char) → Prop
  | nil {width : Nat} : Deepening width []
  | cons {width : Nat} {pad line : List Char} {more : List (List Char × List Char)}
      (hpad : ∀ c ∈ pad, isBlank c = true) (hdeeper : width < pad.length) (hline : Plain line)
      (hflush : Flush line) (h : Deepening pad.length more) : Deepening width ((pad, line) :: more)

theorem Deepening.mono {width lower : Nat} {more : List (List Char × List Char)}
    (h : Deepening width more) (hlower : lower ≤ width) : Deepening lower more := by
  cases h with
  | nil => exact .nil
  | cons hpad hdeeper hline hflush h =>
    exact .cons hpad (Nat.lt_of_le_of_lt hlower hdeeper) hline hflush h

/-- Further lines, each on its own. -/
def onLines (more : List (List Char × List Char)) : List Char :=
  more.flatMap fun l => '\n' :: (l.1 ++ l.2)

/-- The same behind the first line, without what indents them. -/
def onOneLine (more : List (List Char × List Char)) : List Char :=
  more.flatMap fun l => ' ' :: l.2

theorem parted_onLines (more : List (List Char × List Char)) : Parted (onLines more) := by
  cases more with
  | nil => exact parted_nil
  | cons l more => exact parted_cons (.inr rfl) _

theorem parted_onOneLine (more : List (List Char × List Char)) : Parted (onOneLine more) := by
  cases more with
  | nil => exact parted_nil
  | cons l more => exact parted_cons (.inl rfl) _

theorem nextLine_indented {pad line tail : List Char} (hpad : ∀ c ∈ pad, isBlank c = true)
    (hline : Plain line) (hflush : Flush line) (width : Nat) :
    nextLine width (pad ++ (line ++ tail)) = (width + pad.length, line ++ tail) := by
  induction pad generalizing width with
  | nil =>
    obtain ⟨c, rest, rfl, hblank⟩ := hflush.exists_cons
    have hbreak := hline.lineBreak c List.mem_cons_self
    show nextLine width (c :: (rest ++ tail)) = (width, c :: (rest ++ tail))
    rw [nextLine, if_neg (by simp [hbreak]), if_neg (by simp [hblank])]
  | cons c pad ih =>
    rw [List.forall_mem_cons] at hpad
    have hbreak : ¬ isLineBreak c = true := fun hc => by
      simpa [not_blank_of_lineBreak hc] using hpad.1
    rw [List.cons_append, nextLine, if_neg hbreak, if_pos hpad.1, ih hpad.2, List.length_cons,
      Nat.add_assoc, Nat.add_comm 1]

/-- What is left of lines that go deeper than `width`, and of the same lines on one. -/
inductive Joined (width : Nat) : List Char → List Char → Prop
  | rest {cs : List Char} {more : List (List Char × List Char)} (hline : Plain cs)
      (h : Deepening width more) : Joined width (cs ++ onLines more) (cs ++ onOneLine more)

section

variable {width : Nat} {pad line cs ds : List Char} {more : List (List Char × List Char)}

theorem skipBlanks_onLines (hpad : ∀ c ∈ pad, isBlank c = true) (hline : Plain line)
    (hflush : Flush line) :
    skipBlanks true (onLines ((pad, line) :: more)) = line ++ onLines more := by
  have hgap : ∀ c ∈ '\n' :: pad, isBlank c = true ∨ isLineBreak c = true :=
    List.forall_mem_cons.2 ⟨.inr rfl, fun c hc => .inl (hpad c hc)⟩
  have hsplit : onLines ((pad, line) :: more) = '\n' :: pad ++ (line ++ onLines more) := by
    simp [onLines]
  rw [hsplit, skipBlanks_row hgap, hline.skipBlanks_flush_append hflush (parted_onLines more)]

theorem skipBlanks_onOneLine (hline : Plain line) (hflush : Flush line) (lines : Bool) :
    skipBlanks lines (onOneLine ((pad, line) :: more)) = line ++ onOneLine more := by
  show skipBlanks lines (' ' :: (line ++ onOneLine more)) = line ++ onOneLine more
  rw [skipBlanks_cons (.inl rfl), hline.skipBlanks_flush_append hflush (parted_onOneLine more)]

/-- Behind blanks and line breaks the next line begins, or nothing is left. -/
theorem Joined.skipLines (h : Joined width cs ds) :
    skipBlanks true cs = [] ∧ skipBlanks true ds = [] ∨
      skipBlanks true cs ≠ [] ∧ skipBlanks true ds ≠ [] ∧
        Joined width (skipBlanks true cs) (skipBlanks true ds) := by
  obtain @⟨cs, more, hline, hmore⟩ := h
  rw [hline.skipBlanks_append (parted_onLines more),
    hline.skipBlanks_append (parted_onOneLine more)]
  by_cases hnil : skipBlanks true cs = []
  · rw [if_pos hnil, if_pos hnil]
    cases hmore with
    | nil =>
      have hend : skipBlanks true [] = [] := by rw [skipBlanks]
      exact .inl ⟨hend, hend⟩
    | cons hpad hdeeper hnext hflush hmore =>
      obtain ⟨c, rest, rfl, -⟩ := hflush.exists_cons
      rw [skipBlanks_onLines hpad hnext hflush, skipBlanks_onOneLine hnext hflush]
      exact .inr ⟨List.cons_ne_nil _ _, List.cons_ne_nil _ _,
        .rest hnext (hmore.mono (Nat.le_of_lt hdeeper))⟩
  · rw [if_neg hnil, if_neg hnil]
    exact .inr ⟨fun h => hnil (List.append_eq_nil_iff.1 h).1,
      fun h => hnil (List.append_eq_nil_iff.1 h).1, .rest (hline.skip true) hmore⟩

end

/-- A line and what indents it: blanks, then words that can be read, without comments. -/
structure IsLine (pad text : String) : Prop where
  pad : ∀ c ∈ pad.toList, isBlank c = true
  flush : Flush text.toList
  lineBreak : ∀ c ∈ text.toList, isLineBreak c = false
  uncommented : Throughout Uncommented text.toList
  tokens : ∃ ts, (TokenStream.ofSource text).tokens = .ok ts

theorem IsLine.plain {pad text : String} (h : IsLine pad text) : Plain text.toList where
  lineBreak := h.lineBreak
  uncommented := h.uncommented
  closed := have ⟨_, hts⟩ := h.tokens; leaves_isSome_of_tokens hts

section

variable {lines : List (String × String)} {pad text : String}

theorem deepening_of_pairwise (hlines : ∀ l ∈ lines, IsLine l.1 l.2) {width : Nat}
    (h : (width :: lines.map fun l => l.1.length).Pairwise (· < ·)) :
    Deepening width (lines.map fun l => (l.1.toList, l.2.toList)) := by
  induction lines generalizing width with
  | nil => exact .nil
  | cons l lines ih =>
    rw [List.forall_mem_cons] at hlines
    obtain ⟨hwidth, hlater⟩ := List.pairwise_cons.1 h
    have hpad : l.1.toList.length = l.1.length := String.length_toList
    exact .cons hlines.1.pad (hpad ▸ hwidth _ List.mem_cons_self) hlines.1.plain hlines.1.flush
      (hpad ▸ ih hlines.2 hlater)

theorem toList_lines : ("\n".intercalate ((pad, text) :: lines |>.map fun l => l.1 ++ l.2)).toList =
    pad.toList ++ text.toList ++ onLines (lines.map fun l => (l.1.toList, l.2.toList)) := by
  have hfeed : "\n".toList = ['\n'] := rfl
  rw [String.toList_intercalate, List.map_cons, List.map_cons, hfeed, intercalate_cons, onLines,
    String.toList_append]
  simp [List.flatMap_map]

theorem toList_line : (" ".intercalate ((pad, text) :: lines |>.map fun l => l.2)).toList =
    text.toList ++ onOneLine (lines.map fun l => (l.1.toList, l.2.toList)) := by
  have hblank : " ".toList = [' '] := rfl
  rw [String.toList_intercalate, List.map_cons, List.map_cons, hblank, intercalate_cons, onOneLine]
  simp [List.flatMap_map]

end

end Lexeme

namespace TokenStream

variable {s t : TokenStream}

/-- Two streams over lines that go deeper than all that are open, and over the same lines on one, which
opens none. -/
structure Continuing (s t : TokenStream) : Prop where
  handed : s.pending = [] ∧ t.pending = []
  indents : t.indents = []
  texts : Joined (s.indents.headD 0) s.rest t.rest

/-- Nothing is left of either stream. -/
def BothBlank (s t : TokenStream) : Prop := s.Blank ∧ t.Blank

/-- The next steps give the same word, or both streams are used up. -/
def Together (r r' : Step) : Prop :=
  Aligned Continuing BothBlank r r' ∧ Aligned (flip Continuing) (flip BothBlank) r' r

theorem Continuing.read_word {c : Char} {cs : List Char} {more : List (List Char × List Char)}
    (hpending : s.pending = [] ∧ t.pending = []) (hindents : t.indents = [])
    (hline : Plain (c :: cs)) (hskip : Lexeme.skipBlanks false (c :: cs) = c :: cs)
    (hmore : Deepening (s.indents.headD 0) more) :
    Together (s.read (c :: cs ++ onLines more)) (t.read (c :: cs ++ onOneLine more)) := by
  have hbreak := hline.lineBreak c List.mem_cons_self
  obtain ⟨w, hread, hplace, hclosed⟩ := exists_read_of_leaves hline.closed hskip hbreak
  obtain ⟨ds, -, hword⟩ := isWord_of_read hread
  have hrest : Plain w.rest := hline.place hplace hclosed
  have hkind := hword.kind_ne_terminator
  rw [List.cons_append, List.cons_append, read, read, if_neg (by simp [hbreak]),
    if_neg (by simp [hbreak]), read_append hread (parted_onLines more),
    read_append hread (parted_onOneLine more)]
  have hafter : Continuing { s with rest := w.rest ++ onLines more }
      { t with rest := w.rest ++ onOneLine more } := ⟨hpending, hindents, .rest hrest hmore⟩
  exact ⟨.word ⟨_, rfl⟩ hkind hafter, .word ⟨_, rfl⟩ hkind hafter⟩

theorem Continuing.next (h : Continuing s t) : Together s.next t.next := by
  obtain ⟨hpending, hindents, htexts⟩ := h
  rw [TokenStream.next, TokenStream.next, hpending.1, hpending.2]
  generalize s.rest = text, t.rest = text' at htexts
  obtain @⟨cs, more, hline, hmore⟩ := htexts
  dsimp only
  rw [hline.skipBlanks_append (parted_onLines more),
    hline.skipBlanks_append (parted_onOneLine more)]
  have hidem := skipBlanks_idem false cs
  have hleft := hline.skip false
  cases hcs : Lexeme.skipBlanks false cs with
  | cons c cs =>
    rw [hcs] at hidem hleft
    rw [if_neg (List.cons_ne_nil c cs), if_neg (List.cons_ne_nil c cs)]
    exact read_word hpending hindents hleft hidem hmore
  | nil =>
    rw [if_pos rfl, if_pos rfl]
    cases hmore with
    | nil =>
      -- One stream has lines to end where the other one ends.
      have hend : Lexeme.skipBlanks false [] = [] := by rw [Lexeme.skipBlanks]
      show Together (s.read (Lexeme.skipBlanks false [])) (t.read (Lexeme.skipBlanks false []))
      rw [hend]
      obtain ⟨o, s', hs, ho, hkept, hrest⟩ := s.read_stops last_nil.stops
      obtain ⟨o', t', ht, ho', hkept', hrest'⟩ := t.read_stops last_nil.stops
      have hblank : BothBlank s' t' :=
        ⟨⟨hrest.trans last_nil.skipBlanks_eq, pending_skipLines (hkept.trans hpending.1)⟩,
          hrest'.trans last_nil.skipBlanks_eq, pending_skipLines (hkept'.trans hpending.2)⟩
      rw [hs, ht]
      exact ⟨.stop ho ho' hblank, .stop ho' ho hblank⟩
    | @cons _ pad line more hpad hdeeper hnext hflush hmore =>
      -- The next line goes on where the other stream has a blank.
      have hbreak : Lexeme.skipBlanks false (onLines ((pad, line) :: more)) =
          '\n' :: (pad ++ (line ++ onLines more)) := by
        have hsplit : onLines ((pad, line) :: more) = '\n' :: (pad ++ (line ++ onLines more)) := by
          simp [onLines]
        rw [hsplit]
        exact skipBlanks_of_noComment rfl (by simp) (by rintro (h | h) <;> cases h)
      have hdeep : s.indents.headD 0 < (nextLine 0 (pad ++ (line ++ onLines more))).1 := by
        rw [nextLine_indented hpad hnext hflush, Nat.zero_add]
        exact hdeeper
      have hfeed : isLineBreak '\n' = true := rfl
      rw [hbreak, skipBlanks_onOneLine hnext hflush, read, if_pos hfeed, if_pos hdeep,
        nextLine_indented hpad hnext hflush, Nat.zero_add,
        hnext.skipBlanks_flush_append hflush (parted_onLines more)]
      have hstay := hnext.skipBlanks_flush hflush false
      obtain ⟨c, rest, rfl, -⟩ := hflush.exists_cons
      exact read_word (s := { s with indents := pad.length :: s.indents }) hpending hindents hnext
        hstay hmore

theorem Continuing.skipLines (h : Continuing s t) :
    BothBlank s t ∨ ¬ s.Blank ∧ ¬ t.Blank ∧ Continuing s.skipLines t.skipLines := by
  have hs := pending_skipLines h.handed.1
  have ht := pending_skipLines h.handed.2
  obtain ⟨hnil, hnil'⟩ | ⟨hne, hne', htexts⟩ := h.texts.skipLines
  · exact .inl ⟨⟨hnil, hs⟩, hnil', ht⟩
  · exact .inr ⟨fun hblank => hne hblank.1, fun hblank => hne' hblank.1, ⟨hs, ht⟩, h.indents, htexts⟩

theorem inStep_continuing : InStep Continuing BothBlank where
  handed h := h.handed
  next h := h.next.1
  skip h := by
    obtain h | h := h
    · exact h.skipLines.imp And.left fun h => h.2.2
    · exact .inl h.1

theorem inStep_continuing_flip : InStep (flip Continuing) (flip BothBlank) where
  handed h := h.handed.symm
  next h := h.next.2
  skip h := by
    obtain h | h := h
    · exact h.skipLines.imp And.right fun h => h.2.2
    · exact .inl h.2

/-- Nothing is left of either stream between statements, where nothing is left of the first one. -/
theorem Between.blank {C S : TokenStream → TokenStream → Prop} (hC : InStep C S)
    (hblank : ∀ s t, C s t ∨ S s t → s.Blank → t.Blank) (h : Between C S s t) (hs : s.Blank) :
    t.Blank := by
  cases h with
  | line h => exact hblank s t h hs
  | back h hsame hkind =>
    rw [Blank, skipLines_push (hC.handed h).1 hkind] at hs
    cases hs.2

theorem Continuing.blank (h : Continuing s t ∨ BothBlank s t) : s.Blank ↔ t.Blank := by
  obtain h | h := h
  · obtain h | h := h.skipLines
    · exact iff_of_true h.1 h.2
    · exact iff_of_false h.1 h.2.1
  · exact iff_of_true h.1 h.2

end TokenStream

namespace Program

open Parse TokenStream

variable {source source' : String} {c : Context}

/-- Sources over which streams stay in step say the same. -/
theorem parse_of_inStep {C S : TokenStream → TokenStream → Prop} (hC : InStep C S)
    (hblank : ∀ s t, C s t ∨ S s t → s.Blank → t.Blank)
    (hstart : C (.ofSource source) (.ofSource source')) {es : List Expr}
    (h : parse source c = .ok es) : parse source' c = .ok es := by
  obtain ⟨s, hrow, hs⟩ := parse_iff_row.1 h
  obtain ⟨t, hrow', hbetween, -⟩ := row_tracks (t := .ofSource source' c) hC hrow
    (.line (.inl hstart)) rfl
  exact parse_iff_row.2 ⟨t, hrow', hbetween.blank hC hblank hs⟩

theorem compile_of_continuing
    (hstart : Continuing (.ofSource source) (.ofSource source')) :
    (compile source c).toOption = (compile source' c).toOption := by
  have hthere {es : List Expr} (h : parse source c = .ok es) : parse source' c = .ok es :=
    parse_of_inStep inStep_continuing (fun _ _ h => (Continuing.blank h).1) hstart h
  have hback {es : List Expr} (h : parse source' c = .ok es) : parse source c = .ok es :=
    parse_of_inStep inStep_continuing_flip (fun _ _ h => (Continuing.blank h).2) hstart h
  unfold compile
  cases hs : parse source c with
  | ok es => rw [hthere hs]
  | error e =>
    cases ht : parse source' c with
    | ok es => exact nomatch hs.symm.trans (hback ht)
    | error e' => rfl

/-- Lines that go deeper one by one say what they say on one line: either both are refused or both
give the same. -/
theorem compile_continued {lines : List (String × String)} (hlines : ∀ l ∈ lines, IsLine l.1 l.2)
    (hfirst : ∀ l ∈ lines.head?, l.1 = "")
    (hdeeper : (lines.map fun l => l.1.length).Pairwise (· < ·)) :
    (compile ("\n".intercalate (lines.map fun l => l.1 ++ l.2)) c).toOption =
      (compile (" ".intercalate (lines.map fun l => l.2)) c).toOption := by
  cases lines with
  | nil => rfl
  | cons l lines =>
    obtain ⟨pad, text⟩ := l
    obtain rfl : pad = "" := hfirst (pad, text) rfl
    rw [List.forall_mem_cons] at hlines
    refine compile_of_continuing ⟨⟨rfl, rfl⟩, rfl, ?_⟩
    show Joined 0 (String.toList _) (String.toList _)
    rw [toList_lines, toList_line]
    exact .rest hlines.1.plain (deepening_of_pairwise hlines.2 hdeeper)

set_option maxRecDepth 4000 in
theorem compile_continued_function :
    let lines := [("", "f x ="), ("  ", "g"), ("   ", "\"a\" x ")]
    (∀ l ∈ lines, IsLine l.1 l.2) ∧ (∀ l ∈ lines.head?, l.1 = "") ∧
      (lines.map fun l => l.1.length).Pairwise (· < ·) ∧
      (compile "f x =\n  g\n   \"a\" x ").toOption = some "function f(x) \x7b return g(\"a\", x); \x7d;\n" := by
  intro lines
  have hfunction : IsLine "" "f x =" := by
    refine ⟨nofun, ⟨'f', rfl, rfl⟩, by simp [isLineBreak], throughout_of_tails (by decide),
      [⟨.name, "f", ⟨0, 1⟩⟩, ⟨.name, "x", ⟨2, 3⟩⟩, ⟨.symbol, "=", ⟨4, 5⟩⟩], ?_⟩
    have hsize : (ofSource "f x =").size < 20 := by decide
    rw [← tokensWithin_eq_tokens hsize]
    cbv
  have hcallee : IsLine "  " "g" := by
    refine ⟨by simp [isBlank, isLineBreak], ⟨'g', rfl, rfl⟩, by simp [isLineBreak],
      throughout_of_tails (by decide), [⟨.name, "g", ⟨0, 1⟩⟩], ?_⟩
    have hsize : (ofSource "g").size < 20 := by decide
    rw [← tokensWithin_eq_tokens hsize]
    cbv
  have harguments : IsLine "   " "\"a\" x " := by
    refine ⟨by simp [isBlank, isLineBreak], ⟨'"', rfl, rfl⟩, by simp [isLineBreak],
      throughout_of_tails (by decide), [⟨.string, "a", ⟨0, 3⟩⟩, ⟨.name, "x", ⟨4, 5⟩⟩], ?_⟩
    have hsize : (ofSource "\"a\" x ").size < 20 := by decide
    rw [← tokensWithin_eq_tokens hsize]
    cbv
  have hlines : ∀ l ∈ lines, IsLine l.1 l.2 := by
    simp only [lines, List.forall_mem_cons]
    exact ⟨hfunction, hcallee, harguments, List.forall_mem_nil _⟩
  have hfirst : ∀ l ∈ lines.head?, l.1 = "" := fun l hl => Option.mem_some.1 hl ▸ rfl
  have hdeeper : (lines.map fun l => l.1.length).Pairwise (· < ·) := by decide
  have honeLine : (compile (" ".intercalate (lines.map fun l => l.2))).toOption =
      some "function f(x) \x7b return g(\"a\", x); \x7d;\n" := by
    subst lines
    cbv
  exact ⟨hlines, hfirst, hdeeper, (compile_continued hlines hfirst hdeeper).trans honeLine⟩

end Program

end Offside
