import Offside.Proofs.Parse.ReadAlike
import Offside.Proofs.Token.Lines

namespace Offside

open Lexeme

namespace Lexeme.SameLines

variable {c : Char} {cs ds : List Char}

theorem exists_lineBreak (h : SameLines (c :: cs) ds) (hc : isLineBreak c = true) :
    ∃ d rest, ds = d :: rest ∧ isLineBreak d = true := by
  cases ds with
  | nil => exact nomatch h.symm.eq_nil
  | cons d rest =>
    refine ⟨d, rest, rfl, ?_⟩
    by_contra hd
    obtain ⟨rest', heq, -⟩ := h.symm.exists_cons (Bool.eq_false_iff.2 hd)
    rw [(List.cons.inj heq).1] at hc
    exact hd hc

/-- The next lines that are not blank are the same, if there are any. -/
theorem nextLine_cons {d : Char} (h : SameLines (c :: cs) (d :: ds)) (hc : isLineBreak c = true)
    (hd : isLineBreak d = true) :
    (Lexeme.nextLine 0 cs).2 = [] ∧ (Lexeme.nextLine 0 ds).2 = [] ∨
      (Lexeme.nextLine 0 ds).1 = (Lexeme.nextLine 0 cs).1 ∧
        SameLines (Lexeme.nextLine 0 cs).2 (Lexeme.nextLine 0 ds).2 := by
  have hline := h.nextLine 0
  rwa [Lexeme.nextLine, if_pos hc, Lexeme.nextLine, if_pos hd] at hline

end Lexeme.SameLines

namespace Lexeme

/-- Two texts with the same lines, in which no string spans lines. -/
structure Relined (cs ds : List Char) : Prop where
  lines : SameLines cs ds
  oneLine : Throughout OneLine cs ∨ Throughout OneLine ds

section

variable {cs ds cs' ds' : List Char}

theorem Relined.symm (h : Relined cs ds) : Relined ds cs := ⟨h.lines.symm, h.oneLine.symm⟩

theorem Relined.place (h : Relined cs ds) (hlines : SameLines cs' ds') (hcs : Place cs cs')
    (hds : Place ds ds') : Relined cs' ds' :=
  ⟨hlines, h.oneLine.imp (·.place hcs) (·.place hds)⟩

theorem place_cons_nextLine {c : Char} (hc : isLineBreak c = true) (cs : List Char) :
    Place (c :: cs) (nextLine 0 cs).2 :=
  (place_gap (.inr hc) cs).trans (place_nextLine 0 cs)

end

theorem readAlike_relined : ReadAlike [] Relined (· = []) where
  blanks h := h.place (h.lines.skipBlanks false) (place_skipBlanks false _) (place_skipBlanks false _)
  lines h :=
    .inr (h.place (h.lines.skipBlanks true) (place_skipBlanks true _) (place_skipBlanks true _))
  used h hnil := (hnil ▸ h.lines.skipBlanks true).eq_nil
  last {cs ds} h hlast := by
    rintro d ds' rfl
    cases cs with
    | nil => cases h.lines.eq_nil
    | cons c cs =>
      obtain ⟨hc, hnil⟩ := hlast c cs rfl
      obtain ⟨_, _, ⟨⟩, hd⟩ := h.lines.exists_lineBreak hc
      refine ⟨hd, .inr ?_⟩
      obtain hend | ⟨-, hline⟩ := h.lines.nextLine_cons hc hd
      · exact hend.2
      · exact (hnil ▸ hline).eq_nil
  line {c cs ds} h hc hline := by
    obtain ⟨d, ds', rfl, hd⟩ := h.lines.exists_lineBreak hc
    obtain ⟨hwidth, hlines⟩ := (h.lines.nextLine_cons hc hd).resolve_left fun hend => hline hend.1
    exact ⟨d, ds', rfl, hd, hwidth,
      h.place hlines (place_cons_nextLine hc cs) (place_cons_nextLine hd ds')⟩
  deeper _ _ _ _ _ hlevel := nomatch hlevel
  word h hskip hskip' hc hread := by
    obtain ⟨ds', rfl, hlines⟩ := h.lines.exists_cons hc
    obtain ⟨rest, hread', hrest⟩ := hlines.read (h.oneLine.imp (·.here) (·.here)) hread
    exact ⟨ds', rest, rfl, hread',
      h.place hrest (place_word hskip hc hread) (place_word hskip' hc hread')⟩

/-- The second text is the first one, but for line feeds that are written with a carriage return
before them, or with blank lines behind them. -/
inductive Respaced : List Char → List Char → Prop
  | nil : Respaced [] []
  | keep {cs ds : List Char} (c : Char) (h : Respaced cs ds) : Respaced (c :: cs) (c :: ds)
  | carriageReturn {cs ds : List Char} (h : Respaced cs ds) :
      Respaced ('\n' :: cs) ('\r' :: '\n' :: ds)
  | blankLines {cs ds lines : List Char}
      (hlines : ∀ c ∈ lines, isBlank c = true ∨ isLineBreak c = true) (h : Respaced cs ds) :
      Respaced ('\n' :: cs) ('\n' :: (lines ++ '\n' :: ds))
  /-- The end of the source may end the last blank line. -/
  | lastLines {lines : List Char} (hlines : ∀ c ∈ lines, isBlank c = true ∨ isLineBreak c = true) :
      Respaced ['\n'] ('\n' :: lines)

theorem Respaced.sameLines {cs ds : List Char} (h : Respaced cs ds) : SameLines cs ds := by
  have hone {c : Char} (hc : isLineBreak c = true) : Gap [c] ∧ Ended [c] :=
    ⟨⟨fun d hd => .inr (List.mem_singleton.1 hd ▸ hc), c, rfl, hc⟩, c, rfl, hc⟩
  have hgap {lines : List Char} (hlines : ∀ c ∈ lines, isBlank c = true ∨ isLineBreak c = true) :
      Gap ('\n' :: lines) :=
    ⟨List.forall_mem_cons.2 ⟨.inr rfl, hlines⟩, '\n', rfl, rfl⟩
  induction h with
  | nil => exact .nil
  | @keep cs ds c _ ih =>
    cases hc : isLineBreak c with
    | false => exact .char hc ih
    | true => exact .gap (hone hc).1 (hone hc).1 (.inl ⟨(hone hc).2, (hone hc).2⟩) ih
  | carriageReturn _ ih =>
    have hfeed := hone (c := '\n') rfl
    have hboth : Gap ['\r', '\n'] :=
      ⟨List.forall_mem_cons.2 ⟨.inr rfl, hfeed.1.row⟩, '\r', rfl, rfl⟩
    exact .gap hfeed.1 hboth (.inl ⟨hfeed.2, '\n', rfl, rfl⟩) ih
  | @blankLines cs ds lines hlines _ ih =>
    have hfeed := hone (c := '\n') rfl
    have hrow : ∀ c ∈ lines ++ ['\n'], isBlank c = true ∨ isLineBreak c = true :=
      List.forall_mem_append.2 ⟨hlines, hfeed.1.row⟩
    have hended : Ended ('\n' :: (lines ++ ['\n'])) :=
      ⟨'\n', List.getLast?_concat (l := '\n' :: lines), rfl⟩
    have hsplit : '\n' :: (lines ++ '\n' :: ds) = '\n' :: (lines ++ ['\n']) ++ ds := by simp
    rw [hsplit]
    exact .gap hfeed.1 (hgap hrow) (.inl ⟨hfeed.2, hended⟩) ih
  | @lastLines lines hlines =>
    have h := SameLines.gap (hone (c := '\n') rfl).1 (hgap hlines) (.inr ⟨rfl, rfl⟩) .nil
    rwa [List.append_nil, List.append_nil] at h

end Lexeme

namespace Program

variable {source source' : String} {c : Context} {es : List Expr}

open Parse

theorem parse_of_relined (hlines : Relined source.toList source'.toList)
    (h : parse source c = .ok es) : parse source' c = .ok es := by
  obtain ⟨s, hrow, hblank⟩ := parse_iff_row.1 h
  have hstart : TokenStream.Abreast [] Relined (.ofSource source) (.ofSource source') :=
    ⟨⟨rfl, rfl⟩, ⟨[], nofun, rfl⟩, hlines⟩
  obtain ⟨t, hrow', hpending, hrest⟩ := row_readAlike (t := .ofSource source' c) readAlike_relined hrow
    hblank (.line (.inl hstart)) rfl
  exact parse_iff_row.2 ⟨t, hrow', hrest, hpending⟩

/-- Line ends and blank lines do not matter: either both sources are refused or both give the same. -/
theorem compile_respaced (h : Respaced source.toList source'.toList)
    (hone : Throughout OneLine source.toList) :
    (compile source' c).toOption = (compile source c).toOption := by
  have hlines : Relined source.toList source'.toList := ⟨h.sameLines, .inl hone⟩
  unfold compile
  cases hs : parse source c with
  | ok es => rw [parse_of_relined hlines hs]
  | error e =>
    cases ht : parse source' c with
    | ok es => exact nomatch hs.symm.trans (parse_of_relined hlines.symm ht)
    | error e' => rfl

set_option maxRecDepth 4000 in
theorem compile_respaced_continued :
    let source := "f\n  \"x\" 1\ng 2\n"
    let source' := "f\r\n  \"x\" 1\n \t\n\r\ng 2\n  "
    Respaced source.toList source'.toList ∧ Throughout OneLine source.toList ∧
      (compile source').toOption = (compile source).toOption ∧
      compile source = .ok "f(\"x\", 1);\ng(2);\n" := by
  intro source source'
  have hgap {c : Char} {cs : List Char} (hc : isBlank c = true ∨ isLineBreak c = true)
      (hcs : ∀ c ∈ cs, isBlank c = true ∨ isLineBreak c = true) :
      ∀ d ∈ c :: cs, isBlank d = true ∨ isLineBreak d = true := List.forall_mem_cons.2 ⟨hc, hcs⟩
  have hend : Respaced ['\n'] ['\n', ' ', ' '] :=
    .lastLines (hgap (.inl rfl) (hgap (.inl rfl) nofun))
  have hlines : Respaced ('\n' :: 'g' :: ' ' :: '2' :: ['\n'])
      ('\n' :: ([' ', '\t', '\n', '\r'] ++ '\n' :: 'g' :: ' ' :: '2' :: ['\n', ' ', ' '])) :=
    .blankLines (hgap (.inl rfl) (hgap (.inl rfl) (hgap (.inr rfl) (hgap (.inr rfl) nofun))))
      (.keep 'g' (.keep ' ' (.keep '2' hend)))
  have hspaced : Respaced source.toList source'.toList := by
    simp only [source, source', String.reduceToList]
    exact .keep 'f' (.carriageReturn (.keep ' ' (.keep ' ' (.keep '"' (.keep 'x' (.keep '"'
      (.keep ' ' (.keep '1' hlines))))))))
  have hone : Throughout OneLine source.toList := oneLine_of_not_infix (by decide)
  have hcompile : compile source = .ok "f(\"x\", 1);\ng(2);\n" := by cbv
  exact ⟨hspaced, hone, compile_respaced hspaced hone, hcompile⟩

end Program

end Offside
