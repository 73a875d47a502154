import Offside.Proofs.Token.Cover

namespace Offside.Lexeme

/-- What is left behind the blank, the line break, the comment or the word at the head of a text. -/
def after : List Char → List Char
  | [] => []
  | '-' :: '-' :: rest => rest.dropWhile fun c => !isLineBreak c
  | '\x7b' :: '-' :: rest => afterComment 1 rest
  | c :: rest => if isBlank c || isLineBreak c then rest else left (read c rest)

theorem afterComment_char {c : Char} {cs : List Char} (hopen : ¬ (c = '\x7b' ∧ ∃ tail, cs = '-' :: tail))
    (hclose : ¬ (c = '-' ∧ ∃ tail, cs = '\x7d' :: tail)) {depth : Nat} :
    afterComment (depth + 1) (c :: cs) = afterComment (depth + 1) cs := by
  rw [afterComment]
  · exact fun tail hc hcs => hopen ⟨hc, tail, hcs⟩
  · exact fun tail hc hcs => hclose ⟨hc, tail, hcs⟩

/-- A reader of the first text comes to the second one. -/
inductive Place (cs : List Char) : List Char → Prop
  | here : Place cs cs
  | next {ds : List Char} (h : Place cs ds) : Place cs (after ds)

/-- Wherever a reader of the text comes to, `P` holds of what is left. -/
def Throughout (P : List Char → Prop) (cs : List Char) : Prop := ∀ ds, Place cs ds → P ds

section

variable {cs ds es : List Char} {P : List Char → Prop}

theorem Place.trans (h : Place cs ds) (h' : Place ds es) : Place cs es := by
  induction h' with
  | here => exact h
  | next _ ih => exact .next ih

theorem Throughout.here (h : Throughout P cs) : P cs := h cs .here

theorem Throughout.place (h : Throughout P cs) (hplace : Place cs ds) : Throughout P ds :=
  fun es hes => h es (hplace.trans hes)

theorem place_after (cs : List Char) : Place cs (after cs) := .next .here

theorem after_gap {c : Char} (h : isBlank c = true ∨ isLineBreak c = true) (cs : List Char) :
    after (c :: cs) = cs := by
  have hne {d : Char} (hd : isBlank d = false ∧ isLineBreak d = false) : c ≠ d := by
    rintro rfl
    simp [hd] at h
  rw [after, if_pos (by simpa using h)]
  · exact fun _ hc => absurd hc (hne ⟨rfl, rfl⟩)
  · exact fun _ hc => absurd hc (hne ⟨rfl, rfl⟩)

theorem after_word {c : Char} (hblank : isBlank c = false) (hbreak : isLineBreak c = false)
    (hcomment : NoComment c cs) : after (c :: cs) = left (read c cs) := by
  rw [after, if_neg (by simp [hblank, hbreak])]
  · rintro rest rfl rfl
    exact hcomment (.inl rfl) rfl
  · rintro rest rfl rfl
    exact hcomment (.inr rfl) rfl

theorem place_gap {c : Char} (h : isBlank c = true ∨ isLineBreak c = true) (cs : List Char) :
    Place (c :: cs) cs := by
  have hafter := place_after (c :: cs)
  rwa [after_gap h] at hafter

theorem place_word {c : Char} {w : Word} (hskip : skipBlanks false (c :: cs) = c :: cs)
    (hbreak : isLineBreak c = false) (hw : read c cs = .ok w) : Place (c :: cs) w.rest := by
  obtain ⟨hblank, -, hcomment⟩ := noComment_of_skipBlanks hskip
  have hafter := place_after (c :: cs)
  rwa [after_word hblank hbreak hcomment, hw] at hafter

theorem place_skipBlanks (lines : Bool) (cs : List Char) : Place cs (skipBlanks lines cs) := by
  fun_induction skipBlanks lines cs with
  | case1 => exact .here
  | case2 rest ih => exact (place_after ('-' :: '-' :: rest)).trans ih
  | case3 rest ih => exact (place_after ('\x7b' :: '-' :: rest)).trans ih
  | case4 c rest _ _ hgap ih =>
    have hc : isBlank c = true ∨ isLineBreak c = true := by
      rw [Bool.or_eq_true, Bool.and_eq_true] at hgap
      exact hgap.imp_right And.right
    exact (place_gap hc rest).trans ih
  | case5 => exact .here

theorem place_nextLine (width : Nat) (cs : List Char) : Place cs (nextLine width cs).2 := by
  fun_induction nextLine width cs with
  | case1 => exact .here
  | case2 width c cs h ih => exact (place_gap (.inr h) cs).trans ih
  | case3 width c cs _ h ih => exact (place_gap (.inl h) cs).trans ih
  | case4 => exact .here

theorem after_suffix (cs : List Char) : after cs <:+ cs := by
  fun_cases after cs with
  | case1 => exact List.suffix_rfl
  | case2 rest =>
    exact ((List.dropWhile_suffix _).trans (List.suffix_cons '-' rest)).trans (List.suffix_cons '-' _)
  | case3 rest =>
    obtain ⟨comment, hcomment⟩ := exists_append_afterComment 1 rest
    exact ⟨'\x7b' :: '-' :: comment, congrArg (fun ds => '\x7b' :: '-' :: ds) hcomment.symm⟩
  | case4 c rest => exact List.suffix_cons c rest
  | case5 c rest =>
    cases hr : read c rest with
    | error tail =>
      obtain ⟨word, hword⟩ := TokenStream.exists_append_read hr
      exact ⟨word, hword.symm⟩
    | ok w =>
      obtain ⟨ds, hds, -⟩ := isWord_of_read hr
      exact ⟨c :: ds, congrArg (c :: ·) hds.symm⟩

theorem Place.suffix (h : Place cs ds) : ds <:+ cs := by
  induction h with
  | here => exact List.suffix_rfl
  | next _ ih => exact (after_suffix _).trans ih

theorem throughout_of_tails (h : ∀ ds ∈ cs.tails, P ds) : Throughout P cs :=
  fun ds hds => h ds ((List.mem_tails ds cs).2 hds.suffix)

end

end Offside.Lexeme
