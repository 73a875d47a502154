import Offside.Proofs.Token.Places

namespace Offside.Lexeme

/-- Blanks and line breaks, from a line break on. -/
structure Gap (gap : List Char) : Prop where
  row : ∀ c ∈ gap, isBlank c = true ∨ isLineBreak c = true
  first : ∃ c ∈ gap.head?, isLineBreak c = true

/-- What follows begins a line. -/
def Ended (gap : List Char) : Prop := ∃ c ∈ gap.getLast?, isLineBreak c = true

/-- Two texts with the same characters on the same lines. A last line of blanks need not be ended. -/
inductive SameLines : List Char → List Char → Prop
  | nil : SameLines [] []
  | char {c : Char} {cs ds : List Char} (hc : isLineBreak c = false) (h : SameLines cs ds) :
      SameLines (c :: cs) (c :: ds)
  | gap {gap gap' cs ds : List Char} (hgap : Gap gap) (hgap' : Gap gap')
      (hends : Ended gap ∧ Ended gap' ∨ cs = [] ∧ ds = []) (h : SameLines cs ds) :
      SameLines (gap ++ cs) (gap' ++ ds)

section

variable {gap cs : List Char}

theorem Gap.exists_cons (h : Gap gap) : ∃ c rest, gap = c :: rest ∧ isLineBreak c = true := by
  obtain ⟨c, hc, hbreak⟩ := h.first
  obtain ⟨rest, rfl⟩ := List.head?_eq_some_iff.1 hc
  exact ⟨c, rest, rfl, hbreak⟩

theorem not_blank_of_lineBreak {c : Char} (h : isLineBreak c = true) : isBlank c = false := by
  simp [isBlank, h]

theorem skipBlanks_row (h : ∀ c ∈ gap, isBlank c = true ∨ isLineBreak c = true) :
    skipBlanks true (gap ++ cs) = skipBlanks true cs := by
  induction gap with
  | nil => rfl
  | cons c gap ih =>
    rw [List.forall_mem_cons] at h
    rw [List.cons_append, skipBlanks_cons (h.1.imp_right fun hbreak => ⟨rfl, hbreak⟩), ih h.2]

theorem skipBlanks_gap (h : Gap gap) : skipBlanks false (gap ++ cs) = gap ++ cs := by
  obtain ⟨c, rest, rfl, hbreak⟩ := h.exists_cons
  refine skipBlanks_of_noComment (not_blank_of_lineBreak hbreak) nofun ?_
  rintro (rfl | rfl) <;> cases hbreak

theorem dropWhile_gap (h : Gap gap) :
    (gap ++ cs).dropWhile (fun c => !isLineBreak c) = gap ++ cs := by
  obtain ⟨c, rest, rfl, hbreak⟩ := h.exists_cons
  exact List.dropWhile_cons_of_neg (by simp [hbreak])

theorem afterComment_row (h : ∀ c ∈ gap, isBlank c = true ∨ isLineBreak c = true) (depth : Nat) :
    afterComment (depth + 1) (gap ++ cs) = afterComment (depth + 1) cs := by
  induction gap with
  | nil => rfl
  | cons c gap ih =>
    rw [List.forall_mem_cons] at h
    rw [List.cons_append, afterComment_char, ih h.2]
    · rintro ⟨rfl, -⟩
      exact absurd h.1 (by decide)
    · rintro ⟨rfl, -⟩
      exact absurd h.1 (by decide)

theorem nextLine_row (h : ∀ c ∈ gap, isBlank c = true ∨ isLineBreak c = true) (width : Nat) :
    (nextLine width gap).2 = [] := by
  induction gap generalizing width with
  | nil => rfl
  | cons c gap ih =>
    rw [List.forall_mem_cons] at h
    rw [nextLine]
    split
    · exact ih h.2 0
    · next hbreak =>
      rw [if_pos (h.1.resolve_right hbreak)]
      exact ih h.2 (width + 1)

theorem nextLine_ended (h : ∀ c ∈ gap, isBlank c = true ∨ isLineBreak c = true)
    (hlast : Ended gap) (width : Nat) :
    nextLine width (gap ++ cs) = nextLine 0 cs := by
  induction gap generalizing width with
  | nil =>
    obtain ⟨c, hc, -⟩ := hlast
    cases hc
  | cons c gap ih =>
    rw [List.forall_mem_cons] at h
    rw [List.cons_append, nextLine]
    cases gap with
    | nil =>
      obtain ⟨d, hd, hbreak⟩ := hlast
      obtain rfl : c = d := Option.some.inj hd
      rw [if_pos hbreak]
      rfl
    | cons d gap =>
      rw [Ended, List.getLast?_cons_cons] at hlast
      split
      · exact ih h.2 hlast 0
      · next hbreak =>
        rw [if_pos (h.1.resolve_right hbreak)]
        exact ih h.2 hlast (width + 1)

theorem splitAtQuotes_row (h : ∀ c ∈ gap, isBlank c = true ∨ isLineBreak c = true) :
    (splitAtQuotes (gap ++ cs)).isSome = (splitAtQuotes cs).isSome := by
  induction gap with
  | nil => rfl
  | cons c gap ih =>
    rw [List.forall_mem_cons] at h
    rw [List.cons_append, splitAtQuotes_cons, Option.isSome_map, ih h.2]
    rintro rest heq
    rw [(List.cons.inj heq).1] at h
    exact absurd h.1 (by decide)

end

theorem not_lineBreak_of_mem_quotes : ∀ c ∈ quotes, isLineBreak c = false := by
  intro c hc
  obtain rfl : c = '"' := by simpa [quotes] using hc
  rfl

namespace SameLines

variable {cs ds : List Char}

theorem symm (h : SameLines cs ds) : SameLines ds cs := by
  induction h with
  | nil => exact .nil
  | char hc _ ih => exact .char hc ih
  | gap hgap hgap' hends _ ih => exact .gap hgap' hgap (hends.imp And.symm And.symm) ih

theorem eq_nil (h : SameLines [] ds) : ds = [] := by
  generalize hcs : ([] : List Char) = cs at h
  cases h with
  | nil => rfl
  | char => cases hcs
  | gap hgap =>
    obtain ⟨c, rest, rfl, -⟩ := hgap.exists_cons
    cases hcs

theorem exists_cons {c : Char} (hc : isLineBreak c = false) (h : SameLines (c :: cs) ds) :
    ∃ rest, ds = c :: rest ∧ SameLines cs rest := by
  generalize hcs : c :: cs = text at h
  cases h with
  | nil => cases hcs
  | char _ h =>
    cases hcs
    exact ⟨_, rfl, h⟩
  | gap hgap =>
    obtain ⟨d, rest, rfl, hd⟩ := hgap.exists_cons
    rw [(List.cons.inj hcs).1, hd] at hc
    cases hc

/-- What stands on one line is the same in both texts. -/
theorem exists_append {line : List Char} (hline : ∀ c ∈ line, isLineBreak c = false)
    (h : SameLines (line ++ cs) ds) : ∃ rest, ds = line ++ rest ∧ SameLines cs rest := by
  induction line generalizing ds with
  | nil => exact ⟨ds, rfl, h⟩
  | cons c line ih =>
    rw [List.forall_mem_cons] at hline
    obtain ⟨tail, rfl, htail⟩ := exists_cons hline.1 h
    obtain ⟨rest, rfl, hrest⟩ := ih hline.2 htail
    exact ⟨rest, rfl, hrest⟩

theorem front (h : SameLines cs ds) : SameFront cs ds := by
  have hparted {gap : List Char} (hgap : Gap gap) (tail : List Char) : Parted (gap ++ tail) := by
    obtain ⟨c, rest, rfl, hc⟩ := hgap.exists_cons
    exact parted_cons (.inr hc) _
  cases h with
  | nil => exact .parted parted_nil parted_nil
  | char _ h =>
    cases h with
    | nil => exact .one parted_nil parted_nil
    | char => exact .two
    | gap hgap hgap' => exact .one (hparted hgap _) (hparted hgap' _)
  | gap hgap hgap' => exact .parted (hparted hgap _) (hparted hgap' _)

theorem dropWhile (h : SameLines cs ds) :
    SameLines (cs.dropWhile fun c => !isLineBreak c) (ds.dropWhile fun c => !isLineBreak c) := by
  induction h with
  | nil => exact .nil
  | char hc _ ih =>
    rw [List.dropWhile_cons_of_pos (by simp [hc]), List.dropWhile_cons_of_pos (by simp [hc])]
    exact ih
  | gap hgap hgap' hends h =>
    rw [dropWhile_gap hgap, dropWhile_gap hgap']
    exact .gap hgap hgap' hends h

/-- A comment ends at the same place in both texts. -/
theorem afterComment (depth : Nat) (h : SameLines cs ds) :
    SameLines (afterComment depth cs) (afterComment depth ds) := by
  induction hn : cs.length using Nat.strong_induction_on generalizing depth cs ds with
  | _ n ih =>
    subst hn
    cases depth with
    | zero =>
      rw [Lexeme.afterComment, Lexeme.afterComment]
      exact h
    | succ depth =>
      cases h with
      | nil => exact .nil
      | @gap gap gap' cs ds hgap hgap' _ h =>
        rw [afterComment_row hgap.row, afterComment_row hgap'.row]
        obtain ⟨c, rest, rfl, -⟩ := hgap.exists_cons
        exact ih cs.length (by simp) (depth + 1) h rfl
      | @char c cs ds hc h =>
        by_cases hopen : c = '\x7b' ∧ ∃ tail, cs = '-' :: tail
        · obtain ⟨rfl, cs, rfl⟩ := hopen
          obtain ⟨ds, rfl, htail⟩ := h.exists_cons rfl
          rw [Lexeme.afterComment, Lexeme.afterComment]
          exact ih cs.length (by simp) (depth + 2) htail rfl
        by_cases hclose : c = '-' ∧ ∃ tail, cs = '\x7d' :: tail
        · obtain ⟨rfl, cs, rfl⟩ := hclose
          obtain ⟨ds, rfl, htail⟩ := h.exists_cons rfl
          rw [Lexeme.afterComment, Lexeme.afterComment]
          exact ih cs.length (by simp) depth htail rfl
        have hsame {d e : Char} (he : isLineBreak e = false)
            (hcs : ¬ (c = d ∧ ∃ tail, cs = e :: tail)) : ¬ (c = d ∧ ∃ tail, ds = e :: tail) := by
          rintro ⟨rfl, tail, rfl⟩
          obtain ⟨tail, rfl, -⟩ := h.symm.exists_cons he
          exact hcs ⟨rfl, tail, rfl⟩
        rw [afterComment_char hopen hclose, afterComment_char (hsame rfl hopen) (hsame rfl hclose)]
        exact ih cs.length (by simp) (depth + 1) h rfl

theorem nextLine (h : SameLines cs ds) (width : Nat) :
    (nextLine width cs).2 = [] ∧ (nextLine width ds).2 = [] ∨
      (nextLine width ds).1 = (nextLine width cs).1 ∧
        SameLines (nextLine width cs).2 (nextLine width ds).2 := by
  induction h generalizing width with
  | nil => exact .inl ⟨rfl, rfl⟩
  | @char c cs ds hc h ih =>
    have hbreak : ¬ isLineBreak c = true := by simp [hc]
    rw [Lexeme.nextLine, Lexeme.nextLine, if_neg hbreak, if_neg hbreak]
    split
    · exact ih (width + 1)
    · exact .inr ⟨rfl, .char hc h⟩
  | gap hgap hgap' hends h ih =>
    obtain ⟨hended, hended'⟩ | ⟨rfl, rfl⟩ := hends
    · rw [nextLine_ended hgap.row hended, nextLine_ended hgap'.row hended']
      exact ih 0
    · rw [List.append_nil, List.append_nil]
      exact .inl ⟨nextLine_row hgap.row width, nextLine_row hgap'.row width⟩

theorem skipBlanks (lines : Bool) (h : SameLines cs ds) :
    SameLines (skipBlanks lines cs) (skipBlanks lines ds) := by
  induction hn : cs.length using Nat.strong_induction_on generalizing cs ds with
  | _ n ih =>
    subst hn
    cases h with
    | nil =>
      rw [Lexeme.skipBlanks]
      exact .nil
    | @gap gap gap' cs ds hgap hgap' hends h =>
      cases lines with
      | false =>
        rw [skipBlanks_gap hgap, skipBlanks_gap hgap']
        exact .gap hgap hgap' hends h
      | true =>
        rw [skipBlanks_row hgap.row, skipBlanks_row hgap'.row]
        obtain ⟨c, rest, rfl, -⟩ := hgap.exists_cons
        exact ih cs.length (by simp) h rfl
    | @char c cs ds hc h =>
      by_cases hblank : isBlank c = true
      · rw [skipBlanks_cons (.inl hblank), skipBlanks_cons (.inl hblank)]
        exact ih cs.length (by simp) h rfl
      by_cases hcomment : NoComment c cs
      · have hcomment' : NoComment c ds := by
          intro hcd hhead
          obtain ⟨tail, rfl⟩ := List.head?_eq_some_iff.1 hhead
          obtain ⟨tail, rfl, -⟩ := h.symm.exists_cons rfl
          exact hcomment hcd rfl
        have hblank := Bool.eq_false_iff.2 hblank
        rw [skipBlanks_of_noComment hblank (fun _ => hc) hcomment,
          skipBlanks_of_noComment hblank (fun _ => hc) hcomment']
        exact .char hc h
      · rw [NoComment, Classical.not_imp, not_not] at hcomment
        obtain ⟨hcd, hhead⟩ := hcomment
        obtain ⟨cs, rfl⟩ := List.head?_eq_some_iff.1 hhead
        obtain ⟨ds, rfl, htail⟩ := h.exists_cons rfl
        rcases hcd with rfl | rfl
        · rw [Lexeme.skipBlanks, Lexeme.skipBlanks]
          refine ih _ ?_ htail.dropWhile rfl
          have := dropWhile_length_le (fun c => !isLineBreak c) cs
          simp only [List.length_cons]
          omega
        · rw [Lexeme.skipBlanks, Lexeme.skipBlanks]
          refine ih _ ?_ (htail.afterComment 1) rfl
          have := afterComment_length_le 1 cs
          simp only [List.length_cons]
          omega

theorem splitAtQuotes (h : SameLines cs ds) :
    (splitAtQuotes cs).isSome = true → (splitAtQuotes ds).isSome = true := by
  induction h with
  | nil => exact id
  | gap hgap hgap' _ _ ih =>
    rw [splitAtQuotes_row hgap.row, splitAtQuotes_row hgap'.row]
    exact ih
  | @char c cs ds hc h ih =>
    by_cases hquotes : ∃ rest, c :: ds = quotes ++ rest
    · obtain ⟨rest, hquotes⟩ := hquotes
      rw [hquotes, splitAtQuotes_quotes]
      exact fun _ => rfl
    · have hcs : ∀ rest, c :: cs ≠ quotes ++ rest := by
        intro rest heq
        have hsame : SameLines (quotes ++ rest) (c :: ds) := heq ▸ .char hc h
        obtain ⟨tail, hds, -⟩ := hsame.exists_append not_lineBreak_of_mem_quotes
        exact hquotes ⟨tail, hds⟩
      rw [splitAtQuotes_cons hcs, splitAtQuotes_cons fun rest heq => hquotes ⟨rest, heq⟩,
        Option.isSome_map, Option.isSome_map]
      exact ih

end SameLines

/-- If a string begins here it stands on one line. -/
def OneLine (text : List Char) : Prop :=
  ∀ c cs w, text = c :: cs → read c cs = .ok w → w.kind = .string →
    ∀ d ∈ w.text, isLineBreak d = false

section

variable {cs ds : List Char} {c : Char} {w : Word}

/-- No word but a string goes on over a line break. -/
theorem IsWord.not_lineBreak {spelling text rest : List Char} {kind : TokenKind}
    (h : IsWord (c :: spelling) kind text rest)
    (htext : kind = .string → ∀ d ∈ text, isLineBreak d = false) :
    ∀ d ∈ spelling, isLineBreak d = false := by
  have hchars {p : Char → Bool}
      (hp : ∀ c, isBlank c = true ∨ isLineBreak c = true → p c = false) {ds : List Char}
      (hds : ∀ d ∈ ds, p d = true) : ∀ d ∈ ds, isLineBreak d = false := fun d hd =>
    Bool.eq_false_iff.2 fun hbreak => nomatch (hds d hd).symm.trans (hp d (.inr hbreak))
  cases h with
  | short _ _ =>
    exact List.forall_mem_append.2 ⟨htext rfl, fun d hd => List.mem_singleton.1 hd ▸ rfl⟩
  | long _ =>
    have hall : ∀ d ∈ quotes ++ text ++ quotes, isLineBreak d = false :=
      List.forall_mem_append.2 ⟨List.forall_mem_append.2 ⟨not_lineBreak_of_mem_quotes, htext rfl⟩,
        not_lineBreak_of_mem_quotes⟩
    exact (List.forall_mem_cons.1 hall).2
  | name _ hcs _ => exact hchars (fun _ => not_nameChar_of_gap) hcs
  | integer hcs _ _ =>
    exact hchars (fun _ => not_digit_of_gap) (List.forall_mem_cons.1 hcs).2
  | float hcs hds _ =>
    refine List.forall_mem_append.2 ⟨?_, List.forall_mem_cons.2 ⟨rfl, ?_⟩⟩
    · exact hchars (fun _ => not_digit_of_gap) (List.forall_mem_cons.1 hcs).2
    · exact hchars (fun _ => not_digit_of_gap) hds
  | delimiter _ _ => exact fun d hd => nomatch hd
  | symbol _ _ _ hcs _ => exact hchars (fun _ => not_symbol_of_gap) hcs

namespace SameLines

/-- A word on one line is read alike from both texts. -/
theorem read_of_oneLine (h : SameLines cs ds) (hread : Lexeme.read c cs = .ok w)
    (hone : w.kind = .string → ∀ d ∈ w.text, isLineBreak d = false) :
    ∃ rest, Lexeme.read c ds = .ok ⟨w.kind, w.text, rest⟩ ∧ SameLines w.rest rest := by
  obtain ⟨spelling, rfl, hword⟩ := isWord_of_read hread
  obtain ⟨rest, rfl, hrest⟩ := h.exists_append (hword.not_lineBreak hone)
  exact ⟨rest, read_of_isWord (hword.congr hrest.front), hrest⟩

/-- A string that is closed in one text is closed in the other. -/
theorem exists_read (h : SameLines cs ds) (hread : Lexeme.read c cs = .ok w) :
    ∃ w', Lexeme.read c ds = .ok w' := by
  obtain ⟨spelling, rfl, hword⟩ := isWord_of_read hread
  by_cases hone : w.kind = .string → ∀ d ∈ w.text, isLineBreak d = false
  · obtain ⟨rest, hrest, -⟩ := h.read_of_oneLine hread hone
    exact ⟨_, hrest⟩
  · obtain ⟨kind, text, rest⟩ := w
    dsimp only at hword h hone
    cases hword with
    | long htext =>
      have hquotes : SameLines ('"' :: '"' :: (text ++ quotes ++ rest)) ds := h
      obtain ⟨ds, rfl, hquote⟩ := hquotes.exists_cons rfl
      obtain ⟨tail, rfl, htail⟩ := hquote.exists_cons rfl
      have hsome := htail.splitAtQuotes (by rw [splitAtQuotes_of_some htext rest]; rfl)
      obtain ⟨p, hp⟩ := Option.isSome_iff_exists.1 hsome
      refine ⟨⟨.string, p.1, p.2⟩, ?_⟩
      show readLongString tail = _
      rw [readLongString, hp]
    | short htext _ =>
      refine absurd (fun _ d hd => ?_) hone
      have hd := htext d hd
      simp only [isStringChar, Bool.and_eq_true] at hd
      simpa using hd.2
    | _ =>
      refine absurd (fun hkind => ?_) hone
      cases hkind

theorem read (h : SameLines cs ds) (hone : OneLine (c :: cs) ∨ OneLine (c :: ds))
    (hread : Lexeme.read c cs = .ok w) :
    ∃ rest, Lexeme.read c ds = .ok ⟨w.kind, w.text, rest⟩ ∧ SameLines w.rest rest := by
  obtain hone | hone := hone
  · exact h.read_of_oneLine hread (hone c cs w rfl hread)
  · obtain ⟨w', hread'⟩ := h.exists_read hread
    obtain ⟨rest, hsame, hrest⟩ := h.symm.read_of_oneLine hread' (hone c ds w' rfl hread')
    cases hread.symm.trans hsame
    exact ⟨w'.rest, hread', hrest.symm⟩

end SameLines

/-- Only strings in three quotes may span lines. -/
theorem oneLine_of_not_infix (h : ¬ quotes <:+: cs) : Throughout OneLine cs := by
  rintro ds hplace c tail w rfl hread hkind
  obtain ⟨spelling, rfl, hword⟩ := isWord_of_read hread
  obtain ⟨kind, text, rest⟩ := w
  cases hkind
  cases hword with
  | short htext _ =>
    intro d hd
    have hd := htext d hd
    simp only [isStringChar, Bool.and_eq_true] at hd
    simpa using hd.2
  | long _ =>
    refine absurd (List.IsInfix.trans ?_ hplace.suffix.isInfix) h
    exact ⟨[], text ++ quotes ++ rest, rfl⟩

end

end Offside.Lexeme
