import Offside.Proofs.Token.Words

namespace Offside.Lexeme

/-- The bytes that encode a character, each as the character with its number. -/
def encode (c : Char) : List Char := (String.utf8EncodeChar c).map Char.ofUInt8

def bytes (cs : List Char) : List Char := cs.flatMap encode

@[simp] theorem bytes_nil : bytes [] = [] := rfl

theorem bytes_cons (c : Char) (cs : List Char) : bytes (c :: cs) = encode c ++ bytes cs :=
  List.flatMap_cons

theorem bytes_append (cs ds : List Char) : bytes (cs ++ ds) = bytes cs ++ bytes ds :=
  List.flatMap_append

theorem encode_ne_nil (c : Char) : encode c ≠ [] :=
  fun h => String.utf8EncodeChar_ne_nil (List.map_eq_nil_iff.1 h)

theorem length_encode (c : Char) : (encode c).length = c.utf8Size := by
  rw [encode, List.length_map, String.length_utf8EncodeChar]

theorem length_bytes (cs : List Char) : (bytes cs).length = byteLength cs := by
  induction cs with
  | nil => rfl
  | cons c cs ih =>
    rw [bytes_cons, List.length_append, length_encode, ih]
    rfl

/-- A character beyond ASCII. Its bytes go on with a symbol each, so bytes group into words as the
characters do that they encode. -/
def Foreign (c : Char) : Prop := 128 ≤ c.toNat

instance (c : Char) : Decidable (Foreign c) := inferInstanceAs (Decidable (128 ≤ c.toNat))

section

variable {b c : Char} {bs cs rest : List Char}

theorem encode_ascii (h : ¬ Foreign c) : encode c = [c] := by
  change ¬ 128 ≤ c.val.toNat at h
  unfold encode String.utf8EncodeChar
  dsimp only
  rw [if_pos (by omega), List.map_singleton]
  congr 1
  apply Char.toNat_inj.1
  change (UInt8.ofNat c.val.toNat).toNat = c.val.toNat
  rw [UInt8.toNat_ofNat']
  omega

theorem bytes_ascii (h : ¬ Foreign c) (cs : List Char) : bytes (c :: cs) = c :: bytes cs := by
  rw [bytes_cons, encode_ascii h, List.singleton_append]

theorem Foreign.encode (h : Foreign c) (hb : b ∈ encode c) : Foreign b := by
  obtain ⟨n, hn, rfl⟩ := List.mem_map.1 hb
  change 128 ≤ n.toNat
  change 128 ≤ c.val.toNat at h
  unfold String.utf8EncodeChar at hn
  dsimp only at hn
  rw [if_neg (by omega)] at hn
  split at hn
  · simp only [List.mem_cons, List.not_mem_nil, or_false] at hn
    rcases hn with rfl | rfl <;> rw [UInt8.toNat_ofNat'] <;> omega
  split at hn
  · simp only [List.mem_cons, List.not_mem_nil, or_false] at hn
    rcases hn with rfl | rfl | rfl <;> rw [UInt8.toNat_ofNat'] <;> omega
  · simp only [List.mem_cons, List.not_mem_nil, or_false] at hn
    rcases hn with rfl | rfl | rfl | rfl <;> rw [UInt8.toNat_ofNat'] <;> omega

theorem Foreign.encode_eq_cons (h : Foreign c) :
    ∃ b bs, Lexeme.encode c = b :: bs ∧ ∀ d ∈ b :: bs, Foreign d := by
  obtain ⟨b, bs, hc⟩ := List.exists_cons_of_ne_nil (encode_ne_nil c)
  exact ⟨b, bs, hc, fun d hd => h.encode (hc ▸ hd)⟩

/-- An ASCII character stands in front of the bytes where it stands in front of the text. -/
theorem bytes_eq_cons (hb : ¬ Foreign b) :
    bytes cs = b :: bs ↔ ∃ ds, cs = b :: ds ∧ bytes ds = bs := by
  constructor
  · intro h
    cases cs with
    | nil => cases h
    | cons c cs =>
      by_cases hc : Foreign c
      · obtain ⟨b', bs', hencode, hforeign⟩ := hc.encode_eq_cons
        rw [bytes_cons, hencode] at h
        exact absurd ((List.cons.inj h).1 ▸ hforeign b' List.mem_cons_self) hb
      · rw [bytes_ascii hc] at h
        obtain ⟨rfl, hrest⟩ := List.cons.inj h
        exact ⟨cs, rfl, hrest⟩
  · rintro ⟨ds, rfl, rfl⟩
    exact bytes_ascii hb ds

theorem head?_bytes (hb : ¬ Foreign b) : (bytes cs).head? = some b ↔ cs.head? = some b := by
  rw [List.head?_eq_some_iff, List.head?_eq_some_iff]
  constructor
  · rintro ⟨bs, h⟩
    obtain ⟨ds, rfl, -⟩ := (bytes_eq_cons hb).1 h
    exact ⟨ds, rfl⟩
  · rintro ⟨ds, rfl⟩
    exact ⟨bytes ds, bytes_ascii hb ds⟩

theorem not_foreign_of_isLetter (h : isLetter c = true) : ¬ Foreign c := by
  simp only [isLetter, Bool.or_eq_true, Bool.and_eq_true, decide_eq_true_eq, Char.le_def,
    UInt32.le_iff_toNat_le] at h
  change (97 ≤ c.toNat ∧ c.toNat ≤ 122) ∨ (65 ≤ c.toNat ∧ c.toNat ≤ 90) at h
  unfold Foreign
  omega

theorem not_foreign_of_isDigit (h : isDigit c = true) : ¬ Foreign c := by
  simp only [isDigit, Bool.and_eq_true, decide_eq_true_eq, Char.le_def,
    UInt32.le_iff_toNat_le] at h
  change 48 ≤ c.toNat ∧ c.toNat ≤ 57 at h
  unfold Foreign
  omega

theorem not_foreign_of_isGap (h : isBlank c = true ∨ isLineBreak c = true) : ¬ Foreign c := by
  rcases h with h | h
  · rw [isBlank, Bool.and_eq_true, decide_eq_true_eq] at h
    exact Nat.not_le.2 (Nat.lt_of_le_of_lt h.1 (by decide))
  · rw [isLineBreak, Bool.or_eq_true, decide_eq_true_eq, decide_eq_true_eq] at h
    rcases h with rfl | rfl <;> exact Nat.not_le.2 (by decide)

namespace Foreign

variable (h : Foreign c)
include h

theorem ne {d : Char} (hd : d.toNat < 128) : c ≠ d := by
  rintro rfl
  exact Nat.not_lt.2 h hd

theorem not_blank : isBlank c = false :=
  Bool.eq_false_iff.2 fun hc => not_foreign_of_isGap (.inl hc) h

theorem not_lineBreak : isLineBreak c = false :=
  Bool.eq_false_iff.2 fun hc => not_foreign_of_isGap (.inr hc) h

theorem not_letter : isLetter c = false :=
  Bool.eq_false_iff.2 fun hc => not_foreign_of_isLetter hc h

theorem not_digit : isDigit c = false :=
  Bool.eq_false_iff.2 fun hc => not_foreign_of_isDigit hc h

theorem not_nameChar : isNameChar c = false := by
  simp [isNameChar, h.not_letter, h.not_digit, h.ne (d := '_') (by decide)]

theorem not_delimiter : isDelimiter c = false := by
  have hne (d : Char) (hd : d.toNat < 128) : c ≠ d := h.ne hd
  simp [isDelimiter, hne '[' (by decide), hne ']' (by decide), hne ',' (by decide),
    hne '(' (by decide), hne ')' (by decide), hne '"' (by decide)]

theorem symbolChar : isSymbolChar c = true := by
  simp [isSymbolChar, h.not_digit, h.not_letter, h.not_blank, h.not_lineBreak, h.not_delimiter]

theorem stringChar : isStringChar c = true := by
  simp [isStringChar, h.ne (d := '"') (by decide), h.not_lineBreak]

end Foreign

end

section

variable {p : Char → Bool}

/-- Characters beyond ASCII are not told apart. -/
def Steady (p : Char → Bool) : Prop := ∃ v, ∀ c, Foreign c → p c = v

theorem steady_isDigit : Steady isDigit := ⟨false, fun _ => Foreign.not_digit⟩

theorem steady_isNameChar : Steady isNameChar := ⟨false, fun _ => Foreign.not_nameChar⟩

theorem steady_isSymbolChar : Steady isSymbolChar := ⟨true, fun _ => Foreign.symbolChar⟩

theorem steady_isStringChar : Steady isStringChar := ⟨true, fun _ => Foreign.stringChar⟩

theorem steady_not_isLineBreak : Steady fun c => !isLineBreak c :=
  ⟨true, fun _ hc => congrArg not hc.not_lineBreak⟩

/-- A run of characters is a run of their bytes. -/
theorem Steady.takeWhile_dropWhile (hp : Steady p) (cs : List Char) :
    (bytes cs).takeWhile p = bytes (cs.takeWhile p) ∧
      (bytes cs).dropWhile p = bytes (cs.dropWhile p) := by
  obtain ⟨v, hv⟩ := hp
  induction cs with
  | nil => exact ⟨rfl, rfl⟩
  | cons c cs ih =>
    have hencode : ∀ b ∈ encode c, p b = p c := by
      by_cases hc : Foreign c
      · intro b hb
        rw [hv b (hc.encode hb), hv c hc]
      · intro b hb
        rw [encode_ascii hc, List.mem_singleton] at hb
        rw [hb]
    cases hc : p c with
    | true =>
      have hall : ∀ b ∈ encode c, p b = true := fun b hb => (hencode b hb).trans hc
      rw [bytes_cons, List.takeWhile_cons_of_pos hc, List.dropWhile_cons_of_pos hc,
        List.takeWhile_append_of_pos hall, List.dropWhile_append_of_pos hall, ih.1, ih.2, bytes_cons]
      exact ⟨rfl, rfl⟩
    | false =>
      obtain ⟨b, bs, hb⟩ := List.exists_cons_of_ne_nil (encode_ne_nil c)
      have hpb : ¬ p b = true := by
        rw [hencode b (hb ▸ List.mem_cons_self), hc]
        decide
      have hpc : ¬ p c = true := by rw [hc]; decide
      rw [List.takeWhile_cons_of_neg hpc, List.dropWhile_cons_of_neg hpc, bytes_cons, hb,
        List.cons_append, List.takeWhile_cons_of_neg hpb, List.dropWhile_cons_of_neg hpb]
      exact ⟨rfl, rfl⟩

theorem Steady.takeWhile (hp : Steady p) (cs : List Char) :
    (bytes cs).takeWhile p = bytes (cs.takeWhile p) := (hp.takeWhile_dropWhile cs).1

theorem Steady.dropWhile (hp : Steady p) (cs : List Char) :
    (bytes cs).dropWhile p = bytes (cs.dropWhile p) := (hp.takeWhile_dropWhile cs).2

end

theorem afterComment_foreign {bs : List Char} (h : ∀ b ∈ bs, Foreign b) (depth : Nat)
    (cs : List Char) : afterComment (depth + 1) (bs ++ cs) = afterComment (depth + 1) cs := by
  induction bs with
  | nil => rfl
  | cons b bs ih =>
    rw [List.forall_mem_cons] at h
    rw [List.cons_append, afterComment, ih h.2]
    · exact fun _ hb _ => h.1.ne (by decide) hb
    · exact fun _ hb _ => h.1.ne (by decide) hb

theorem afterComment_bytes (depth : Nat) (cs : List Char) :
    afterComment depth (bytes cs) = bytes (afterComment depth cs) := by
  fun_induction afterComment depth cs with
  | case1 cs => rw [afterComment]
  | case2 depth hdepth =>
    rw [bytes_nil, afterComment]
    exact hdepth
  | case3 depth cs ih => exact ih
  | case4 depth cs ih => exact ih
  | case5 depth c cs hopen hclose ih =>
    by_cases hc : Foreign c
    · rw [bytes_cons, afterComment_foreign (fun b => hc.encode), ih]
    · rw [bytes_ascii hc, afterComment, ih]
      · intro bs hbrace hbs
        obtain ⟨ds, hds, -⟩ := (bytes_eq_cons (by decide)).1 hbs
        exact hopen ds hbrace hds
      · intro bs hdash hbs
        obtain ⟨ds, hds, -⟩ := (bytes_eq_cons (by decide)).1 hbs
        exact hclose ds hdash hds

theorem noComment_bytes {c : Char} {cs : List Char} (h : NoComment c cs) : NoComment c (bytes cs) :=
  fun hc hhead => h hc ((head?_bytes (by decide)).1 hhead)

theorem skipBlanks_bytes (lines : Bool) (cs : List Char) :
    skipBlanks lines (bytes cs) = bytes (skipBlanks lines cs) := by
  fun_induction skipBlanks lines cs with
  | case1 => rw [bytes_nil, skipBlanks]
  | case2 rest ih =>
    rw [bytes_ascii (by decide), bytes_ascii (by decide), skipBlanks,
      steady_not_isLineBreak.dropWhile, ih]
  | case3 rest ih =>
    rw [bytes_ascii (by decide), bytes_ascii (by decide), skipBlanks, afterComment_bytes, ih]
  | case4 c rest hline hblock hgap ih =>
    have hc : isBlank c = true ∨ lines = true ∧ isLineBreak c = true := by simpa using hgap
    have hascii : ¬ Foreign c := not_foreign_of_isGap (hc.imp_right And.right)
    rw [bytes_ascii hascii, skipBlanks_cons hc, ih]
  | case5 c rest hline hblock hgap =>
    have hskip : skipBlanks lines (c :: rest) = c :: rest := by
      rw [skipBlanks.eq_4 _ _ _ hline hblock, if_neg hgap]
    obtain ⟨hblank, hbreak, hcomment⟩ := noComment_of_skipBlanks hskip
    by_cases hc : Foreign c
    · obtain ⟨b, bs, hb, hforeign⟩ := hc.encode_eq_cons
      have hfirst := hforeign b List.mem_cons_self
      rw [bytes_cons, hb]
      refine skipBlanks_of_noComment hfirst.not_blank (fun _ => hfirst.not_lineBreak) ?_
      rintro (h | h)
      · exact absurd h (hfirst.ne (by decide))
      · exact absurd h (hfirst.ne (by decide))
    · rw [bytes_ascii hc]
      exact skipBlanks_of_noComment hblank hbreak (noComment_bytes hcomment)

theorem nextLine_bytes (width : Nat) (cs : List Char) :
    nextLine width (bytes cs) = ((nextLine width cs).1, bytes (nextLine width cs).2) := by
  fun_induction nextLine width cs with
  | case1 width => rw [bytes_nil, nextLine]
  | case2 width c cs hc ih =>
    rw [bytes_ascii (not_foreign_of_isGap (.inr hc)), nextLine, if_pos hc, ih]
  | case3 width c cs hbreak hc ih =>
    rw [bytes_ascii (not_foreign_of_isGap (.inl hc)), nextLine, if_neg hbreak, if_pos hc, ih]
  | case4 width c cs hbreak hblank =>
    obtain ⟨b, bs, hb⟩ := List.exists_cons_of_ne_nil (encode_ne_nil c)
    have hgap : ¬ isLineBreak b = true ∧ ¬ isBlank b = true := by
      by_cases hc : Foreign c
      · have hfirst : Foreign b := hc.encode (hb ▸ List.mem_cons_self)
        rw [hfirst.not_lineBreak, hfirst.not_blank]
        decide
      · rw [encode_ascii hc] at hb
        cases hb
        exact ⟨hbreak, hblank⟩
    rw [bytes_cons, hb, List.cons_append, nextLine, if_neg hgap.1, if_neg hgap.2]

namespace Word

/-- The word that stands in the bytes of a text where a word stands in the text. -/
def encode (w : Word) : Word := ⟨w.kind, bytes w.text, bytes w.rest⟩

end Word

/-- What reading bytes gives where reading the text gives a word or is refused. -/
def encodeResult : Except (List Char) Word → Except (List Char) Word
  | .ok w => .ok w.encode
  | .error rest => .error (bytes rest)

theorem splitAtQuotes_foreign {bs : List Char} (h : ∀ b ∈ bs, Foreign b) (cs : List Char) :
    splitAtQuotes (bs ++ cs) = (splitAtQuotes cs).map fun p => (bs ++ p.1, p.2) := by
  induction bs with
  | nil => simp
  | cons b bs ih =>
    rw [List.forall_mem_cons] at h
    have hquote (rest : List Char) : b :: (bs ++ cs) ≠ quotes ++ rest :=
      fun heq => h.1.ne (by decide) (List.cons.inj heq).1
    rw [List.cons_append, splitAtQuotes_cons hquote, ih h.2, Option.map_map]
    rfl

theorem splitAtQuotes_bytes (cs : List Char) :
    splitAtQuotes (bytes cs) = (splitAtQuotes cs).map fun p => (bytes p.1, bytes p.2) := by
  fun_induction splitAtQuotes cs with
  | case1 => rfl
  | case2 rest => rfl
  | case3 c cs hquotes ih =>
    rw [Option.map_map]
    by_cases hc : Foreign c
    · rw [bytes_cons, splitAtQuotes_foreign (fun b => hc.encode), ih, Option.map_map]
      simp only [Function.comp_def, bytes_cons]
    · have hascii : ∀ rest, c :: bytes cs ≠ quotes ++ rest := by
        intro rest heq
        obtain ⟨hquote, heq⟩ := List.cons.inj heq
        obtain ⟨ds, rfl, hds⟩ := (bytes_eq_cons (by decide)).1 heq
        obtain ⟨es, rfl, -⟩ := (bytes_eq_cons (by decide)).1 hds
        exact hquotes es hquote rfl
      rw [bytes_ascii hc, splitAtQuotes_cons hascii, ih, Option.map_map]
      simp only [Function.comp_def, bytes_ascii hc]

theorem readLongString_bytes (cs : List Char) :
    readLongString (bytes cs) = encodeResult (readLongString cs) := by
  unfold readLongString
  rw [splitAtQuotes_bytes]
  cases splitAtQuotes cs with
  | none => rfl
  | some p => rfl

theorem readString_bytes (cs : List Char) :
    readString (bytes cs) = encodeResult (readString cs) := by
  have htake := steady_isStringChar.takeWhile cs
  have hdrop := steady_isStringChar.dropWhile cs
  by_cases hquote : ∃ tail, cs.dropWhile isStringChar = '"' :: tail
  · obtain ⟨tail, hquote⟩ := hquote
    rw [hquote, bytes_ascii (by decide)] at hdrop
    rw [readString_of_quote hquote, readString_of_quote hdrop, htake]
    rfl
  · have hno : ∀ tail, (bytes cs).dropWhile isStringChar ≠ '"' :: tail := by
      intro tail heq
      obtain ⟨ds, hds, -⟩ := (bytes_eq_cons (by decide)).1 (hdrop.symm.trans heq)
      exact hquote ⟨ds, hds⟩
    rw [readString_of_ne hno, readString_of_ne fun tail heq => hquote ⟨tail, heq⟩, hdrop]
    rfl

theorem isDigit_bytes (c : Char) (cs : List Char) :
    ∃ b bs, bytes (c :: cs) = b :: bs ∧ isDigit b = isDigit c ∧ (b = '.' ↔ c = '.') := by
  by_cases hc : Foreign c
  · obtain ⟨b, bs, hb, hforeign⟩ := hc.encode_eq_cons
    have hfirst := hforeign b List.mem_cons_self
    refine ⟨b, bs ++ bytes cs, by rw [bytes_cons, hb, List.cons_append], ?_, ?_⟩
    · rw [hfirst.not_digit, hc.not_digit]
    · exact iff_of_false (hfirst.ne (by decide)) (hc.ne (by decide))
  · exact ⟨c, bytes cs, bytes_ascii hc cs, rfl, Iff.rfl⟩

theorem readNumber_bytes (cs : List Char) : readNumber (bytes cs) = (readNumber cs).encode := by
  unfold readNumber
  rw [steady_isDigit.takeWhile, steady_isDigit.dropWhile]
  dsimp only
  cases cs.dropWhile isDigit with
  | nil => rfl
  | cons p tail =>
    by_cases hp : p = '.'
    · subst hp
      rw [bytes_ascii (by decide)]
      cases tail with
      | nil => rfl
      | cons d ds =>
        by_cases hd : isDigit d = true
        · have hascii := not_foreign_of_isDigit hd
          have htake := steady_isDigit.takeWhile (d :: ds)
          have hdrop := steady_isDigit.dropWhile (d :: ds)
          rw [bytes_ascii hascii] at htake hdrop ⊢
          simp only [hd, if_true, htake, hdrop, Word.encode, bytes_append,
            bytes_ascii (show ¬ Foreign '.' by decide)]
        · obtain ⟨b, bs, hb, hdigit, -⟩ := isDigit_bytes d ds
          have hnot : isDigit d = false := by simpa using hd
          rw [hnot] at hdigit
          simp [hb, hdigit, hnot, Word.encode, bytes_ascii (show ¬ Foreign '.' by decide)]
    · obtain ⟨b, bs, hb, -, hpoint⟩ := isDigit_bytes p tail
      have hbp : b ≠ '.' := fun h => hp (hpoint.1 h)
      rw [hb]
      split
      · next heq => exact absurd (List.cons.inj heq).1 hbp
      · split
        · next heq => exact absurd (List.cons.inj heq).1 hp
        · rw [← hb]
          rfl

theorem read_foreign {c : Char} (h : Foreign c) (cs : List Char) : read c cs =
    .ok ⟨.symbol, c :: cs.takeWhile isSymbolChar, cs.dropWhile isSymbolChar⟩ := by
  have hquote : c ≠ '"' := h.ne (by decide)
  simp [read, hquote, h.not_letter, h.not_digit, h.not_delimiter]

/-- The bytes of a text are read as the text is. -/
theorem read_bytes (c : Char) (cs : List Char) : ∃ b bs, bytes (c :: cs) = b :: bs ∧
    isLineBreak b = isLineBreak c ∧ read b bs = encodeResult (read c cs) := by
  by_cases hc : Foreign c
  · obtain ⟨b, bs, hb, hforeign⟩ := hc.encode_eq_cons
    have hfirst := hforeign b List.mem_cons_self
    have hsymbol : ∀ d ∈ bs, isSymbolChar d = true := fun d hd =>
      (hforeign d (List.mem_cons_of_mem b hd)).symbolChar
    refine ⟨b, bs ++ bytes cs, by rw [bytes_cons, hb, List.cons_append], ?_, ?_⟩
    · rw [hfirst.not_lineBreak, hc.not_lineBreak]
    · rw [read_foreign hfirst, read_foreign hc, List.takeWhile_append_of_pos hsymbol,
        List.dropWhile_append_of_pos hsymbol, steady_isSymbolChar.takeWhile,
        steady_isSymbolChar.dropWhile]
      simp only [encodeResult, Word.encode, bytes_cons, hb, List.cons_append]
  · refine ⟨c, bytes cs, bytes_ascii hc cs, rfl, ?_⟩
    unfold read
    split
    · split
      · next rest heq =>
        obtain ⟨ds, rfl, hds⟩ := (bytes_eq_cons (by decide)).1 heq
        obtain ⟨es, rfl, rfl⟩ := (bytes_eq_cons (by decide)).1 hds
        exact readLongString_bytes es
      · next hshort =>
        split
        · next rest =>
          rw [bytes_ascii (by decide), bytes_ascii (by decide)] at hshort
          exact absurd rfl (hshort _)
        · exact readString_bytes cs
    split
    · rw [steady_isNameChar.takeWhile, steady_isNameChar.dropWhile]
      simp only [encodeResult, Word.encode, bytes_ascii hc]
    split
    · rw [← bytes_ascii hc, readNumber_bytes]
      rfl
    split
    · simp only [encodeResult, Word.encode, bytes_ascii hc, bytes_nil]
    · rw [steady_isSymbolChar.takeWhile, steady_isSymbolChar.dropWhile]
      simp only [encodeResult, Word.encode, bytes_ascii hc]

end Offside.Lexeme
