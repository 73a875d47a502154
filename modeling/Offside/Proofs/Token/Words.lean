import Offside.Proofs.Token.Leaves
import Offside.Proofs.Token.Names

namespace Offside.Lexeme

section

variable {p : Char → Bool} {cs rest : List Char}

/-- No word goes on here: a blank or a line break follows, or nothing at all. -/
def Parted (rest : List Char) : Prop := ∀ c ∈ rest.head?, isBlank c = true ∨ isLineBreak c = true

theorem parted_nil : Parted [] := fun _ h => nomatch h

theorem parted_cons {c : Char} (h : isBlank c = true ∨ isLineBreak c = true) (cs : List Char) :
    Parted (c :: cs) := fun _ hd => Option.mem_some.1 hd ▸ h

theorem dropWhile_append_of_ends (cs : List Char) (hrest : Ends p rest) :
    (cs ++ rest).dropWhile p = cs.dropWhile p ++ rest := by
  induction cs with
  | nil =>
    have hnil : ∀ c ∈ ([] : List Char), p c = true := nofun
    exact dropWhile_append hnil hrest
  | cons c cs ih =>
    rw [List.cons_append, List.dropWhile_cons, List.dropWhile_cons, ih]
    split <;> rfl

theorem ends_dropWhile (p : Char → Bool) (cs : List Char) : Ends p (cs.dropWhile p) := by
  intro c hc
  have h := List.head?_dropWhile_not p cs
  rw [Option.mem_def.1 hc] at h
  exact h

/-- The characters that no word but a string goes on with. -/
theorem not_symbol_of_gap {c : Char} (h : isBlank c = true ∨ isLineBreak c = true) :
    isSymbolChar c = false := by
  rcases h with h | h <;> simp [isSymbolChar, h]

theorem not_nameChar_of_gap {c : Char} (h : isBlank c = true ∨ isLineBreak c = true) :
    isNameChar c = false := by
  rw [← Bool.not_eq_true]
  intro hname
  have hbound : 48 ≤ c.toNat := by
    have hunderscore : '_'.toNat = 95 := rfl
    simp only [isNameChar, isLetter, isDigit, Bool.or_eq_true, Bool.and_eq_true,
      decide_eq_true_eq, Char.le_def, UInt32.le_iff_toNat_le] at hname
    rcases hname with (rfl | hname) | hname
    · omega
    · change (97 ≤ c.toNat ∧ c.toNat ≤ 122) ∨ (65 ≤ c.toNat ∧ c.toNat ≤ 90) at hname
      omega
    · change 48 ≤ c.toNat ∧ c.toNat ≤ 57 at hname
      omega
  have hgap : c.toNat ≤ 32 := by
    rcases h with h | h
    · rw [isBlank, Bool.and_eq_true, decide_eq_true_eq] at h
      exact h.1
    · rw [isLineBreak, Bool.or_eq_true, decide_eq_true_eq, decide_eq_true_eq] at h
      rcases h with rfl | rfl <;> decide
  omega

theorem not_digit_of_gap {c : Char} (h : isBlank c = true ∨ isLineBreak c = true) :
    isDigit c = false := by
  have hname := not_nameChar_of_gap h
  simp only [isNameChar, Bool.or_eq_false_iff] at hname
  exact hname.2

theorem Parted.ends (h : Parted rest)
    (hp : ∀ c, isBlank c = true ∨ isLineBreak c = true → p c = false) : Ends p rest :=
  fun c hc => hp c (h c hc)

end

/-- Three quotes in a row. -/
def quotes : List Char := ['"', '"', '"']

theorem splitAtQuotes_quotes (rest : List Char) :
    splitAtQuotes (quotes ++ rest) = some ([], rest) := rfl

theorem eq_append_of_splitAtQuotes {cs content rest : List Char}
    (h : splitAtQuotes cs = some (content, rest)) : cs = content ++ quotes ++ rest := by
  fun_induction splitAtQuotes cs generalizing content rest with
  | case1 => cases h
  | case2 rest' =>
    cases h
    rfl
  | case3 c cs' hc ih =>
    obtain ⟨p, hp, he⟩ := Option.map_eq_some_iff.1 h
    cases he
    rw [ih hp]
    rfl

theorem splitAtQuotes_cons {c : Char} {cs : List Char} (h : ∀ rest, c :: cs ≠ quotes ++ rest) :
    splitAtQuotes (c :: cs) = (splitAtQuotes cs).map fun p => (c :: p.1, p.2) := by
  rw [splitAtQuotes]
  intro rest hc hcs
  subst hc hcs
  exact h rest rfl

/-- The quotes that close a string are the first, whatever follows them. -/
theorem splitAtQuotes_of_some {cs content rest : List Char}
    (h : splitAtQuotes cs = some (content, rest)) (tail : List Char) :
    splitAtQuotes (content ++ quotes ++ tail) = some (content, tail) := by
  fun_induction splitAtQuotes cs generalizing content rest with
  | case1 => cases h
  | case2 rest' =>
    cases h
    rfl
  | case3 c cs' hc ih =>
    obtain ⟨⟨content', rest'⟩, hp, he⟩ := Option.map_eq_some_iff.1 h
    cases he
    have hcs := eq_append_of_splitAtQuotes hp
    -- The two characters behind `c` are the same before any tail.
    have htake (x : List Char) : (content' ++ quotes ++ x).take 2 = (content' ++ quotes).take 2 :=
      List.take_append_of_le_length (by simp [quotes])
    have hnot (x : List Char) : c :: (content' ++ quotes ++ tail) ≠ quotes ++ x := by
      intro heq
      obtain ⟨hquote, heq⟩ := List.cons.inj heq
      have htwo : cs'.take 2 = ['"', '"'] := by
        rw [hcs, htake, ← htake tail, heq]
        rfl
      have hparts := List.take_append_drop 2 cs'
      rw [htwo] at hparts
      exact hc (cs'.drop 2) hquote hparts.symm
    show splitAtQuotes (c :: (content' ++ quotes ++ tail)) = _
    rw [splitAtQuotes_cons hnot, ih hp]
    rfl

/-- A text without quotes can be put in quotes. -/
theorem splitAtQuotes_of_notMem {content : List Char} (h : ∀ c ∈ content, c ≠ '"')
    (tail : List Char) : splitAtQuotes (content ++ quotes ++ tail) = some (content, tail) := by
  induction content with
  | nil => rfl
  | cons c content ih =>
    rw [List.forall_mem_cons] at h
    have hnot (x : List Char) : c :: (content ++ quotes ++ tail) ≠ quotes ++ x :=
      fun heq => h.1 (List.cons.inj heq).1
    show splitAtQuotes (c :: (content ++ quotes ++ tail)) = _
    rw [splitAtQuotes_cons hnot, ih h.2]
    rfl

section

variable {c : Char} {cs : List Char} {w : Word}

theorem readLongString_ok (h : readLongString cs = .ok w) :
    w.kind = .string ∧ splitAtQuotes cs = some (w.text, w.rest) := by
  unfold readLongString at h
  split at h
  · next content rest hsplit =>
    cases h
    exact ⟨rfl, hsplit⟩
  · cases h

/-- What a string on one line may hold. -/
def isStringChar (c : Char) : Bool := c != '"' && !isLineBreak c

theorem readString_of_quote (h : cs.dropWhile isStringChar = '"' :: rest) :
    readString cs = .ok ⟨.string, cs.takeWhile isStringChar, rest⟩ := by
  change cs.dropWhile (fun c => c != '"' && !isLineBreak c) = '"' :: rest at h
  unfold readString
  dsimp only
  rw [h]
  rfl

theorem readString_of_ne (h : ∀ rest, cs.dropWhile isStringChar ≠ '"' :: rest) :
    readString cs = .error (cs.dropWhile isStringChar) := by
  change ∀ rest, cs.dropWhile (fun c => c != '"' && !isLineBreak c) ≠ '"' :: rest at h
  unfold readString
  dsimp only
  split
  · next heq => exact absurd heq (h _)
  · rfl

theorem readString_append {content rest : List Char} (h : ∀ c ∈ content, isStringChar c = true) :
    readString (content ++ '"' :: rest) = .ok ⟨.string, content, rest⟩ := by
  have hend : Ends isStringChar ('"' :: rest) := fun c hc => Option.mem_some.1 hc ▸ rfl
  rw [readString_of_quote (dropWhile_append h hend), takeWhile_append h hend]

theorem readString_ok (h : readString cs = .ok w) :
    w.kind = .string ∧ (∀ c ∈ w.text, isStringChar c = true) ∧ cs = w.text ++ '"' :: w.rest := by
  unfold readString at h
  dsimp only at h
  split at h
  · next rest hrest =>
    cases h
    refine ⟨rfl, fun c hc => ?_, ?_⟩
    · exact List.all_eq_true.1 List.all_takeWhile c hc
    · show cs = cs.takeWhile isStringChar ++ '"' :: rest
      rw [← hrest]
      exact List.takeWhile_append_dropWhile.symm
  · cases h

theorem read_quote_short (h : ∀ rest, cs ≠ '"' :: '"' :: rest) :
    read '"' cs = readString cs := by
  unfold read
  rw [if_pos rfl]
  split
  · exact absurd rfl (h _)
  · rfl

theorem not_letter_of_isDigit {c : Char} (h : isDigit c = true) : isLetter c = false := by
  simp only [isDigit, Bool.and_eq_true, decide_eq_true_eq, Char.le_def,
    UInt32.le_iff_toNat_le] at h
  change 48 ≤ c.toNat ∧ c.toNat ≤ 57 at h
  rw [← Bool.not_eq_true]
  intro hletter
  simp only [isLetter, Bool.or_eq_true, Bool.and_eq_true, decide_eq_true_eq, Char.le_def,
    UInt32.le_iff_toNat_le] at hletter
  change (97 ≤ c.toNat ∧ c.toNat ≤ 122) ∨ (65 ≤ c.toNat ∧ c.toNat ≤ 90) at hletter
  omega

end

/-- No fraction begins here. -/
def NoFraction (rest : List Char) : Prop := ∀ d ds, rest = '.' :: d :: ds → isDigit d = false

/-- A word with the given spelling stands before `rest`: its kind and its text. -/
inductive IsWord : (spelling : List Char) → TokenKind → (text rest : List Char) → Prop
  | short {text rest : List Char} (htext : ∀ c ∈ text, isStringChar c = true)
      (hrest : text = [] → rest.head? ≠ some '"') :
      IsWord ('"' :: (text ++ ['"'])) .string text rest
  | long {text rest : List Char} (htext : splitAtQuotes (text ++ quotes) = some (text, [])) :
      IsWord (quotes ++ text ++ quotes) .string text rest
  | name {c : Char} {cs rest : List Char} (hc : isLetter c = true)
      (hcs : ∀ d ∈ cs, isNameChar d = true) (hrest : Ends isNameChar rest) :
      IsWord (c :: cs) .name (c :: cs) rest
  | integer {c : Char} {cs rest : List Char} (hcs : ∀ d ∈ c :: cs, isDigit d = true)
      (hrest : Ends isDigit rest) (hpoint : NoFraction rest) :
      IsWord (c :: cs) .integer (c :: cs) rest
  | float {c d : Char} {cs ds rest : List Char} (hcs : ∀ d ∈ c :: cs, isDigit d = true)
      (hds : ∀ c ∈ d :: ds, isDigit c = true) (hrest : Ends isDigit rest) :
      IsWord (c :: (cs ++ '.' :: d :: ds)) .float (c :: (cs ++ '.' :: d :: ds)) rest
  | delimiter {c : Char} {rest : List Char} (hc : isDelimiter c = true) (hquote : c ≠ '"') :
      IsWord [c] .delimiter [c] rest
  | symbol {c : Char} {cs rest : List Char} (hletter : isLetter c = false)
      (hdigit : isDigit c = false) (hdelimiter : isDelimiter c = false)
      (hcs : ∀ d ∈ cs, isSymbolChar d = true) (hrest : Ends isSymbolChar rest) :
      IsWord (c :: cs) .symbol (c :: cs) rest

theorem isWord_readNumber {c : Char} (hc : isDigit c = true) (cs : List Char) :
    ∃ ds, cs = ds ++ (readNumber (c :: cs)).rest ∧
      IsWord (c :: ds) (readNumber (c :: cs)).kind (readNumber (c :: cs)).text
        (readNumber (c :: cs)).rest := by
  have hsplit : cs.takeWhile isDigit ++ cs.dropWhile isDigit = cs :=
    List.takeWhile_append_dropWhile
  have hdigits (ds : List Char) : ∀ d ∈ ds.takeWhile isDigit, isDigit d = true :=
    List.all_eq_true.1 List.all_takeWhile
  have hwhole : ∀ d ∈ c :: cs.takeWhile isDigit, isDigit d = true :=
    List.forall_mem_cons.2 ⟨hc, hdigits cs⟩
  have hends : Ends isDigit (cs.dropWhile isDigit) := ends_dropWhile isDigit cs
  unfold readNumber
  dsimp only
  rw [List.takeWhile_cons_of_pos hc, List.dropWhile_cons_of_pos hc]
  split
  · next d rest hdrop =>
    by_cases hd : isDigit d = true
    · rw [if_pos hd, List.takeWhile_cons_of_pos hd, List.dropWhile_cons_of_pos hd]
      refine ⟨cs.takeWhile isDigit ++ '.' :: d :: rest.takeWhile isDigit, ?_, ?_⟩
      · rw [List.append_assoc, List.cons_append, List.cons_append,
          List.takeWhile_append_dropWhile, ← hdrop, hsplit]
      · exact .float hwhole (List.forall_mem_cons.2 ⟨hd, hdigits rest⟩) (ends_dropWhile isDigit rest)
    · rw [if_neg hd]
      refine ⟨cs.takeWhile isDigit, ?_, .integer hwhole ?_ ?_⟩
      · rw [← hdrop, hsplit]
      · exact hdrop ▸ hends
      · rintro d' ds ⟨⟩
        simpa using hd
  · next hpoint =>
    refine ⟨cs.takeWhile isDigit, hsplit.symm, .integer hwhole hends ?_⟩
    intro d ds h
    exact absurd h (hpoint d ds)

/-- Reading finds a word, with its spelling before what is left. -/
theorem isWord_of_read {c : Char} {cs : List Char} {w : Word} (h : read c cs = .ok w) :
    ∃ ds, cs = ds ++ w.rest ∧ IsWord (c :: ds) w.kind w.text w.rest := by
  have hchars (p : Char → Bool) : ∀ d ∈ cs.takeWhile p, p d = true :=
    List.all_eq_true.1 List.all_takeWhile
  have hsplit (p : Char → Bool) : cs = cs.takeWhile p ++ cs.dropWhile p :=
    List.takeWhile_append_dropWhile.symm
  unfold read at h
  split at h
  · next hquote =>
    subst hquote
    split at h
    · next rest =>
      obtain ⟨hkind, htext⟩ := readLongString_ok h
      have hrest := eq_append_of_splitAtQuotes htext
      refine ⟨'"' :: '"' :: (w.text ++ quotes), ?_, ?_⟩
      · rw [hrest]
        rfl
      · rw [hkind]
        have hclosed := splitAtQuotes_of_some htext []
        rw [List.append_nil] at hclosed
        exact .long hclosed
    · next hshort =>
      obtain ⟨hkind, htext, hrest⟩ := readString_ok h
      refine ⟨w.text ++ ['"'], ?_, ?_⟩
      · rw [hrest, List.append_assoc]
        rfl
      · rw [hkind]
        refine .short htext fun hnil hquote => ?_
        obtain ⟨rest, hw⟩ : ∃ rest, w.rest = '"' :: rest := by
          cases hw : w.rest with
          | nil => simp [hw] at hquote
          | cons d rest => exact ⟨rest, by simpa [hw] using hquote⟩
        rw [hnil, hw] at hrest
        exact hshort rest hrest
  by_cases hletter : isLetter c = true
  · rw [if_pos hletter] at h
    cases h
    exact ⟨_, hsplit isNameChar, .name hletter (hchars isNameChar) (ends_dropWhile isNameChar cs)⟩
  rw [if_neg hletter] at h
  by_cases hdigit : isDigit c = true
  · rw [if_pos hdigit] at h
    cases h
    exact isWord_readNumber hdigit cs
  rw [if_neg hdigit] at h
  by_cases hdelimiter : isDelimiter c = true
  · rw [if_pos hdelimiter] at h
    cases h
    exact ⟨[], rfl, .delimiter hdelimiter ‹_›⟩
  · rw [if_neg hdelimiter] at h
    cases h
    refine ⟨_, hsplit isSymbolChar, .symbol ?_ ?_ ?_ (hchars isSymbolChar)
      (ends_dropWhile isSymbolChar cs)⟩
    · simpa using hletter
    · simpa using hdigit
    · simpa using hdelimiter

theorem readNumber_integer {whole rest : List Char} (hwhole : ∀ d ∈ whole, isDigit d = true)
    (hrest : Ends isDigit rest) (hpoint : NoFraction rest) :
    readNumber (whole ++ rest) = ⟨.integer, whole, rest⟩ := by
  unfold readNumber
  rw [takeWhile_append hwhole hrest, dropWhile_append hwhole hrest]
  dsimp only
  split
  · next d ds => rw [if_neg (by simp [hpoint d ds rfl])]
  · rfl

theorem readNumber_float {whole ds rest : List Char} {d : Char}
    (hwhole : ∀ d ∈ whole, isDigit d = true) (hds : ∀ c ∈ d :: ds, isDigit c = true)
    (hrest : Ends isDigit rest) :
    readNumber (whole ++ '.' :: d :: ds ++ rest) = ⟨.float, whole ++ '.' :: d :: ds, rest⟩ := by
  have hpoint : Ends isDigit ('.' :: (d :: ds ++ rest)) := fun c hc => Option.mem_some.1 hc ▸ rfl
  unfold readNumber
  rw [List.append_assoc, List.cons_append, takeWhile_append hwhole hpoint,
    dropWhile_append hwhole hpoint]
  show (if isDigit d = true then
      Word.mk .float (whole ++ '.' :: (d :: ds ++ rest).takeWhile isDigit)
        ((d :: ds ++ rest).dropWhile isDigit)
    else _) = _
  rw [if_pos (hds d List.mem_cons_self), takeWhile_append hds hrest, dropWhile_append hds hrest]

/-- A string on one line does not begin like one that may span lines. -/
theorem append_quote_ne {text rest : List Char} (htext : ∀ c ∈ text, isStringChar c = true)
    (hrest : text = [] → rest.head? ≠ some '"') (tail : List Char) :
    text ++ '"' :: rest ≠ '"' :: '"' :: tail := by
  intro heq
  cases text with
  | nil => exact hrest rfl (by rw [(List.cons.inj heq).2]; rfl)
  | cons d text =>
    have hd := htext d List.mem_cons_self
    rw [(List.cons.inj heq).1] at hd
    cases hd

/-- A spelled word is read from its spelling. -/
theorem read_of_isWord {c : Char} {ds text rest : List Char} {kind : TokenKind}
    (h : IsWord (c :: ds) kind text rest) : read c (ds ++ rest) = .ok ⟨kind, text, rest⟩ := by
  cases h with
  | @short text rest htext hrest =>
    rw [List.append_assoc, List.cons_append, List.nil_append,
      read_quote_short (append_quote_ne htext hrest), readString_append htext]
  | @long text rest htext =>
    have hsplit := splitAtQuotes_of_some htext rest
    show readLongString (text ++ quotes ++ rest) = _
    unfold readLongString
    rw [hsplit]
  | name hc hcs hrest =>
    unfold read
    rw [if_neg, if_pos hc, takeWhile_append hcs hrest, dropWhile_append hcs hrest]
    rintro rfl
    cases hc
  | integer hcs hrest hpoint =>
    have hc := hcs c List.mem_cons_self
    unfold read
    rw [if_neg, if_neg (by simp [not_letter_of_isDigit hc]), if_pos hc, ← List.cons_append,
      readNumber_integer hcs hrest hpoint]
    rintro rfl
    cases hc
  | float hcs hds hrest =>
    have hc := hcs c List.mem_cons_self
    unfold read
    rw [if_neg, if_neg (by simp [not_letter_of_isDigit hc]), if_pos hc, ← List.cons_append,
      ← List.cons_append, readNumber_float hcs hds hrest]
    rintro rfl
    cases hc
  | delimiter hc hquote =>
    have hkinds : isLetter c = false ∧ isDigit c = false := by
      simp only [isDelimiter, Bool.or_eq_true, decide_eq_true_eq] at hc
      rcases hc with ((((rfl | rfl) | rfl) | rfl) | rfl) | rfl <;> exact ⟨rfl, rfl⟩
    unfold read
    rw [if_neg hquote, if_neg (by simp [hkinds.1]), if_neg (by simp [hkinds.2]), if_pos hc]
    rfl
  | symbol hletter hdigit hdelimiter hcs hrest =>
    unfold read
    rw [if_neg, if_neg (by simp [hletter]), if_neg (by simp [hdigit]),
      if_neg (by simp [hdelimiter]), takeWhile_append hcs hrest, dropWhile_append hcs hrest]
    rintro rfl
    cases hdelimiter

/-- Two texts that begin alike as far as it can matter to the end of a word before them. -/
inductive SameFront : List Char → List Char → Prop
  | parted {cs ds : List Char} (hcs : Parted cs) (hds : Parted ds) : SameFront cs ds
  | one {c : Char} {cs ds : List Char} (hcs : Parted cs) (hds : Parted ds) :
      SameFront (c :: cs) (c :: ds)
  | two {c d : Char} {cs ds : List Char} : SameFront (c :: d :: cs) (c :: d :: ds)

namespace SameFront

variable {cs ds : List Char}

theorem ends (h : SameFront cs ds) {p : Char → Bool}
    (hp : ∀ c, isBlank c = true ∨ isLineBreak c = true → p c = false) (hcs : Ends p cs) :
    Ends p ds := by
  cases h with
  | parted _ hds => exact hds.ends hp
  | one _ _ => exact hcs
  | two => exact hcs

theorem noFraction (h : SameFront cs ds) (hcs : NoFraction cs) : NoFraction ds := by
  intro d rest heq
  cases h with
  | parted _ hds =>
    subst heq
    cases hds '.' rfl <;> contradiction
  | one _ hds =>
    obtain ⟨rfl, rfl⟩ := List.cons.inj heq
    exact not_digit_of_gap (hds d rfl)
  | two =>
    cases heq
    exact hcs _ _ rfl

theorem head_ne_quote (h : SameFront cs ds) (hcs : cs.head? ≠ some '"') :
    ds.head? ≠ some '"' := by
  cases h with
  | parted _ hds =>
    intro heq
    cases hds '"' heq <;> contradiction
  | one _ _ => exact hcs
  | two => exact hcs

/-- What follows a text does not matter before a gap. -/
theorem append {tail : List Char} (htail : Parted tail) (cs : List Char) :
    SameFront cs (cs ++ tail) := by
  rcases cs with _ | ⟨c, _ | ⟨d, cs⟩⟩
  · exact .parted parted_nil htail
  · exact .one parted_nil htail
  · exact .two

end SameFront

namespace IsWord

variable {spelling text rest : List Char} {kind : TokenKind}

theorem congr (h : IsWord spelling kind text rest) {rest' : List Char}
    (hfront : SameFront rest rest') : IsWord spelling kind text rest' := by
  cases h with
  | short htext hrest => exact .short htext fun hnil => hfront.head_ne_quote (hrest hnil)
  | long htext => exact .long htext
  | name hc hcs hrest => exact .name hc hcs (hfront.ends (fun _ => not_nameChar_of_gap) hrest)
  | integer hcs hrest hpoint =>
    exact .integer hcs (hfront.ends (fun _ => not_digit_of_gap) hrest) (hfront.noFraction hpoint)
  | float hcs hds hrest =>
    exact .float hcs hds (hfront.ends (fun _ => not_digit_of_gap) hrest)
  | delimiter hc hquote => exact .delimiter hc hquote
  | symbol hletter hdigit hdelimiter hcs hrest =>
    exact .symbol hletter hdigit hdelimiter hcs (hfront.ends (fun _ => not_symbol_of_gap) hrest)

/-- A word may stand alone. -/
theorem alone (h : IsWord spelling kind text rest) : IsWord spelling kind text [] := by
  cases h with
  | short htext hrest => exact .short htext fun _ => nofun
  | long htext => exact .long htext
  | name hc hcs hrest => exact .name hc hcs (ends_nil _)
  | integer hcs hrest hpoint => exact .integer hcs (ends_nil _) nofun
  | float hcs hds hrest => exact .float hcs hds (ends_nil _)
  | delimiter hc hquote => exact .delimiter hc hquote
  | symbol hletter hdigit hdelimiter hcs hrest =>
    exact .symbol hletter hdigit hdelimiter hcs (ends_nil _)

theorem spelling_eq (h : IsWord spelling kind text rest) (hkind : kind ≠ .string) :
    spelling = text := by
  cases h with
  | short htext hrest => exact absurd rfl hkind
  | long htext => exact absurd rfl hkind
  | _ => rfl

theorem kind_ne_terminator (h : IsWord spelling kind text rest) : kind ≠ .terminator := by
  cases h <;> nofun

end IsWord

/-- What follows a text that a word was read from goes on behind what that word left. -/
theorem read_append {c : Char} {cs tail : List Char} {w : Word} (h : read c cs = .ok w)
    (htail : Parted tail) : read c (cs ++ tail) = .ok ⟨w.kind, w.text, w.rest ++ tail⟩ := by
  obtain ⟨ds, hcs, hword⟩ := isWord_of_read h
  rw [hcs, List.append_assoc]
  exact read_of_isWord (hword.congr (.append htail w.rest))

section

variable {lines : Bool} {c : Char} {cs : List Char}

/-- No comment begins with the character. -/
def NoComment (c : Char) (cs : List Char) : Prop := c = '-' ∨ c = '\x7b' → cs.head? ≠ some '-'

theorem skipBlanks_of_noComment (hblank : isBlank c = false)
    (hbreak : lines = true → isLineBreak c = false) (hcomment : NoComment c cs) :
    skipBlanks lines (c :: cs) = c :: cs := by
  have hgap : ¬ (isBlank c || (lines && isLineBreak c)) = true := by
    cases lines with
    | false => simp [hblank]
    | true => simp [hblank, hbreak rfl]
  rw [skipBlanks, if_neg hgap]
  · rintro rest rfl rfl
    exact hcomment (.inl rfl) rfl
  · rintro rest rfl rfl
    exact hcomment (.inr rfl) rfl

theorem skipBlanks_cons_ne {d : Char} {ds : List Char} (h : ds.length ≤ cs.length) :
    skipBlanks lines ds ≠ d :: cs := by
  intro heq
  have hle := skipBlanks_length_le lines ds
  rw [heq, List.length_cons] at hle
  omega

/-- What is left where blanks are skipped begins with no blank and no comment. -/
theorem noComment_of_skipBlanks (h : skipBlanks lines (c :: cs) = c :: cs) :
    isBlank c = false ∧ (lines = true → isLineBreak c = false) ∧ NoComment c cs := by
  have hgap : (isBlank c || (lines && isLineBreak c)) = false := by
    rw [← Bool.not_eq_true]
    intro hgap
    rw [skipBlanks_cons (by simpa using hgap)] at h
    exact skipBlanks_cons_ne (Nat.le_refl _) h
  rw [Bool.or_eq_false_iff] at hgap
  refine ⟨hgap.1, fun hlines => ?_, fun hc hhead => ?_⟩
  · simpa [hlines] using hgap.2
  · obtain ⟨ds, rfl⟩ : ∃ ds, cs = '-' :: ds := by
      cases cs with
      | nil => cases hhead
      | cons d ds =>
        cases hhead
        exact ⟨ds, rfl⟩
    rcases hc with rfl | rfl
    · rw [skipBlanks] at h
      refine skipBlanks_cons_ne ?_ h
      exact Nat.le_succ_of_le (dropWhile_length_le _ ds)
    · rw [skipBlanks] at h
      refine skipBlanks_cons_ne ?_ h
      exact Nat.le_succ_of_le (afterComment_length_le 1 ds)

end

end Offside.Lexeme
