import Offside.Operator
import Offside.Proofs.Decimal.Digits
import Offside.Proofs.Token.Leaves
import Offside.Proofs.Token.Names

namespace Offside

/-- A token but for its place. -/
abbrev Piece := TokenKind × String

theorem Token.is_iff {t : Token} {kind : TokenKind} {text : String} :
    t.is kind text = true ↔ (t.kind, t.text) = (kind, text) := by
  simp [Token.is]

namespace TokenStream

/-- The pieces come one after another, and nothing comes after them. -/
def Ahead : TokenStream → List Piece → Prop
  | s, [] => ∃ t, s.next = .ok none t
  | s, w :: ws => ∃ token t, s.next = .ok (some token) t ∧ (token.kind, token.text) = w ∧
    Ahead t ws

variable {s : TokenStream} {ws : List Piece}

theorem AtEnd.ahead (h : s.AtEnd) : s.Ahead [] := ⟨s, h.next⟩

theorem Ahead.push (h : s.Ahead ws) (t : Token) : (s.push t).Ahead ((t.kind, t.text) :: ws) :=
  ⟨t, s, rfl, rfl, h⟩

theorem Ahead.length_le (h : s.Ahead ws) : ws.length ≤ s.size := by
  induction ws generalizing s with
  | nil => exact Nat.zero_le _
  | cons w ws ih =>
    obtain ⟨token, t, ht, -, hws⟩ := h
    exact Nat.lt_of_le_of_lt (ih hws) (next_some ht)

end TokenStream

namespace Lexeme

/-- The text consists of the pieces, however many blanks stand before it. -/
def Lexes (cs : List Char) (ws : List Piece) : Prop :=
  ∀ length rest, skipBlanks false rest = skipBlanks false cs →
    TokenStream.Ahead { length, rest } ws

theorem toNat_of_isNameChar {c : Char} (h : isNameChar c = true) :
    48 ≤ c.toNat ∧ c.toNat ≤ 122 := by
  have hunderscore : '_'.toNat = 95 := rfl
  simp only [isNameChar, isLetter, isDigit, Bool.or_eq_true, Bool.and_eq_true,
    decide_eq_true_eq, Char.le_def, UInt32.le_iff_toNat_le] at h
  rcases h with (rfl | h) | h
  · omega
  · change (97 ≤ c.toNat ∧ c.toNat ≤ 122) ∨ (65 ≤ c.toNat ∧ c.toNat ≤ 90) at h
    omega
  · change 48 ≤ c.toNat ∧ c.toNat ≤ 57 at h
    omega

/-- A word does not begin like a blank or a comment. -/
theorem visible_of_isNameChar {c : Char} (h : isNameChar c = true) :
    32 < c.toNat ∧ c ≠ '-' ∧ c ≠ '\x7b' := by
  have hbounds := toNat_of_isNameChar h
  refine ⟨by omega, ?_, ?_⟩
  · intro heq
    subst heq
    exact absurd hbounds.1 (by decide)
  · intro heq
    subst heq
    exact absurd hbounds.2 (by decide)

theorem isLineBreak_of_toNat {c : Char} (h : 32 < c.toNat) : isLineBreak c = false := by
  rw [isLineBreak, Bool.or_eq_false_iff, decide_eq_false_iff_not, decide_eq_false_iff_not]
  constructor
  · intro heq
    subst heq
    exact absurd h (by decide)
  · intro heq
    subst heq
    exact absurd h (by decide)

/-- No blank and no comment begins with such a character. -/
theorem skipBlanks_of_toNat {lines : Bool} {c : Char} {cs : List Char} (h : 32 < c.toNat)
    (hdash : c = '-' → cs.head? ≠ some '-') (hbrace : c ≠ '\x7b') :
    skipBlanks lines (c :: cs) = c :: cs := by
  have hblank : ¬ c ≤ ' ' := fun hle => absurd h (Nat.not_lt.2 hle)
  rw [skipBlanks, if_neg (by simp [isBlank, hblank, isLineBreak_of_toNat h])]
  · intro rest hc hrest
    subst hc hrest
    exact hdash rfl rfl
  · intro rest heq
    subst heq
    exact absurd rfl hbrace

namespace Lexes

variable {cs : List Char} {ws : List Piece}

theorem nil : Lexes [] [] := by
  intro length rest hrest
  refine ⟨⟨length, [], [], []⟩, ?_⟩
  rw [TokenStream.next]
  dsimp only
  rw [hrest, skipBlanks, TokenStream.read]

theorem blank (h : Lexes cs ws) : Lexes (' ' :: cs) ws := fun length rest hrest =>
  h length rest (hrest.trans (skipBlanks_cons (.inl rfl)))

theorem cons {c : Char} {rest : List Char} {word : Word} (hc : isLineBreak c = false)
    (hskip : skipBlanks false cs = c :: rest) (hread : Lexeme.read c rest = .ok word)
    (h : Lexes word.rest ws) : Lexes cs ((word.kind, String.ofList word.text) :: ws) := by
  intro length before hbefore
  let s : TokenStream := { length, rest := before }
  refine ⟨⟨word.kind, String.ofList word.text, s.span (c :: rest) word.rest⟩,
    { length, rest := word.rest }, ?_, rfl, h length word.rest rfl⟩
  rw [TokenStream.next]
  dsimp only
  rw [hbefore, hskip, TokenStream.read, if_neg (by simp [hc]), hread]

theorem ofVisible {c : Char} {rest : List Char} {word : Lexeme.Word} (hc : 32 < c.toNat)
    (hdash : c = '-' → rest.head? ≠ some '-') (hbrace : c ≠ '\x7b')
    (hread : Lexeme.read c rest = .ok word)
    (h : Lexes word.rest ws) : Lexes (c :: rest) ((word.kind, String.ofList word.text) :: ws) :=
  cons (isLineBreak_of_toNat hc) (skipBlanks_of_toNat hc hdash hbrace) hread h

theorem ofNameChar {c : Char} {rest : List Char} {word : Lexeme.Word} (hc : isNameChar c = true)
    (hread : Lexeme.read c rest = .ok word) (h : Lexes word.rest ws) :
    Lexes (c :: rest) ((word.kind, String.ofList word.text) :: ws) := by
  obtain ⟨hvisible, hdash, hbrace⟩ := visible_of_isNameChar hc
  exact ofVisible hvisible (fun h => absurd h hdash) hbrace hread h

theorem name {x : String} (hx : isName x.toList = true) (hend : Ends isNameChar cs)
    (h : Lexes cs ws) : Lexes (x.toList ++ cs) ((.name, x) :: ws) := by
  obtain ⟨c, ds, hc, hletter, hchars⟩ := isName_iff.1 hx
  rw [hc, List.forall_mem_cons] at hchars
  have hread : Lexeme.read c (ds ++ cs) = .ok ⟨.name, c :: ds, cs⟩ := by
    unfold Lexeme.read
    rw [if_neg, if_pos hletter, takeWhile_append hchars.2 hend, dropWhile_append hchars.2 hend]
    intro heq
    subst heq
    cases hletter
  have hword := ofNameChar hchars.1 hread h
  rwa [← hc, String.ofList_toList, ← List.cons_append, ← hc] at hword

theorem integer {n : Nat} (hend : Ends isDigit cs) (hpoint : cs.head? ≠ some '.')
    (h : Lexes cs ws) :
    Lexes ((Decimal.natural n).toList ++ cs) ((.integer, Decimal.natural n) :: ws) := by
  have hdigits := Decimal.digits_isDigit n
  have hnumber : readNumber (Decimal.digits n ++ cs) = ⟨.integer, Decimal.digits n, cs⟩ := by
    unfold readNumber
    rw [takeWhile_append hdigits hend, dropWhile_append hdigits hend]
    split
    · exact absurd rfl hpoint
    · rfl
  obtain ⟨c, ds, hc, hletter⟩ := Decimal.natural_head n
  rw [Decimal.natural, String.toList_ofList] at hc ⊢
  rw [hc, List.forall_mem_cons] at hdigits
  have hread : Lexeme.read c (ds ++ cs) = .ok ⟨.integer, Decimal.digits n, cs⟩ := by
    unfold Lexeme.read
    rw [if_neg, if_neg (by simp [hletter]), if_pos hdigits.1, ← List.cons_append, ← hc, hnumber]
    intro heq
    subst heq
    cases hdigits.1
  have hword := ofNameChar (by simp [isNameChar, hdigits.1]) hread h
  rwa [← List.cons_append, ← hc] at hword

theorem paren {c : Char} (hc : c = '(' ∨ c = ')') (h : Lexes cs ws) :
    Lexes (c :: cs) ((.delimiter, String.singleton c) :: ws) := by
  have hread : Lexeme.read c cs = .ok ⟨.delimiter, [c], cs⟩ := by
    rcases hc with rfl | rfl <;> rfl
  refine ofVisible ?_ ?_ ?_ hread h <;> rcases hc with rfl | rfl <;>
    first | decide | exact fun h => nomatch h

/-- An operator with a blank behind it. -/
theorem operator (op : Operator) (h : Lexes (' ' :: cs) ws) :
    Lexes (op.symbol.toList ++ ' ' :: cs) ((.symbol, op.symbol) :: ws) := by
  obtain ⟨c, ds, hop, hchars, hc, hbrace, hdash⟩ : ∃ c ds, op.symbol.toList = c :: ds ∧
      (∀ d ∈ c :: ds, isSymbolChar d = true) ∧ 32 < c.toNat ∧ c ≠ '\x7b' ∧ (c = '-' → ds = []) := by
    rcases op with op | op | op <;> cases op <;>
      exact ⟨_, _, rfl, List.all_eq_true.1 rfl, by decide, by decide, by decide⟩
  rw [List.forall_mem_cons] at hchars
  have hend : Ends isSymbolChar (' ' :: cs) := fun d hd => Option.mem_some.1 hd ▸ rfl
  have hread : Lexeme.read c (ds ++ ' ' :: cs) = .ok ⟨.symbol, c :: ds, ' ' :: cs⟩ := by
    have hc := hchars.1
    simp only [isSymbolChar, Bool.and_eq_true, Bool.not_eq_true'] at hc
    unfold Lexeme.read
    rw [if_neg, if_neg (by simp [hc]), if_neg (by simp [hc]), if_neg (by simp [hc]),
      takeWhile_append hchars.2 hend, dropWhile_append hchars.2 hend]
    intro heq
    subst heq
    exact absurd hc.2 (by decide)
  have hnext : c = '-' → (ds ++ ' ' :: cs).head? ≠ some '-' := fun hd => by
    rw [hdash hd]
    exact fun h => nomatch h
  have hword := ofVisible hc hnext hbrace hread h
  rwa [← hop, String.ofList_toList, ← List.cons_append, ← hop] at hword

end Lexes

end Lexeme

end Offside
