import Mathlib
import Offside.Proofs.Token.Ahead
import Offside.Proofs.Token.Words

namespace Offside

namespace Lexeme

/-- The text that a word is written as. Three quotes around a string close none that it holds. -/
def writtenWord (kind : TokenKind) (text : List Char) : List Char :=
  if kind = .string then quotes ++ text ++ quotes else text

theorem IsWord.written {spelling text rest : List Char} {kind : TokenKind}
    (h : IsWord spelling kind text rest) : IsWord (writtenWord kind text) kind text [] := by
  by_cases hkind : kind = .string
  · rw [writtenWord, if_pos hkind]
    cases h with
    | short htext hrest =>
      have hquotes : ∀ c ∈ text, c ≠ '"' := by
        rintro c hc rfl
        cases htext _ hc
      have hsplit := splitAtQuotes_of_notMem hquotes []
      rw [List.append_nil] at hsplit
      exact .long hsplit
    | long htext => exact .long htext
    | _ => cases hkind
  · rw [writtenWord, if_neg hkind, ← h.spelling_eq hkind]
    exact h.spelling_eq hkind ▸ h.alone

/-- A word that is read somewhere: no blank, no line break and no comment begins there. -/
def Readable (w : Piece) : Prop :=
  ∃ c ds rest, isBlank c = false ∧ isLineBreak c = false ∧ NoComment c (ds ++ rest) ∧
    IsWord (c :: ds) w.1 w.2.toList rest

theorem readable_of_read {c : Char} {cs : List Char} {w : Word}
    (hskip : skipBlanks false (c :: cs) = c :: cs) (hbreak : isLineBreak c = false)
    (h : read c cs = .ok w) : Readable (w.kind, String.ofList w.text) := by
  obtain ⟨hblank, -, hcomment⟩ := noComment_of_skipBlanks hskip
  obtain ⟨ds, rfl, hword⟩ := isWord_of_read h
  exact ⟨c, ds, w.rest, hblank, hbreak, hcomment, by rwa [String.toList_ofList]⟩

theorem Readable.kind_ne_terminator {w : Piece} (h : Readable w) : w.1 ≠ .terminator := by
  obtain ⟨c, ds, rest, -, -, -, hword⟩ := h
  exact hword.kind_ne_terminator

/-- A word that is written before a gap is read there. -/
theorem Readable.lexes {w : Piece} (h : Readable w) {rest : List Char} {ws : List Piece}
    (hrest : Parted rest) (hws : Lexes rest ws) :
    Lexes (writtenWord w.1 w.2.toList ++ rest) (w :: ws) := by
  obtain ⟨kind, text⟩ := w
  obtain ⟨c, ds, tail, hblank, hbreak, hcomment, hword⟩ := h
  dsimp only at hword
  have hwritten := (hword.written).congr (.parted parted_nil hrest)
  -- A string begins with a quote, and any other word with its first character.
  obtain ⟨d, es, hes, hd, hde⟩ : ∃ d es, writtenWord kind text.toList = d :: es ∧
      (isBlank d = false ∧ isLineBreak d = false) ∧ NoComment d (es ++ rest) := by
    by_cases hkind : kind = .string
    · refine ⟨'"', '"' :: '"' :: (text.toList ++ quotes), ?_, ⟨rfl, rfl⟩, ?_⟩
      · rw [writtenWord, if_pos hkind]
        rfl
      · rintro (h | h) <;> cases h
    · refine ⟨c, ds, ?_, ⟨hblank, hbreak⟩, fun hc hhead => ?_⟩
      · rw [writtenWord, if_neg hkind, hword.spelling_eq hkind]
      · cases ds with
        | nil =>
          have hdash := hrest '-' hhead
          cases hdash <;> contradiction
        | cons e ds => exact hcomment hc hhead
  have hread := read_of_isWord (hes ▸ hwritten)
  have hskip : skipBlanks false (d :: (es ++ rest)) = d :: (es ++ rest) :=
    skipBlanks_of_noComment hd.1 nofun hde
  have hlexes := Lexes.cons hd.2 hskip hread hws
  rwa [String.ofList_toList, ← List.cons_append, ← hes] at hlexes

/-- A word is read before what ends it. -/
theorem Lexes.ofWord {c : Char} {ds text rest : List Char} {kind : TokenKind} {ws : List Piece}
    (hword : IsWord (c :: ds) kind text rest) (hc : 32 < c.toNat ∧ c ≠ '-' ∧ c ≠ '\x7b')
    (h : Lexes rest ws) : Lexes (c :: ds ++ rest) ((kind, String.ofList text) :: ws) :=
  ofVisible hc.1 (fun h => absurd h hc.2.1) hc.2.2 (read_of_isWord hword) h

theorem readable_name {x : String} (hx : IsName x) : Readable (.name, x) := by
  obtain ⟨c, ds, hc, hletter, hchars⟩ := isName_iff.1 hx
  rw [hc, List.forall_mem_cons] at hchars
  obtain ⟨hvisible, hdash, hbrace⟩ := visible_of_isNameChar hchars.1
  have hblank : isBlank c = false := by
    have hgt : ¬ c ≤ ' ' := fun hle => absurd hvisible (Nat.not_lt.2 hle)
    simp [isBlank, hgt]
  refine ⟨c, ds, [], hblank, isLineBreak_of_toNat hvisible, fun h => ?_, ?_⟩
  · exact absurd h (not_or.2 ⟨hdash, hbrace⟩)
  · rw [hc]
    exact .name hletter hchars.2 (ends_nil _)

theorem readable_operator (op : Operator) : Readable (.symbol, op.symbol) := by
  have hread (c : Char) (ds : List Char) (hop : op.symbol.toList = c :: ds)
      (hc : isLetter c = false ∧ isDigit c = false ∧ isDelimiter c = false ∧ isBlank c = false ∧
        isLineBreak c = false)
      (hcomment : c = '-' ∨ c = '\x7b' → ds = []) (hds : ∀ d ∈ ds, isSymbolChar d = true) :
      Readable (.symbol, op.symbol) := by
    refine ⟨c, ds, [], hc.2.2.2.1, hc.2.2.2.2, fun h => ?_, ?_⟩
    · rw [hcomment h]
      exact nofun
    · rw [hop]
      exact .symbol hc.1 hc.2.1 hc.2.2.1 hds (ends_nil _)
  rcases op with op | op | op <;> cases op <;>
    exact hread _ _ rfl (by decide) (by decide) (List.all_eq_true.1 rfl)

theorem intercalate_cons {α : Type} (sep xs : List α) (xss : List (List α)) :
    sep.intercalate (xs :: xss) = xs ++ xss.flatMap (sep ++ ·) := by
  induction xss generalizing xs with
  | nil => simp
  | cons ys xss ih => rw [List.intercalate_cons_cons, ih, List.flatMap_cons, List.append_assoc,
      List.append_assoc]

/-- Words with single blanks between them. -/
def writtenLine (ws : List Piece) : List Char :=
  [' '].intercalate (ws.map fun w => writtenWord w.1 w.2.toList)

theorem lexes_writtenLine {ws : List Piece} (h : ∀ w ∈ ws, Readable w) :
    Lexes (writtenLine ws) ws := by
  induction ws with
  | nil => exact Lexes.nil
  | cons w ws ih =>
    rw [List.forall_mem_cons] at h
    cases ws with
    | nil =>
      have hlast := h.1.lexes parted_nil Lexes.nil
      simpa [writtenLine] using hlast
    | cons v vs =>
      have hrest := (ih h.2).blank
      have hword := h.1.lexes (parted_cons (.inl rfl) _) hrest
      simpa [writtenLine] using hword

end Lexeme

namespace TokenStream

open Lexeme

variable {s t : TokenStream}

theorem read_readable {text : List Char} {token : Token}
    (htext : Lexeme.skipBlanks false text = text) (h : s.read text = .ok (some token) t) :
    token.kind = .terminator ∨ Readable (token.kind, token.text) := by
  fun_induction read s text with
  | case1 s hs => cases h
  | case2 s width outer hs =>
    cases h
    exact .inl rfl
  | case3 s c cs hc hw ih => exact ih (skipBlanks_idem false _) h
  | case4 s c cs hc hw =>
    cases h
    exact .inl rfl
  | case5 s c cs hc word hr =>
    cases h
    exact .inr (readable_of_read htext (by simpa using hc) hr)
  | case6 s c cs hc rest hr => cases h

theorem next_readable {token : Token} (hs : s.pending = [])
    (h : s.next = .ok (some token) t) :
    (token.kind = .terminator ∨ Readable (token.kind, token.text)) ∧ t.pending = [] := by
  have hread : s.next = s.read (Lexeme.skipBlanks false s.rest) := by
    unfold next
    rw [hs]
  have hspec := read_spec s (Lexeme.skipBlanks false s.rest)
  rw [hread] at h
  rw [h] at hspec
  exact ⟨read_readable (skipBlanks_idem false s.rest) h, hspec.2.trans hs⟩

theorem tokens_readable {ts : List Token} (hs : s.pending = []) (h : s.tokens = .ok ts) :
    ∀ t ∈ ts, t.kind = .terminator ∨ Readable (t.kind, t.text) := by
  fun_induction tokens s generalizing ts with
  | case1 s t hnext =>
    cases h
    exact List.forall_mem_nil _
  | case2 s token t hnext ih =>
    obtain ⟨hword, ht⟩ := next_readable hs hnext
    cases hrest : t.tokens with
    | error e =>
      rw [hrest] at h
      cases h
    | ok us =>
      rw [hrest] at h
      cases h
      exact List.forall_mem_cons.2 ⟨hword, ih ht hrest⟩
  | case3 s e t hnext => cases h

theorem tokens_eq (s : TokenStream) :
    s.tokens = match s.next with
      | .ok none _ => .ok []
      | .ok (some token) t => t.tokens.map (token :: ·)
      | .error e _ => .error e := by
  rw [tokens]
  split
  · next h => rw [h]
  · next h => rw [h]
  · next h => rw [h]

/-- The tokens that are read in so many steps, if that can be done without a failure. -/
def tokensWithin : (steps : Nat) → TokenStream → Except Error (List Token)
  | 0, _ => .ok []
  | steps + 1, s =>
    match s.next with
    | .ok none _ => .ok []
    | .ok (some token) t => (tokensWithin steps t).map (token :: ·)
    | .error e _ => .error e

theorem tokensWithin_eq_tokens {steps : Nat} (h : s.size < steps) :
    tokensWithin steps s = s.tokens := by
  induction steps generalizing s with
  | zero => omega
  | succ steps ih =>
    rw [tokensWithin, tokens_eq]
    cases hnext : s.next with
    | error e t => rfl
    | ok o t =>
      cases o with
      | none => rfl
      | some token =>
        have ht := next_some hnext
        dsimp only
        rw [ih (by omega)]

/-- The tokens of a stream that has the pieces ahead. -/
theorem Ahead.tokens {ws : List Piece} (h : s.Ahead ws) :
    ∃ us, s.tokens = .ok us ∧ us.map (fun t => (t.kind, t.text)) = ws := by
  induction ws generalizing s with
  | nil =>
    obtain ⟨t, ht⟩ := h
    refine ⟨[], ?_, rfl⟩
    rw [tokens_eq, ht]
  | cons w ws ih =>
    obtain ⟨token, t, ht, hw, hws⟩ := h
    obtain ⟨us, hus, hmap⟩ := ih hws
    refine ⟨token :: us, ?_, by rw [List.map_cons, hmap, hw]⟩
    rw [tokens_eq, ht]
    dsimp only
    rw [hus]
    rfl

end TokenStream

/-- Strings are written with three quotes on either side. -/
def Token.written (t : Token) : String :=
  if t.kind = .string then "\"\"\"" ++ t.text ++ "\"\"\"" else t.text

theorem Token.toList_written (t : Token) :
    t.written.toList = Lexeme.writtenWord t.kind t.text.toList := by
  unfold written Lexeme.writtenWord
  split
  · rw [String.toList_append, String.toList_append]
    rfl
  · rfl

/-- Tokens with single blanks between them. -/
def writtenOut (ts : List Token) : String := " ".intercalate (ts.map Token.written)

theorem toList_writtenOut (ts : List Token) :
    (writtenOut ts).toList = Lexeme.writtenLine (ts.map fun t => (t.kind, t.text)) := by
  unfold writtenOut Lexeme.writtenLine
  rw [String.toList_intercalate, List.map_map, List.map_map]
  congr 1
  exact List.map_congr_left fun t _ => t.toList_written

/-- The words of a source that can be read, written out on one line, are read again with the same
kinds and texts, and no line ends between them. -/
theorem tokens_writtenOut {source : String} {ts : List Token}
    (h : (TokenStream.ofSource source).tokens = .ok ts) :
    let words := ts.filter fun t => t.kind ≠ .terminator
    ∃ us, (TokenStream.ofSource (writtenOut words)).tokens = .ok us ∧
      us.map (fun u => (u.kind, u.text)) = words.map (fun t => (t.kind, t.text)) ∧
      ∀ u ∈ us, u.kind ≠ .terminator := by
  intro words
  have hwords : ∀ w ∈ words.map fun t => (t.kind, t.text), Lexeme.Readable w := by
    intro w hw
    obtain ⟨t, ht, rfl⟩ := List.mem_map.1 hw
    obtain ⟨hmem, hkind⟩ := List.mem_filter.1 ht
    exact (TokenStream.tokens_readable rfl h t hmem).resolve_left (by simpa using hkind)
  have hlexes := Lexeme.lexes_writtenLine hwords
  rw [← toList_writtenOut] at hlexes
  obtain ⟨us, hus, hmap⟩ := (hlexes (byteLength (writtenOut words).toList) _ rfl).tokens
  refine ⟨us, hus, hmap, fun u hu => ?_⟩
  have hmem := List.mem_map_of_mem (f := fun u : Token => (u.kind, u.text)) hu
  rw [hmap] at hmem
  exact (hwords _ hmem).kind_ne_terminator

set_option maxRecDepth 4000 in
theorem tokens_writtenOut_two_lines :
    let source := "f+--x \"\"\"a\"\nb\"\"\" \"\"\n  \x7b- c -\x7d 1.2.3\n_y"
    ∃ ts us, (TokenStream.ofSource source).tokens = .ok ts ∧
      writtenOut (ts.filter fun t => t.kind ≠ .terminator) =
        "f +-- x \"\"\"a\"\nb\"\"\" \"\"\"\"\"\" 1.2 . 3 _ y" ∧
      (TokenStream.ofSource (writtenOut (ts.filter fun t => t.kind ≠ .terminator))).tokens =
        .ok us ∧
      us.map (fun u => (u.kind, u.text)) = [(.name, "f"), (.symbol, "+--"), (.name, "x"),
        (.string, "a\"\nb"), (.string, ""), (.float, "1.2"), (.symbol, "."), (.integer, "3"),
        (.symbol, "_"), (.name, "y")] := by
  intro source
  let ts : List Token := [⟨.name, "f", ⟨0, 1⟩⟩, ⟨.symbol, "+--", ⟨1, 4⟩⟩, ⟨.name, "x", ⟨4, 5⟩⟩,
    ⟨.string, "a\"\nb", ⟨6, 16⟩⟩, ⟨.string, "", ⟨17, 19⟩⟩, ⟨.float, "1.2", ⟨30, 33⟩⟩,
    ⟨.symbol, ".", ⟨33, 34⟩⟩, ⟨.integer, "3", ⟨34, 35⟩⟩, ⟨.terminator, "\n", ⟨35, 36⟩⟩,
    ⟨.symbol, "_", ⟨36, 37⟩⟩, ⟨.name, "y", ⟨37, 38⟩⟩]
  have hts : (TokenStream.ofSource source).tokens = .ok ts := by
    have hsize : (TokenStream.ofSource source).size < 60 := by decide
    rw [← TokenStream.tokensWithin_eq_tokens hsize]
    cbv
  obtain ⟨us, hus, hmap, -⟩ := tokens_writtenOut hts
  exact ⟨ts, us, hts, by cbv, hus, hmap⟩

end Offside
