import Offside.Decimal.Layout
import Offside.Proofs.Token.Sequence

namespace Offside

/-- A word of a source by its meaning: numbers by their value, truth values as such. -/
inductive Leaf where
  | name (x : String)
  | integer (n : Int)
  | float (x : Float)
  | string (s : String)
  | bool (b : Bool)
  | symbol (text : String)
  | delimiter (text : String)

namespace Leaf

def ofName (x : String) : Leaf :=
  if x = "True" then .bool true else if x = "False" then .bool false else .name x

/-- Parentheses and terminators group words but are none. -/
def ofWord? (kind : TokenKind) (text : String) : Option Leaf :=
  match kind with
  | .name => some (ofName text)
  | .integer => some (.integer (Decimal.value text.toList))
  | .float => some (.float (Decimal.readFloat text.toList))
  | .string => some (.string text)
  | .symbol => some (.symbol text)
  | .delimiter => if text = "(" ∨ text = ")" then none else some (.delimiter text)
  | .terminator => none

end Leaf

def Token.leaf? (t : Token) : Option Leaf := Leaf.ofWord? t.kind t.text

namespace Lexeme

theorem skipBlanks_cons {lines : Bool} {c : Char} {cs : List Char}
    (hc : isBlank c = true ∨ lines = true ∧ isLineBreak c = true) :
    skipBlanks lines (c :: cs) = skipBlanks lines cs := by
  rw [skipBlanks]
  · exact if_pos (by simpa using hc)
  · intro rest heq
    subst heq
    simp [isBlank, isLineBreak] at hc
  · intro rest heq
    subst heq
    simp [isBlank, isLineBreak] at hc

theorem skipBlanks_skipBlanks (lines : Bool) (cs : List Char) :
    skipBlanks true (skipBlanks lines cs) = skipBlanks true cs := by
  fun_induction skipBlanks lines cs with
  | case1 => rfl
  | case2 rest ih => rw [ih, skipBlanks]
  | case3 rest ih => rw [ih, skipBlanks]
  | case4 c rest _ _ h ih =>
    rw [ih, skipBlanks_cons]
    grind
  | case5 => rfl

theorem skipBlanks_idem (lines : Bool) (cs : List Char) :
    skipBlanks lines (skipBlanks lines cs) = skipBlanks lines cs := by
  fun_induction skipBlanks lines cs with
  | case1 => rw [skipBlanks]
  | case2 rest ih => exact ih
  | case3 rest ih => exact ih
  | case4 c rest _ _ h ih => exact ih
  | case5 c rest h1 h2 h => rw [skipBlanks.eq_4 _ _ _ h1 h2, if_neg h]

theorem skipBlanks_nextLine (width : Nat) (cs : List Char) :
    skipBlanks true (nextLine width cs).2 = skipBlanks true cs := by
  fun_induction nextLine width cs with
  | case1 => rfl
  | case2 width c cs h ih => rw [ih, skipBlanks_cons (.inr ⟨rfl, h⟩)]
  | case3 width c cs h hb ih => rw [ih, skipBlanks_cons (.inl hb)]
  | case4 => rfl

/-- What stands first when blanks are skipped also does when lines are, but for a line break. -/
theorem skipBlanks_lines {c : Char} {cs rest : List Char} (h : skipBlanks false cs = c :: rest)
    (hc : isLineBreak c = false) : skipBlanks true cs = c :: rest := by
  fun_induction skipBlanks false cs with
  | case1 => cases h
  | case2 rest' ih => rw [skipBlanks, ih h]
  | case3 rest' ih => rw [skipBlanks, ih h]
  | case4 d rest' _ _ hd ih =>
    rw [skipBlanks_cons (.inl (by simpa using hd)), ih h]
  | case5 d rest' h1 h2 hd =>
    cases h
    rw [skipBlanks.eq_4 _ _ _ h1 h2, if_neg]
    simpa [hc] using hd

/-- The leaves of a text; there are none if it holds an unclosed string. -/
def leaves (cs : List Char) : Option (List Leaf) :=
  match _h : skipBlanks true cs with
  | [] => some []
  | c :: rest =>
    match _hr : read c rest with
    | .ok word =>
      (leaves word.rest).map ((Leaf.ofWord? word.kind (String.ofList word.text)).toList ++ ·)
    | .error _ => none
termination_by cs.length
decreasing_by
  have hs := skipBlanks_length_le true cs
  have hl := read_length_le c rest
  rw [_h, List.length_cons] at hs
  rw [_hr, left] at hl
  omega

theorem leaves_nil {cs : List Char} (h : skipBlanks true cs = []) : leaves cs = some [] := by
  unfold leaves
  split
  · rfl
  · next hc => cases h.symm.trans hc

theorem leaves_word {c : Char} {cs rest : List Char} {word : Word}
    (h : skipBlanks true cs = c :: rest) (hr : read c rest = .ok word) : leaves cs =
      (leaves word.rest).map
        ((Leaf.ofWord? word.kind (String.ofList word.text)).toList ++ ·) := by
  rw [leaves]
  split
  · next hc => cases h.symm.trans hc
  · next c' rest' hc =>
    cases h.symm.trans hc
    split
    · next word' hw =>
      cases hr.symm.trans hw
      rfl
    · next hw => cases hr.symm.trans hw

theorem leaves_unclosed {c : Char} {cs rest tail : List Char} (h : skipBlanks true cs = c :: rest)
    (hr : read c rest = .error tail) : leaves cs = none := by
  rw [leaves]
  split
  · next hc => cases h.symm.trans hc
  · next c' rest' hc =>
    cases h.symm.trans hc
    split
    · next hw => cases hr.symm.trans hw
    · rfl

theorem leaves_congr {cs ds : List Char} (h : skipBlanks true cs = skipBlanks true ds) :
    leaves cs = leaves ds := by
  cases hd : skipBlanks true ds with
  | nil => rw [leaves_nil hd, leaves_nil (h.trans hd)]
  | cons c rest =>
    cases hr : read c rest with
    | ok word => rw [leaves_word hd hr, leaves_word (h.trans hd) hr]
    | error tail => rw [leaves_unclosed hd hr, leaves_unclosed (h.trans hd) hr]

end Lexeme

namespace TokenStream

open Lexeme

/-- The leaves still to be read; line breaks and open lines do not matter. -/
def leaves (s : TokenStream) : Option (List Leaf) :=
  (Lexeme.leaves s.rest).map (s.pending.filterMap Token.leaf? ++ ·)

theorem leaves_push (s : TokenStream) (t : Token) :
    (s.push t).leaves = s.leaves.map (t.leaf?.toList ++ ·) := by
  simp only [leaves, push, Option.map_map]
  congr 1
  funext l
  cases h : t.leaf? <;> simp [h]

theorem leaves_skipLines (s : TokenStream) : s.skipLines.leaves = s.leaves := by
  have hp : (s.pending.dropWhile fun t => decide (t.kind = .terminator)).filterMap Token.leaf? =
      s.pending.filterMap Token.leaf? := by
    induction s.pending with
    | nil => rfl
    | cons t ts ih =>
      by_cases h : t.kind = .terminator
      · rw [List.dropWhile_cons_of_pos (by simpa using h), ih, List.filterMap_cons]
        simp [Token.leaf?, Leaf.ofWord?, h]
      · rw [List.dropWhile_cons_of_neg (by simpa using h)]
  simp only [leaves, skipLines, hp]
  rw [leaves_congr (skipBlanks_skipBlanks true s.rest)]

/-- Reading a token takes its leaf away, and a line break has none. -/
theorem read_leaves (s : TokenStream) (text : List Char)
    (htext : Lexeme.skipBlanks false text = text) :
    match s.read text with
    | .ok o t => Lexeme.leaves text = (Lexeme.leaves t.rest).map ((o.bind Token.leaf?).toList ++ ·)
    | .error _ _ => Lexeme.leaves text = none := by
  have hnil : Lexeme.leaves [] = some [] := leaves_nil (by rw [Lexeme.skipBlanks])
  fun_induction read s text with
  | case1 s h => simp [hnil]
  | case2 s width outer h => simp [hnil, Token.leaf?, Leaf.ofWord?]
  | case3 s c cs hc hw ih =>
    have hline : Lexeme.skipBlanks true (c :: cs) =
        Lexeme.skipBlanks true (Lexeme.skipBlanks false (nextLine 0 cs).2) := by
      rw [skipBlanks_skipBlanks, skipBlanks_nextLine, skipBlanks_cons (.inr ⟨rfl, hc⟩)]
    rw [leaves_congr hline]
    exact ih (skipBlanks_idem false _)
  | case4 s c cs hc hw =>
    rw [leaves_congr (skipBlanks_cons (.inr ⟨rfl, hc⟩))]
    simp [Token.leaf?, Leaf.ofWord?]
  | case5 s c cs hc word hr =>
    have h := skipBlanks_lines htext (by simpa using hc)
    rw [leaves_word h hr]
    rfl
  | case6 s c cs hc rest hr => exact leaves_unclosed (skipBlanks_lines htext (by simpa using hc)) hr

theorem next_leaves (s : TokenStream) :
    match s.next with
    | .ok o t => s.leaves = t.leaves.map ((o.bind Token.leaf?).toList ++ ·)
    | .error _ _ => s.leaves = none := by
  cases hp : s.pending with
  | cons token pending =>
    have hs := leaves_push { s with pending } token
    unfold next
    rw [hp]
    rw [push, ← hp] at hs
    exact hs
  | nil =>
    have hr := read_leaves s _ (skipBlanks_idem false s.rest)
    have hpending := read_spec s (Lexeme.skipBlanks false s.rest)
    rw [← leaves_congr (skipBlanks_skipBlanks false s.rest).symm] at hr
    unfold next
    rw [hp]
    dsimp only
    cases h : s.read (Lexeme.skipBlanks false s.rest) with
    | ok o t =>
      rw [h] at hr hpending
      have ht : t.pending = [] := by
        cases o with
        | none => exact hpending.2.2.trans hp
        | some token => exact hpending.2.trans hp
      simp only [leaves, hp, ht, List.filterMap_nil, List.nil_append, Option.map_id']
      exact hr
    | error e t =>
      rw [h] at hr
      simp only [leaves, hr, Option.map_none]

/-- All leaves can be read if and only if all tokens can, and the tokens carry them. -/
theorem tokens_leaves (s : TokenStream) :
    s.leaves = s.tokens.toOption.map (List.filterMap Token.leaf?) := by
  fun_induction tokens s with
  | case1 s t h =>
    have hs := next_leaves s
    have ht := atEnd_iff_size.2 (next_none h)
    rw [h] at hs
    rw [hs, leaves, ht.1, ht.2.2, leaves_nil (by rw [Lexeme.skipBlanks])]
    rfl
  | case2 s token t h ih =>
    have hs := next_leaves s
    rw [h] at hs
    rw [hs, ih]
    cases t.tokens with
    | error e => rfl
    | ok ts =>
      cases hl : token.leaf? <;> simp [Except.toOption, Except.map, hl]
  | case3 s e t h =>
    have hs := next_leaves s
    rw [h] at hs
    rw [hs]
    rfl

end TokenStream

end Offside
