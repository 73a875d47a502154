import Offside.Token.Stream

namespace Offside

theorem length_le_byteLength (cs : List Char) : cs.length ≤ byteLength cs := by
  induction cs with
  | nil => exact Nat.le_refl 0
  | cons c cs ih =>
    have hc := c.utf8Size_pos
    unfold byteLength at ih ⊢
    rw [List.foldr_cons, List.length_cons]
    omega

namespace Lexeme

/-- A line that is indented has been read at least that far. -/
theorem nextLine_length_add_le (width : Nat) (cs : List Char) :
    (nextLine width cs).1 + (nextLine width cs).2.length ≤ width + cs.length := by
  fun_induction nextLine width cs with
  | case1 width => simp
  | case2 width c cs h ih =>
    simp only [List.length_cons]
    omega
  | case3 width c cs h hb ih =>
    simp only [List.length_cons]
    omega
  | case4 width c cs h hb => simp

theorem splitAtQuotes_length_lt {cs content rest : List Char}
    (h : splitAtQuotes cs = some (content, rest)) : rest.length < cs.length := by
  fun_induction splitAtQuotes cs generalizing content rest with
  | case1 => simp at h
  | case2 rest' =>
    cases h
    simp only [List.length_cons]
    omega
  | case3 c cs' hc ih =>
    obtain ⟨p, hp, he⟩ := Option.map_eq_some_iff.1 h
    cases he
    have := ih hp
    simp only [List.length_cons]
    omega

/-- What is left of a text after a word, or after the attempt to read one. -/
def left : Except (List Char) Word → List Char
  | .ok word => word.rest
  | .error rest => rest

theorem readString_length_le (cs : List Char) : (left (readString cs)).length ≤ cs.length := by
  have hle := dropWhile_length_le (fun c => c != '"' && !isLineBreak c) cs
  unfold readString
  dsimp only
  generalize cs.dropWhile (fun c => c != '"' && !isLineBreak c) = tail at hle
  split
  · simp only [List.length_cons] at hle
    exact Nat.le_of_succ_le hle
  · exact hle

theorem readLongString_length_le (cs : List Char) :
    (left (readLongString cs)).length ≤ cs.length := by
  unfold readLongString
  cases h : splitAtQuotes cs with
  | none => simp [left]
  | some p => exact Nat.le_of_lt (splitAtQuotes_length_lt h)

theorem readNumber_length_le {c : Char} (hc : isDigit c = true) (cs : List Char) :
    (readNumber (c :: cs)).rest.length ≤ cs.length := by
  have hle := dropWhile_length_le isDigit cs
  unfold readNumber
  dsimp only
  rw [List.dropWhile_cons_of_pos hc]
  split
  · next d rest h =>
    rw [h] at hle
    simp only [List.length_cons] at hle
    split
    · have := dropWhile_length_le isDigit (d :: rest)
      simp only [List.length_cons] at this
      dsimp only
      omega
    · simp only [List.length_cons]
      omega
  · exact hle

theorem read_length_le (c : Char) (cs : List Char) : (left (read c cs)).length ≤ cs.length := by
  unfold read
  split
  · split
    · next rest =>
      have h := readLongString_length_le rest
      simp only [List.length_cons]
      omega
    · exact readString_length_le cs
  · split
    · exact dropWhile_length_le isNameChar cs
    · split
      · exact readNumber_length_le ‹_› cs
      · split
        · exact Nat.le_refl _
        · exact dropWhile_length_le isSymbolChar cs

end Lexeme

namespace TokenStream

open Lexeme

/-- Whatever comes of reading from `text`, something is used up, unless there is nothing left. -/
theorem read_spec (s : TokenStream) (text : List Char) :
    match s.read text with
    | .ok none t => t.rest = [] ∧ t.indents = [] ∧ t.pending = s.pending
    | .ok (some _) t =>
      t.rest.length + t.indents.length < text.length + s.indents.length ∧ t.pending = s.pending
    | .error _ t =>
      t.rest.length + t.indents.length < text.length + s.indents.length ∧
        t.pending = s.pending := by
  fun_induction read s text with
  | case1 s h => simp [h]
  | case2 s width outer h => simp [h]
  | case3 s c cs hc hw ih =>
    have hline := nextLine_length_add_le 0 cs
    have hskip := skipBlanks_length_le false (nextLine 0 cs).2
    revert ih
    cases hr : read { s with indents := (nextLine 0 cs).1 :: s.indents }
        (Lexeme.skipBlanks false (nextLine 0 cs).2) with
    | ok o t =>
      cases o with
      | none => exact id
      | some token =>
        simp only [List.length_cons]
        exact fun h => ⟨by omega, h.2⟩
    | error e t =>
      simp only [List.length_cons]
      exact fun h => ⟨by omega, h.2⟩
  | case4 s c cs hc hw =>
    simp only [List.length_cons, List.length_tail, and_true]
    omega
  | case5 s c cs hc word hr =>
    have h := read_length_le c cs
    rw [hr] at h
    simp only [left] at h
    simp only [List.length_cons, and_true]
    omega
  | case6 s c cs hc rest hr =>
    have h := read_length_le c cs
    rw [hr] at h
    simp only [left] at h
    simp only [List.length_cons, and_true]
    omega

theorem size_lt_of_left {s t : TokenStream} (hp : s.pending = [])
    (h : t.rest.length + t.indents.length <
        (Lexeme.skipBlanks false s.rest).length + s.indents.length ∧ t.pending = s.pending) :
    t.size < s.size := by
  have hl := skipBlanks_length_le false s.rest
  simp only [size, h.2, hp, List.length_nil]
  omega

theorem next_none {s t : TokenStream} (h : s.next = .ok none t) : t.size = 0 := by
  unfold next at h
  split at h
  · cases h
  · next hp =>
    have hr := read_spec s (Lexeme.skipBlanks false s.rest)
    rw [h] at hr
    simp [size, hr.1, hr.2.1, hr.2.2, hp]

theorem next_some {s t : TokenStream} {token : Token} (h : s.next = .ok (some token) t) :
    t.size < s.size := by
  unfold next at h
  split at h
  · next hp =>
    cases h
    simp [size, hp]
  · next hp =>
    have hr := read_spec s (Lexeme.skipBlanks false s.rest)
    rw [h] at hr
    exact size_lt_of_left hp hr

theorem next_error {s t : TokenStream} {e : Error} (h : s.next = .error e t) :
    t.size < s.size := by
  unfold next at h
  split at h
  · cases h
  · next hp =>
    have hr := read_spec s (Lexeme.skipBlanks false s.rest)
    rw [h] at hr
    exact size_lt_of_left hp hr

theorem size_push (s : TokenStream) (t : Token) : (s.push t).size = s.size + 1 := by
  simp only [size, push, List.length_cons]
  omega

theorem size_skipLines_le (s : TokenStream) : s.skipLines.size ≤ s.size := by
  have hr := skipBlanks_length_le true s.rest
  have hp := dropWhile_length_le (fun t : Token => decide (t.kind = .terminator)) s.pending
  simp only [size, skipLines]
  omega

/-- Nothing is left to read: no character, no open line and no token that was handed back. -/
def AtEnd (s : TokenStream) : Prop := s.rest = [] ∧ s.indents = [] ∧ s.pending = []

theorem atEnd_iff_size {s : TokenStream} : s.AtEnd ↔ s.size = 0 := by
  simp only [AtEnd, size, ← List.length_eq_zero_iff]
  omega

theorem AtEnd.next {s : TokenStream} (h : s.AtEnd) : s.next = .ok none s := by
  obtain ⟨length, rest, indents, pending⟩ := s
  obtain ⟨rfl, rfl, rfl⟩ := h
  rw [TokenStream.next, Lexeme.skipBlanks, read]

theorem next_of_none {s t : TokenStream} (h : s.next = .ok none t) : t.next = .ok none t :=
  (atEnd_iff_size.2 (next_none h)).next

/-- The tokens up to the end of the source, terminators included. -/
def tokens (s : TokenStream) : Except Error (List Token) :=
  match _h : s.next with
  | .ok none _ => .ok []
  | .ok (some token) t => t.tokens.map (token :: ·)
  | .error e _ => .error e
termination_by s.size
decreasing_by exact next_some ‹_›

end TokenStream

end Offside
