import Mathlib.Logic.Function.Iterate
import Offside.Token.Stream

namespace Offside

open Lexeme

/-- What a cursor is in the middle of. Places are counted in bytes. -/
inductive Cursor.Task where
  /-- Looks for a word behind blanks and comments. -/
  | seek
  | lineComment
  | blockComment (depth : Nat)
  /-- Looks ahead from the line break at `start` for the next line, so far up to `place` and past
  `width` blanks on one line. -/
  | measure (start place width : Nat)
  | string (start : Nat)
  | longString (start : Nat)
  | word (kind : TokenKind) (start : Nat)
  /-- The call has ended, with what it has found: a token, nothing more or a failure. -/
  | over (found : Except Error (Option (TokenKind × Span)))

/-- A reader that knows its source by the bytes, each as the character with its number. -/
structure Cursor where
  source : List Char
  index : Nat := 0
  indents : List Nat := []
  task : Cursor.Task := .seek

namespace Cursor

def ofSource (source : String) : Cursor :=
  { source := source.toUTF8.data.toList.map Char.ofUInt8 }

/-- The bytes from the index on. -/
def left (c : Cursor) : List Char := c.source.drop c.index

def go (c : Cursor) (n : Nat) (task : Task) : Cursor := { c with index := c.index + n, task }

def stop (c : Cursor) (found : Except Error (Option (TokenKind × Span))) : Cursor :=
  { c with task := .over found }

/-- The call ends with what stands between a place and the index. -/
def find (c : Cursor) (kind : TokenKind) (start : Nat) : Cursor :=
  c.stop (.ok (some (kind, ⟨start, c.index⟩)))

def refuse (c : Cursor) (start : Nat) : Cursor :=
  c.stop (.error (.unclosedString ⟨start, c.index⟩))

/-- Ends a call at the end of the source. -/
def finish (c : Cursor) : Cursor :=
  match c.indents with
  | [] => c.stop (.ok none)
  | _ :: outer => { c with indents := outer }.stop
      (.ok (some (.terminator, ⟨c.source.length, c.source.length⟩)))

/-- Goes into the word that begins here. -/
def beginWord (c : Cursor) (b : Char) (bs : List Char) : Cursor :=
  if b = '"' then
    match bs with
    | '"' :: '"' :: _ => c.go 3 (.longString c.index)
    | _ => c.go 1 (.string c.index)
  else if isLetter b then c.go 1 (.word .name c.index)
  else if isDigit b then c.go 1 (.word .integer c.index)
  else if isDelimiter b then (c.go 1 .seek).find .delimiter c.index
  else c.go 1 (.word .symbol c.index)

def seek (c : Cursor) : List Char → Cursor
  | [] => c.finish
  | '-' :: '-' :: _ => c.go 2 .lineComment
  | '\x7b' :: '-' :: _ => c.go 2 (.blockComment 1)
  | b :: bs =>
    if isBlank b then c.go 1 .seek
    else if isLineBreak b then c.go 1 (.measure c.index (c.index + 1) 0)
    else c.beginWord b bs

def passLine (c : Cursor) : List Char → Cursor
  | [] => c.go 0 .seek
  | b :: _ => if isLineBreak b then c.go 0 .seek else c.go 1 .lineComment

def passBlock (c : Cursor) : (depth : Nat) → List Char → Cursor
  | 0, _ => c.go 0 .seek
  | _, [] => c.go 0 .seek
  | depth + 1, '\x7b' :: '-' :: _ => c.go 2 (.blockComment (depth + 2))
  | depth + 1, '-' :: '\x7d' :: _ => c.go 2 (.blockComment depth)
  | depth + 1, _ :: _ => c.go 1 (.blockComment (depth + 1))

/-- A line that is indented further is gone to; any other one ends the call, and the cursor stays
behind the line break. -/
def settle (c : Cursor) (start place width : Nat) : Cursor :=
  if c.indents.headD 0 < width then
    { c with index := place, indents := width :: c.indents, task := .seek }
  else
    { c with indents := c.indents.tail }.stop (.ok (some (.terminator, ⟨start, start + 1⟩)))

def measure (c : Cursor) (start place width : Nat) : List Char → Cursor
  | [] => c.settle start place width
  | b :: _ =>
    if isLineBreak b then { c with task := .measure start (place + 1) 0 }
    else if isBlank b then { c with task := .measure start (place + 1) (width + 1) }
    else c.settle start place width

def passString (c : Cursor) (start : Nat) : List Char → Cursor
  | [] => c.refuse start
  | b :: _ =>
    if b = '"' then (c.go 1 .seek).find .string start
    else if isLineBreak b then c.refuse start
    else c.go 1 (.string start)

def passLongString (c : Cursor) (start : Nat) : List Char → Cursor
  | [] => c.refuse start
  | '"' :: '"' :: '"' :: _ => (c.go 3 .seek).find .string start
  | _ :: _ => c.go 1 (.longString start)

/-- The characters that a word of some kind goes on with. -/
def goesOn : TokenKind → Char → Bool
  | .name => isNameChar
  | .integer => isDigit
  | .float => isDigit
  | .symbol => isSymbolChar
  | _ => fun _ => false

def passWord (c : Cursor) (kind : TokenKind) (start : Nat) : List Char → Cursor
  | [] => c.find kind start
  | b :: bs =>
    if goesOn kind b then c.go 1 (.word kind start)
    else if kind = .integer ∧ b = '.' ∧ bs.head?.any isDigit then c.go 1 (.word .float start)
    else c.find kind start

/-- One step. Where a call has ended, the next one begins. -/
def step (c : Cursor) : Cursor :=
  match c.task with
  | .seek => c.seek c.left
  | .lineComment => c.passLine c.left
  | .blockComment depth => c.passBlock depth c.left
  | .measure start place width => c.measure start place width (c.source.drop place)
  | .string start => c.passString start c.left
  | .longString start => c.passLongString start c.left
  | .word kind start => c.passWord kind start c.left
  | .over _ => { c with task := .seek }

def isOver (c : Cursor) : Bool :=
  match c.task with
  | .over _ => true
  | _ => false

/-- A call ends with the step of this number. -/
def Ends (c : Cursor) (i : Nat) : Prop := (step^[i] c).isOver = true

instance (c : Cursor) : DecidablePred c.Ends :=
  fun i => inferInstanceAs (Decidable ((step^[i] c).isOver = true))

/-- How far the cursor has looked. -/
def reach (c : Cursor) : Nat :=
  match c.task with
  | .measure _ place _ => place
  | _ => c.index

/-- A bound on the steps up to the end of the call. A comment may be left without a step forward, so
what is still to be looked at counts twice. -/
def toGo (c : Cursor) : Nat :=
  match c.task with
  | .over _ => 0
  | .seek => 2 * (c.source.length - c.reach) + 1
  | _ => 2 * (c.source.length - c.reach) + 2

theorem toGo_le (c : Cursor) : c.toGo ≤ 2 * (c.source.length - c.reach) + 2 := by
  unfold toGo
  split <;> omega

theorem lt_toGo {c : Cursor} (h : c.isOver = false) : 2 * (c.source.length - c.reach) < c.toGo := by
  unfold isOver at h
  unfold toGo
  split
  · next ht =>
    rw [ht] at h
    cases h
  · omega
  · omega

/-- The cursor has not gone, nor looked, past the end of its source. -/
structure Within (c : Cursor) : Prop where
  index : c.index ≤ c.reach
  reach : c.reach ≤ c.source.length

/-- All that one step may do: it does not go back, opens deeper lines only, one at a time, and comes
nearer to the end of the call. -/
structure Advances (c d : Cursor) : Prop where
  source : d.source = c.source
  index : c.index ≤ d.index
  within : d.Within
  indents : d.indents = c.indents ∨ d.indents = c.indents.tail ∨
    ∃ width, c.indents.headD 0 < width ∧ d.indents = width :: c.indents
  toGo : c.isOver = false → d.toGo < c.toGo

/-- The cursor is about to go on with such bytes. -/
structure Facing (c : Cursor) (bs : List Char) : Prop where
  reach : c.reach = c.index
  index : c.index ≤ c.source.length
  left : c.left = bs

section

variable {c : Cursor} {bs : List Char} {n : Nat}

theorem Facing.length (h : c.Facing bs) : c.index + bs.length = c.source.length := by
  have hindex := h.index
  rw [← h.left, Cursor.left, List.length_drop]
  omega

theorem Facing.advances_go (h : c.Facing bs) (hpos : 0 < n) (hn : n ≤ bs.length) {task : Task}
    (htask : (c.go n task).reach = c.index + n) : Advances c (c.go n task) where
  source := rfl
  index := Nat.le_add_right _ _
  within := by
    have hlength := h.length
    refine ⟨Nat.le_of_eq htask.symm, ?_⟩
    rw [htask]
    show c.index + n ≤ c.source.length
    omega
  indents := .inl rfl
  toGo := fun hover => by
    have hlength := h.length
    have hlt := lt_toGo hover
    have hle := (c.go n task).toGo_le
    rw [htask] at hle
    rw [h.reach] at hlt
    change _ ≤ 2 * (c.source.length - (c.index + n)) + 2 at hle
    omega

theorem Facing.advances_stop (h : c.Facing bs) (hn : n ≤ bs.length) {task : Task}
    {indents : List Nat} (hindents : indents = c.indents ∨ indents = c.indents.tail)
    (found : Except Error (Option (TokenKind × Span))) :
    Advances c ({ c.go n task with indents := indents }.stop found) where
  source := rfl
  index := Nat.le_add_right _ _
  within := by
    have hlength := h.length
    refine ⟨Nat.le_refl _, ?_⟩
    show c.index + n ≤ c.source.length
    omega
  indents := hindents.imp_right .inl
  toGo := fun hover => Nat.zero_lt_of_lt (lt_toGo hover)

theorem Facing.advances_finish (h : c.Facing bs) : Advances c c.finish := by
  unfold Cursor.finish
  split
  · exact h.advances_stop (Nat.zero_le _) (.inl rfl) _
  · next outer hopen =>
    have htail : outer = c.indents.tail := by rw [hopen, List.tail_cons]
    exact h.advances_stop (Nat.zero_le _) (.inr htail) _

theorem Facing.advances_beginWord {b : Char} (h : c.Facing (b :: bs)) :
    Advances c (c.beginWord b bs) := by
  have hone : 1 ≤ (b :: bs).length := Nat.succ_le_succ (Nat.zero_le _)
  unfold Cursor.beginWord
  split
  · split
    · exact h.advances_go (by decide) (Nat.le_add_left 3 _) rfl
    · exact h.advances_go Nat.one_pos hone rfl
  split
  · exact h.advances_go Nat.one_pos hone rfl
  split
  · exact h.advances_go Nat.one_pos hone rfl
  split
  · exact h.advances_stop hone (.inl rfl) _
  · exact h.advances_go Nat.one_pos hone rfl

theorem Facing.advances_seek (h : c.Facing bs) : Advances c (c.seek bs) := by
  unfold Cursor.seek
  split
  · exact h.advances_finish
  · exact h.advances_go Nat.two_pos (Nat.le_add_left 2 _) rfl
  · exact h.advances_go Nat.two_pos (Nat.le_add_left 2 _) rfl
  · next b bs _ _ =>
    have hone : 1 ≤ (b :: bs).length := Nat.succ_le_succ (Nat.zero_le _)
    split
    · exact h.advances_go Nat.one_pos hone rfl
    split
    · exact h.advances_go Nat.one_pos hone rfl
    · exact h.advances_beginWord

/-- The end of a comment is no step forward, but the search goes on. -/
theorem Facing.advances_comment (h : c.Facing bs)
    (htask : c.toGo = 2 * (c.source.length - c.reach) + 2) : Advances c (c.go 0 .seek) where
  source := rfl
  index := Nat.le_refl _
  within := ⟨Nat.le_refl _, h.index⟩
  indents := .inl rfl
  toGo := fun _ => by
    rw [htask, h.reach]
    exact Nat.lt_succ_self _

theorem Facing.advances_passLine (h : c.Facing bs) (htask : c.task = .lineComment) :
    Advances c (c.passLine bs) := by
  have hend : c.toGo = 2 * (c.source.length - c.reach) + 2 := by rw [toGo, htask]
  unfold Cursor.passLine
  split
  · exact h.advances_comment hend
  split
  · exact h.advances_comment hend
  · exact h.advances_go Nat.one_pos (Nat.le_add_left 1 _) rfl

theorem Facing.advances_passBlock (h : c.Facing bs) {depth : Nat}
    (htask : c.task = .blockComment depth) : Advances c (c.passBlock depth bs) := by
  have hend : c.toGo = 2 * (c.source.length - c.reach) + 2 := by rw [toGo, htask]
  unfold Cursor.passBlock
  split
  · exact h.advances_comment hend
  · exact h.advances_comment hend
  · exact h.advances_go Nat.two_pos (Nat.le_add_left 2 _) rfl
  · exact h.advances_go Nat.two_pos (Nat.le_add_left 2 _) rfl
  · exact h.advances_go Nat.one_pos (Nat.le_add_left 1 _) rfl

theorem Facing.advances_passString (h : c.Facing bs) (start : Nat) :
    Advances c (c.passString start bs) := by
  unfold Cursor.passString
  split
  · exact h.advances_stop (Nat.zero_le _) (.inl rfl) _
  split
  · exact h.advances_stop (Nat.le_add_left 1 _) (.inl rfl) _
  split
  · exact h.advances_stop (Nat.zero_le _) (.inl rfl) _
  · exact h.advances_go Nat.one_pos (Nat.le_add_left 1 _) rfl

theorem Facing.advances_passLongString (h : c.Facing bs) (start : Nat) :
    Advances c (c.passLongString start bs) := by
  unfold Cursor.passLongString
  split
  · exact h.advances_stop (Nat.zero_le _) (.inl rfl) _
  · exact h.advances_stop (Nat.le_add_left 3 _) (.inl rfl) _
  · exact h.advances_go Nat.one_pos (Nat.le_add_left 1 _) rfl

theorem Facing.advances_passWord (h : c.Facing bs) (kind : TokenKind) (start : Nat) :
    Advances c (c.passWord kind start bs) := by
  unfold Cursor.passWord
  split
  · exact h.advances_stop (Nat.zero_le _) (.inl rfl) _
  split
  · exact h.advances_go Nat.one_pos (Nat.le_add_left 1 _) rfl
  split
  · exact h.advances_go Nat.one_pos (Nat.le_add_left 1 _) rfl
  · exact h.advances_stop (Nat.zero_le _) (.inl rfl) _

theorem Within.advances_settle (h : c.Within) {start place width : Nat}
    (htask : c.task = .measure start place width) : Advances c (c.settle start place width) := by
  have hreach : c.reach = place := by rw [Cursor.reach, htask]
  have hindex : c.index ≤ place := hreach ▸ h.index
  have hplace : place ≤ c.source.length := hreach ▸ h.reach
  have hless : 2 * (c.source.length - place) + 1 < c.toGo := by
    rw [toGo, htask, hreach]
    exact Nat.lt_succ_self _
  unfold settle
  split
  · next hdeeper =>
    exact ⟨rfl, hindex, ⟨Nat.le_refl _, hplace⟩, .inr (.inr ⟨width, hdeeper, rfl⟩),
      fun _ => hless⟩
  · have hwithin : c.index ≤ c.source.length := Nat.le_trans hindex hplace
    exact ⟨rfl, Nat.le_refl _, ⟨Nat.le_refl _, hwithin⟩, .inr (.inl rfl),
      fun _ => Nat.zero_lt_of_lt hless⟩

theorem Within.advances_look (h : c.Within) {start place width : Nat}
    (htask : c.task = .measure start place width) (hplace : place < c.source.length)
    (width' : Nat) : Advances c { c with task := .measure start (place + 1) width' } := by
  have hreach : c.reach = place := by rw [Cursor.reach, htask]
  have hindex : c.index ≤ place + 1 := Nat.le_succ_of_le (hreach ▸ h.index)
  refine ⟨rfl, Nat.le_refl _, ⟨hindex, hplace⟩, .inl rfl, fun _ => ?_⟩
  rw [toGo, toGo, htask, hreach]
  show 2 * (c.source.length - (place + 1)) + 2 < 2 * (c.source.length - place) + 2
  omega

/-- The cursor looks ahead, or goes where it has looked, or ends the call. -/
theorem Within.advances_measure (h : c.Within) {start place width : Nat}
    (htask : c.task = .measure start place width) :
    Advances c (c.measure start place width (c.source.drop place)) := by
  unfold Cursor.measure
  split
  · exact h.advances_settle htask
  · next b bs hleft =>
    have hplace : place < c.source.length := by
      have hlength := congrArg List.length hleft
      rw [List.length_drop, List.length_cons] at hlength
      omega
    split
    · exact h.advances_look htask hplace 0
    split
    · exact h.advances_look htask hplace (width + 1)
    · exact h.advances_settle htask

theorem Within.facing (h : c.Within) (hreach : c.reach = c.index) : c.Facing c.left :=
  ⟨hreach, Nat.le_trans h.index h.reach, rfl⟩

theorem step_advances (h : c.Within) : Advances c c.step := by
  unfold step
  split
  · next ht => exact (h.facing (by rw [Cursor.reach, ht])).advances_seek
  · next ht => exact (h.facing (by rw [Cursor.reach, ht])).advances_passLine ht
  · next ht => exact (h.facing (by rw [Cursor.reach, ht])).advances_passBlock ht
  · next ht => exact h.advances_measure ht
  · next ht => exact (h.facing (by rw [Cursor.reach, ht])).advances_passString _
  · next ht => exact (h.facing (by rw [Cursor.reach, ht])).advances_passLongString _
  · next ht => exact (h.facing (by rw [Cursor.reach, ht])).advances_passWord _ _
  · next ht =>
    have hwithin : c.index ≤ c.source.length := Nat.le_trans h.index h.reach
    refine ⟨rfl, Nat.le_refl _, ⟨Nat.le_refl _, hwithin⟩, .inl rfl, fun hover => ?_⟩
    rw [isOver, ht] at hover
    cases hover

/-- Widths, the latest first, are positive and each one is greater than those before it in time. -/
def Growing (widths : List Nat) : Prop := widths.Pairwise (· > ·) ∧ ∀ width ∈ widths, 0 < width

theorem Growing.cons {widths : List Nat} {width : Nat} (h : Growing widths)
    (hwidth : widths.headD 0 < width) : Growing (width :: widths) := by
  have hall : ∀ w ∈ widths, w < width := by
    cases widths with
    | nil => exact fun _ h => nomatch h
    | cons top outer =>
      intro w hw
      rcases List.mem_cons.1 hw with rfl | hw
      · exact hwidth
      · exact Nat.lt_trans (List.rel_of_pairwise_cons h.1 hw) hwidth
  refine ⟨.cons hall h.1, fun w hw => ?_⟩
  rcases List.mem_cons.1 hw with rfl | hw
  · exact Nat.zero_lt_of_lt hwidth
  · exact h.2 w hw

theorem Advances.growing {d : Cursor} (h : Advances c d) (hc : Growing c.indents) :
    Growing d.indents := by
  rcases h.indents with hsame | htail | ⟨width, hwidth, hopen⟩
  · exact hsame ▸ hc
  · exact htail ▸ ⟨hc.1.tail, fun w hw => hc.2 w (List.mem_of_mem_tail hw)⟩
  · exact hopen ▸ hc.cons hwidth

/-- At no time does a cursor leave its source, and the widths of the open lines always grow. -/
theorem iterate_keeps (h : c.Within) (hc : Growing c.indents) (i : Nat) :
    (step^[i] c).source = c.source ∧ (step^[i] c).Within ∧ Growing (step^[i] c).indents := by
  induction i with
  | zero => exact ⟨rfl, h, hc⟩
  | succ i ih =>
    obtain ⟨hsource, hwithin, hgrowing⟩ := ih
    have hstep := step_advances hwithin
    rw [Function.iterate_succ_apply']
    exact ⟨hstep.source.trans hsource, hstep.within, hstep.growing hgrowing⟩

/-- The call that is under way comes to its end. -/
theorem exists_ends (h : c.Within) : ∃ j ≤ c.toGo, c.Ends j := by
  induction hgo : c.toGo using Nat.strongRecOn generalizing c with
  | ind toGo ih =>
    subst hgo
    cases hover : c.isOver with
    | true => exact ⟨0, Nat.zero_le _, hover⟩
    | false =>
      have hstep := step_advances h
      have hless := hstep.toGo hover
      obtain ⟨j, hj, hend⟩ := ih c.step.toGo hless hstep.within rfl
      exact ⟨j + 1, Nat.succ_le_of_lt (Nat.lt_of_le_of_lt hj hless), hend⟩

end

end Cursor

end Offside
