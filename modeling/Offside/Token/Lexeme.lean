import Offside.Token.Basic

namespace Offside.Lexeme

def isLineBreak (c : Char) : Bool := c = '\n' || c = '\r'

/-- A space or any other character up to it that breaks no line. -/
def isBlank (c : Char) : Bool := c ≤ ' ' && !isLineBreak c

def isLetter (c : Char) : Bool := ('a' ≤ c && c ≤ 'z') || ('A' ≤ c && c ≤ 'Z')

def isDigit (c : Char) : Bool := '0' ≤ c && c ≤ '9'

def isNameChar (c : Char) : Bool := c = '_' || isLetter c || isDigit c

def isDelimiter (c : Char) : Bool :=
  c = '[' || c = ']' || c = ',' || c = '(' || c = ')' || c = '"'

/-- All that is left: operator characters and everything beyond ASCII. -/
def isSymbolChar (c : Char) : Bool :=
  !isDigit c && !isLetter c && !isBlank c && !isLineBreak c && !isDelimiter c

/-- What follows the end of a block comment of which `depth` levels are open. A comment that is not
closed takes all that is left. -/
def afterComment : (depth : Nat) → List Char → List Char
  | 0, cs => cs
  | _, [] => []
  | depth + 1, '\x7b' :: '-' :: cs => afterComment (depth + 2) cs
  | depth + 1, '-' :: '\x7d' :: cs => afterComment depth cs
  | depth + 1, _ :: cs => afterComment (depth + 1) cs

theorem afterComment_length_le (depth : Nat) (cs : List Char) :
    (afterComment depth cs).length ≤ cs.length := by
  fun_induction afterComment depth cs <;> simp_all <;> omega

theorem dropWhile_length_le {α : Type} (p : α → Bool) (l : List α) :
    (l.dropWhile p).length ≤ l.length :=
  (l.dropWhile_sublist p).length_le

/-- Leaves out blanks and comments, and line breaks too if `lines` is set. -/
def skipBlanks (lines : Bool) (cs : List Char) : List Char :=
  match cs with
  | [] => []
  | '-' :: '-' :: rest => skipBlanks lines (rest.dropWhile fun c => !isLineBreak c)
  | '\x7b' :: '-' :: rest => skipBlanks lines (afterComment 1 rest)
  | c :: rest => if isBlank c || (lines && isLineBreak c) then skipBlanks lines rest else c :: rest
termination_by cs.length
decreasing_by
  · have := dropWhile_length_le (fun c => !isLineBreak c) rest
    simp only [List.length_cons]
    omega
  · have := afterComment_length_le 1 rest
    simp only [List.length_cons]
    omega
  · simp

theorem skipBlanks_length_le (lines : Bool) (cs : List Char) :
    (skipBlanks lines cs).length ≤ cs.length := by
  fun_induction skipBlanks lines cs with
  | case1 => simp
  | case2 rest ih =>
    have := dropWhile_length_le (fun c => !isLineBreak c) rest
    simp only [List.length_cons]
    omega
  | case3 rest ih =>
    have := afterComment_length_le 1 rest
    simp only [List.length_cons]
    omega
  | case4 c rest _ _ _ ih =>
    simp only [List.length_cons]
    omega
  | case5 => simp

/-- The indentation of the next line that is not blank, and that line from its first character on.
`width` blanks have been read on the current line. -/
def nextLine : (width : Nat) → List Char → Nat × List Char
  | width, [] => (width, [])
  | width, c :: cs =>
    if isLineBreak c then nextLine 0 cs
    else if isBlank c then nextLine (width + 1) cs
    else (width, c :: cs)

theorem nextLine_length_le (width : Nat) (cs : List Char) :
    (nextLine width cs).2.length ≤ cs.length := by
  fun_induction nextLine width cs <;> simp_all <;> omega

/-- Splits a text at the first three quotes in a row. -/
def splitAtQuotes : List Char → Option (List Char × List Char)
  | [] => none
  | '"' :: '"' :: '"' :: rest => some ([], rest)
  | c :: rest => (splitAtQuotes rest).map fun p => (c :: p.1, p.2)

/-- A word at the head of a text, with what follows it. -/
structure Word where
  kind : TokenKind
  text : List Char
  rest : List Char

/-- Reads a string after its opening quote: up to the next quote on the line. If there is none, the
text is left where the line ends. -/
def readString (cs : List Char) : Except (List Char) Word :=
  let content := cs.takeWhile fun c => c != '"' && !isLineBreak c
  match cs.dropWhile fun c => c != '"' && !isLineBreak c with
  | '"' :: rest => .ok ⟨.string, content, rest⟩
  | rest => .error rest

/-- Reads a string after its three opening quotes; it may span lines. -/
def readLongString (cs : List Char) : Except (List Char) Word :=
  match splitAtQuotes cs with
  | some (content, rest) => .ok ⟨.string, content, rest⟩
  | none => .error []

/-- A point belongs to a number only if digits stand on both sides of it. -/
def readNumber (cs : List Char) : Word :=
  let whole := cs.takeWhile isDigit
  match cs.dropWhile isDigit with
  | '.' :: d :: rest =>
    if isDigit d then
      ⟨.float, whole ++ '.' :: (d :: rest).takeWhile isDigit, (d :: rest).dropWhile isDigit⟩
    else ⟨.integer, whole, '.' :: d :: rest⟩
  | rest => ⟨.integer, whole, rest⟩

/-- Reads the longest word that begins with `c`, which is no blank and no line break. An unclosed
string is refused with what is left of the text. -/
def read (c : Char) (cs : List Char) : Except (List Char) Word :=
  if c = '"' then
    match cs with
    | '"' :: '"' :: rest => readLongString rest
    | _ => readString cs
  else if isLetter c then .ok ⟨.name, c :: cs.takeWhile isNameChar, cs.dropWhile isNameChar⟩
  else if isDigit c then .ok (readNumber (c :: cs))
  else if isDelimiter c then .ok ⟨.delimiter, [c], cs⟩
  else .ok ⟨.symbol, c :: cs.takeWhile isSymbolChar, cs.dropWhile isSymbolChar⟩

end Offside.Lexeme
