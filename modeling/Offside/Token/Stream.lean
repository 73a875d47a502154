import Offside.Error
import Offside.Token.Lexeme

namespace Offside

/-- `length` counts the bytes of the whole source and `rest` is what has not been read. `indents`
holds the widths of the open continuation lines and `pending` the tokens handed back, both with the
latest first. -/
structure TokenStream where
  length : Nat
  rest : List Char
  indents : List Nat := []
  pending : List Token := []

def byteLength (cs : List Char) : Nat :=
  cs.foldr (fun c length => c.utf8Size + length) 0

namespace TokenStream

open Lexeme

def ofSource (source : String) : TokenStream :=
  { length := byteLength source.toList, rest := source.toList }

/-- The byte at which a text stands that reaches to the end of the source. -/
def position (s : TokenStream) (rest : List Char) : Nat :=
  s.length - byteLength rest

def span (s : TokenStream) (before after : List Char) : Span :=
  ⟨s.position before, s.position after⟩

/-- A token that is handed back is the next one to be read. -/
def push (s : TokenStream) (t : Token) : TokenStream :=
  { s with pending := t :: s.pending }

/-- Skips blanks and comments. -/
def skipBlanks (s : TokenStream) : TokenStream :=
  { s with rest := Lexeme.skipBlanks false s.rest }

/-- Skips blanks, comments and line breaks, and drops terminators that were handed back. -/
def skipLines (s : TokenStream) : TokenStream :=
  { s with
    rest := Lexeme.skipBlanks true s.rest
    pending := s.pending.dropWhile fun t => t.kind = .terminator }

/-- Reads a token from a text that begins with no blank and no comment. Each open continuation line
is paid back by one terminator, at the latest at the end of the source. -/
def read (s : TokenStream) (text : List Char) :
    EStateM.Result Error TokenStream (Option Token) :=
  match text with
  | [] =>
    match s.indents with
    | [] => .ok none { s with rest := [] }
    | _ :: outer =>
      .ok (some ⟨.terminator, "", s.span [] []⟩) { s with rest := [], indents := outer }
  | c :: cs =>
    if isLineBreak c then
      if s.indents.headD 0 < (nextLine 0 cs).1 then
        read { s with indents := (nextLine 0 cs).1 :: s.indents }
          (Lexeme.skipBlanks false (nextLine 0 cs).2)
      else
        .ok (some ⟨.terminator, String.singleton c, s.span (c :: cs) cs⟩)
          { s with rest := cs, indents := s.indents.tail }
    else
      match Lexeme.read c cs with
      | .ok word =>
        .ok (some ⟨word.kind, String.ofList word.text, s.span (c :: cs) word.rest⟩)
          { s with rest := word.rest }
      | .error rest => .error (.unclosedString (s.span (c :: cs) rest)) { s with rest }
termination_by text.length
decreasing_by
  have := skipBlanks_length_le false (nextLine 0 cs).2
  have := nextLine_length_le 0 cs
  simp only [List.length_cons]
  omega

/-- The next token, or nothing once the source and its open continuation lines are used up. -/
def next (s : TokenStream) : EStateM.Result Error TokenStream (Option Token) :=
  match s.pending with
  | t :: pending => .ok (some t) { s with pending }
  | [] => s.read (Lexeme.skipBlanks false s.rest)

/-- A bound on the number of tokens still to be read. -/
def size (s : TokenStream) : Nat :=
  s.rest.length + s.indents.length + s.pending.length

end TokenStream

end Offside
