import Offside.Context
import Offside.Token.Stream

namespace Offside

/-- What a parser has read stays read when it fails, so that reading can be taken up again behind the
failure. -/
structure ParseState where
  tokens : TokenStream
  context : Context := {}

def ParseState.ofSource (source : String) (context : Context := {}) : ParseState :=
  ⟨.ofSource source, context⟩

abbrev Parse := EStateM Error ParseState

namespace Parse

def fail {α : Type} (cause : ParseError) : Parse α := throw (.parse cause)

def check {α : Type} : Except Error α → Parse α
  | .ok a => pure a
  | .error e => throw e

def next : Parse (Option Token) := fun s =>
  match s.tokens.next with
  | .ok token tokens => .ok token { s with tokens }
  | .error e tokens => .error e { s with tokens }

def push (t : Token) : Parse Unit := modify fun s => { s with tokens := s.tokens.push t }

def skipLines : Parse Unit := modify fun s => { s with tokens := s.tokens.skipLines }

/-- Reads the given token if it comes next. -/
def accept (kind : TokenKind) (text : String) : Parse Bool := do
  match ← next with
  | none => return false
  | some token =>
    if token.is kind text then return true
    else
      push token
      return false

def expect (kind : TokenKind) (text : String) : Parse Unit := do
  unless ← accept kind text do fail (.missing text)

/-- Whether the given token comes next; it is left where it is. -/
def comesNext (kind : TokenKind) (text : String) : Parse Bool := do
  match ← next with
  | none => return false
  | some token =>
    push token
    return token.is kind text

def name? : Parse (Option String) := do
  match ← next with
  | none => return none
  | some token =>
    if token.kind = .name then return some token.text
    else
      push token
      return none

def name : Parse String := do
  match ← name? with
  | some name => return name
  | none => fail .missingName

/-- Enough steps to read every token that is left. -/
def steps : Parse Nat := return (← get).tokens.size + 1

/-- Names come one after another up to the first token of another kind. -/
def namesWithin : (steps : Nat) → Parse (List String)
  | 0 => return []
  | steps + 1 => do
    match ← name? with
    | none => return []
    | some name => return name :: (← namesWithin steps)

def names : Parse (List String) := do namesWithin (← steps)

def setAlias (name : String) (t : Ty) : Parse Unit :=
  modify fun s => { s with context := s.context.setAlias name t }

def setValue (name : String) (t : Ty) : Parse Unit :=
  modify fun s => { s with context := s.context.setValue name t }

def valueTy? (name : String) : Parse (Option Ty) := return (← get).context.value? name

/-- Runs a parser in a scope of its own, which is left however the parser ends. -/
def inScope {α : Type} (p : Parse α) : Parse α := fun s =>
  match p { s with context := s.context.enter } with
  | .ok a s => .ok a { s with context := s.context.exit }
  | .error e s => .error e { s with context := s.context.exit }

end Parse

end Offside
