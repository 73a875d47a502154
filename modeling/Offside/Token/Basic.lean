import Offside.Decimal.Digits

namespace Offside

/-- The bytes of the source from `start` up to and without `stop`. -/
structure Span where
  start : Nat
  stop : Nat
  deriving DecidableEq

def Span.render (s : Span) : String :=
  Decimal.natural s.start ++ ".." ++ Decimal.natural s.stop

inductive TokenKind where
  | name
  | integer
  | float
  | string
  | symbol
  | delimiter
  /-- The layout rule ends an expression here. -/
  | terminator
  deriving DecidableEq

/-- The text of a string leaves out its quotes; that of a terminator is the line break that ended
the expression, or nothing at the end of the source. -/
structure Token where
  kind : TokenKind
  text : String
  span : Span
  deriving DecidableEq

def Token.is (t : Token) (kind : TokenKind) (text : String) : Bool :=
  t.kind = kind && t.text = text

end Offside
