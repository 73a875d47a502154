import Offside.Operator
import Offside.Token.Basic

namespace Offside

inductive ParseError where
  | unexpected (token : Token)
  /-- A word, symbol or delimiter that has to stand here is missing. -/
  | missing (text : String)
  | missingName
  /-- No expression begins here; `found` is what stands in its place. -/
  | missingExpression (found : Option String)
  | missingType (found : Option String)
  | missingOperand (op : Operator)
  | missingMember
  | integerTooLarge (digits : String)
  | nestedTooDeeply
  | nestedDeclaration
  | annotatedExpression
  | assignedExpression
  | emptyApplication

inductive TypeError where
  | unknownTy (name : String)
  | notComparable (op : Comparison) (left right : Option Ty)
  | notNumeric (op : Arithmetic) (left right : Option Ty)
  | wrongDefinition (name : String) (declared actual : Ty)
  | tooManyParameters (name : String) (declared : Ty) (count : Nat)
  /-- `callee` is the name of the applied term if it is a name. -/
  | notApplicable (callee : Option String) (ty : Ty) (arguments : Option Ty)

inductive RuntimeError where
  | nestedTooDeeply
  | undefinedName (name : String)
  | onlyCompiled (name : String)
  | notFunction (kind : String)
  | notKey (kind : String)
  | missingMember (key : String)
  | noSuchMember (kind key : String)
  | indexOutOfRange (index : Int64)
  | notIndexable (kind : String) (index : Int64)
  | notComparable (left right : String)
  | notNumbers (op : Arithmetic) (left right : String)
  | divisionByZero
  | integerOverflow (op : Arithmetic)
  | noExpression

/-- An error of a native function, which has a text of its own. -/
inductive HostError where
  | lexical (span : Span) (text : String)
  | parse (text : String)
  | type (text : String)
  | runtime (text : String)

inductive Error where
  | unclosedString (span : Span)
  | parse (cause : ParseError)
  | type (cause : TypeError)
  | runtime (cause : RuntimeError)
  | host (cause : HostError)
  /-- The process dies, because its stack is used up or the arguments that a function has outnumber
  its parameters. Nothing is told about it. -/
  | aborted

private def quoted (text : String) : String := "'" ++ text ++ "'"

private def describe : Option Ty → String
  | some t => t.render
  | none => "an untyped value"

namespace ParseError

private def found : Option String → String
  | some text => ", found " ++ quoted text
  | none => ""

def message : ParseError → String
  | .unexpected token => "Unexpected " ++ quoted token.text ++ " at " ++ token.span.render
  | .missing text => "Expected " ++ quoted text
  | .missingName => "Expected a name"
  | .missingExpression text => "Expected an expression" ++ found text
  | .missingType text => "Expected a type" ++ found text
  | .missingOperand op => "Expected an operand after " ++ quoted op.symbol
  | .missingMember => "Expected a member after '.'"
  | .integerTooLarge digits => "integer literal " ++ quoted digits ++ " is out of range"
  | .nestedTooDeeply => "expression nested too deeply"
  | .nestedDeclaration => "a declaration cannot appear inside an expression"
  | .annotatedExpression => "a type annotation needs a name on its left"
  | .assignedExpression => "invalid assignment target; expected a name"
  | .emptyApplication => "an application needs a function"

end ParseError

namespace TypeError

def message : TypeError → String
  | .unknownTy name => "Unknown type " ++ quoted name
  | .notComparable op left right =>
    "Invalid operation: " ++ quoted op.symbol ++ " needs comparable operands, found " ++
      describe left ++ " and " ++ describe right
  | .notNumeric op left right =>
    "Invalid operation: " ++ quoted op.symbol ++ " needs numeric operands, found " ++
      describe left ++ " and " ++ describe right
  | .wrongDefinition name declared actual =>
    "Invalid value: " ++ quoted name ++ " is declared as " ++ declared.render ++
      " but defined as " ++ actual.render
  | .tooManyParameters name declared count =>
    "Invalid value: " ++ quoted name ++ " is declared as " ++ declared.render ++
      ", which takes fewer than " ++ Decimal.natural count ++ " parameters"
  | .notApplicable callee t arguments =>
    "Invalid value: cannot apply " ++ (callee.map quoted).getD "expression" ++ " of type " ++
      t.render ++ " to " ++ (arguments.map Ty.render).getD "its arguments"

end TypeError

namespace RuntimeError

def message : RuntimeError → String
  | .nestedTooDeeply => "evaluation nested too deeply"
  | .undefinedName name => quoted name ++ " is not defined"
  | .onlyCompiled name => "function declaration " ++ quoted name ++ " can only be compiled"
  | .notFunction kind => kind ++ " is not a function"
  | .notKey kind => "cannot use " ++ kind ++ " as a member key"
  | .missingMember key => "no member " ++ quoted key
  | .noSuchMember kind key => kind ++ " has no member " ++ quoted key
  | .indexOutOfRange index => "index " ++ Decimal.integer index.toInt ++ " out of range"
  | .notIndexable kind index => "cannot index " ++ kind ++ " with " ++ Decimal.integer index.toInt
  | .notComparable left right => "cannot compare " ++ left ++ " with " ++ right
  | .notNumbers op left right =>
    quoted op.symbol ++ " needs numbers, found " ++ left ++ " and " ++ right
  | .divisionByZero => "division by zero"
  | .integerOverflow op => "integer overflow in " ++ quoted op.symbol
  | .noExpression => "source contains no expression"

end RuntimeError

/-- Each kind of error has its words in front. -/
def HostError.message : HostError → String
  | .lexical span text => "lex error at " ++ span.render ++ ": " ++ text
  | .parse text => "parse error: " ++ text
  | .type text => "type error: " ++ text
  | .runtime text => "runtime error: " ++ text

def Error.message : Error → String
  | .unclosedString span => (HostError.lexical span "Unclosed String").message
  | .parse cause => (HostError.parse cause.message).message
  | .type cause => (HostError.type cause.message).message
  | .runtime cause => (HostError.runtime cause.message).message
  | .host cause => cause.message
  | .aborted => "aborted"

end Offside
