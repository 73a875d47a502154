import Offside.Decimal.Layout
import Offside.Expr.Basic
import Offside.Parse.State

namespace Offside

/-- Declarations give types to names and leave nothing behind but that. -/
inductive Statement where
  | expression (e : Expr)
  | declaration

/-- The parsers at one level of nesting. Those with an optional result give `none`, and leave the
next token where it is, if what they read does not begin there.

    statement = "type" name "=" type | "\" name* "->" statement
              | sum [":" type | "=" statement]
    sum       = product (("+" | "-") product)*
    product   = sequence (operator sequence)*
    sequence  = term+
    term      = simple ("." simple)*
    simple    = literal | name | "(" statement ")"
    type      = atom ["->" type]
    atom      = "(" type ")" | "List" atom | name

Groups, bodies, operators, member accesses and types each open a level of nesting, and only so many
levels may be open at once. -/
structure Grammar where
  functionTy : Parse Ty
  tyAtom : Parse Ty
  simpleTerm : Parse (Option Expr)
  /-- Reads further members of an expression. -/
  members : Expr → Parse Expr
  sequence : Parse (Option Expr)
  product : Parse (Option Expr)
  /-- Reads further operators of a tier and their operands, and groups them to the left. -/
  fold : Tier → Expr → Parse Expr
  statement : Parse (Option Statement)
  /-- Reads an expression within a larger one. -/
  inner : Parse Expr

namespace Grammar

open Parse

/-- Goes one level down, if there is one. -/
def nested {α : Type} (below : Option Grammar) (p : Grammar → Parse α) : Parse α :=
  match below with
  | none => fail .nestedTooDeeply
  | some g => p g

def resolveTy (name : String) : Parse Ty := do
  match (Ty.ofName? name).or ((← get).context.alias? name) with
  | some t => return t
  | none => throw (.type (.unknownTy name))

def tyAtomAbove (below : Option Grammar) : Parse Ty := do
  match ← next with
  | none => fail (.missingType none)
  | some token =>
    if token.is .delimiter "(" then
      let t ← nested below functionTy
      expect .delimiter ")"
      return t
    else if token.is .name "List" then return .list (← nested below tyAtom)
    else if token.kind = .name then resolveTy token.text
    else fail (.missingType (some token.text))

/-- Arrows group to the right. -/
def functionTyAbove (below : Option Grammar) : Parse Ty := do
  let input ← tyAtomAbove below
  if ← accept .symbol "->" then return .function input (← nested below functionTy)
  else return input

/-- The largest integer literal is `2 ^ 63 - 1`. -/
def integer (digits : String) : Parse Expr :=
  let n := Decimal.value digits.toList
  if n < 0x8000000000000000 then return .constant (.int (Int64.ofNat n))
  else fail (.integerTooLarge digits)

def word (name : String) : Parse Expr := do
  if name = "True" then return .constant (.bool true)
  else if name = "False" then return .constant (.bool false)
  else return .name name (← valueTy? name)

def simpleTermAbove (below : Option Grammar) : Parse (Option Expr) := do
  match ← next with
  | none => return none
  | some token =>
    match token.kind with
    | .integer => some <$> integer token.text
    | .float => return some (.constant (.float (Decimal.readFloat token.text.toList)))
    | .string => return some (.constant (.string token.text))
    | .name => some <$> word token.text
    | _ =>
      if token.is .delimiter "(" then
        let e ← nested below inner
        expect .delimiter ")"
        return some e
      else
        push token
        return none

def membersAbove (below : Option Grammar) (e : Expr) : Parse Expr := do
  if ← accept .symbol "." then
    nested below fun g => do
      match ← g.simpleTerm with
      | none => fail .missingMember
      | some key => g.members (.member e key)
  else return e

def termAbove (below : Option Grammar) : Parse (Option Expr) := do
  match ← simpleTermAbove below with
  | none => return none
  | some e => some <$> membersAbove below e

def termsAbove (below : Option Grammar) : (steps : Nat) → Parse (List Expr)
  | 0 => return []
  | steps + 1 => do
    match ← termAbove below with
    | none => return []
    | some e => return e :: (← termsAbove below steps)

/-- Terms in a row are an application. Names before `=` are the head of a function definition and
not checked. -/
def application (terms : List Expr) : Parse Expr := do
  if ← comesNext .symbol "=" then
    match terms.mapM Expr.asName? with
    | some names => check (Expr.checkedApply (names.map (.name · none)) none)
    | none => check (Expr.checkedApply terms (Expr.chainTy terms.tail))
  else check (Expr.checkedApply terms (Expr.chainTy terms.tail))

def sequenceAbove (below : Option Grammar) : Parse (Option Expr) := do
  match ← termsAbove below (← steps) with
  | [] => return none
  | [e] => return some e
  | terms => some <$> application terms

/-- An operator of the given tier. -/
def operatorOf? (tier : Tier) (token : Token) : Option Operator :=
  if token.kind = .symbol then (Operator.ofSymbol? token.text).filter (·.tier = tier) else none

/-- What stands between two operators of a tier. -/
def operand (g : Grammar) : Tier → Parse (Option Expr)
  | .sum => g.product
  | .product => g.sequence

def foldAbove (below : Option Grammar) (tier : Tier) (left : Expr) : Parse Expr := do
  match ← next with
  | none => return left
  | some token =>
    match operatorOf? tier token with
    | none =>
      push token
      return left
    | some op =>
      nested below fun g => do
        match ← g.operand tier with
        | none => fail (.missingOperand op)
        | some right => g.fold tier (← check (Expr.checkedOperation op left right))

def productAbove (below : Option Grammar) : Parse (Option Expr) := do
  match ← sequenceAbove below with
  | none => return none
  | some e => some <$> foldAbove below .product e

def sumAbove (below : Option Grammar) : Parse (Option Expr) := do
  match ← productAbove below with
  | none => return none
  | some e => some <$> foldAbove below .sum e

/-- A type alias, after its first word. -/
def typeAlias (below : Option Grammar) : Parse Unit := do
  let name ← name
  expect .symbol "="
  setAlias name (← nested below functionTy)

/-- The type of a name, after the colon. -/
def typing (below : Option Grammar) : Expr → Parse Unit
  | .name name _ => do setValue name (← nested below functionTy)
  | _ => fail .annotatedExpression

/-- An anonymous function, after the backslash. -/
def lambda (below : Option Grammar) : Parse Expr := do
  let params ← names
  expect .symbol "->"
  return .lambda params (← nested below inner)

/-- The types of parameters of a function of type `t`, if it takes so many. -/
def paramTys? : Ty → List String → Option (List (String × Ty))
  | _, [] => some []
  | .function input output, param :: params => (paramTys? output params).map ((param, input) :: ·)
  | _, _ :: _ => none

/-- Gives the parameters of a function with a declared type their types. -/
def bindParams (name : String) (params : List String) : Option Ty → Parse Unit
  | none => return
  | some declared =>
    match paramTys? declared params with
    | some typed => typed.forM fun p => setValue p.1 p.2
    | none => throw (.type (.tooManyParameters name declared params.length))

def functionDefinition (below : Option Grammar) (name : String) (params : List String) :
    Parse Expr := do
  let declared ← valueTy? name
  let body ← inScope do
    bindParams name params declared
    nested below inner
  return .function name params body declared

/-- A name that has no declared type takes the type of its value. -/
def variableDefinition (below : Option Grammar) (name : String) : Parse Expr := do
  let declared ← valueTy? name
  let value ← nested below inner
  let e ← check (Expr.checkedDefine name value declared)
  match declared, e.ty with
  | none, some t => setValue name t
  | _, _ => pure ()
  return e

/-- A definition, after the equals sign. -/
def definition (below : Option Grammar) (target : Expr) : Parse Expr :=
  match target.headNames?, target with
  | some (name :: params), _ => functionDefinition below name params
  | _, .name name _ => variableDefinition below name
  | _, _ => fail .assignedExpression

def statementAbove (below : Option Grammar) : Parse (Option Statement) := do
  if ← accept .name "type" then
    typeAlias below
    return some .declaration
  else if ← accept .symbol "\\" then return some (.expression (← lambda below))
  else
    match ← sumAbove below with
    | none => return none
    | some e =>
      if ← accept .symbol ":" then
        typing below e
        return some .declaration
      else if ← accept .symbol "=" then return some (.expression (← definition below e))
      else return some (.expression e)

def innerAbove (below : Option Grammar) : Parse Expr := do
  match ← statementAbove below with
  | some (.expression e) => return e
  | some .declaration => fail .nestedDeclaration
  | none =>
    match ← next with
    | none => fail (.missingExpression none)
    | some token =>
      fail (.missingExpression (if token.kind = .terminator then none else some token.text))

/-- The parsers one level above others. -/
def above (below : Option Grammar) : Grammar where
  functionTy := functionTyAbove below
  tyAtom := tyAtomAbove below
  simpleTerm := simpleTermAbove below
  members := membersAbove below
  sequence := sequenceAbove below
  product := productAbove below
  fold := foldAbove below
  statement := statementAbove below
  inner := innerAbove below

/-- The parsers that may open so many levels. -/
def ofRoom : Nat → Grammar
  | 0 => above none
  | room + 1 => above (some (ofRoom room))

/-- The parsers below those that may open so many levels. -/
def beneath : (room : Nat) → Option Grammar
  | 0 => none
  | room + 1 => some (ofRoom room)

theorem ofRoom_eq_above (room : Nat) : ofRoom room = above (beneath room) := by
  cases room <;> rfl

/-- How many levels may be open at once. -/
def maxNesting : Nat := 64

end Grammar

end Offside
