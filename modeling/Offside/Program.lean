import Offside.Eval.Evaluate
import Offside.Expr.JavaScript
import Offside.Parse.Grammar

namespace Offside

namespace Parse

/-- The line end after a statement, or a delimiter, which is left for the next one. -/
def terminator : Parse Unit := do
  match ← next with
  | none => return
  | some token =>
    match token.kind with
    | .terminator => return
    | .delimiter => push token
    | _ => fail (.unexpected token)

def statementWithin : (steps : Nat) → Parse (Option Statement)
  | 0 => return none
  | steps + 1 => do
    skipLines
    match ← (Grammar.ofRoom Grammar.maxNesting).statement with
    | some statement =>
      terminator
      return some statement
    | none =>
      match ← next with
      | none => return none
      | some token =>
        if token.kind = .terminator then statementWithin steps else fail (.unexpected token)

/-- Reads the next statement and what ends it, or nothing at the end of the source. -/
def statement : Parse (Option Statement) := do statementWithin (← steps)

def expressionsWithin : (steps : Nat) → Parse (List Expr)
  | 0 => return []
  | steps + 1 => do
    match ← statement with
    | none => return []
    | some .declaration => expressionsWithin steps
    | some (.expression e) => return e :: (← expressionsWithin steps)

def expressions : Parse (List Expr) := do expressionsWithin (← steps)

def firstWithin : (steps : Nat) → Parse (Option Expr)
  | 0 => return none
  | steps + 1 => do
    match ← statement with
    | none => return none
    | some .declaration => firstWithin steps
    | some (.expression e) => return some e

/-- The first expression. What follows it is not read. -/
def first : Parse (Option Expr) := do firstWithin (← steps)

/-- The result of a parser on a whole source. -/
def run {α : Type} (p : Parse α) (source : String) (context : Context := {}) : Except Error α :=
  match EStateM.run p (.ofSource source context) with
  | .ok a _ => .ok a
  | .error e _ => .error e

end Parse

namespace Program

/-- The expressions of a source; its declarations only take part in checking them. -/
def parse (source : String) (context : Context := {}) : Except Error (List Expr) :=
  Parse.run Parse.expressions source context

/-- One JavaScript statement a line. -/
def javaScript (es : List Expr) : String :=
  String.join (es.map fun e => e.javaScript ++ ";\n")

def compile (source : String) (context : Context := {}) : Except Error String :=
  (parse source context).map javaScript

/-- Evaluates expressions in order; the value is that of the last one. -/
def evaluateAll (host : Host) : List Expr → Eval Value
  | [] => Eval.fail .noExpression
  | [e] => e.evaluate host
  | e :: es => do
    let _ ← e.evaluate host
    evaluateAll host es

/-- Nothing is evaluated unless the whole source can be read. -/
def evaluate (host : Host) (source : String) : Eval Value := do
  match parse source with
  | .ok es => evaluateAll host es
  | .error e => throw e

/-- Evaluates the first expression of a source without reading what follows it. -/
def evaluateFirst (host : Host) (source : String) : Eval Value := do
  match Parse.run Parse.first source with
  | .ok (some e) => e.evaluate host
  | .ok none => Eval.fail .noExpression
  | .error e => throw e

end Program

end Offside
