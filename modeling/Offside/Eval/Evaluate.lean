import Offside.Eval.Environment
import Offside.Value.Arithmetic

namespace Offside

open Eval

namespace Value

/-- Calls a function, whose body is evaluated by `run`. A function that is given too few arguments
keeps them and waits for the rest; what it is given too many goes to its result. -/
def callWithin (host : Host) (run : Expr → Eval Value) (stack : Nat) (callee : Value)
    (arguments : List Value) : Eval Value :=
  match callee with
  | .function _ params body bound =>
    let missing := params.length - bound.length
    if params.length < bound.length then throw .aborted
    else if arguments.length < missing then newFunction params body (bound ++ arguments)
    else do
      let result ← inCopy (params.zip (bound ++ arguments.take missing)) (run body)
      match _ : arguments.drop missing with
      | [] => return result
      | next :: others =>
        if missing = 0 then
          match stack with
          | 0 => throw .aborted
          | stack + 1 => callWithin host run stack result (next :: others)
        else callWithin host run stack result (next :: others)
  | .native id name => ask host id name arguments
  | v => fail (.notFunction v.kind)
termination_by arguments.length + stack
decreasing_by
  all_goals
    have rest_length : (next :: others).length = arguments.length - missing := by
      rw [← ‹arguments.drop missing = next :: others›, List.length_drop]
    have : 0 < (next :: others).length := Nat.succ_pos _
    omega

def callWith (host : Host) (run : Expr → Eval Value) (callee : Value) (arguments : List Value) :
    Eval Value :=
  callWithin host run host.stack callee arguments

end Value

inductive Key where
  | field (name : String)
  | index (n : Int64)

namespace Key

def ofValue : Value → Except RuntimeError Key
  | .string s => .ok (.field s)
  | .int n => .ok (.index n)
  | v => .error (.notKey v.kind)

/-- The key a member expression states by itself. -/
def ofExpr? : Expr → Option Key
  | .name x _ => some (.field x)
  | .constant (.string s) => some (.field s)
  | .constant (.int n) => some (.index n)
  | _ => none

/-- The key of a member in a record. -/
def text : Key → String
  | .field name => name
  | .index n => Decimal.integer n.toInt

end Key

/-- The members of a string are its characters and its length. -/
def Value.member : Value → Key → Except RuntimeError Value
  | .record _ members, key =>
    match members.lookup key.text with
    | some v => .ok v
    | none => .error (.missingMember key.text)
  | .string s, .index n =>
    match if n.toInt < 0 then none else s.toList[n.toInt.toNat]? with
    | some c => .ok (.string (String.singleton c))
    | none => .error (.indexOutOfRange n)
  | .string s, .field "length" => .ok (.int (Int64.ofNat s.length))
  | v, .field name => .error (.noSuchMember v.kind name)
  | v, .index n => .error (.notIndexable v.kind n)

/-- `or` ends with a left side that counts as true, `and` with one that does not. -/
def Connective.isDecidedBy (op : Connective) (left : Value) : Bool :=
  match op with
  | .or => left.isTruthy
  | .and => !left.isTruthy

namespace Expr

/-- Evaluates an expression that may nest `room` evaluations. -/
def evaluateWithin (host : Host) : (room : Nat) → Expr → Eval Value
  | 0, _ => fail .nestedTooDeeply
  | room + 1, e =>
    match e with
    | .constant value => return .ofLiteral value
    | .name x _ => do
      match ← find? x with
      | some v => return v
      | none => fail (.undefinedName x)
    | .comparison op left right => do
      let a ← evaluateWithin host room left
      let b ← evaluateWithin host room right
      return .bool (← check (op.apply a b))
    | .connective op left right => do
      let a ← evaluateWithin host room left
      if op.isDecidedBy a then return a else evaluateWithin host room right
    | .arithmetic op left right => do
      let a ← evaluateWithin host room left
      let b ← evaluateWithin host room right
      check (op.apply a b)
    | .define x value _ => do
      let v ← evaluateWithin host room value
      Eval.define x v
      return v
    | .apply callee arguments => do
      let f ← evaluateWithin host room callee
      let vs ← arguments.mapM (evaluateWithin host room)
      f.callWith host (evaluateWithin host room) vs
    | .member target key => do
      let v ← evaluateWithin host room target
      match Key.ofExpr? key with
      | some k => check (v.member k)
      | none =>
        let k ← check (Key.ofValue (← evaluateWithin host room key))
        check (v.member k)
    | .lambda params body => newFunction params body []
    | .function f _ _ _ => fail (.onlyCompiled f)

/-- How many evaluations may nest. -/
def maxEvaluations : Nat := 128

def evaluate (host : Host) (e : Expr) : Eval Value := evaluateWithin host maxEvaluations e

end Expr

namespace Value

/-- Calls a function from outside of any evaluation. -/
def call (host : Host) (callee : Value) (arguments : List Value) : Eval Value :=
  callee.callWith host (Expr.evaluate host) arguments

end Value

end Offside
