import Offside.Bindings
import Offside.Value.Basic

namespace Offside

inductive Channel where
  | out
  | err
  deriving DecidableEq

structure Line where
  channel : Channel := .out
  text : String
  deriving DecidableEq

/-- What a native function is asked. The host has kept `memory` since it was asked before, and no
value has an identity from `unused` on. -/
structure Request where
  id : Nat
  name : String
  arguments : List Value
  memory : List Value
  unused : Nat

/-- What a native function prints, keeps in mind and gives back. It has given out `made` identities
to values of its own. -/
structure Reply where
  lines : List Line := []
  made : Nat := 0
  memory : List Value
  result : Except HostError Value

namespace Request

/-- The reply of a native that only computes a value. -/
def answer (q : Request) (v : Value) : Reply := { memory := q.memory, result := .ok v }

def refuse (q : Request) (e : HostError) : Reply := { memory := q.memory, result := .error e }

/-- The same request with other identities. -/
def relabel (ids : Nat → Nat) (q : Request) : Request :=
  { q with
    id := ids q.id
    arguments := q.arguments.map (Value.relabel ids)
    memory := q.memory.map (Value.relabel ids)
    unused := ids q.unused }

@[simp] theorem name_relabel (ids : Nat → Nat) (q : Request) : (q.relabel ids).name = q.name := rfl

end Request

def Reply.relabel (ids : Nat → Nat) (r : Reply) : Reply :=
  { r with
    memory := r.memory.map (Value.relabel ids)
    result := r.result.map (Value.relabel ids) }

/-- The native functions, and how far calls may go on. -/
structure Host where
  call : Request → Reply
  /-- A native may ask whether two identities are the same, but they are no numbers to it. -/
  impartial : ∀ (ids : Nat → Nat) (q : Request), ids.Injective →
    (∀ k, ids (q.unused + k) = ids q.unused + k) → call (q.relabel ids) = (call q).relabel ids
  /-- How often in a row a function that is called without need for an argument may give back the
  function that is called next. Each time takes a piece of the stack of the process, so this stands
  for the size of the stack. -/
  stack : Nat := 100000

structure Environment where
  bindings : Bindings Value := {}
  unused : Nat := 0
  memory : List Value := []
  output : List Line := []

def Environment.empty : Environment := {}

abbrev Eval := EStateM Error Environment

abbrev Outcome (α : Type) := EStateM.Result Error Environment α

def Reply.outcome (reply : Reply) (env : Environment) : Outcome Value :=
  let after := { env with
    unused := env.unused + reply.made
    memory := reply.memory
    output := env.output ++ reply.lines }
  match reply.result with
  | .ok v => .ok v after
  | .error e => .error (.host e) after

namespace Eval

def fail {α : Type} (cause : RuntimeError) : Eval α := throw (.runtime cause)

def check {α : Type} : Except RuntimeError α → Eval α
  | .ok a => pure a
  | .error cause => fail cause

/-- An identity that no other value has. -/
def identity : Eval Nat :=
  modifyGet fun env => (env.unused, { env with unused := env.unused + 1 })

def newFunction (params : List String) (body : Expr) (bound : List Value) : Eval Value :=
  return .function (← identity) params body bound

def newNative (name : String) : Eval Value := return .native (← identity) name

def newRecord (members : List (String × Value)) : Eval Value :=
  return .record (← identity) (Value.sortMembers members)

def find? (name : String) : Eval (Option Value) := return (← get).bindings.find? name

def define (name : String) (v : Value) : Eval Unit :=
  modify fun env => { env with bindings := env.bindings.insert name v }

def ask (host : Host) (id : Nat) (name : String) (arguments : List Value) : Eval Value := fun env =>
  (host.call ⟨id, name, arguments, env.memory, env.unused⟩).outcome env

/-- Evaluates in a copy of the bindings, to which `entries` are added. The bindings of the caller
are the same afterwards, whether it fails or not. -/
def inCopy {α : Type} (entries : List (String × Value)) (run : Eval α) : Eval α := fun env =>
  match run { env with bindings := env.bindings.insertAll entries } with
  | .ok a after => .ok a { after with bindings := env.bindings }
  | .error e after => .error e { after with bindings := env.bindings }

end Eval

end Offside
