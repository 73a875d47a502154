import Offside.Expr.Basic

namespace Offside

/-- Functions, natives and records made at different times differ by their `id`. A function with
`bound` arguments has its first parameters filled already. The members of a record are in the order
of their keys. -/
inductive Value where
  | int (n : Int64)
  | float (x : Float)
  | string (s : String)
  | bool (b : Bool)
  | function (id : Nat) (params : List String) (body : Expr) (bound : List Value)
  | native (id : Nat) (name : String)
  | record (id : Nat) (members : List (String × Value))

inductive Number where
  | int (n : Int64)
  | float (x : Float)

def Number.toFloat : Number → Float
  | .int n => n.toFloat
  | .float x => x

namespace Value

def ofLiteral : Literal → Value
  | .int n => .int n
  | .float x => .float x
  | .string s => .string s
  | .bool b => .bool b

/-- The word for a value in messages. -/
def kind : Value → String
  | .int _ => "Int"
  | .float _ => "Float"
  | .string _ => "String"
  | .bool _ => "Bool"
  | .function .. | .native .. => "function"
  | .record .. => "record"

def number? : Value → Option Number
  | .int n => some (.int n)
  | .float x => some (.float x)
  | _ => none

/-- Zero, not-a-number, the empty string and `False` count as false. -/
def isTruthy : Value → Bool
  | .int n => n != 0
  | .float x => x != 0.0 && !x.isNaN
  | .string s => s != ""
  | .bool b => b
  | .function .. | .native .. | .record .. => true

/-- Equality in programs: numbers of both kinds compare by value, and functions, natives and records
are equal only to themselves. -/
def looselyEquals : Value → Value → Bool
  | .int m, .int n => m = n
  | .int m, .float y => m.toFloat == y
  | .float x, .int n => x == n.toFloat
  | .float x, .float y => x == y
  | .string s, .string t => s = t
  | .bool a, .bool b => a = b
  | .function i .., .function j .. => i = j
  | .native i _, .native j _ => i = j
  | .record i _, .record j _ => i = j
  | _, _ => false

mutual

/-- Equality of data: integers differ from other numbers, and records are compared by their
members. -/
def equals : Value → Value → Bool
  | .int m, .int n => m = n
  | .float x, .float y => x == y
  | .record _ ms, .record _ ns => membersEqual ms ns
  | .int _, _ | .float _, _ | .record .., _ => false
  | v, w => v.looselyEquals w

def membersEqual : List (String × Value) → List (String × Value) → Bool
  | [], [] => true
  | (k, v) :: ms, (l, w) :: ns => k = l && v.equals w && membersEqual ms ns
  | _, _ => false

end

/-- The members of a record in the order of their keys. -/
def sortMembers (members : List (String × Value)) : List (String × Value) :=
  members.mergeSort fun a b => a.1 ≤ b.1

mutual

/-- The same value with other identities. -/
def relabel (ids : Nat → Nat) : Value → Value
  | .int n => .int n
  | .float x => .float x
  | .string s => .string s
  | .bool b => .bool b
  | .function id params body bound => .function (ids id) params body (relabelAll ids bound)
  | .native id name => .native (ids id) name
  | .record id members => .record (ids id) (relabelMembers ids members)

def relabelAll (ids : Nat → Nat) : List Value → List Value
  | [] => []
  | v :: vs => v.relabel ids :: relabelAll ids vs

def relabelMembers (ids : Nat → Nat) : List (String × Value) → List (String × Value)
  | [] => []
  | (key, v) :: members => (key, v.relabel ids) :: relabelMembers ids members

end

theorem relabelAll_eq_map (ids : Nat → Nat) (vs : List Value) :
    relabelAll ids vs = vs.map (relabel ids) := by
  induction vs with
  | nil => rfl
  | cons v vs ih => rw [relabelAll, ih, List.map_cons]

theorem relabelMembers_eq_map (ids : Nat → Nat) (members : List (String × Value)) :
    relabelMembers ids members = members.map fun m => (m.1, m.2.relabel ids) := by
  induction members with
  | nil => rfl
  | cons m members ih => rw [relabelMembers, ih, List.map_cons]

end Value

end Offside
