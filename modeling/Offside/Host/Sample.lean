import Offside.Host.Console

namespace Offside.Host

/-- The smallest integer has no absolute value among the integers. -/
def absolute? : Value → Option Value
  | .int n => if n = Int64.minValue then none else some (.int (if n < 0 then -n else n))
  | .float x => some (.float x.abs)
  | _ => none

def absolute (q : Request) : Reply :=
  match q.arguments with
  | [v] =>
    match absolute? v with
    | some w => q.answer w
    | none => q.refuse (.runtime "abs takes one number")
  | _ => q.refuse (.runtime "abs takes one number")

def identity (q : Request) : Reply :=
  match q.arguments with
  | [v] => q.answer v
  | _ => q.refuse (.runtime "id takes one value")

def count (q : Request) : Reply := q.answer (.int (Int64.ofNat q.arguments.length))

theorem absolute?_relabel (ids : Nat → Nat) (v : Value) :
    absolute? (v.relabel ids) = (absolute? v).map (Value.relabel ids) := by
  cases v with
  | int n => simp only [Value.relabel, absolute?]; split <;> rfl
  | _ => rfl

theorem absolute_relabel (ids : Nat → Nat) (q : Request) :
    absolute (q.relabel ids) = (absolute q).relabel ids := by
  obtain ⟨id, name, arguments, memory, unused⟩ := q
  match arguments with
  | [] | _ :: _ :: _ => rfl
  | [v] =>
    simp only [absolute, Request.relabel, List.map_cons, List.map_nil, absolute?_relabel]
    cases absolute? v <;> rfl

theorem identity_relabel (ids : Nat → Nat) (q : Request) :
    identity (q.relabel ids) = (identity q).relabel ids := by
  obtain ⟨id, name, arguments, memory, unused⟩ := q
  match arguments with
  | [] | [_] | _ :: _ :: _ => rfl

theorem count_relabel (ids : Nat → Nat) (q : Request) :
    count (q.relabel ids) = (count q).relabel ids := by
  simp [count, Request.answer, Request.relabel, Reply.relabel, Value.relabel, Except.map]

def sampleReply (q : Request) : Reply :=
  match q.name with
  | "console.log" => printLine .out q
  | "abs" => absolute q
  | "id" => identity q
  | "count" => count q
  | "fail" => q.refuse (.type "host failure")
  | _ => unknown q

/-- A host to try programs on: a console, two numeric members, and natives that give back, count or
refuse what they are given. -/
def sample : Host where
  call := sampleReply
  impartial ids q _ _ := by
    unfold sampleReply
    rw [Request.name_relabel]
    split
    · exact printLine_relabel .out ids q
    · exact absolute_relabel ids q
    · exact identity_relabel ids q
    · exact count_relabel ids q
    · rfl
    · rfl

/-- Makes the natives of the sample host known to programs. -/
def installSample : Eval Unit := do
  let log ← Eval.newNative "console.log"
  let console ← Eval.newRecord [("log", log)]
  let abs ← Eval.newNative "abs"
  let math ← Eval.newRecord [("abs", abs), ("pi", .float 3.141592653589793)]
  let id ← Eval.newNative "id"
  let count ← Eval.newNative "count"
  let fail ← Eval.newNative "fail"
  Eval.define Expr.hostName (← Eval.newRecord [
    ("console", console), ("Math", math), ("id", id), ("count", count), ("fail", fail),
    ("0", .string "zero"), ("-1", .int (-1))])

end Offside.Host
