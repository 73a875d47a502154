import Offside.Decimal.Layout
import Offside.Text.Shown
import Offside.Value.Basic

namespace Offside.Value

def render : Value → String
  | .int n => Decimal.integer n.toInt
  | .float x => Decimal.Layout.plain.write x
  | .string s => s
  | .bool b => if b then "True" else "False"
  | .function _ params _ _ => "<function/" ++ Decimal.natural params.length ++ ">"
  | .native _ name => "<native " ++ name ++ ">"
  | .record _ members => "\x7b " ++ ", ".intercalate (members.map (·.1)) ++ " \x7d"

mutual

def inspect : Value → String
  | .int n => "Int(" ++ Decimal.integer n.toInt ++ ")"
  | .float x => "Float(" ++ Decimal.Layout.plain.write x ++ ")"
  | .string s => "String(" ++ Text.inspect s ++ ")"
  | .bool b => "Bool(" ++ (if b then "true" else "false") ++ ")"
  | .function _ params _ _ => "Function([" ++ ", ".intercalate (params.map Text.inspect) ++ "])"
  | .native _ name => "Native(" ++ Text.inspect name ++ ")"
  | .record _ members => "\x7b" ++ ", ".intercalate (inspectMembers members) ++ "\x7d"

def inspectMembers : List (String × Value) → List String
  | [] => []
  | (key, v) :: members => (Text.inspect key ++ ": " ++ v.inspect) :: inspectMembers members

end

/-- One line for several values. -/
def renderLine (vs : List Value) : String := " ".intercalate (vs.map render)

@[simp] theorem render_relabel (ids : Nat → Nat) (v : Value) :
    (v.relabel ids).render = v.render := by
  cases v with
  | record id members => simp [relabel, render, relabelMembers_eq_map, Function.comp_def]
  | _ => rfl

@[simp] theorem renderLine_relabel (ids : Nat → Nat) (vs : List Value) :
    renderLine (vs.map (relabel ids)) = renderLine vs := by
  simp [renderLine, Function.comp_def]

end Offside.Value
