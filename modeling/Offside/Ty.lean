namespace Offside

/-- A function of several parameters takes them one at a time. -/
inductive Ty where
  | string
  | bool
  | int
  | float
  /-- Any numeric value. -/
  | number
  | function (input output : Ty)
  | list (element : Ty)
  deriving DecidableEq

namespace Ty

def input? : Ty → Option Ty
  | .function input _ => some input
  | _ => none

def output? : Ty → Option Ty
  | .function _ output => some output
  | _ => none

def isFunction : Ty → Bool
  | .function _ _ => true
  | _ => false

def isPrimitive : Ty → Bool
  | .function _ _ | .list _ => false
  | _ => true

def isNumeric : Ty → Bool
  | .int | .float | .number => true
  | _ => false

/-- Values with an order: all but truth values and functions. -/
def isComparable : Ty → Bool
  | .bool | .function _ _ => false
  | _ => true

/-- Every numeric type fits `number`; otherwise a type fits only itself. -/
def fits (t u : Ty) : Bool :=
  if u = .number then t.isNumeric else t = u

/-- Whether a function of the first type can be applied to arguments whose types are chained into
the second one, `a → b → c` for three arguments. -/
def accepts : Ty → Ty → Bool
  | .function input output, .function argument others =>
    input = argument && output.isFunction && output.accepts others
  | .function input _, argument => input = argument
  | _, _ => false

/-- The type left of `t` after it has been given `n` arguments, where that is known. -/
def afterArguments : Nat → Option Ty → Option Ty
  | 0, t => t
  | n + 1, t => afterArguments n (t.bind output?)

/-- The type that a name stands for without being declared. -/
def ofName? : String → Option Ty
  | "String" => some .string
  | "Bool" => some .bool
  | "Int" => some .int
  | "Float" => some .float
  | "Number" => some .number
  | _ => none

/-- The written form: arrows group to the right, and a list's element is one word or in
parentheses. -/
def render : Ty → String
  | .string => "String"
  | .bool => "Bool"
  | .int => "Int"
  | .float => "Float"
  | .number => "Number"
  | .function input output =>
    (if input.isFunction then "(" ++ input.render ++ ")" else input.render) ++ " -> " ++
      output.render
  | .list element =>
    "List " ++ if element.isPrimitive then element.render else "(" ++ element.render ++ ")"

end Ty

end Offside
