import Offside.Decimal.Layout
import Offside.Expr.Basic
import Offside.Text.Outline
import Offside.Text.Shown

namespace Offside

open Text (Outline)

def Ty.outline : Ty → Outline
  | .function input output =>
    .fields "Function" [("input", input.outline), ("output", output.outline)]
  | .list element => .tuple "List" [element.outline]
  | t => .tuple "Primitive" [.leaf t.render]

def outlineTy : Option Ty → Outline
  | some t => .tuple "Some" [t.outline]
  | none => .leaf "None"

def outlineBool (b : Bool) : Outline := .leaf (if b then "true" else "false")

def Literal.outline : Literal → Outline
  | .int n => .tuple "Int" [.leaf (Decimal.integer n.toInt)]
  | .float x => .tuple "Float" [.leaf (Decimal.Layout.marked.write x)]
  | .string s => .tuple "String" [.leaf (Text.inspect s)]
  | .bool b => .tuple "Bool" [outlineBool b]

def Arithmetic.label : Arithmetic → String
  | .add => "Add"
  | .subtract => "Subtract"
  | .multiply => "Multiply"
  | .divide => "Divide"
  | .floorDivide => "IntegerDivide"
  | .remainder => "Modulo"
  | .power => "Power"
  | .equal => "Equal"

def Comparison.label : Comparison → String
  | .equal => "Equal"
  | .notEqual => "NotEqual"
  | .less => "Less"
  | .lessEqual => "LessEqual"
  | .greater => "Greater"
  | .greaterEqual => "GreaterEqual"

def Connective.label : Connective → String
  | .or => "Or"
  | .and => "And"

namespace Expr

def outlineText (s : String) : Outline := .leaf (Text.inspect s)

def outlineParams (params : List String) : Outline := .list (params.map outlineText)

def outlineOperation (kind op : String) (left right : Outline) : Outline :=
  .fields kind [("left", left), ("op", .leaf op), ("right", right)]

def outlineNode (kind : Outline) (t : Option Ty) : Outline :=
  .fields "Expr" [("kind", kind), ("ty", outlineTy t)]

mutual

def outline (e : Expr) : Outline :=
  let kind := match e with
    | .constant value => .tuple "Constant" [value.outline]
    | .name x _ => .tuple "Name" [outlineText x]
    | .comparison op left right =>
      outlineOperation "Comparison" op.label left.outline right.outline
    | .connective op left right => outlineOperation "Logical" op.label left.outline right.outline
    | .arithmetic op left right => outlineOperation "Numeric" op.label left.outline right.outline
    | .define x value _ =>
      .fields "Define" [("name", outlineText x), ("value", value.outline)]
    | .apply callee arguments =>
      let allNames := (headNames? (.apply callee arguments)).isSome
      .fields "Apply" [("exprs", .list (callee.outline :: outlines arguments)),
        ("all_names", outlineBool allNames)]
    | .member target key => .fields "Dot" [("left", target.outline), ("right", key.outline)]
    | .lambda params body =>
      .fields "AnonymousFunction" [("params", outlineParams params), ("body", body.outline)]
    | .function f params body _ =>
      .fields "NamedFunction"
        [("name", outlineText f), ("params", outlineParams params), ("body", body.outline)]
  outlineNode kind e.ty

def outlines : List Expr → List Outline
  | [] => []
  | e :: es => e.outline :: outlines es

end

def dump (e : Expr) : String := e.outline.render 0

end Expr

end Offside
