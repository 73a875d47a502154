import Offside.Decimal.Layout
import Offside.Expr.Basic
import Offside.Text.Quoted

namespace Offside

def Literal.javaScript : Literal → String
  | .int n => Decimal.integer n.toInt
  | .float x => Decimal.Layout.plain.write x
  | .string s => Text.quote s
  | .bool b => if b then "true" else "false"

def Comparison.javaScript : Comparison → String
  | .equal => "==="
  | .notEqual => "!=="
  | op => op.symbol

namespace Expr

/-- The members of this name are global names of the host. -/
def hostName : String := "Native"

def isAtomic : Expr → Bool
  | .constant _ | .name _ _ | .apply _ _ => true
  | _ => false

/-- The text of an operand, given the text it has on its own: in parentheses, unless it is a
constant, a name or an application. -/
def operand (e : Expr) (text : String) : String :=
  if e.isAtomic then text else "(" ++ text ++ ")"

def returning (body : String) : String := "\x7b return " ++ body ++ "; \x7d"

/-- A member is named after a point if its key is a name, and computed otherwise. -/
def memberText (target : String) (key : Expr) (text : String) : String :=
  if target = hostName then text
  else
    match key with
    | .name _ _ => target ++ "." ++ text
    | _ => target ++ "[" ++ text ++ "]"

mutual

def javaScript : Expr → String
  | .constant value => value.javaScript
  | .name x _ => x
  | .comparison op left right =>
    left.operand left.javaScript ++ " " ++ op.javaScript ++ " " ++ right.operand right.javaScript
  | .connective op left right =>
    left.operand left.javaScript ++ " " ++ op.symbol ++ " " ++ right.operand right.javaScript
  | .arithmetic .power left right =>
    "Math.pow(" ++ left.operand left.javaScript ++ ", " ++ right.operand right.javaScript ++ ")"
  | .arithmetic op left right =>
    left.operand left.javaScript ++ " " ++ (if op = .equal then "===" else op.symbol) ++ " " ++
      right.operand right.javaScript
  | .define x value _ => "var " ++ x ++ " = " ++ value.javaScript
  | .apply callee arguments =>
    callee.javaScript ++ "(" ++ ", ".intercalate (javaScripts arguments) ++ ")"
  | .member target key => memberText target.javaScript key key.javaScript
  | .lambda params body =>
    "(function (" ++ ", ".intercalate params ++ ") " ++ returning body.javaScript ++ ")"
  | .function f params body _ =>
    "function " ++ f ++ "(" ++ ", ".intercalate params ++ ") " ++ returning body.javaScript

def javaScripts : List Expr → List String
  | [] => []
  | e :: es => e.javaScript :: javaScripts es

end

theorem javaScripts_eq_map (es : List Expr) : javaScripts es = es.map javaScript := by
  induction es with
  | nil => rfl
  | cons e es ih => simp [javaScripts, ih]

end Expr

end Offside
