import Offside.Error

namespace Offside

inductive Literal where
  | int (n : Int64)
  | float (x : Float)
  | string (s : String)
  | bool (b : Bool)

def Literal.ty : Literal → Ty
  | .int _ => .int
  | .float _ => .float
  | .string _ => .string
  | .bool _ => .bool

/-- Nodes whose type does not follow from their parts carry it in `ty`. They are made by functions
that check what is known about the types of the parts; a part of unknown type is let through. -/
inductive Expr where
  | constant (value : Literal)
  | name (name : String) (ty : Option Ty)
  | comparison (op : Comparison) (left right : Expr)
  | connective (op : Connective) (left right : Expr)
  | arithmetic (op : Arithmetic) (left right : Expr)
  | define (name : String) (value : Expr) (ty : Option Ty)
  | apply (callee : Expr) (arguments : List Expr)
  /-- A member of a record, or a character of a string. -/
  | member (target key : Expr)
  | lambda (params : List String) (body : Expr)
  /-- A function definition; it can be compiled but not evaluated. -/
  | function (name : String) (params : List String) (body : Expr) (ty : Option Ty)

namespace Expr

/-- The static type, where it is known. -/
def ty : Expr → Option Ty
  | .constant value => some value.ty
  | .name _ t => t
  | .arithmetic op _ _ => some op.resultTy
  | .define _ _ t => t
  | .apply callee arguments => Ty.afterArguments arguments.length callee.ty
  | .function _ _ _ t => t
  | .comparison _ _ _ | .connective _ _ _ | .member _ _ | .lambda _ _ => none

def asName? : Expr → Option String
  | .name x _ => some x
  | _ => none

/-- The names of an application of a name to names, beginning with the one that is applied. -/
def headNames? : Expr → Option (List String)
  | .apply callee arguments => (callee :: arguments).mapM asName?
  | _ => none

/-- The types of arguments chained into one: `a → b → c` for three. -/
def chainTy : List Expr → Option Ty
  | [] => none
  | [e] => e.ty
  | e :: es => do
    let t ← e.ty
    let u ← chainTy es
    return .function t u

def mayBeNumeric (e : Expr) : Bool := e.ty.all Ty.isNumeric

def mayBeComparable (e : Expr) : Bool := e.ty.all Ty.isComparable

def checkedComparison (op : Comparison) (left right : Expr) : Except Error Expr :=
  if left.mayBeComparable && right.mayBeComparable then .ok (.comparison op left right)
  else .error (.type (.notComparable op left.ty right.ty))

def checkedArithmetic (op : Arithmetic) (left right : Expr) : Except Error Expr :=
  if left.mayBeNumeric && right.mayBeNumeric then .ok (.arithmetic op left right)
  else .error (.type (.notNumeric op left.ty right.ty))

/-- A definition has the type of its value, and the declared one if that is unknown. -/
def checkedDefine (name : String) (value : Expr) (declared : Option Ty) : Except Error Expr :=
  match declared, value.ty with
  | some expected, some actual =>
    if actual = expected then .ok (.define name value (some actual))
    else .error (.type (.wrongDefinition name expected actual))
  | declared, actual => .ok (.define name value (actual.or declared))

/-- Whether a callee of type `t` takes `count` arguments, whose chained types are `expected` where
they are all known. -/
def acceptsArguments (t : Ty) (expected : Option Ty) (count : Nat) : Bool :=
  match expected with
  | some expected => t.accepts expected
  | none => count = 0 || t.isFunction

def checkedApply (terms : List Expr) (expected : Option Ty) : Except Error Expr :=
  match terms with
  | [] => .error (.parse .emptyApplication)
  | callee :: arguments =>
    match callee.ty with
    | some t =>
      if acceptsArguments t expected arguments.length then .ok (.apply callee arguments)
      else .error (.type (.notApplicable callee.asName? t expected))
    | none => .ok (.apply callee arguments)

/-- Combines two operands with any operator. -/
def checkedOperation : Operator → Expr → Expr → Except Error Expr
  | .arithmetic op, left, right => checkedArithmetic op left right
  | .comparison op, left, right => checkedComparison op left right
  | .connective op, left, right => .ok (.connective op left right)

end Expr

end Offside
