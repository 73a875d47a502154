import Offside.Ty

namespace Offside

/-- `equal` is equality on numbers. -/
inductive Arithmetic where
  | add
  | subtract
  | multiply
  | divide
  | floorDivide
  | remainder
  | power
  | equal
  deriving DecidableEq

inductive Comparison where
  | equal
  | notEqual
  | less
  | lessEqual
  | greater
  | greaterEqual
  deriving DecidableEq

inductive Connective where
  | or
  | and
  deriving DecidableEq

namespace Arithmetic

def symbol : Arithmetic → String
  | .add => "+"
  | .subtract => "-"
  | .multiply => "*"
  | .divide => "/"
  | .floorDivide => "//"
  | .remainder => "%"
  | .power => "^"
  | .equal => "=="

def resultTy : Arithmetic → Ty
  | .floorDivide | .remainder => .int
  | .divide => .float
  | .equal => .bool
  | _ => .number

end Arithmetic

def Comparison.symbol : Comparison → String
  | .equal => "=="
  | .notEqual => "/="
  | .less => "<"
  | .lessEqual => "<="
  | .greater => ">"
  | .greaterEqual => ">="

def Connective.symbol : Connective → String
  | .or => "||"
  | .and => "&&"

inductive Operator where
  | arithmetic (op : Arithmetic)
  | comparison (op : Comparison)
  | connective (op : Connective)
  deriving DecidableEq

/-- Products bind tighter than sums. -/
inductive Tier where
  | sum
  | product
  deriving DecidableEq

namespace Operator

def symbol : Operator → String
  | .arithmetic op => op.symbol
  | .comparison op => op.symbol
  | .connective op => op.symbol

/-- In a source `==` is always the comparison. -/
def ofSymbol? : String → Option Operator
  | "+" => some (.arithmetic .add)
  | "-" => some (.arithmetic .subtract)
  | "*" => some (.arithmetic .multiply)
  | "/" => some (.arithmetic .divide)
  | "//" => some (.arithmetic .floorDivide)
  | "%" => some (.arithmetic .remainder)
  | "^" => some (.arithmetic .power)
  | "==" => some (.comparison .equal)
  | "/=" => some (.comparison .notEqual)
  | "<" => some (.comparison .less)
  | "<=" => some (.comparison .lessEqual)
  | ">" => some (.comparison .greater)
  | ">=" => some (.comparison .greaterEqual)
  | "||" => some (.connective .or)
  | "&&" => some (.connective .and)
  | _ => none

/-- Addition and subtraction are sums; every other operator is a product. -/
def tier : Operator → Tier
  | .arithmetic .add | .arithmetic .subtract => .sum
  | _ => .product

theorem ofSymbol?_symbol (op : Operator) (h : op ≠ .arithmetic .equal) :
    ofSymbol? op.symbol = some op := by
  rcases op with op | op | op <;> cases op <;> first | rfl | exact absurd rfl h

end Operator

end Offside
