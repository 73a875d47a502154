import Offside.Decimal.Double
import Offside.Value.Basic

namespace Offside

namespace Arithmetic

/-- An integer of 64 bits, or an overflow. -/
def fitted (op : Arithmetic) (n : Int) : Except RuntimeError Value :=
  if Int64.minValue.toInt ≤ n ∧ n ≤ Int64.maxValue.toInt then .ok (.int (Int64.ofInt n))
  else .error (.integerOverflow op)

/-- `a ^ b` where it is clear without computing it that the result does not fit. -/
def raise (a : Int) (b : Nat) : Except RuntimeError Value :=
  if a.natAbs ≤ 1 then fitted .power (Int.pow a (if b = 0 then 0 else 2 - b % 2))
  else if 64 ≤ b then .error (.integerOverflow .power)
  else fitted .power (Int.pow a b)

/-- The quotient is rounded down and the remainder has the sign of `a`; neither is given if the
quotient does not fit. Exponents of `2 ^ 32` and above are refused. -/
def onInts (op : Arithmetic) (a b : Int) : Except RuntimeError Value :=
  match op with
  | .subtract => fitted op (a - b)
  | .multiply => fitted op (a * b)
  | .floorDivide => if b = 0 then .error .divisionByZero else fitted op (a.fdiv b)
  | .remainder =>
    if b = 0 then .error .divisionByZero
    else (fitted op (a.tdiv b)).bind fun _ => fitted op (a.tmod b)
  | .power => if b.toNat < 0x100000000 then raise a b.toNat else .error (.integerOverflow op)
  | _ => fitted op (a + b)

/-- A quotient that is rounded down is cut off at the ends of the integers. -/
def onFloats (op : Arithmetic) (x y : Float) : Except RuntimeError Value :=
  match op with
  | .subtract => .ok (.float (x - y))
  | .multiply => .ok (.float (x * y))
  | .divide => .ok (.float (x / y))
  | .floorDivide =>
    let quotient := (x / y).floor
    if quotient.isFinite then .ok (.int quotient.toInt64) else .error .divisionByZero
  | .remainder => .ok (.float (Decimal.remainder x y))
  | .power => .ok (.float (x ^ y))
  | _ => .ok (.float (x + y))

/-- Two integers stay integers, but for `divide` and negative exponents. -/
def onNumbers (op : Arithmetic) : Number → Number → Except RuntimeError Value
  | .int a, .int b =>
    if op = .divide ∨ op = .power ∧ b < 0 then op.onFloats a.toFloat b.toFloat
    else op.onInts a.toInt b.toInt
  | a, b => op.onFloats a.toFloat b.toFloat

def apply (op : Arithmetic) (left right : Value) : Except RuntimeError Value :=
  match left.number?, right.number? with
  | some a, some b =>
    if op = .equal then .ok (.bool (left.looselyEquals right)) else op.onNumbers a b
  | _, _ => .error (.notNumbers op left.kind right.kind)

end Arithmetic

namespace Comparison

def ofOrdering (op : Comparison) (o : Ordering) : Bool :=
  match op with
  | .equal => o.isEq
  | .notEqual => o.isNe
  | .less => o.isLT
  | .lessEqual => o.isLE
  | .greater => o.isGT
  | .greaterEqual => o.isGE

/-- Nothing is below, above or equal to a value that is not a number. -/
def onFloats (op : Comparison) (x y : Float) : Bool :=
  match op with
  | .equal => x == y
  | .notEqual => x != y
  | .less => x < y
  | .lessEqual => x ≤ y
  | .greater => y < x
  | .greaterEqual => y ≤ x

/-- Any two values can be compared for equality; strings and numbers also have an order. -/
def apply (op : Comparison) (left right : Value) : Except RuntimeError Bool :=
  match op with
  | .equal => .ok (left.looselyEquals right)
  | .notEqual => .ok (!left.looselyEquals right)
  | _ =>
    match left, right with
    | .string s, .string t => .ok (op.ofOrdering (compare s t))
    | .int a, .int b => .ok (op.ofOrdering (compare a.toInt b.toInt))
    | _, _ =>
      match left.number?, right.number? with
      | some a, some b => .ok (op.onFloats a.toFloat b.toFloat)
      | _, _ => .error (.notComparable left.kind right.kind)

end Comparison

end Offside
