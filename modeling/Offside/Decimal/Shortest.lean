import Offside.Decimal.Digits
import Offside.Decimal.Double

namespace Offside.Decimal

/-- The number `significand · 10 ^ exponent`. -/
structure Scientific where
  significand : Nat
  exponent : Int
  deriving DecidableEq

/-- A positive number `value / den` and the ends of the interval of numbers that round to it, over
the same denominator. The ends belong to it if `closed` is set. -/
structure Rounding where
  low : Nat
  value : Nat
  high : Nat
  den : Nat
  closed : Bool

namespace Rounding

/-- The interval around `m · 2 ^ (e - 1075)` reaches half way to the neighbours, and the neighbour
below a power of two is only half as far away. -/
def ofDouble (m e : Nat) : Rounding :=
  let below := if m = Double.leadingBit && 1 < e then 1 else 2
  let up := Nat.pow 2 (e - 1077)
  ⟨(4 * m - below) * up, 4 * m * up, (4 * m + 2) * up, Nat.pow 2 (1077 - e), m % 2 = 0⟩

/-- Measures everything in units of `10 ^ exponent`. -/
def inUnits (r : Rounding) (exponent : Int) : Rounding :=
  let scale := Nat.pow 10 (-exponent).toNat
  { r with
    low := r.low * scale
    value := r.value * scale
    high := r.high * scale
    den := r.den * Nat.pow 10 exponent.toNat }

def holds (r : Rounding) (n : Nat) : Bool :=
  if r.closed then r.low ≤ n * r.den && n * r.den ≤ r.high
  else r.low < n * r.den && n * r.den < r.high

/-- The whole number next to the value that lies in the interval; of two the nearer one, and the
upper one if both are equally near. -/
def whole? (r : Rounding) : Option Nat :=
  let n := r.value / r.den
  match r.holds n, r.holds (n + 1) with
  | true, true => if 2 * (r.value % r.den) < r.den then some n else some (n + 1)
  | true, false => some n
  | false, true => some (n + 1)
  | false, false => none

/-- The largest exponent whose power of ten is not above the value. -/
def magnitude (r : Rounding) : Int :=
  if r.den ≤ r.value then (digits (r.value / r.den)).length - 1
  else -((digits ((r.den - 1) / r.value)).length : Int)

/-- Tries one digit after the other; seventeen always suffice. -/
def shortest (r : Rounding) : Scientific :=
  let attempt (places : Nat) : Option Scientific :=
    (r.inUnits (r.magnitude - places)).whole?.map fun n => ⟨n, r.magnitude - places⟩
  ((List.range 17).findSome? attempt).getD ⟨0, 0⟩

end Rounding

end Offside.Decimal
