namespace Offside.Decimal

/-- A finite number has the magnitude `m · 2 ^ (e - 1075)`; `e` is at least one, and `m` is at
least `2 ^ 52` unless `e` is one. -/
inductive Double where
  | nan
  | infinite (negative : Bool)
  | finite (negative : Bool) (m e : Nat)
  deriving DecidableEq

namespace Double

/-- The bit before the fraction, `2 ^ 52`. -/
def leadingBit : Nat := 0x10000000000000

/-- The bit of the sign, `2 ^ 63`. -/
def signBit : Nat := 0x8000000000000000

/-- The parts of the 64 bits are the sign, eleven bits of exponent and 52 bits of fraction. -/
def ofBits (bits : Nat) : Double :=
  let negative := decide (signBit ≤ bits)
  let exponent := bits / leadingBit % 2048
  let fraction := bits % leadingBit
  if exponent = 2047 then if fraction = 0 then .infinite negative else .nan
  else if exponent = 0 then .finite negative fraction 1
  else .finite negative (leadingBit + fraction) exponent

def ofFloat (x : Float) : Double := ofBits x.toBits.toNat

/-- The number with the magnitude `m · 2 ^ (e - 1075)`, which has to be representable. -/
def encode (negative : Bool) (m e : Nat) : Float :=
  let shift := min (52 - m.log2) (e - 1)
  let m := m * Nat.pow 2 shift
  let e := e - shift
  let exponent := if m < leadingBit then 0 else e
  let sign := if negative then signBit else 0
  Float.ofBits (UInt64.ofNat (sign + exponent * leadingBit + m % leadingBit))

end Double

/-- The remainder of a division whose quotient is cut off towards zero. It is exact and has the
sign of the first number. -/
def remainder (x y : Float) : Float :=
  match Double.ofFloat x, Double.ofFloat y with
  | .finite negative m e, .finite _ n f =>
    if n = 0 then 0.0 / 0.0
    else
      let low := min e f
      Double.encode negative (m * Nat.pow 2 (e - low) % (n * Nat.pow 2 (f - low))) low
  | .finite _ _ _, .infinite _ => x
  | _, _ => 0.0 / 0.0

end Offside.Decimal
