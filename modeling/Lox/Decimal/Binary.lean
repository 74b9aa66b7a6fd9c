/-!
# Binary magnitudes

A finite double is a sign and a magnitude `mantissa · 2 ^ exponent`.  This module reads that
form off the bits, so that number texts can be computed in exact integer arithmetic.

A double stands for all reals that round to it.  Counted in quarters of its last binary place
this interval runs from `Binary.lower` to `Binary.upper`, around `4 · mantissa`; its ends belong
to it exactly when the mantissa is even.
-/

namespace Lox
namespace Decimal

/-- The magnitude `mantissa · 2 ^ exponent`. -/
structure Binary where
  mantissa : Nat
  exponent : Int
deriving DecidableEq, Repr

/-- What the magnitude bits of a double stand for. -/
inductive Magnitude where
  | nan
  | infinite
  | finite (value : Binary)
deriving DecidableEq, Repr

/-- The mantissa of a power of two, which is the least mantissa with all its places: `2 ^ 52`. -/
def leadingBit : Nat := 0x10000000000000

/-- Whether the sign bit of a double is set. -/
def isNegative (x : Float) : Bool :=
  x.toBits.toNat / 0x8000000000000000 = 1

/-- The magnitude of a double, read off its bits. -/
def magnitude (x : Float) : Magnitude :=
  let biased : Nat := x.toBits.toNat / leadingBit % 2048
  let fraction : Nat := x.toBits.toNat % leadingBit
  if biased = 2047 then
    if fraction = 0 then .infinite else .nan
  else if biased = 0 then
    .finite ⟨fraction, -1074⟩
  else
    .finite ⟨leadingBit + fraction, (biased : Int) - 1075⟩

namespace Binary

/-- Lower end of the rounding interval, in quarters of the last binary place.  The gap below a
power of two is half as wide, except at the smallest exponent. -/
def lower (b : Binary) : Nat :=
  if b.mantissa = leadingBit ∧ -1074 < b.exponent then 4 * b.mantissa - 1 else 4 * b.mantissa - 2

/-- Upper end of the rounding interval, in quarters of the last binary place. -/
def upper (b : Binary) : Nat :=
  4 * b.mantissa + 2

/-- Whether the ends of the rounding interval belong to it. -/
def endsIncluded (b : Binary) : Bool :=
  b.mantissa % 2 = 0

/-- The whole part of a magnitude, in full. -/
def whole (b : Binary) : Nat :=
  b.mantissa * Nat.pow 2 b.exponent.toNat / Nat.pow 2 (-b.exponent).toNat

end Binary

end Decimal
end Lox
