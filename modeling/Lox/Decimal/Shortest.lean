import Lox.Decimal.Binary

/-!
# Shortest decimals

The shortest decimal of a double has the fewest digits among all decimals that round to it, and
among those it lies nearest to the double.  The search goes through the grids of multiples of
`10 ^ g` from coarse to fine: if a grid has a point in the rounding interval at all, one of the
two neighbours of the double on that grid is such a point, so the first grid with a hit has the
fewest digits.  Where both neighbours are hits and equally near, a `Tie` rule decides.
-/

namespace Lox
namespace Decimal

/-- The decimal `digits · 10 ^ exponent`. -/
structure Scaled where
  digits : Nat
  exponent : Int
deriving DecidableEq, Repr

/-- Which of two equally near neighbours is taken. -/
inductive Tie where
  | up
  | even
deriving DecidableEq, Repr

/-- Whether the upper of the neighbours `k` and `k + 1` is taken. -/
def Tie.takesUpper (tie : Tie) (k : Nat) : Bool :=
  match tie with
  | .up => true
  | .even => k % 2 = 1

/-- Factor that turns quarters of the last binary place of `b` into multiples of `10 ^ g`, as the
numerator of a fraction over `gridDenominator`. -/
def gridNumerator (b : Binary) (g : Int) : Nat :=
  Nat.pow 2 (b.exponent - 2).toNat * Nat.pow 10 (-g).toNat

/-- Denominator that belongs to `gridNumerator`. -/
def gridDenominator (b : Binary) (g : Int) : Nat :=
  Nat.pow 2 (2 - b.exponent).toNat * Nat.pow 10 g.toNat

/-- Whether `k · 10 ^ g` lies in the rounding interval of `b`. -/
def Binary.holds (b : Binary) (g : Int) (k : Nat) : Bool :=
  let low := b.lower * gridNumerator b g
  let high := b.upper * gridNumerator b g
  let point := k * gridDenominator b g
  if b.endsIncluded then low ≤ point ∧ point ≤ high else low < point ∧ point < high

/-- The multiple of `10 ^ g` nearest to `b`, if one lies in the rounding interval. -/
def nearest? (tie : Tie) (b : Binary) (g : Int) : Option Nat :=
  let centre := 4 * b.mantissa * gridNumerator b g
  let unit := gridDenominator b g
  let k := centre / unit
  let below := centre - k * unit
  let above := (k + 1) * unit - centre
  if b.holds g k then
    if b.holds g (k + 1) then
      if below < above then some k
      else if above < below then some (k + 1)
      else if tie.takesUpper k then some (k + 1) else some k
    else some k
  else if b.holds g (k + 1) then some (k + 1)
  else none

/-- Tries `count` grids, each ten times finer than the one before. -/
def searchGrids (tie : Tie) (b : Binary) : Nat → Int → Scaled
  | 0, g => ⟨4 * b.mantissa * gridNumerator b g / gridDenominator b g, g⟩
  | count + 1, g =>
      match nearest? tie b g with
      | some k => ⟨k, g⟩
      | none => searchGrids tie b count (g - 1)

/-- An exponent `g` such that `10 ^ g` exceeds the rounding interval of `b`. -/
def coarsestGrid (b : Binary) : Int :=
  (Nat.log2 b.mantissa + 1 + b.exponent) * 30103 / 100000 + 2

/-- The shortest decimal of a magnitude; seventeen digits always suffice. -/
def shortest (tie : Tie) (b : Binary) : Scaled :=
  if b.mantissa = 0 then ⟨0, 0⟩ else searchGrids tie b 24 (coarsestGrid b)

end Decimal
end Lox
