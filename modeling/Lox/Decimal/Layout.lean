import Lox.Decimal.Shortest

/-!
# Layouts of numbers

A `Layout` says how the shortest decimal of a double is written: when positionally and when with
an exponent, where `.0` marks a whole number, and the words for the values that are no numbers.
Exponents of layouts are those of the leading digit: a number is `d.ddd · 10 ^ x`.
-/

namespace Lox
namespace Decimal

/-- How numbers are written. -/
structure Layout where
  /-- The choice between two equally short and equally near decimals. -/
  tie : Tie
  /-- Leading exponents that are written without an exponent. -/
  positional : Int → Bool
  /-- Leading exponents at which a whole number, written positionally, ends in `.0`. -/
  pointed : Int → Bool
  /-- Whether whole numbers are written with all their digits, not padded from the shortest. -/
  exact : Bool
  /-- Mark between the digits and the exponent. -/
  mark : String
  /-- Sign of an exponent that is not negative. -/
  plus : String
  /-- Whether a single digit before an exponent is followed by `.0`. -/
  pointedDigit : Bool
  /-- The word for a value that is not a number. -/
  nan : String
  /-- The word for an infinite value. -/
  infinity : String

/-- The decimal digits of a natural number, most significant first. -/
def digitsOf (n : Nat) : List Char :=
  Nat.toDigits 10 n

/-- The digits of `digits · 10 ^ exponent` with a decimal point where one is needed. -/
def positionalText (digits : List Char) (exponent : Int) : List Char :=
  let point : Int := digits.length + exponent
  if 0 ≤ exponent then digits ++ List.replicate exponent.toNat '0'
  else if 0 < point then digits.take point.toNat ++ '.' :: digits.drop point.toNat
  else '0' :: '.' :: (List.replicate (-point).toNat '0' ++ digits)

namespace Layout

/-- The text of an exponent with its mark. -/
def exponentText (layout : Layout) (x : Int) : String :=
  if x < 0 then layout.mark ++ "-" ++ String.ofList (digitsOf (-x).toNat)
  else layout.mark ++ layout.plus ++ String.ofList (digitsOf x.toNat)

/-- The digits in front of an exponent: one of them before the point. -/
def mantissaText (layout : Layout) (digits : List Char) : String :=
  match digits with
  | [] => ""
  | [d] => String.ofList (if layout.pointedDigit then [d, '.', '0'] else [d])
  | d :: rest => String.ofList (d :: '.' :: rest)

/-- The text of a finite magnitude. -/
def finiteText (layout : Layout) (b : Binary) : String :=
  let decimal := shortest layout.tie b
  let digits := digitsOf decimal.digits
  let lead : Int := digits.length + decimal.exponent - 1
  if layout.positional lead then
    if 0 ≤ decimal.exponent then
      String.ofList
          (if layout.exact then digitsOf b.whole else positionalText digits decimal.exponent)
        ++ (if layout.pointed lead then ".0" else "")
    else String.ofList (positionalText digits decimal.exponent)
  else layout.mantissaText digits ++ layout.exponentText lead

/-- The text of a double. -/
def text (layout : Layout) (x : Float) : String :=
  let sign := if isNegative x then "-" else ""
  match magnitude x with
  | .nan => layout.nan
  | .infinite => sign ++ layout.infinity
  | .finite b => sign ++ layout.finiteText b

end Layout

end Decimal
end Lox
