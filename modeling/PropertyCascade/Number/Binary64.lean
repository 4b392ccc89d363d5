import PropertyCascade.Number.Decimal

/-!
# Binary floating point numbers

The finite numbers of the 64-bit binary format, as exact values: a sign, a significand below
`2 ^ 53` and an exponent of two. Each number has one representation, because a significand below
`2 ^ 52` is only allowed at the least exponent. Rounding a decimal is done on natural numbers:
the decimal is a quotient, and the significand is that quotient rounded to the nearest integer,
half to even, at the exponent that leaves 53 bits.
-/

namespace PropertyCascade

/-- A finite number of the 64-bit binary format: `significand` times two to the `exponent`. -/
structure Binary64 where
  negative : Bool
  significand : Nat
  exponent : Int
  significand_lt : significand < Nat.pow 2 53
  exponent_bounds : -1074 ≤ exponent ∧ exponent ≤ 971
  normal_or_least : Nat.pow 2 52 ≤ significand ∨ exponent = -1074
  deriving DecidableEq

namespace Binary64

/-- Zero, with either sign. -/
def zero (negative : Bool) : Binary64 :=
  ⟨negative, 0, -1074, by decide, by decide, Or.inr rfl⟩

/-- Numbers are equal as values if they are the same or both zero. -/
def sameValue (left right : Binary64) : Bool :=
  left == right || (left.significand == 0 && right.significand == 0)

/-- The number of bits of a natural number. -/
def bitLength (number : Nat) : Nat :=
  if number = 0 then 0 else number.log2 + 1

/-- A quotient as a fraction, scaled by a power of two. -/
def scaled (numerator denominator : Nat) (power : Int) : Nat × Nat :=
  if 0 ≤ power then (numerator * Nat.pow 2 power.toNat, denominator)
  else (numerator, denominator * Nat.pow 2 (-power).toNat)

/-- The nearest integer to a fraction, half to even. -/
def roundHalfEven (numerator denominator : Nat) : Nat :=
  let quotient := numerator / denominator
  let twice := 2 * (numerator % denominator)
  if twice < denominator then quotient
  else if denominator < twice then quotient + 1
  else quotient + quotient % 2

/-- The exponent at which a positive fraction has a significand of 53 bits, but at least the
least exponent. The first guess may be one too great. -/
def exponentOf (numerator denominator : Nat) : Int :=
  let guess := max ((bitLength numerator : Int) - bitLength denominator - 52) (-1074)
  let (top, bottom) := scaled numerator denominator (-guess)
  if top / bottom < Nat.pow 2 52 then max (guess - 1) (-1074) else guess

/-- A significand and an exponent as a number, unless the exponent is too great. -/
def ofParts? (negative : Bool) (significand : Nat) (exponent : Int) : Option Binary64 :=
  if parts : significand < Nat.pow 2 53 ∧ (-1074 ≤ exponent ∧ exponent ≤ 971) ∧
      (Nat.pow 2 52 ≤ significand ∨ exponent = -1074) then
    some ⟨negative, significand, exponent, parts.1, parts.2.1, parts.2.2⟩
  else none

/-- The nearest number to a positive fraction, half to even; none if it rounds past the greatest
finite number. -/
def ofFraction? (negative : Bool) (numerator denominator : Nat) : Option Binary64 :=
  let exponent := exponentOf numerator denominator
  let (top, bottom) := scaled numerator denominator (-exponent)
  let significand := roundHalfEven top bottom
  if significand = Nat.pow 2 53 then ofParts? negative (Nat.pow 2 52) (exponent + 1)
  else ofParts? negative significand exponent

/-- The nearest number to a decimal, half to even; none if it rounds past the greatest finite
number. Decimals whose first digit stands far above or below the range of the format are decided
without forming the power of ten. -/
def ofDecimal? (decimal : Decimal) : Option Binary64 :=
  let point := ((Numeral.ofNat decimal.coefficient).length : Int) + decimal.exponent
  if decimal.coefficient = 0 ∨ point < -330 then some (zero decimal.negative)
  else if 330 < point then none
  else if 0 ≤ decimal.exponent then
    ofFraction? decimal.negative (decimal.coefficient * Nat.pow 10 decimal.exponent.toNat) 1
  else ofFraction? decimal.negative decimal.coefficient (Nat.pow 10 (-decimal.exponent).toNat)

/-- Half of the unit in the last place above the greatest finite number is already too much, and
anything less is rounded to that number. -/
example :
    ofDecimal? ⟨false, 2 ^ 1024 - 2 ^ 970, 0⟩ = none ∧
      (ofDecimal? ⟨false, 2 ^ 1024 - 2 ^ 970 - 1, 0⟩).map Binary64.exponent = some 971 := by
  decide +kernel

end Binary64

end PropertyCascade
