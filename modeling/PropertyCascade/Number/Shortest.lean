import PropertyCascade.Number.Binary64

/-!
# Shortest decimals

The decimal that represents a binary number: among the decimals that round to the number, those
with the fewest digits, and of these the nearest; of two that are equally near, the greater.

The decimals that round to a number fill an interval around it, whose ends lie half way to its
neighbours; the ends belong to it if the significand is even. For each count of digits, from one
to seventeen, the two neighbours of the number on the decimal grid of that count are tested: if
any point of the grid lies in the interval, so does one of the two. All comparisons are between
natural numbers.
-/

namespace PropertyCascade

namespace Binary64

/-- The interval of decimals that round to a number, and the number itself, in quarters of the
unit in the last place. -/
structure Neighbourhood where
  low : Nat
  centre : Nat
  high : Nat
  /-- Whether the ends belong to the interval. -/
  closed : Bool
  deriving DecidableEq, Repr

/-- The lower neighbour is half as far away below a power of two. -/
def neighbourhood (number : Binary64) : Neighbourhood :=
  let centre := 4 * number.significand
  let below := if number.significand = Nat.pow 2 52 ∧ -1074 < number.exponent then 1 else 2
  ⟨centre - below, centre, centre + 2, number.significand % 2 == 0⟩

/-- A factor for grid points and a factor for quarter units, by which both become natural numbers
of one scale: `gridExponent` is the power of ten of a grid step, and a quarter unit is two to the
`exponent - 2`. -/
def commonScale (gridExponent exponent : Int) : Nat × Nat :=
  (Nat.pow 10 gridExponent.toNat * Nat.pow 2 (2 - exponent).toNat,
    Nat.pow 10 (-gridExponent).toNat * Nat.pow 2 (exponent - 2).toNat)

/-- The grid point at a given step that represents the number, if one of its two neighbours on
the grid lies in the interval: the nearer one, and the greater of two that are equally near. -/
def gridPoint? (around : Neighbourhood) (gridExponent exponent : Int) : Option Nat :=
  let (step, unit) := commonScale gridExponent exponent
  let below := around.centre * unit / step
  let inside (point : Nat) : Bool :=
    if around.closed then
      around.low * unit ≤ point * step && point * step ≤ around.high * unit
    else around.low * unit < point * step && point * step < around.high * unit
  if inside below && inside (below + 1) then
    if around.centre * unit - below * step < (below + 1) * step - around.centre * unit then
      some below
    else some (below + 1)
  else if inside below then some below
  else if inside (below + 1) then some (below + 1)
  else none

/-- The power of ten above a number: its first digit stands just below it. -/
def decimalPoint (number : Binary64) : Int :=
  let (top, bottom) := scaled (number.significand * Nat.pow 10 330) 1 number.exponent
  ((Numeral.ofNat (top / bottom)).length : Int) - 330

/-- A decimal without the zeros at the end of its coefficient. The count bounds the number of
zeros that are removed. -/
def dropZeros : Nat → Nat → Int → Nat × Int
  | 0, coefficient, exponent => (coefficient, exponent)
  | count + 1, coefficient, exponent =>
      if coefficient % 10 = 0 then dropZeros count (coefficient / 10) (exponent + 1)
      else (coefficient, exponent)

/-- The coefficient and the power of ten of the decimal that is equal to the number. -/
def exact (number : Binary64) : Nat × Int :=
  if 0 ≤ number.exponent then (number.significand * Nat.pow 2 number.exponent.toNat, 0)
  else (number.significand * Nat.pow 5 (-number.exponent).toNat, number.exponent)

/-- The coefficient and the power of ten of the first grid point that represents the number. -/
def firstGridPoint? (number : Binary64) : Option (Nat × Int) :=
  (List.range 17).findSome? fun count =>
    let gridExponent := number.decimalPoint - (count + 1 : Nat)
    (gridPoint? number.neighbourhood gridExponent number.exponent).map (·, gridExponent)

/-- The shortest decimal that rounds to the number. -/
def shortest (number : Binary64) : Decimal :=
  if number.significand = 0 then ⟨number.negative, 0, 0⟩
  else
    let (digits, gridExponent) := number.firstGridPoint?.getD number.exact
    let (coefficient, exponent) := dropZeros 18 digits gridExponent
    ⟨number.negative, coefficient, exponent⟩

/-- The text of a number: its shortest decimal, positionally. -/
def text (number : Binary64) : Text :=
  number.shortest.text

/-- Whether the text of a number has no digits after the point. -/
def isIntegral (number : Binary64) : Bool :=
  0 ≤ number.shortest.exponent

/-- The least positive number has one digit, and of two decimals that are equally near to a number
the greater represents it. -/
example :
    (ofDecimal? ⟨false, 5, -324⟩).map shortest = some ⟨false, 5, -324⟩ ∧
      (ofDecimal? ⟨false, 121601158011657025, -2⟩).map shortest =
        some ⟨false, 12160115801165703, -1⟩ := by
  decide +kernel

end Binary64

end PropertyCascade
