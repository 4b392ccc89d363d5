import PropertyCascade.Number.Numeral

/-!
# Decimals

A decimal is an integer coefficient scaled by a power of ten, with a sign of its own so that
negative zero is one. Literals are read by the grammar

    sign? (digits ('.' digits?)? | '.' digits) (('e' | 'E') sign? digits)?

and written positionally: all digits before the point or after it, never with an exponent.
-/

namespace PropertyCascade

/-- A decimal: `coefficient` times ten to the `exponent`, negated if `negative`. -/
structure Decimal where
  negative : Bool
  coefficient : Nat
  exponent : Int
  deriving DecidableEq, Repr

namespace Decimal

open Numeral

/-- The exponent part of a literal: absent, or a mark followed by a signed numeral. -/
def exponent? : Text → Option Int
  | [] => some 0
  | mark :: rest => if mark = 'e' ∨ mark = 'E' then int? rest else none

/-- The digits after the point, if there is a point, and what follows them. -/
def fraction : Text → Text × Text
  | '.' :: rest => rest.span isDigit
  | text => ([], text)

/-- Reads a literal. -/
def read? (literal : Text) : Option Decimal :=
  let (negative, magnitude) := takeSign literal
  let (whole, afterWhole) := magnitude.span isDigit
  let (fractional, tail) := fraction afterWhole
  let digits := whole ++ fractional
  if digits = [] then none
  else (exponent? tail).map fun exponent =>
    ⟨negative, value digits, exponent - (fractional.length : Int)⟩

/-- The digits of a magnitude, positionally. -/
def magnitudeText (coefficient : Nat) (exponent : Int) : Text :=
  let digits := ofNat coefficient
  if 0 ≤ exponent then digits ++ List.replicate exponent.toNat '0'
  else
    let places := (-exponent).toNat
    let padded := List.replicate (places + 1 - digits.length) '0' ++ digits
    padded.take (padded.length - places) ++ '.' :: padded.drop (padded.length - places)

/-- The positional text of a decimal. -/
def text (decimal : Decimal) : Text :=
  let magnitude := magnitudeText decimal.coefficient decimal.exponent
  if decimal.negative then '-' :: magnitude else magnitude

/-- A literal may end with its point or start with it, but has some digit. -/
example :
    read? ['1', '.'] = some ⟨false, 1, 0⟩ ∧ read? ['-', '.', '5', 'e', '3'] = some ⟨true, 5, 2⟩ ∧
      read? ['.'] = none ∧ read? ['1', 'e'] = none := by
  decide

end Decimal

end PropertyCascade
