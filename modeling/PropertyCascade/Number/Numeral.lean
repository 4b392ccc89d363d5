import PropertyCascade.Text.Basic

/-!
# Numerals

Decimal numerals with ASCII digits: their value, the canonical numeral of a number, and the
reading of signed numerals. A numeral that is read may have leading zeros and either sign; a
canonical numeral has neither leading zeros nor a plus sign.
-/

namespace PropertyCascade

namespace Numeral

/-- A digit is one of the ten ASCII digits. -/
def isDigit (c : Char) : Bool :=
  '0' ≤ c && c ≤ '9'

/-- The value of a digit. -/
def digitValue (c : Char) : Nat :=
  c.toNat - 48

/-- The number that a sequence of digits denotes. -/
def value (digits : Text) : Nat :=
  digits.foldl (fun number digit => 10 * number + digitValue digit) 0

/-- The canonical numeral of a natural number. -/
def ofNat (number : Nat) : Text :=
  Nat.toDigits 10 number

/-- The canonical numeral of an integer. -/
def ofInt (number : Int) : Text :=
  if number < 0 then '-' :: ofNat number.natAbs else ofNat number.natAbs

/-- Whether a text starts with a minus sign, and what follows its sign, if it has one. -/
def takeSign : Text → Bool × Text
  | '-' :: rest => (true, rest)
  | '+' :: rest => (false, rest)
  | text => (false, text)

/-- A sequence of digits denotes a number if it has at least one. -/
def nat? (text : Text) : Option Nat :=
  if text ≠ [] ∧ text.all isDigit then some (value text) else none

/-- The integer that a numeral with an optional sign denotes. -/
def int? (text : Text) : Option Int :=
  let (negative, digits) := takeSign text
  (nat? digits).map fun number => if negative then -(number : Int) else number

/-- The least integer of 64 bits. -/
def least : Int := -Int.pow 2 63

/-- The greatest integer of 64 bits. -/
def greatest : Int := Int.pow 2 63 - 1

/-- An integer as a word of 64 bits, if it fits. -/
def word? (number : Int) : Option Int64 :=
  if least ≤ number ∧ number ≤ greatest then some (Int64.ofInt number) else none

/-- The word of 64 bits that a numeral with an optional sign denotes. -/
def int64? (text : Text) : Option Int64 :=
  (int? text).bind word?

end Numeral

end PropertyCascade
