import PropertyCascade.Toml.Moment
import PropertyCascade.Toml.Node
import PropertyCascade.Toml.Quoted
import PropertyCascade.Value

/-!
# TOML scalars

Values other than strings, arrays and tables are words: booleans, integers, floats, dates and
times. Which of these a word is can be seen from the word alone; only a date may be followed by a
space and a time of day.

Digits may be grouped by single underscores between them. Integers must fit 64 bits. A float that
is greater than every finite number is no value, and one that is less than every finite number is
negative infinity.
-/

namespace PropertyCascade

namespace Toml

namespace Scalar

/-- A character of a word. -/
def isWordChar (c : Char) : Bool :=
  ('A' ≤ c && c ≤ 'Z') || ('a' ≤ c && c ≤ 'z') || Numeral.isDigit c || c == '+' || c == '-' ||
    c == '_' || c == '.' || c == ':'

/-- Whether a text consists of groups of digits with single underscores between them. -/
def isGrouped (isDigit : Char → Bool) (text : Text) : Bool :=
  (text.splitOn '_').all fun group => group != [] && group.all isDigit

/-- A text without underscores. -/
def ungrouped (text : Text) : Text :=
  text.filter (· != '_')

/-- Whether a text is the magnitude of a decimal integer: digits without a leading zero. -/
def isMagnitude (text : Text) : Bool :=
  isGrouped Numeral.isDigit text && (text.head? != some '0' || text.length == 1)

/-- What follows the sign of a word, if it has one. -/
def unsigned (word : Text) : Text :=
  (Numeral.takeSign word).2

/-- The number that digits of a base denote. -/
def valueIn (base : Nat) (digits : Text) : Nat :=
  digits.foldl (fun number digit => base * number + (Quoted.hexValue? digit).getD 0) 0

/-- The integer that a word in a base denotes, given the digits of the base. -/
def based? (base : Nat) (digits : Text) : Option Int64 :=
  let isDigit (c : Char) : Bool :=
    match Quoted.hexValue? c with
    | some value => value < base
    | none => false
  if isGrouped isDigit digits then Numeral.word? (valueIn base (ungrouped digits)) else none

/-- The integer that a word denotes. -/
def integer? (word : Text) : Option Int64 :=
  match word with
  | '0' :: 'x' :: digits => based? 16 digits
  | '0' :: 'o' :: digits => based? 8 digits
  | '0' :: 'b' :: digits => based? 2 digits
  | _ => if isMagnitude (unsigned word) then Numeral.int64? (ungrouped word) else none

/-- The parts of a word before and after the mark of an exponent. -/
def cutExponent (word : Text) : Text × Option Text :=
  match word.span fun c => c != 'e' && c != 'E' with
  | (mantissa, _ :: exponent) => (mantissa, some exponent)
  | (mantissa, []) => (mantissa, none)

/-- Whether a word has the form of a float: an integer, and then a fraction, an exponent or both. -/
def isFloat (word : Text) : Bool :=
  let (mantissa, exponent) := cutExponent word
  let exponentFits := match exponent with
    | some digits => isGrouped Numeral.isDigit (unsigned digits)
    | none => true
  match Text.cutFirst '.' (unsigned mantissa) with
  | some (whole, fraction) =>
      isMagnitude whole && isGrouped Numeral.isDigit fraction && exponentFits
  | none => isMagnitude (unsigned mantissa) && exponent.isSome && exponentFits

/-- The float that a decimal denotes. -/
def ofDecimal (decimal : Decimal) : Option Node :=
  match Binary64.ofDecimal? decimal with
  | some number => some (.float number)
  | none => if decimal.negative then some (.infinity true) else none

/-- The float that a word denotes. -/
def float? (word : Text) : Option Node :=
  if unsigned word = ['i', 'n', 'f'] then some (.infinity (Numeral.takeSign word).1)
  else if unsigned word = ['n', 'a', 'n'] then some .notANumber
  else if isFloat word then (Decimal.read? (ungrouped word)).bind ofDecimal
  else none

/-- The boolean that a word denotes. -/
def boolean? (word : Text) : Option Bool :=
  if word = Value.flagText true then some true
  else if word = Value.flagText false then some false
  else none

/-- The value that a word denotes. -/
def ofWord? (word : Text) : Option Node :=
  match boolean? word with
  | some truth => some (.boolean truth)
  | none =>
      match integer? word with
      | some number => some (.integer number)
      | none =>
          match float? word with
          | some node => some node
          | none => if Moment.isMoment word then some (.moment word) else none

/-- Reads a word. After a date, a space and a time of day belong to it. -/
def read? (text : Text) : Option (Node × Text) :=
  let (word, rest) := text.span isWordChar
  match rest with
  | ' ' :: more =>
      let (second, after) := more.span isWordChar
      if Moment.isDate word && second != [] then
        if Moment.isZonedTime second then some (.moment (word ++ ' ' :: second), after) else none
      else (ofWord? word).map fun node => (node, rest)
  | _ => (ofWord? word).map fun node => (node, rest)

/-- The text of a float: its shortest decimal, with a digit after the point. -/
def writeFloat (number : Binary64) : Text :=
  if number.isIntegral then number.text ++ ['.', '0'] else number.text

/-- A property value as a scalar. -/
def write : Value → Text
  | .flag truth => Value.flagText truth
  | .integer number => Numeral.ofInt number.toInt
  | .number number => writeFloat number
  | .text content => Quoted.write content

end Scalar

end Toml

end PropertyCascade
