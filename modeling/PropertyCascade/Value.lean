import PropertyCascade.Number.Shortest

/-!
# Property values

A property value is typed once, when the text on the right of an assignment is read: `true` and
`false` in any case are flags, numerals that fit 64 bits are integers, other decimal literals
that round to a finite number are numbers, and everything else stays a text.
-/

namespace PropertyCascade

/-- A typed property value. -/
inductive Value where
  | flag (truth : Bool)
  | integer (number : Int64)
  | number (number : Binary64)
  | text (content : Text)
  deriving DecidableEq

namespace Value

/-- The finite number that a decimal literal denotes. -/
def number? (raw : Text) : Option Binary64 :=
  (Decimal.read? raw).bind Binary64.ofDecimal?

/-- The value of a text: the first of flag, integer and number that it can be read as, and
otherwise the text itself. -/
def ofText (raw : Text) : Value :=
  if Text.equalsIgnoringCase raw ['t', 'r', 'u', 'e'] then flag true
  else if Text.equalsIgnoringCase raw ['f', 'a', 'l', 's', 'e'] then flag false
  else match Numeral.int64? raw with
    | some n => integer n
    | none => match number? raw with
      | some x => number x
      | none => text raw

/-- The text of a flag. -/
def flagText (truth : Bool) : Text :=
  if truth then ['t', 'r', 'u', 'e'] else ['f', 'a', 'l', 's', 'e']

/-- The text that a value is shown as. -/
def display : Value → Text
  | flag truth => flagText truth
  | integer n => Numeral.ofInt n.toInt
  | number x => x.text
  | text content => content

/-- The truth value of a flag. -/
def flag? : Value → Option Bool
  | flag truth => some truth
  | _ => none

/-- The content of a text. -/
def text? : Value → Option Text
  | text content => some content
  | _ => none

/-- The number of an integer. -/
def integer? : Value → Option Int64
  | integer n => some n
  | _ => none

/-- Values agree if they are of one kind and equal; the two zeros are equal numbers. -/
def agrees : Value → Value → Bool
  | number x, number y => x.sameValue y
  | left, right => left == right

/-- A numeral that does not fit 64 bits is a number, and one with an exponent is shown without. -/
example : (ofText "9223372036854775808".toList).integer? = none ∧
    (ofText "1e2".toList).integer? = none ∧ (ofText "1e2".toList).display = "100".toList := by
  decide +kernel

end Value

end PropertyCascade
