import PropertyCascade.Number.Numeral

/-!
# TOML dates and times

A date is `year-month-day` and a time of day `hour:minute:second`, which a fraction may follow. A
date may be followed by a time of day, and that by an offset from universal time. All parts have
two digits, but the year has four; a day must exist in its month, and a minute may have a leap
second.
-/

namespace PropertyCascade

namespace Toml

namespace Moment

/-- The number that a given count of digits at the start of a text denotes, and what follows. -/
def digits? (count : Nat) (text : Text) : Option (Nat × Text) :=
  let digits := text.take count
  if digits.length = count ∧ digits.all Numeral.isDigit then
    some (Numeral.value digits, text.drop count)
  else none

/-- What follows a given character at the start of a text. -/
def after? (c : Char) : Text → Option Text
  | first :: rest => if first = c then some rest else none
  | [] => none

/-- Whether a year has a 29th of February. -/
def isLeapYear (year : Nat) : Bool :=
  year % 4 == 0 && (year % 100 != 0 || year % 400 == 0)

/-- The number of days in a month. -/
def monthLength (year month : Nat) : Nat :=
  if month = 2 then if isLeapYear year then 29 else 28
  else if month = 4 ∨ month = 6 ∨ month = 9 ∨ month = 11 then 30
  else 31

/-- What follows the date at the start of a text. -/
def afterDate? (text : Text) : Option Text := do
  let (year, rest) ← digits? 4 text
  let (month, rest) ← digits? 2 (← after? '-' rest)
  let (day, rest) ← digits? 2 (← after? '-' rest)
  if 1 ≤ month ∧ month ≤ 12 ∧ 1 ≤ day ∧ day ≤ monthLength year month then some rest else none

/-- What follows the fraction of a second at the start of a text, if there is one. -/
def afterFraction? : Text → Option Text
  | '.' :: c :: rest => if Numeral.isDigit c then some (rest.dropWhile Numeral.isDigit) else none
  | ['.'] => none
  | text => some text

/-- What follows the hour and minute at the start of a text. -/
def afterMinute? (text : Text) : Option Text := do
  let (hour, rest) ← digits? 2 text
  let (minute, rest) ← digits? 2 (← after? ':' rest)
  if hour ≤ 23 ∧ minute ≤ 59 then some rest else none

/-- What follows the time of day at the start of a text. -/
def afterTime? (text : Text) : Option Text := do
  let (second, rest) ← digits? 2 (← after? ':' (← afterMinute? text))
  if second ≤ 60 then afterFraction? rest else none

/-- Whether a text is an offset from universal time, or empty. -/
def isOffset : Text → Bool
  | [] => true
  | ['Z'] => true
  | ['z'] => true
  | '+' :: rest => afterMinute? rest == some []
  | '-' :: rest => afterMinute? rest == some []
  | _ => false

/-- Whether a text is a date. -/
def isDate (text : Text) : Bool :=
  afterDate? text == some []

/-- Whether a text is a time of day with or without an offset. -/
def isZonedTime (text : Text) : Bool :=
  match afterTime? text with
  | some rest => isOffset rest
  | none => false

/-- Whether a text without spaces is a date, a time of day, or both. -/
def isMoment (text : Text) : Bool :=
  afterTime? text == some [] ||
    match afterDate? text with
    | none => false
    | some [] => true
    | some (c :: rest) => (c == 'T' || c == 't') && isZonedTime rest

end Moment

end Toml

end PropertyCascade
