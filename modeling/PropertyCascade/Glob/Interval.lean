import PropertyCascade.Glob.Fault
import PropertyCascade.Glob.NumeralExpr

/-!
# Intervals

Inclusive intervals of integers, written `first..last` in a pattern, and the expression that
denotes exactly the canonical numerals in one: no leading zeros, zero as `0`, negative numbers as
`-` before the numeral of the magnitude.

The expression splits an interval by sign, then by the count of digits, and then bounds numerals
of one length digit by digit, the most significant first. Where a bound's remaining digits are
all zeros below, or all nines above, the bound digit joins the free digits.
-/

namespace PropertyCascade

namespace Glob

namespace Digits

/-- The digits of a number, the most significant first. -/
def ofNat (number : Nat) : List Nat :=
  (Numeral.ofNat number).map Numeral.digitValue

/-- A digit before each of several expressions. -/
def prefixed (digit : Nat) (tails : List NumeralExpr) : List NumeralExpr :=
  tails.map fun tail => .seq (.char (Nat.digitChar digit)) tail

/-- One digit between two, then a number of arbitrary digits. -/
def free (first last width : Nat) : NumeralExpr :=
  .seq (.span first last) (.anyDigits width)

/-- The digit sequences from a bound up to all nines. -/
def atLeast : List Nat → List NumeralExpr
  | [] => [.empty]
  | digit :: rest =>
      if digit = 9 then prefixed digit (atLeast rest)
      else if rest.all (· == 0) then [free digit 9 rest.length]
      else prefixed digit (atLeast rest) ++ [free (digit + 1) 9 rest.length]

/-- The digit sequences from all zeros up to a bound. -/
def atMost : List Nat → List NumeralExpr
  | [] => [.empty]
  | digit :: rest =>
      if digit = 0 then prefixed digit (atMost rest)
      else if rest.all (· == 9) then [free 0 digit rest.length]
      else free 0 (digit - 1) rest.length :: prefixed digit (atMost rest)

/-- The digit sequences between two bounds of equal length. -/
def between : List Nat → List Nat → List NumeralExpr
  | low :: lowRest, high :: highRest =>
      if low = high then prefixed low (between lowRest highRest)
      else
        let lowIsFloor := lowRest.all (· == 0)
        let highIsCeiling := highRest.all (· == 9)
        let first := if lowIsFloor then low else low + 1
        let last := if highIsCeiling then high else high - 1
        (if lowIsFloor then [] else prefixed low (atLeast lowRest)) ++
          (if first ≤ last then [free first last lowRest.length] else []) ++
          (if highIsCeiling then [] else prefixed high (atMost highRest))
  | _, _ => [.empty]

/-- The numerals of the positive numbers between two, by their count of digits. -/
def positive (low high : Nat) : NumeralExpr :=
  let lowDigits := ofNat low
  let highDigits := ofNat high
  let shortest := lowDigits.length
  let longest := highDigits.length
  NumeralExpr.grouped ((List.range' shortest (longest + 1 - shortest)).flatMap fun count =>
    between (if count = shortest then lowDigits else 1 :: List.replicate (count - 1) 0)
      (if count = longest then highDigits else List.replicate count 9))

end Digits

/-- An inclusive interval of integers of 64 bits whose magnitudes fit as well. -/
structure Interval where
  first : Int
  last : Int
  ordered : first ≤ last
  bounded : Numeral.least < first ∧ last ≤ Numeral.greatest
  deriving DecidableEq, Repr

namespace Interval

/-- The interval between two integers, unless they are in the wrong order or out of bounds. -/
def ofBounds? (first last : Int) : Option Interval :=
  if bounds : first ≤ last ∧ (Numeral.least < first ∧ last ≤ Numeral.greatest) then
    some ⟨first, last, bounds.1, bounds.2⟩
  else none

/-- The interval between two words, or the fault that quotes them. -/
def ofWords (first last : Int64) : Except Fault Interval :=
  match ofBounds? first.toInt last.toInt with
  | some interval => .ok interval
  | none => .error (.invalidRange (Numeral.ofInt first.toInt) (Numeral.ofInt last.toInt))

/-- The parts before and after the first two adjacent dots. -/
def cutDots : Text → Option (Text × Text)
  | [] => none
  | c :: rest =>
      match c, rest with
      | '.', '.' :: after => some ([], after)
      | _, _ => (cutDots rest).map fun (before, after) => (c :: before, after)

/-- Reads `first..last`. A text of another form is no interval; one of this form whose bounds do
not make an interval is a fault. -/
def read (text : Text) : Except Fault (Option Interval) :=
  match cutDots text with
  | none => .ok none
  | some (before, after) =>
      match Numeral.int? before, Numeral.int? after with
      | some first, some last =>
          match Numeral.word? first, Numeral.word? last with
          | some firstWord, some lastWord => (ofWords firstWord lastWord).map some
          | _, _ => .error (.invalidRange before after)
      | _, _ => .ok none

/-- Whether an integer lies in the interval. -/
def contains (interval : Interval) (number : Int) : Bool :=
  interval.first ≤ number && number ≤ interval.last

/-- A canonical numeral as an expression. -/
def numeralExpr (numeral : Text) : NumeralExpr :=
  match numeral with
  | [] => .empty
  | [only] => .char only
  | c :: rest => .seq (.char c) (numeralExpr rest)

/-- The numerals of negative numbers, given those of their magnitudes. -/
def negated (magnitudes : NumeralExpr) : NumeralExpr :=
  .seq (.char '-') magnitudes

/-- The expression for the canonical numerals in the interval. -/
def expression (interval : Interval) : NumeralExpr :=
  let first := interval.first
  let last := interval.last
  if first = last then numeralExpr (Numeral.ofInt first)
  else if last < 0 then negated (Digits.positive last.natAbs first.natAbs)
  else if 0 < first then Digits.positive first.natAbs last.natAbs
  else NumeralExpr.grouped
    ([.char '0'] ++
      (if first < 0 then [negated (Digits.positive 1 first.natAbs)] else []) ++
      (if 0 < last then [Digits.positive 1 last.natAbs] else []))

/-- The canonical numerals in the interval. -/
def Denotes (interval : Interval) (text : Text) : Prop :=
  ∃ number : Int, interval.first ≤ number ∧ number ≤ interval.last ∧
    text = Numeral.ofInt number

/-- The numerals from 8 to 12 and from -1 to 0. -/
example :
    (ofBounds? 8 12).map (·.expression.text) = some "(?:[8-9]|1[0-2])".toList ∧
      (ofBounds? (-1) 0).map (·.expression.text) = some "(?:0|-1)".toList := by
  decide

end Interval

end Glob

end PropertyCascade
