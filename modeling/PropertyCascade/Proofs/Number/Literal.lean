import Mathlib.Data.List.TakeWhile
import PropertyCascade.Proofs.Number.Rounding
import PropertyCascade.Proofs.Text.Cut

/-!
# Literals

The grammars of numerals and of decimal literals, each with the number that a text of its form
denotes, and the proof that the readers accept exactly these texts and give these numbers.

A literal is read by cutting it where the digits stop, once before the point and once behind it. So
each part of the grammar is followed by something that does not go on with digits, and the text
after the digits decides whether there is a point and whether there is an exponent.
-/

namespace PropertyCascade

namespace Numeral

/-- The signs that a number may have, and whether they negate it. -/
inductive IsSign : Text → Bool → Prop where
  | none : IsSign [] false
  | plus : IsSign ['+'] false
  | minus : IsSign ['-'] true

/-- One or more digits. -/
def AreDigits (text : Text) : Prop :=
  text ≠ [] ∧ ∀ c ∈ text, isDigit c = true

/-- A number with a sign. -/
def signed (negative : Bool) (number : Nat) : Int :=
  if negative then -(number : Int) else number

theorem natAbs_signed (negative : Bool) (number : Nat) :
    (signed negative number).natAbs = number := by
  rw [signed]
  split <;> omega

/-- A sign, if any, and one or more digits, with the integer that they denote. -/
inductive IsNumeral : Text → Int → Prop where
  | intro {sign digits : Text} {negative : Bool} (isSign : IsSign sign negative)
      (areDigits : AreDigits digits) : IsNumeral (sign ++ digits) (signed negative (value digits))

theorem value_append (front back : Text) :
    value (front ++ back) = value front * 10 ^ back.length + value back := by
  induction front with
  | nil => simp [value]
  | cons c rest ih =>
      rw [List.cons_append, value_cons, value_cons, ih, List.length_append, Nat.pow_add]
      ring

theorem nat?_eq_some_iff {text : Text} {number : Nat} :
    nat? text = some number ↔ AreDigits text ∧ value text = number := by
  rw [nat?, AreDigits, ← List.all_eq_true]
  split
  case isTrue valid => simp [valid]
  case isFalse invalid =>
    constructor
    · intro isRead
      cases isRead
    · exact fun isRead => absurd isRead.1 invalid

theorem int?_of_takeSign {text digits : Text} {negative : Bool}
    (isSign : takeSign text = (negative, digits)) :
    int? text = (nat? digits).map (signed negative) := by
  simp only [int?, isSign]
  cases nat? digits <;> rfl

/-- What stands in front of the digits of a number is a sign or nothing. -/
theorem exists_isSign {text digits : Text} {negative : Bool}
    (isSign : takeSign text = (negative, digits)) :
    ∃ sign, IsSign sign negative ∧ text = sign ++ digits := by
  unfold takeSign at isSign
  split at isSign <;> cases isSign
  · exact ⟨['-'], .minus, rfl⟩
  · exact ⟨['+'], .plus, rfl⟩
  · exact ⟨[], .none, rfl⟩

theorem IsSign.takeSign_append {sign : Text} {negative : Bool} (isSign : IsSign sign negative)
    {text : Text} (noSign : text.head? ≠ some '+' ∧ text.head? ≠ some '-') :
    takeSign (sign ++ text) = (negative, text) := by
  cases isSign with
  | plus => rfl
  | minus => rfl
  | none =>
      rw [List.nil_append]
      unfold takeSign
      split <;> simp_all

theorem AreDigits.head {text : Text} (areDigits : AreDigits text) :
    ∃ c rest, text = c :: rest ∧ isDigit c = true := by
  rcases List.exists_cons_of_ne_nil areDigits.1 with ⟨c, rest, rfl⟩
  exact ⟨c, rest, rfl, areDigits.2 c List.mem_cons_self⟩

theorem AreDigits.noSign {text : Text} (areDigits : AreDigits text) (more : Text) :
    (text ++ more).head? ≠ some '+' ∧ (text ++ more).head? ≠ some '-' := by
  rcases areDigits.head with ⟨c, rest, rfl, digit⟩
  constructor <;> rintro ⟨⟩ <;> revert digit <;> decide

/-- The reader of integers accepts exactly the numerals. -/
theorem int?_eq_some_iff {text : Text} {number : Int} :
    int? text = some number ↔ IsNumeral text number := by
  constructor
  · intro isRead
    rcases signRead : takeSign text with ⟨negative, digits⟩
    rcases exists_isSign signRead with ⟨sign, isSign, rfl⟩
    rw [int?_of_takeSign signRead] at isRead
    rcases Option.map_eq_some_iff.mp isRead with ⟨magnitude, digitsRead, rfl⟩
    rcases nat?_eq_some_iff.mp digitsRead with ⟨areDigits, rfl⟩
    exact .intro isSign areDigits
  · intro isNumeral
    cases isNumeral with
    | @intro sign digits negative isSign areDigits =>
        have noSign := areDigits.noSign []
        rw [List.append_nil] at noSign
        rw [int?_of_takeSign (isSign.takeSign_append noSign),
          nat?_eq_some_iff.mpr ⟨areDigits, rfl⟩, Option.map_some]

theorem IsNumeral.unique {text : Text} {left right : Int} (isNumeral : IsNumeral text left)
    (other : IsNumeral text right) : left = right :=
  Option.some.inj ((int?_eq_some_iff.mpr isNumeral).symm.trans (int?_eq_some_iff.mpr other))

end Numeral

namespace Decimal

open Numeral

/-- Digits with a point behind them, before them, between them or nowhere, with the value that they
denote. -/
inductive IsMagnitude : Text → ℚ → Prop where
  | whole {whole : Text} (areDigits : AreDigits whole) : IsMagnitude whole (value whole)
  | point {whole fraction : Text} (areDigits : AreDigits whole)
      (fractionDigits : ∀ c ∈ fraction, isDigit c = true) :
      IsMagnitude (whole ++ '.' :: fraction)
        (value whole + value fraction / 10 ^ fraction.length)
  | fraction {fraction : Text} (areDigits : AreDigits fraction) :
      IsMagnitude ('.' :: fraction) (value fraction / 10 ^ fraction.length)

/-- The power of ten behind a magnitude: nothing, or a mark and a numeral. -/
inductive IsPower : Text → Int → Prop where
  | none : IsPower [] 0
  | marked {mark : Char} {numeral : Text} {exponent : Int} (isMark : mark = 'e' ∨ mark = 'E')
      (isNumeral : IsNumeral numeral exponent) : IsPower (mark :: numeral) exponent

/-- A sign, a magnitude and a power of ten, with the sign and the value without it. -/
inductive IsLiteral : Text → Bool → ℚ → Prop where
  | intro {sign digits power : Text} {negative : Bool} {magnitude : ℚ} {exponent : Int}
      (isSign : IsSign sign negative) (isMagnitude : IsMagnitude digits magnitude)
      (isPower : IsPower power exponent) :
      IsLiteral (sign ++ digits ++ power) negative (magnitude * 10 ^ exponent)

theorem exists_isLiteral {text : Text} {number : Int} (isNumeral : IsNumeral text number) :
    ∃ negative magnitude, IsLiteral text negative magnitude := by
  cases isNumeral with
  | @intro sign digits negative isSign areDigits =>
      have isLiteral := IsLiteral.intro isSign (.whole areDigits) .none
      rw [List.append_nil] at isLiteral
      exact ⟨_, _, isLiteral⟩

/-! ## The parts of a literal -/

theorem exponent?_eq_some_iff {text : Text} {exponent : Int} :
    exponent? text = some exponent ↔ IsPower text exponent := by
  constructor
  · intro isRead
    unfold exponent? at isRead
    split at isRead
    case h_1 =>
      cases isRead
      exact .none
    case h_2 mark rest =>
      split at isRead
      case isTrue isMark => exact .marked isMark (int?_eq_some_iff.mp isRead)
      case isFalse => cases isRead
  · intro isPower
    cases isPower with
    | none => rfl
    | marked isMark isNumeral => rw [exponent?, if_pos isMark, int?_eq_some_iff.mpr isNumeral]

theorem IsPower.stops {power : Text} {exponent : Int} (isPower : IsPower power exponent) :
    Text.Stops isDigit power ∧ power.head? ≠ some '.' := by
  cases isPower with
  | none => exact ⟨rfl, by simp⟩
  | marked isMark isNumeral => rcases isMark with rfl | rfl <;> exact ⟨by rfl, by simp⟩

/-- How the digits of a literal are cut: those before the point, if there is one, and those behind
it. -/
structure IsCut (text whole fractional rest : Text) : Prop where
  span_eq : ∃ after, text.span isDigit = (whole, after) ∧ fraction after = (fractional, rest)
  nonempty : whole ++ fractional ≠ []

/-- The value of digits, of which some stand behind the point. -/
def scaledValue (whole fractional : Text) : ℚ :=
  value (whole ++ fractional) * 10 ^ (-(fractional.length : Int))

theorem scaledValue_eq (whole fractional : Text) :
    scaledValue whole fractional = value whole + value fractional / 10 ^ fractional.length := by
  rw [scaledValue, value_append, zpow_neg, zpow_natCast]
  push_cast
  field_simp

theorem IsMagnitude.exists_isCut {digits rest : Text} {magnitude : ℚ}
    (isMagnitude : IsMagnitude digits magnitude) (stops : Text.Stops isDigit rest)
    (noPoint : rest.head? ≠ some '.') :
    ∃ whole fractional, IsCut (digits ++ rest) whole fractional rest ∧
      magnitude = scaledValue whole fractional := by
  cases isMagnitude with
  | whole areDigits =>
      refine ⟨digits, [], ⟨⟨rest, Text.span_append areDigits.2 stops, ?_⟩, by simp [areDigits.1]⟩,
        by simp [scaledValue_eq, value]⟩
      unfold Decimal.fraction
      split
      case h_1 => simp at noPoint
      case h_2 => rfl
  | @point whole fractional areDigits fractionDigits =>
      refine ⟨whole, fractional, ⟨⟨'.' :: (fractional ++ rest), ?_, ?_⟩, by simp [areDigits.1]⟩,
        (scaledValue_eq whole fractional).symm⟩
      · rw [List.append_assoc, List.cons_append]
        exact Text.span_append areDigits.2 rfl
      · exact Text.span_append fractionDigits stops
  | @fraction fractional areDigits =>
      refine ⟨[], fractional, ⟨⟨'.' :: (fractional ++ rest), ?_, ?_⟩, by simp [areDigits.1]⟩,
        by simp [scaledValue_eq, value]⟩
      · exact Text.Stops.span_eq rfl
      · exact Text.span_append areDigits.2 stops

theorem IsCut.exists_isMagnitude {text whole fractional rest : Text}
    (isCut : IsCut text whole fractional rest) :
    ∃ digits, text = digits ++ rest ∧ IsMagnitude digits (scaledValue whole fractional) := by
  rcases isCut with ⟨⟨after, cut, cutFraction⟩, nonempty⟩
  rw [List.span_eq_takeWhile_dropWhile] at cut
  rcases Prod.mk.inj cut with ⟨isWhole, isAfter⟩
  have wholeDigits : ∀ c ∈ whole, isDigit c = true := by
    intro c member
    rw [← isWhole] at member
    exact List.mem_takeWhile_imp member
  have textEq : text = whole ++ after := by
    rw [← isWhole, ← isAfter, List.takeWhile_append_dropWhile]
  unfold Decimal.fraction at cutFraction
  split at cutFraction
  case h_1 behind =>
    rw [List.span_eq_takeWhile_dropWhile] at cutFraction
    rcases Prod.mk.inj cutFraction with ⟨isFraction, isRest⟩
    have fractionDigits : ∀ c ∈ fractional, isDigit c = true := by
      intro c member
      rw [← isFraction] at member
      exact List.mem_takeWhile_imp member
    have behindEq : behind = fractional ++ rest := by
      rw [← isFraction, ← isRest, List.takeWhile_append_dropWhile]
    refine ⟨whole ++ '.' :: fractional, by simp [textEq, behindEq], ?_⟩
    rw [scaledValue_eq]
    by_cases empty : whole = []
    case pos =>
      subst empty
      have isMagnitude := IsMagnitude.fraction ⟨by simpa using nonempty, fractionDigits⟩
      simpa [value] using isMagnitude
    case neg => exact .point ⟨empty, wholeDigits⟩ fractionDigits
  case h_2 =>
    rcases Prod.mk.inj cutFraction with ⟨rfl, rfl⟩
    refine ⟨whole, textEq, ?_⟩
    have isMagnitude := IsMagnitude.whole ⟨by simpa using nonempty, wholeDigits⟩
    simpa [scaledValue_eq, value] using isMagnitude

/-! ## Literals -/

theorem IsMagnitude.noSign {digits : Text} {magnitude : ℚ}
    (isMagnitude : IsMagnitude digits magnitude) (more : Text) :
    (digits ++ more).head? ≠ some '+' ∧ (digits ++ more).head? ≠ some '-' := by
  cases isMagnitude with
  | whole areDigits => exact areDigits.noSign more
  | point areDigits =>
      rw [List.append_assoc]
      exact areDigits.noSign _
  | fraction => simp

theorem exists_isCut_of_read? {literal digits : Text} {negative : Bool} {decimal : Decimal}
    (isSign : takeSign literal = (negative, digits)) (isRead : read? literal = some decimal) :
    ∃ whole fractional rest exponent, IsCut digits whole fractional rest ∧
      IsPower rest exponent ∧
      decimal = ⟨negative, value (whole ++ fractional),
        exponent - (fractional.length : Int)⟩ := by
  simp only [read?, isSign] at isRead
  split at isRead
  case isTrue => cases isRead
  case isFalse nonempty =>
    rcases Option.map_eq_some_iff.mp isRead with ⟨exponent, isExponent, rfl⟩
    exact ⟨_, _, _, exponent, ⟨⟨_, rfl, rfl⟩, nonempty⟩, exponent?_eq_some_iff.mp isExponent, rfl⟩

theorem read?_of_isCut {literal digits whole fractional rest : Text} {negative : Bool}
    (isSign : takeSign literal = (negative, digits)) (isCut : IsCut digits whole fractional rest) :
    read? literal = (exponent? rest).map fun exponent =>
      ⟨negative, value (whole ++ fractional), exponent - (fractional.length : Int)⟩ := by
  rcases isCut with ⟨⟨after, cut, cutFraction⟩, nonempty⟩
  simp only [read?, isSign, cut, cutFraction, if_neg nonempty]

theorem magnitude_eq (negative : Bool) (whole fractional : Text) (exponent : Int) :
    (Decimal.mk negative (value (whole ++ fractional))
        (exponent - (fractional.length : Int))).magnitude =
      scaledValue whole fractional * 10 ^ exponent := by
  rw [magnitude, scaledValue, sub_eq_add_neg, add_comm, zpow_add₀ (by norm_num), mul_assoc]

/-- The reader of decimals accepts exactly the literals. -/
theorem exists_read?_iff {literal : Text} {negative : Bool} {magnitude : ℚ} :
    (∃ decimal, read? literal = some decimal ∧ decimal.negative = negative ∧
        decimal.magnitude = magnitude) ↔ IsLiteral literal negative magnitude := by
  constructor
  · rintro ⟨decimal, isRead, rfl, rfl⟩
    rcases signRead : takeSign literal with ⟨negative, unsigned⟩
    rcases exists_isSign signRead with ⟨sign, isSign, rfl⟩
    rcases exists_isCut_of_read? signRead isRead with
      ⟨whole, fractional, rest, exponent, isCut, isPower, rfl⟩
    rcases isCut.exists_isMagnitude with ⟨digits, rfl, isMagnitude⟩
    rw [magnitude_eq, ← List.append_assoc]
    exact .intro isSign isMagnitude isPower
  · intro isLiteral
    cases isLiteral with
    | @intro sign digits power negative magnitude exponent isSign isMagnitude isPower =>
        rcases isPower.stops with ⟨stops, noPoint⟩
        rcases isMagnitude.exists_isCut stops noPoint with ⟨whole, fractional, isCut, rfl⟩
        have signRead := isSign.takeSign_append (isMagnitude.noSign power)
        rw [← List.append_assoc] at signRead
        refine ⟨_, ?_, rfl, magnitude_eq negative whole fractional exponent⟩
        rw [read?_of_isCut signRead isCut, exponent?_eq_some_iff.mpr isPower]
        rfl

end Decimal

end PropertyCascade
