import Mathlib.Algebra.Order.Field.Power
import Mathlib.Data.Rat.Floor
import Mathlib.Tactic.FieldSimp
import Mathlib.Tactic.Linarith
import Mathlib.Tactic.NormNum
import Mathlib.Tactic.Positivity
import Mathlib.Tactic.Ring
import PropertyCascade.Number.Shortest
import PropertyCascade.Proofs.Number.Numeral

/-!
# Rounding to binary numbers

The decimals in the interval around a number are rounded to it: `Covers` says that a value lies in
that interval, and `ofDecimal?_of_covers` that a decimal of such a value is rounded to the number.

The rounding of a quotient fixes the exponent first. `exponentOf_eq` says which exponent that is by
the size of the quotient alone, so the bit lengths from which it is computed are not seen again. At
the exponent of the number, the quotient is rounded to its significand. There is one other case: a
quotient just below a power of two is rounded at the exponent below, where its significand carries
over to that power.
-/

namespace PropertyCascade

theorem pow_toNat (base : ℚ) {power : Int} (nonneg : 0 ≤ power) :
    base ^ power.toNat = base ^ power := by
  rw [← zpow_natCast, Int.toNat_of_nonneg nonneg]

theorem pow_toNat_neg (base : ℚ) {power : Int} (nonpos : power ≤ 0) :
    base ^ (-power).toNat = (base ^ power)⁻¹ := by
  rw [pow_toNat base (by omega), zpow_neg]

namespace Decimal

/-- The value of a decimal without its sign. -/
def magnitude (decimal : Decimal) : ℚ :=
  decimal.coefficient * 10 ^ decimal.exponent

/-- The power of ten above a decimal: its first digit stands just below it. -/
def point (decimal : Decimal) : Int :=
  (Numeral.ofNat decimal.coefficient).length + decimal.exponent

theorem magnitude_lt (decimal : Decimal) : decimal.magnitude < 10 ^ decimal.point := by
  have small : (decimal.coefficient : ℚ) < 10 ^ (Numeral.ofNat decimal.coefficient).length := by
    exact_mod_cast Numeral.lt_pow_length_ofNat decimal.coefficient
  rw [magnitude, point, zpow_add₀ (by norm_num), zpow_natCast]
  gcongr

theorem le_magnitude {decimal : Decimal} (nonzero : decimal.coefficient ≠ 0) :
    10 ^ (decimal.point - 1) ≤ decimal.magnitude := by
  have large := Numeral.pow_length_ofNat_le (Nat.pos_of_ne_zero nonzero)
  have large : (10 ^ ((Numeral.ofNat decimal.coefficient).length - 1) : ℚ) ≤
      decimal.coefficient := by
    exact_mod_cast large
  have length : 0 < (Numeral.ofNat decimal.coefficient).length :=
    List.length_pos_of_ne_nil (Numeral.ofNat_ne_nil _)
  have power : decimal.point - 1 =
      ((Numeral.ofNat decimal.coefficient).length - 1 : Nat) + decimal.exponent := by
    rw [point]
    omega
  rw [power, magnitude, zpow_add₀ (by norm_num), zpow_natCast]
  gcongr

end Decimal

namespace Binary64

/-! ## Scaled fractions -/

section Fraction

variable {numerator denominator : Nat}

theorem scaled_denominator_pos (positive : 0 < denominator) (power : Int) :
    0 < (scaled numerator denominator power).2 := by
  rw [scaled]
  split
  · exact positive
  · exact Nat.mul_pos positive (Nat.pow_pos (by decide))

theorem div_scaled (numerator denominator : Nat) (power : Int) :
    ((scaled numerator denominator power).1 : ℚ) / (scaled numerator denominator power).2 =
      numerator / denominator * 2 ^ power := by
  rw [scaled]
  split
  case isTrue nonneg =>
    simp only [Nat.pow_eq, Nat.cast_mul, Nat.cast_pow, Nat.cast_ofNat, pow_toNat 2 nonneg]
    ring
  case isFalse negative =>
    simp only [Nat.pow_eq, Nat.cast_mul, Nat.cast_pow, Nat.cast_ofNat,
      pow_toNat_neg 2 (not_le.mp negative).le]
    field_simp

theorem lt_pow_bitLength (number : Nat) : (number : ℚ) < 2 ^ (bitLength number : Int) := by
  have small : number < 2 ^ bitLength number := by
    rw [bitLength]
    split
    case isTrue zero => simp [zero]
    case isFalse => exact Nat.lt_log2_self
  rw [zpow_natCast]
  exact_mod_cast small

theorem pow_bitLength_le {number : Nat} (positive : 0 < number) :
    (2 : ℚ) ^ ((bitLength number : Int) - 1) ≤ number := by
  have large : 2 ^ number.log2 ≤ number := Nat.log2_self_le (by omega)
  have exponent : (bitLength number : Int) - 1 = (number.log2 : Nat) := by
    rw [bitLength, if_neg (by omega)]
    omega
  rw [exponent, zpow_natCast]
  exact_mod_cast large

/-- Bit lengths tell the size of a fraction up to a factor of four. -/
theorem fraction_bounds (positive : 0 < numerator) (denominatorPositive : 0 < denominator) :
    (2 : ℚ) ^ ((bitLength numerator : Int) - bitLength denominator - 1) ≤
        numerator / denominator ∧
      (numerator / denominator : ℚ) <
        2 ^ ((bitLength numerator : Int) - bitLength denominator + 1) := by
  have denominatorCast : (0 : ℚ) < denominator := by exact_mod_cast denominatorPositive
  constructor
  · rw [le_div_iff₀ denominatorCast]
    calc
      (2 : ℚ) ^ ((bitLength numerator : Int) - bitLength denominator - 1) * denominator
          ≤ 2 ^ ((bitLength numerator : Int) - bitLength denominator - 1) *
              2 ^ (bitLength denominator : Int) := by
            gcongr
            exact (lt_pow_bitLength denominator).le
      _ = 2 ^ ((bitLength numerator : Int) - 1) := by
            rw [← zpow_add₀ (by decide)]
            congr 1
            ring
      _ ≤ numerator := pow_bitLength_le positive
  · rw [div_lt_iff₀ denominatorCast]
    calc
      (numerator : ℚ) < 2 ^ (bitLength numerator : Int) := lt_pow_bitLength numerator
      _ = 2 ^ ((bitLength numerator : Int) - bitLength denominator + 1) *
            2 ^ ((bitLength denominator : Int) - 1) := by
            rw [← zpow_add₀ (by decide)]
            congr 1
            ring
      _ ≤ 2 ^ ((bitLength numerator : Int) - bitLength denominator + 1) * denominator := by
            gcongr
            exact pow_bitLength_le denominatorPositive

/-! ## The exponent -/

/-- The exponent at which a value has a significand of 53 bits, or of fewer at the least one. -/
structure IsExponent (value : ℚ) (exponent : Int) : Prop where
  least_le : -1074 ≤ exponent
  lt : value < 2 ^ (exponent + 53)
  le_or_least : 2 ^ (exponent + 52) ≤ value ∨ exponent = -1074

theorem IsExponent.unique {value : ℚ} {exponent other : Int}
    (isExponent : IsExponent value exponent) (isOther : IsExponent value other) :
    exponent = other := by
  have noLess {low high : Int} (isLow : IsExponent value low) (isHigh : IsExponent value high) :
      high ≤ low := by
    by_contra less
    have normal : 2 ^ (high + 52) ≤ value :=
      isHigh.le_or_least.resolve_right (by have := isLow.least_le; omega)
    have powers : (2 : ℚ) ^ (low + 53) ≤ 2 ^ (high + 52) :=
      zpow_le_zpow_right₀ (by norm_num) (by omega)
    exact absurd (normal.trans_lt isLow.lt) (not_lt.mpr powers)
  exact le_antisymm (noLess isOther isExponent) (noLess isExponent isOther)

theorem div_lt_iff_scaled (positive : 0 < denominator) (power : Int) (bound : Nat) :
    (scaled numerator denominator power).1 / (scaled numerator denominator power).2 < bound ↔
      (numerator / denominator : ℚ) * 2 ^ power < bound := by
  have bottomPositive : 0 < (scaled numerator denominator power).2 :=
    scaled_denominator_pos positive power
  have bottomCast : (0 : ℚ) < (scaled numerator denominator power).2 := by
    exact_mod_cast bottomPositive
  rw [← div_scaled, div_lt_iff₀ bottomCast, Nat.div_lt_iff_lt_mul bottomPositive]
  norm_cast

theorem isExponent_exponentOf (positive : 0 < numerator) (denominatorPositive : 0 < denominator) :
    IsExponent (numerator / denominator) (exponentOf numerator denominator) := by
  rcases fraction_bounds positive denominatorPositive with ⟨large, small⟩
  set guess : Int := max ((bitLength numerator : Int) - bitLength denominator - 52) (-1074)
    with guessEq
  have guessLow : -1074 ≤ guess := le_max_right _ _
  have scaledSmall :
      (numerator / denominator : ℚ) * 2 ^ (-guess) < (Nat.pow 2 52 : Nat) ↔
        (numerator / denominator : ℚ) < 2 ^ (guess + 52) := by
    have power : (2 : ℚ) ^ (guess + 52) = 2 ^ 52 * 2 ^ guess := by
      rw [zpow_add₀ (by decide), mul_comm]
      rfl
    rw [zpow_neg, ← div_eq_mul_inv, div_lt_iff₀ (by positivity), power]
    norm_num
  have upper : (numerator / denominator : ℚ) < 2 ^ (guess + 53) :=
    small.trans_le (zpow_le_zpow_right₀ (by norm_num) (by omega))
  have unfolded : exponentOf numerator denominator =
      if (scaled numerator denominator (-guess)).1 / (scaled numerator denominator (-guess)).2 <
        Nat.pow 2 52 then max (guess - 1) (-1074) else guess := rfl
  simp only [unfolded, div_lt_iff_scaled denominatorPositive, scaledSmall]
  split
  case isFalse notLess => exact ⟨guessLow, upper, Or.inl (not_lt.mp notLess)⟩
  case isTrue less =>
    refine ⟨le_max_right _ _, less.trans_le (zpow_le_zpow_right₀ (by norm_num) (by omega)), ?_⟩
    by_cases least : guess - 1 ≤ -1074
    · exact Or.inr (max_eq_right least)
    · rw [max_eq_left (by omega)]
      exact Or.inl ((zpow_le_zpow_right₀ (by norm_num) (by omega)).trans large)

theorem exponentOf_eq (positive : 0 < numerator) (denominatorPositive : 0 < denominator)
    {exponent : Int} (isExponent : IsExponent (numerator / denominator) exponent) :
    exponentOf numerator denominator = exponent :=
  (isExponent_exponentOf positive denominatorPositive).unique isExponent

/-! ## The significand -/

/-- A natural number is the nearest to a value, or the even one of the two nearest. -/
structure IsRounded (value : ℚ) (target : Nat) : Prop where
  near : |value - target| ≤ 1 / 2
  even_of_tie : |value - target| = 1 / 2 → target % 2 = 0

theorem roundHalfEven_eq_of_le {top bottom target : Nat} (positive : 0 < bottom)
    (low : 2 * (bottom * target) ≤ 2 * top + bottom)
    (high : 2 * top ≤ 2 * (bottom * target) + bottom)
    (even : 2 * (bottom * target) = 2 * top + bottom ∨ 2 * top = 2 * (bottom * target) + bottom →
      target % 2 = 0) :
    roundHalfEven top bottom = target := by
  have whole := Nat.div_add_mod top bottom
  have small := Nat.mod_lt top positive
  have notBelow : top / bottom ≤ target := by
    by_contra less
    have := Nat.mul_le_mul_left bottom (Nat.lt_of_not_le less)
    rw [Nat.mul_succ] at this
    omega
  have notAbove : target ≤ top / bottom + 1 := by
    by_contra less
    have := Nat.mul_le_mul_left bottom (Nat.lt_of_not_le less)
    rw [Nat.mul_succ, Nat.mul_succ] at this
    omega
  rw [roundHalfEven]
  rcases Nat.eq_or_lt_of_le notBelow with same | less
  · rw [← same] at high even
    split_ifs <;> omega
  · have next : target = top / bottom + 1 := by omega
    rw [next, Nat.mul_succ] at low even
    split_ifs <;> omega

theorem roundHalfEven_eq {top bottom target : Nat} (positive : 0 < bottom)
    (rounded : IsRounded (top / bottom) target) : roundHalfEven top bottom = target := by
  have bottomCast : (0 : ℚ) < bottom := by exact_mod_cast positive
  have quotient : (top / bottom : ℚ) * bottom = top := div_mul_cancel₀ _ bottomCast.ne'
  rcases abs_le.mp rounded.near with ⟨low, high⟩
  refine roundHalfEven_eq_of_le positive ?_ ?_ fun tie => rounded.even_of_tie ?_
  · have : (2 * (bottom * target) : ℚ) ≤ 2 * top + bottom := by
      nlinarith only [low, quotient, bottomCast]
    exact_mod_cast this
  · have : (2 * top : ℚ) ≤ 2 * (bottom * target) + bottom := by
      nlinarith only [high, quotient, bottomCast]
    exact_mod_cast this
  · have scaledDistance : |(top / bottom : ℚ) - target| * bottom = 1 / 2 * bottom := by
      rw [← abs_of_pos bottomCast, ← abs_mul, sub_mul, abs_of_pos bottomCast, quotient]
      rcases tie with tie | tie
      · have : (2 * (bottom * target) : ℚ) = 2 * top + bottom := by exact_mod_cast tie
        rw [abs_of_neg] <;> linarith
      · have : (2 * top : ℚ) = 2 * (bottom * target) + bottom := by exact_mod_cast tie
        rw [abs_of_pos] <;> linarith
    exact mul_right_cancel₀ bottomCast.ne' scaledDistance

end Fraction

/-! ## The values that are rounded to a number -/

/-- A quarter of the unit in the last place. -/
def quarter (number : Binary64) : ℚ :=
  2 ^ (number.exponent - 2)

/-- The interval around a number covers a value. -/
structure Covers (number : Binary64) (value : ℚ) : Prop where
  low_le : number.neighbourhood.low * number.quarter ≤ value
  le_high : value ≤ number.neighbourhood.high * number.quarter
  inside_of_open : number.neighbourhood.closed = false →
    number.neighbourhood.low * number.quarter < value ∧
      value < number.neighbourhood.high * number.quarter

variable {number : Binary64} {value : ℚ}

theorem quarter_pos (number : Binary64) : 0 < number.quarter := by
  rw [quarter]
  positivity

theorem pow_eq_mul_quarter {power : Int} (shift : Nat)
    (above : power = shift + (number.exponent - 2)) :
    (2 : ℚ) ^ power = 2 ^ shift * number.quarter := by
  rw [above, quarter, zpow_add₀ (by decide), zpow_natCast]

theorem le_low_neighbourhood (number : Binary64) :
    (4 * number.significand : ℚ) ≤ number.neighbourhood.low + 2 := by
  have : 4 * number.significand ≤ number.neighbourhood.low + 2 := by
    simp only [neighbourhood]
    split <;> omega
  exact_mod_cast this

theorem high_neighbourhood (number : Binary64) :
    (number.neighbourhood.high : ℚ) = 4 * number.significand + 2 := by
  simp [neighbourhood]

theorem Covers.isRounded (covers : number.Covers value) :
    IsRounded (value * 2 ^ (-number.exponent)) number.significand := by
  have quarterPos := number.quarter_pos
  have unit : (2 : ℚ) ^ (-number.exponent) = 1 / (4 * number.quarter) := by
    have : (2 : ℚ) ^ number.exponent = 2 ^ 2 * number.quarter := pow_eq_mul_quarter 2 (by omega)
    rw [zpow_neg, this, one_div]
    norm_num
  have low := number.le_low_neighbourhood
  have distance : value * 2 ^ (-number.exponent) - number.significand =
      (value - 4 * number.significand * number.quarter) / (4 * number.quarter) := by
    rw [unit]
    field_simp
  have lowLe := covers.low_le
  have leHigh := covers.le_high
  rw [high_neighbourhood] at leHigh
  constructor
  · rw [distance, abs_le, le_div_iff₀ (by positivity), div_le_iff₀ (by positivity)]
    constructor <;> nlinarith
  · intro tie
    by_contra odd
    have isOpen : number.neighbourhood.closed = false := by simpa [neighbourhood] using odd
    rcases covers.inside_of_open isOpen with ⟨lowLt, ltHigh⟩
    rw [high_neighbourhood] at ltHigh
    refine tie.not_lt ?_
    rw [distance, abs_lt, lt_div_iff₀ (by positivity), div_lt_iff₀ (by positivity)]
    constructor <;> nlinarith

theorem Covers.lt_pow (covers : number.Covers value) : value < 2 ^ (number.exponent + 53) := by
  have power : (2 : ℚ) ^ (number.exponent + 53) = 2 ^ 55 * number.quarter :=
    pow_eq_mul_quarter 55 (by omega)
  have significandLt : (number.significand : ℚ) ≤ 2 ^ 53 - 1 := by
    have := number.significand_lt
    have : number.significand + 1 ≤ 2 ^ 53 := this
    have : (number.significand : ℚ) + 1 ≤ 2 ^ 53 := by exact_mod_cast this
    linarith
  have leHigh := covers.le_high
  rw [high_neighbourhood] at leHigh
  rw [power]
  nlinarith [number.quarter_pos]

theorem Covers.isExponent (covers : number.Covers value)
    (normal : 2 ^ (number.exponent + 52) ≤ value ∨ number.exponent = -1074) :
    IsExponent value number.exponent :=
  ⟨number.exponent_bounds.1, covers.lt_pow, normal⟩

/-! Below the power of two of a number lie only values that a power of two covers, and these are
closer to it than to any number with the exponent below. -/

section Below

variable (covers : number.Covers value) (less : value < 2 ^ (number.exponent + 52))
  (notLeast : number.exponent ≠ -1074)

include covers less notLeast

theorem Covers.significand_of_lt_pow : number.significand = Nat.pow 2 52 := by
  have power : (2 : ℚ) ^ (number.exponent + 52) = 2 ^ 54 * number.quarter :=
    pow_eq_mul_quarter 54 (by omega)
  have normal : 2 ^ 52 ≤ number.significand := number.normal_or_least.resolve_right notLeast
  by_contra different
  have greater : 2 ^ 52 + 1 ≤ number.significand := Nat.lt_of_le_of_ne normal (Ne.symm different)
  have greater : (2 ^ 52 + 1 : ℚ) ≤ number.significand := by exact_mod_cast greater
  have low := number.le_low_neighbourhood
  have lowLe := covers.low_le
  have quarterPos := number.quarter_pos
  rw [power] at less
  nlinarith

theorem Covers.le_of_lt_pow : (2 ^ 54 - 1) * number.quarter ≤ value := by
  have significand := covers.significand_of_lt_pow less notLeast
  have above : -1074 < number.exponent := lt_of_le_of_ne number.exponent_bounds.1 notLeast.symm
  have low : (number.neighbourhood.low : ℚ) = 2 ^ 54 - 1 := by
    simp [neighbourhood, significand, above]
    norm_num
  rw [← low]
  exact covers.low_le

theorem Covers.isExponent_below : IsExponent value (number.exponent - 1) := by
  have least := number.exponent_bounds.1
  have power : (2 : ℚ) ^ (number.exponent - 1 + 52) = 2 ^ 53 * number.quarter :=
    pow_eq_mul_quarter 53 (by omega)
  refine ⟨by omega, ?_, Or.inl ?_⟩
  · rw [show number.exponent - 1 + 53 = number.exponent + 52 by ring]
    exact less
  · rw [power]
    nlinarith [covers.le_of_lt_pow less notLeast, number.quarter_pos]

theorem Covers.isRounded_below :
    IsRounded (value * 2 ^ (-(number.exponent - 1))) (Nat.pow 2 53) := by
  have quarterPos := number.quarter_pos
  have power : (2 : ℚ) ^ (number.exponent + 52) = 2 ^ 54 * number.quarter :=
    pow_eq_mul_quarter 54 (by omega)
  have unit : (2 : ℚ) ^ (-(number.exponent - 1)) = 1 / (2 * number.quarter) := by
    have : (2 : ℚ) ^ (number.exponent - 1) = 2 ^ 1 * number.quarter :=
      pow_eq_mul_quarter 1 (by omega)
    rw [zpow_neg, this, one_div, pow_one]
  have distance : value * 2 ^ (-(number.exponent - 1)) - (Nat.pow 2 53 : Nat) =
      (value - 2 ^ 54 * number.quarter) / (2 * number.quarter) := by
    rw [unit]
    field_simp
    norm_num
    ring
  have lowLe := covers.le_of_lt_pow less notLeast
  rw [power] at less
  refine ⟨?_, fun _ => by decide⟩
  rw [distance, abs_le, le_div_iff₀ (by positivity), div_le_iff₀ (by positivity)]
  constructor <;> nlinarith

end Below

/-! ## Rounding -/

theorem ofParts?_self (number : Binary64) :
    ofParts? number.negative number.significand number.exponent = some number := by
  rw [ofParts?, dif_pos ⟨number.significand_lt, number.exponent_bounds, number.normal_or_least⟩]

theorem ofFraction?_eq {numerator denominator : Nat} {exponent : Int} {significand : Nat}
    (negative : Bool) (positive : 0 < numerator) (denominatorPositive : 0 < denominator)
    (isExponent : IsExponent (numerator / denominator) exponent)
    (isRounded : IsRounded (numerator / denominator * 2 ^ (-exponent)) significand) :
    ofFraction? negative numerator denominator =
      if significand = Nat.pow 2 53 then ofParts? negative (Nat.pow 2 52) (exponent + 1)
      else ofParts? negative significand exponent := by
  have rounded : roundHalfEven (scaled numerator denominator (-exponent)).1
      (scaled numerator denominator (-exponent)).2 = significand := by
    refine roundHalfEven_eq (scaled_denominator_pos denominatorPositive _) ?_
    rw [div_scaled]
    exact isRounded
  simp only [ofFraction?, exponentOf_eq positive denominatorPositive isExponent, rounded]

theorem ofFraction?_of_covers {numerator denominator : Nat} (positive : 0 < numerator)
    (denominatorPositive : 0 < denominator)
    (covers : number.Covers (numerator / denominator)) :
    ofFraction? number.negative numerator denominator = some number := by
  by_cases normal : 2 ^ (number.exponent + 52) ≤ (numerator / denominator : ℚ) ∨
      number.exponent = -1074
  case pos =>
    rw [ofFraction?_eq _ positive denominatorPositive (covers.isExponent normal) covers.isRounded,
      if_neg number.significand_lt.ne, ofParts?_self]
  case neg =>
    rcases not_or.mp normal with ⟨less, notLeast⟩
    have below := not_le.mp less
    rw [ofFraction?_eq _ positive denominatorPositive (covers.isExponent_below below notLeast)
      (covers.isRounded_below below notLeast), if_pos rfl, Int.sub_add_cancel,
      ← covers.significand_of_lt_pow below notLeast, ofParts?_self]

theorem eq_zero_of_significand {number : Binary64} (isZero : number.significand = 0) :
    number = zero number.negative := by
  have least : number.exponent = -1074 :=
    number.normal_or_least.resolve_left (by rw [isZero]; decide)
  rcases number with ⟨negative, significand, exponent, _, _, _⟩
  cases isZero
  cases least
  rfl

theorem Covers.lt_of_significand (covers : number.Covers value)
    (nonzero : number.significand ≠ 0) : 2 ^ (-1076 : Int) < value := by
  have low := number.le_low_neighbourhood
  have lowLe := covers.low_le
  have one : (1 : ℚ) ≤ number.significand := by exact_mod_cast Nat.pos_of_ne_zero nonzero
  have least : (2 : ℚ) ^ (-1076 : Int) ≤ number.quarter :=
    zpow_le_zpow_right₀ (by norm_num) (by have := number.exponent_bounds.1; omega)
  have leastPos : (0 : ℚ) < 2 ^ (-1076 : Int) := by positivity
  nlinarith

theorem Covers.lt_greatest (covers : number.Covers value) : value < 2 ^ (1024 : Int) :=
  covers.lt_pow.trans_le
    (zpow_le_zpow_right₀ (by norm_num) (by have := number.exponent_bounds.2; omega))

theorem ten_pow_le_two_pow : (10 : ℚ) ^ (-331 : Int) ≤ 2 ^ (-1076 : Int) := by
  have powers : 2 ^ 1076 ≤ 10 ^ 331 := by decide +kernel
  have powers : (2 ^ 1076 : ℚ) ≤ 10 ^ 331 := by exact_mod_cast powers
  rw [zpow_neg, zpow_neg]
  exact inv_anti₀ (by positivity) powers

theorem two_pow_le_ten_pow : (2 : ℚ) ^ (1024 : Int) ≤ 10 ^ (330 : Int) := by
  have powers : 2 ^ 1024 ≤ 10 ^ 330 := by decide +kernel
  exact_mod_cast powers

theorem Covers.significand_eq_zero {decimal : Decimal} (covers : number.Covers decimal.magnitude)
    (small : decimal.coefficient = 0 ∨ decimal.point < -330) : number.significand = 0 := by
  by_contra nonzero
  have above := covers.lt_of_significand nonzero
  have least : (0 : ℚ) < 2 ^ (-1076 : Int) := by positivity
  rcases small with isZero | farBelow
  · rw [Decimal.magnitude, isZero, Nat.cast_zero, zero_mul] at above
    exact absurd above (not_lt.mpr least.le)
  · have power : (10 : ℚ) ^ decimal.point ≤ 10 ^ (-331 : Int) :=
      zpow_le_zpow_right₀ (by norm_num) (by omega)
    have below := decimal.magnitude_lt.le.trans (power.trans ten_pow_le_two_pow)
    exact absurd above (not_lt.mpr below)

theorem Covers.point_le {decimal : Decimal} (covers : number.Covers decimal.magnitude)
    (nonzero : decimal.coefficient ≠ 0) : decimal.point ≤ 330 := by
  by_contra farAbove
  have power : (10 : ℚ) ^ (330 : Int) ≤ 10 ^ (decimal.point - 1) :=
    zpow_le_zpow_right₀ (by norm_num) (by omega)
  have above := two_pow_le_ten_pow.trans (power.trans (Decimal.le_magnitude nonzero))
  exact absurd covers.lt_greatest (not_lt.mpr above)

/-- The decimals that a number covers are rounded to it. -/
theorem ofDecimal?_of_covers {decimal : Decimal} (sameSign : decimal.negative = number.negative)
    (covers : number.Covers decimal.magnitude) : ofDecimal? decimal = some number := by
  simp only [ofDecimal?, sameSign]
  split_ifs with small farAbove whole
  case pos => rw [← eq_zero_of_significand (covers.significand_eq_zero small)]
  case pos => exact absurd (covers.point_le (not_or.mp small).1) (not_le.mpr farAbove)
  case pos =>
    have positive := Nat.pos_of_ne_zero (not_or.mp small).1
    refine ofFraction?_of_covers (Nat.mul_pos positive (Nat.pow_pos (by decide))) (by decide) ?_
    simpa [Decimal.magnitude, pow_toNat 10 whole] using covers
  case neg =>
    have positive := Nat.pos_of_ne_zero (not_or.mp small).1
    refine ofFraction?_of_covers positive (Nat.pow_pos (by decide)) ?_
    simpa [Decimal.magnitude, pow_toNat_neg 10 (not_le.mp whole).le] using covers

end Binary64

end PropertyCascade
