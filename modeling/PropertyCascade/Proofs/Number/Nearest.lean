import PropertyCascade.Proofs.Number.Shortest

/-!
# Nearest numbers

Every value has a number around which it lies, unless it reaches half of a unit above the greatest
number. So a decimal is rounded to a number exactly if that number covers its value and has its
sign, and it is rounded to some number exactly if its value is below `2 ^ 1024 - 2 ^ 970`.

The number is found as the rounding finds it: at the exponent of the value, with the nearest integer
as its significand, which may carry over to the next power of two. What is to be shown is that the
interval around the number reaches to the value on the side of the number on which it lies. Below a
power of two the interval is half as wide, but there the value is known to be close to it.
-/

namespace PropertyCascade

namespace Binary64

/-! ## Rounding to an integer -/

theorem roundHalfEven_bounds (top : Nat) {bottom : Nat} (positive : 0 < bottom) :
    2 * (bottom * roundHalfEven top bottom) ≤ 2 * top + bottom ∧
      2 * top ≤ 2 * (bottom * roundHalfEven top bottom) + bottom ∧
      (2 * (bottom * roundHalfEven top bottom) = 2 * top + bottom ∨
          2 * top = 2 * (bottom * roundHalfEven top bottom) + bottom →
        roundHalfEven top bottom % 2 = 0) := by
  have whole := Nat.div_add_mod top bottom
  have small := Nat.mod_lt top positive
  have even : top / bottom % 2 = 0 ∨ top / bottom % 2 = 1 := by omega
  rw [roundHalfEven]
  split_ifs with less greater
  · omega
  · rw [Nat.mul_succ]
    omega
  · rcases even with even | odd
    · rw [even, Nat.add_zero]
      omega
    · rw [odd, Nat.mul_succ]
      omega

theorem isRounded_roundHalfEven {top bottom : Nat} (positive : 0 < bottom) :
    IsRounded (top / bottom) (roundHalfEven top bottom) := by
  rcases roundHalfEven_bounds top positive with ⟨low, high, even⟩
  have bottomCast : (0 : ℚ) < bottom := by exact_mod_cast positive
  have distance : (top / bottom : ℚ) - roundHalfEven top bottom =
      (top - bottom * roundHalfEven top bottom) / bottom := by
    field_simp
  have low : (2 * (bottom * roundHalfEven top bottom) : ℚ) ≤ 2 * top + bottom := by
    exact_mod_cast low
  have high : (2 * top : ℚ) ≤ 2 * (bottom * roundHalfEven top bottom) + bottom := by
    exact_mod_cast high
  constructor
  · rw [distance, abs_le, le_div_iff₀ bottomCast, div_le_iff₀ bottomCast]
    constructor <;> linarith
  · intro tie
    apply even
    rw [distance, abs_div, abs_of_pos bottomCast, div_eq_iff bottomCast.ne'] at tie
    rcases abs_cases (top - bottom * roundHalfEven top bottom : ℚ) with ⟨same, -⟩ | ⟨same, -⟩
    · right
      have : (2 * top : ℚ) = 2 * (bottom * roundHalfEven top bottom) + bottom := by linarith
      exact_mod_cast this
    · left
      have : (2 * (bottom * roundHalfEven top bottom) : ℚ) = 2 * top + bottom := by linarith
      exact_mod_cast this

/-- A positive value has an exponent, and at this exponent a nearest integer. -/
theorem exists_isRounded {value : ℚ} (positive : 0 < value) :
    ∃ exponent significand, IsExponent value exponent ∧
      IsRounded (value * 2 ^ (-exponent)) significand := by
  have numeratorPositive : 0 < value.num.toNat := by
    have := Rat.num_pos.mpr positive
    omega
  have numerator : ((value.num.toNat : Nat) : ℚ) = value.num := by
    exact_mod_cast Int.toNat_of_nonneg (Rat.num_pos.mpr positive).le
  have isQuotient : (value.num.toNat / value.den : ℚ) = value := by
    rw [numerator, Rat.num_div_den]
  have isExponent := isExponent_exponentOf numeratorPositive value.den_pos
  set parts := scaled value.num.toNat value.den (-exponentOf value.num.toNat value.den) with partsEq
  have isRounded : IsRounded (parts.1 / parts.2) (roundHalfEven parts.1 parts.2) :=
    isRounded_roundHalfEven (scaled_denominator_pos value.den_pos _)
  rw [partsEq, div_scaled, isQuotient] at isRounded
  rw [isQuotient] at isExponent
  exact ⟨_, _, isExponent, isRounded⟩

/-! ## The number around a value -/

section Number

variable {value : ℚ} {exponent : Int} {significand : Nat}

/-- The distance of a value from its nearest integer, in quarters of a unit. -/
theorem IsRounded.bounds (isRounded : IsRounded (value * 2 ^ (-exponent)) significand) :
    (4 * significand - 2 : ℚ) * 2 ^ (exponent - 2) ≤ value ∧
      value ≤ (4 * significand + 2) * 2 ^ (exponent - 2) ∧
      (significand % 2 ≠ 0 → (4 * significand - 2 : ℚ) * 2 ^ (exponent - 2) < value ∧
        value < (4 * significand + 2) * 2 ^ (exponent - 2)) := by
  have unitPos : (0 : ℚ) < 2 ^ (exponent - 2) := by positivity
  have whole : value = value * 2 ^ (-exponent) * (4 * 2 ^ (exponent - 2)) := by
    rw [show (4 : ℚ) = 2 ^ (2 : Int) by norm_num, ← zpow_add₀ (by norm_num), mul_assoc,
      ← zpow_add₀ (by norm_num), show -exponent + (2 + (exponent - 2)) = 0 by ring, zpow_zero,
      mul_one]
  rcases abs_le.mp isRounded.near with ⟨low, high⟩
  generalize value * 2 ^ (-exponent) = scaledValue at *
  rw [whole]
  refine ⟨by nlinarith, by nlinarith, fun odd => ?_⟩
  have noTie : |scaledValue - significand| < 1 / 2 :=
    lt_of_le_of_ne isRounded.near fun tie => odd (isRounded.even_of_tie tie)
  rcases abs_lt.mp noTie with ⟨lowLt, ltHigh⟩
  exact ⟨by nlinarith, by nlinarith⟩

theorem IsRounded.le_pow (isRounded : IsRounded (value * 2 ^ (-exponent)) significand)
    (isExponent : IsExponent value exponent) : significand ≤ Nat.pow 2 53 := by
  have below : value * 2 ^ (-exponent) < 2 ^ 53 := by
    have power : (2 : ℚ) ^ (exponent + 53) = 2 ^ 53 * 2 ^ exponent := by
      rw [zpow_add₀ (by norm_num), mul_comm]
      rfl
    have less := isExponent.lt
    rw [power] at less
    rwa [zpow_neg, ← div_eq_mul_inv, div_lt_iff₀ (by positivity)]
  have near := (abs_le.mp isRounded.near).1
  have : (significand : ℚ) < 2 ^ 53 + 1 := by linarith
  have : significand < 2 ^ 53 + 1 := by exact_mod_cast this
  exact Nat.lt_succ_iff.mp this

theorem IsRounded.pow_le (isRounded : IsRounded (value * 2 ^ (-exponent)) significand)
    (normal : 2 ^ (exponent + 52) ≤ value) : Nat.pow 2 52 ≤ significand := by
  have above : 2 ^ 52 ≤ value * 2 ^ (-exponent) := by
    have power : (2 : ℚ) ^ (exponent + 52) = 2 ^ 52 * 2 ^ exponent := by
      rw [zpow_add₀ (by norm_num), mul_comm]
      rfl
    rw [power] at normal
    rwa [zpow_neg, ← div_eq_mul_inv, le_div_iff₀ (by positivity)]
  have near := (abs_le.mp isRounded.near).2
  have : (2 ^ 52 : ℚ) < significand + 1 := by linarith
  have : 2 ^ 52 < significand + 1 := by exact_mod_cast this
  exact Nat.lt_succ_iff.mp this

variable {number : Binary64}

/-- A number covers the values that are nearest to its significand, down to its power of two. -/
theorem covers_of_isRounded
    (isRounded : IsRounded (value * 2 ^ (-number.exponent)) number.significand)
    (nonneg : 0 ≤ value)
    (normal : 2 ^ (number.exponent + 52) ≤ value ∨ number.exponent = -1074) :
    number.Covers value := by
  have quarterPos := number.quarter_pos
  rcases isRounded.bounds with ⟨low, high, isInside⟩
  change _ * number.quarter ≤ _ at low
  change _ ≤ _ * number.quarter at high
  change _ → _ * number.quarter < _ ∧ _ < _ * number.quarter at isInside
  rw [← high_neighbourhood] at high isInside
  by_cases narrow : number.significand = Nat.pow 2 52 ∧ -1074 < number.exponent
  case pos =>
    have lowEq : (number.neighbourhood.low : ℚ) = 2 ^ 54 - 1 := by
      simp [neighbourhood, narrow]
      norm_num
    have isClosed : number.neighbourhood.closed = true := by simp [neighbourhood, narrow.1]
    have above := normal.resolve_right (by omega)
    rw [show (2 : ℚ) ^ (number.exponent + 52) = 2 ^ 54 * number.quarter from
      pow_eq_mul_quarter 54 (by omega)] at above
    refine ⟨?_, high, fun isOpen => ?_⟩
    · rw [lowEq]
      nlinarith
    · rw [isClosed] at isOpen
      cases isOpen
  case neg =>
    have lowEq : number.neighbourhood.low = 4 * number.significand - 2 := by
      simp [neighbourhood, narrow]
    by_cases isZero : number.significand = 0
    case pos =>
      have lowZero : number.neighbourhood.low = 0 := by rw [lowEq, isZero]
      refine ⟨by simpa [lowZero] using nonneg, high, fun isOpen => ?_⟩
      simp [neighbourhood, isZero] at isOpen
    case neg =>
      have lowCast : (number.neighbourhood.low : ℚ) = 4 * number.significand - 2 := by
        rw [lowEq, Nat.cast_sub (by omega)]
        norm_num
      rw [← lowCast] at low isInside
      refine ⟨low, high, fun isOpen => isInside ?_⟩
      simpa [neighbourhood] using isOpen

/-- Zero covers all values up to half of the least number. -/
theorem covers_of_le_least {negative : Bool} (nonneg : 0 ≤ value)
    (small : value ≤ 2 ^ (-1076 : Int)) : (zero negative).Covers value := by
  have quarterEq : (zero negative).quarter = 2 ^ (-1076 : Int) := rfl
  have low : (zero negative).neighbourhood.low = 0 := rfl
  have high : (zero negative).neighbourhood.high = 2 := rfl
  refine ⟨by simpa [low] using nonneg, ?_, fun isOpen => by cases isOpen⟩
  have leastPos : (0 : ℚ) < 2 ^ (-1076 : Int) := by positivity
  rw [high, quarterEq]
  generalize (2 ^ (-1076 : Int) : ℚ) = least at small leastPos ⊢
  push_cast
  linarith

/-- A power of two covers the values just below it. -/
theorem covers_of_carry (significandEq : number.significand = Nat.pow 2 52)
    (notLeast : -1074 < number.exponent)
    (isRounded : IsRounded (value * 2 ^ (-(number.exponent - 1))) (Nat.pow 2 53))
    (below : value < 2 ^ (number.exponent + 52)) : number.Covers value := by
  have quarterPos := number.quarter_pos
  have lowEq : (number.neighbourhood.low : ℚ) = 2 ^ 54 - 1 := by
    simp [neighbourhood, significandEq, notLeast]
    norm_num
  have highEq : (number.neighbourhood.high : ℚ) = 2 ^ 54 + 2 := by
    rw [high_neighbourhood, significandEq]
    norm_num
  have isClosed : number.neighbourhood.closed = true := by simp [neighbourhood, significandEq]
  have low := isRounded.bounds.1
  have half : (2 : ℚ) ^ (number.exponent - 1 - 2) = number.quarter / 2 := by
    rw [quarter, show number.exponent - 1 - 2 = number.exponent - 2 - 1 by ring,
      zpow_sub_one₀ (by norm_num), div_eq_mul_inv]
  rw [half] at low
  rw [show (2 : ℚ) ^ (number.exponent + 52) = 2 ^ 54 * number.quarter from
    pow_eq_mul_quarter 54 (by omega)] at below
  refine ⟨?_, ?_, fun isOpen => ?_⟩
  · rw [lowEq]
    norm_num at low ⊢
    linarith
  · rw [highEq]
    nlinarith
  · rw [isClosed] at isOpen
    cases isOpen

/-- Half of a unit above the greatest number. -/
theorem bound_eq : (2 ^ 1024 - 2 ^ 970 : ℚ) = (2 ^ 55 - 2) * 2 ^ 969 := by
  have power : (2 ^ 1024 : ℚ) = 2 ^ 55 * 2 ^ 969 := by rw [← pow_add]
  have double : (2 ^ 970 : ℚ) = 2 * 2 ^ 969 := by rw [← pow_succ']
  rw [power, double, sub_mul]

/-- A value that a number covers is less than half of a unit above the greatest number. -/
theorem Covers.lt_bound (covers : number.Covers value) : value < 2 ^ 1024 - 2 ^ 970 := by
  have quarterLe : number.quarter ≤ 2 ^ 969 := by
    rw [quarter, ← zpow_natCast]
    exact zpow_le_zpow_right₀ (by norm_num) (by have := number.exponent_bounds.2; omega)
  have quarterPos := number.quarter_pos
  have less : number.significand + 1 ≤ Nat.pow 2 53 := number.significand_lt
  rw [bound_eq]
  -- The power is kept from being evaluated.
  generalize (2 ^ 969 : ℚ) = unit at quarterLe ⊢
  rcases Nat.eq_or_lt_of_le less with isGreatest | notGreatest
  · have isOpen : number.neighbourhood.closed = false := by
      have : number.significand % 2 = 1 := by
        have : Nat.pow 2 53 % 2 = 0 := by decide
        omega
      simp [neighbourhood, this]
    have ltHigh := (covers.inside_of_open isOpen).2
    have highEq : (number.neighbourhood.high : ℚ) = 2 ^ 55 - 2 := by
      have : ((number.significand + 1 : Nat) : ℚ) = (Nat.pow 2 53 : Nat) := by rw [isGreatest]
      rw [high_neighbourhood]
      norm_num at this ⊢
      linarith
    rw [highEq] at ltHigh
    calc
      value < (2 ^ 55 - 2) * number.quarter := ltHigh
      _ ≤ (2 ^ 55 - 2) * unit := by gcongr
  · have leHigh := covers.le_high
    have highLt : (number.neighbourhood.high : ℚ) ≤ 2 ^ 55 - 6 := by
      have : ((number.significand + 2 : Nat) : ℚ) ≤ (Nat.pow 2 53 : Nat) := by
        exact_mod_cast notGreatest
      rw [high_neighbourhood]
      norm_num at this ⊢
      linarith
    calc
      value ≤ number.neighbourhood.high * number.quarter := leHigh
      _ ≤ (2 ^ 55 - 6) * number.quarter := by gcongr
      _ ≤ (2 ^ 55 - 6) * unit := by gcongr
      _ < (2 ^ 55 - 2) * unit := by
          have : 0 < unit := quarterPos.trans_le quarterLe
          gcongr
          norm_num

/-- A value below half of a unit above the greatest number has an exponent of the format, also if
its significand carries over. -/
theorem exponent_le_of_lt_bound (isExponent : IsExponent value exponent)
    (isRounded : IsRounded (value * 2 ^ (-exponent)) significand)
    (small : value < 2 ^ 1024 - 2 ^ 970) :
    exponent ≤ 971 ∧ (significand = Nat.pow 2 53 → exponent + 1 ≤ 971) := by
  constructor
  · by_contra great
    have normal := isExponent.le_or_least.resolve_right (by omega)
    have power : (2 : ℚ) ^ ((1024 : Nat) : Int) ≤ 2 ^ (exponent + 52) :=
      zpow_le_zpow_right₀ (by norm_num) (by omega)
    rw [zpow_natCast] at power
    have below : value < 2 ^ 1024 := small.trans (sub_lt_self _ (by positivity))
    exact absurd (power.trans normal) (not_le.mpr below)
  · rintro rfl
    by_contra great
    have power : (2 : ℚ) ^ ((969 : Nat) : Int) ≤ 2 ^ (exponent - 2) :=
      zpow_le_zpow_right₀ (by norm_num) (by omega)
    rw [zpow_natCast] at power
    have low := isRounded.bounds.1
    have significandEq : (4 * (Nat.pow 2 53 : Nat) - 2 : ℚ) = 2 ^ 55 - 2 := by norm_num
    rw [significandEq] at low
    rw [bound_eq] at small
    generalize (2 ^ 969 : ℚ) = unit at power small
    have : (2 ^ 55 - 2) * unit ≤ (2 ^ 55 - 2) * 2 ^ (exponent - 2) := by gcongr
    exact absurd (this.trans low) (not_le.mpr small)

end Number

/-! ## Fractions -/

section Fraction

variable {negative : Bool} {numerator denominator : Nat} {number : Binary64}

theorem parts_of_ofParts? {significand : Nat} {exponent : Int}
    (found : ofParts? negative significand exponent = some number) :
    number.negative = negative ∧ number.significand = significand ∧ number.exponent = exponent := by
  rw [ofParts?] at found
  split at found
  case isTrue =>
    cases found
    exact ⟨rfl, rfl, rfl⟩
  case isFalse => cases found

variable (positive : 0 < numerator) (denominatorPositive : 0 < denominator)

include positive denominatorPositive

theorem covers_of_ofFraction? (found : ofFraction? negative numerator denominator = some number) :
    number.negative = negative ∧ number.Covers (numerator / denominator) := by
  have valuePos : (0 : ℚ) < numerator / denominator := by positivity
  rcases exists_isRounded valuePos with ⟨exponent, significand, isExponent, isRounded⟩
  rw [ofFraction?_eq negative positive denominatorPositive isExponent isRounded] at found
  split at found
  case isTrue carries =>
    subst carries
    rcases parts_of_ofParts? found with ⟨sign, significandEq, exponentEq⟩
    refine ⟨sign, covers_of_carry significandEq ?_ ?_ ?_⟩
    · have := isExponent.least_le
      omega
    · rwa [exponentEq, Int.add_sub_cancel]
    · rw [exponentEq, show exponent + 1 + 52 = exponent + 53 by ring]
      exact isExponent.lt
  case isFalse =>
    rcases parts_of_ofParts? found with ⟨sign, rfl, rfl⟩
    exact ⟨sign, covers_of_isRounded isRounded valuePos.le isExponent.le_or_least⟩

theorem exists_ofFraction? (negative : Bool)
    (small : (numerator / denominator : ℚ) < 2 ^ 1024 - 2 ^ 970) :
    ∃ number, ofFraction? negative numerator denominator = some number := by
  have valuePos : (0 : ℚ) < numerator / denominator := by positivity
  rcases exists_isRounded valuePos with ⟨exponent, significand, isExponent, isRounded⟩
  rcases exponent_le_of_lt_bound isExponent isRounded small with ⟨exponentLe, carryLe⟩
  have least := isExponent.least_le
  rw [ofFraction?_eq negative positive denominatorPositive isExponent isRounded]
  split
  case isTrue carries =>
    have bounds : -1074 ≤ exponent + 1 ∧ exponent + 1 ≤ 971 := ⟨by omega, carryLe carries⟩
    exact ⟨_, dif_pos ⟨by decide, bounds, Or.inl le_rfl⟩⟩
  case isFalse noCarry =>
    have less := Nat.lt_of_le_of_ne (isRounded.le_pow isExponent) noCarry
    exact ⟨_, dif_pos ⟨less, ⟨least, exponentLe⟩,
      isExponent.le_or_least.imp_left isRounded.pow_le⟩⟩

end Fraction

/-! ## Decimals -/

/-- How a decimal is rounded: far below the least number to zero, far above the greatest not at all,
and otherwise as a fraction. -/
inductive IsRoundedBy (decimal : Decimal) : Option Binary64 → Prop where
  | zero (small : decimal.magnitude ≤ 2 ^ (-1076 : Int)) :
      IsRoundedBy decimal (some (zero decimal.negative))
  | overflow (great : 2 ^ 1024 ≤ decimal.magnitude) : IsRoundedBy decimal none
  | fraction {numerator denominator : Nat} (positive : 0 < numerator)
      (denominatorPositive : 0 < denominator)
      (isQuotient : decimal.magnitude = numerator / denominator) :
      IsRoundedBy decimal (ofFraction? decimal.negative numerator denominator)

theorem isRoundedBy_ofDecimal? (decimal : Decimal) : IsRoundedBy decimal (ofDecimal? decimal) := by
  simp only [ofDecimal?]
  split_ifs with small farAbove whole
  · apply IsRoundedBy.zero
    rcases small with isZero | farBelow
    · rw [Decimal.magnitude, isZero, Nat.cast_zero, zero_mul]
      positivity
    · have power : (10 : ℚ) ^ decimal.point ≤ 10 ^ (-331 : Int) :=
        zpow_le_zpow_right₀ (by norm_num) (by change decimal.point < _ at farBelow; omega)
      exact decimal.magnitude_lt.le.trans (power.trans ten_pow_le_two_pow)
  · apply IsRoundedBy.overflow
    have power : (10 : ℚ) ^ (330 : Int) ≤ 10 ^ (decimal.point - 1) :=
      zpow_le_zpow_right₀ (by norm_num) (by change _ < decimal.point at farAbove; omega)
    exact two_pow_le_ten_pow.trans (power.trans (Decimal.le_magnitude (not_or.mp small).1))
  · have positive := Nat.pos_of_ne_zero (not_or.mp small).1
    refine .fraction (Nat.mul_pos positive (Nat.pow_pos (by decide))) (by decide) ?_
    simp [Decimal.magnitude, pow_toNat 10 whole]
  · have positive := Nat.pos_of_ne_zero (not_or.mp small).1
    refine .fraction positive (Nat.pow_pos (by decide)) ?_
    simp [Decimal.magnitude, pow_toNat_neg 10 (not_le.mp whole).le]

/-- A decimal is rounded to the number that has its sign and covers its value. -/
theorem ofDecimal?_eq_some_iff {decimal : Decimal} {number : Binary64} :
    ofDecimal? decimal = some number ↔
      decimal.negative = number.negative ∧ number.Covers decimal.magnitude := by
  constructor
  · intro rounded
    have how := isRoundedBy_ofDecimal? decimal
    rw [rounded] at how
    generalize result : some number = result? at how
    cases how with
    | zero small =>
        cases result
        refine ⟨rfl, covers_of_le_least ?_ small⟩
        rw [Decimal.magnitude]
        positivity
    | overflow => cases result
    | fraction positive denominatorPositive isQuotient =>
        rcases covers_of_ofFraction? positive denominatorPositive result.symm with ⟨sign, covers⟩
        exact ⟨sign.symm, isQuotient ▸ covers⟩
  · rintro ⟨sameSign, covers⟩
    exact ofDecimal?_of_covers sameSign covers

/-- A decimal is rounded to some number if it is below half of a unit above the greatest one. -/
theorem exists_ofDecimal?_iff {decimal : Decimal} :
    (∃ number, ofDecimal? decimal = some number) ↔
      decimal.magnitude < 2 ^ 1024 - 2 ^ 970 := by
  constructor
  · rintro ⟨number, rounded⟩
    exact (ofDecimal?_eq_some_iff.mp rounded).2.lt_bound
  · intro small
    have how := isRoundedBy_ofDecimal? decimal
    generalize ofDecimal? decimal = result? at how ⊢
    cases how with
    | zero => exact ⟨_, rfl⟩
    | overflow great =>
        have below : decimal.magnitude < 2 ^ 1024 := small.trans (sub_lt_self _ (by positivity))
        exact absurd great (not_le.mpr below)
    | fraction positive denominatorPositive isQuotient =>
        rw [isQuotient] at small
        exact exists_ofFraction? positive denominatorPositive _ small

end Binary64

end PropertyCascade
