import PropertyCascade.Proofs.Number.Rounding

/-!
# Shortest decimals

The shortest decimal of a number is rounded to that number. Whichever grid point is taken lies in
the interval around the number, and where there is none the decimal that is equal to the number
does; the zeros that are dropped at the end make no difference to the value.
-/

namespace PropertyCascade

namespace Binary64

variable {number : Binary64}

theorem pow_toNat_eq_mul {base : ℚ} (nonzero : base ≠ 0) (power : Int) :
    base ^ power.toNat = base ^ power * base ^ (-power).toNat := by
  rw [← zpow_natCast, ← zpow_natCast, ← zpow_add₀ nonzero]
  congr 1
  omega

/-- Grid steps and quarters of a unit are in the proportion of their factors. -/
theorem commonScale_proportion (number : Binary64) (gridExponent : Int) :
    ((commonScale gridExponent number.exponent).1 : ℚ) * number.quarter =
      10 ^ gridExponent * (commonScale gridExponent number.exponent).2 := by
  have tens := pow_toNat_eq_mul (show (10 : ℚ) ≠ 0 by norm_num) gridExponent
  have twos := pow_toNat_eq_mul (show (2 : ℚ) ≠ 0 by norm_num) (number.exponent - 2)
  have turned : -(number.exponent - 2) = 2 - number.exponent := by ring
  rw [turned] at twos
  simp only [commonScale, quarter, Nat.pow_eq, Nat.cast_mul, Nat.cast_pow, Nat.cast_ofNat]
  rw [tens, twos]
  ring

theorem commonScale_pos (gridExponent exponent : Int) :
    0 < (commonScale gridExponent exponent).2 :=
  Nat.mul_pos (Nat.pow_pos (by decide)) (Nat.pow_pos (by decide))

/-- Whether a grid point lies in an interval, both on a common scale. -/
def Neighbourhood.inside (around : Neighbourhood) (scale : Nat × Nat) (point : Nat) : Bool :=
  if around.closed then
    around.low * scale.2 ≤ point * scale.1 && point * scale.1 ≤ around.high * scale.2
  else around.low * scale.2 < point * scale.1 && point * scale.1 < around.high * scale.2

/-- Of the two neighbours on the grid one is taken only if it lies inside. -/
theorem inside_of_gridPoint? {around : Neighbourhood} {gridExponent exponent : Int} {point : Nat}
    (found : gridPoint? around gridExponent exponent = some point) :
    around.inside (commonScale gridExponent exponent) point = true := by
  set scale := commonScale gridExponent exponent with scaleEq
  set below := around.centre * scale.2 / scale.1
  have unfolded : gridPoint? around gridExponent exponent =
      if around.inside scale below && around.inside scale (below + 1) then
        if around.centre * scale.2 - below * scale.1 <
            (below + 1) * scale.1 - around.centre * scale.2 then some below
        else some (below + 1)
      else if around.inside scale below then some below
      else if around.inside scale (below + 1) then some (below + 1)
      else none := rfl
  rw [unfolded] at found
  split_ifs at found <;> simp_all

theorem covers_of_gridPoint? {gridExponent : Int} {point : Nat}
    (found : gridPoint? number.neighbourhood gridExponent number.exponent = some point) :
    number.Covers (point * 10 ^ gridExponent) := by
  set scale := commonScale gridExponent number.exponent with scaleEq
  have unitPos : (0 : ℚ) < scale.2 := by exact_mod_cast commonScale_pos gridExponent number.exponent
  have proportion (count : Nat) :
      (count * scale.1 : ℚ) * number.quarter = count * 10 ^ gridExponent * scale.2 := by
    rw [mul_assoc, number.commonScale_proportion gridExponent, mul_assoc]
  have below {bound : Nat} : bound * scale.2 ≤ point * scale.1 ↔
      bound * number.quarter ≤ point * 10 ^ gridExponent := by
    rw [← mul_le_mul_iff_left₀ unitPos, ← proportion, mul_right_comm,
      mul_le_mul_iff_left₀ number.quarter_pos]
    norm_cast
  have above {bound : Nat} : point * scale.1 ≤ bound * scale.2 ↔
      point * 10 ^ gridExponent ≤ bound * number.quarter := by
    rw [← mul_le_mul_iff_left₀ unitPos, ← proportion, mul_right_comm (bound : ℚ),
      mul_le_mul_iff_left₀ number.quarter_pos]
    norm_cast
  have inside := inside_of_gridPoint? found
  rw [Neighbourhood.inside] at inside
  split at inside
  case isTrue isClosed =>
    simp only [Bool.and_eq_true, decide_eq_true_eq] at inside
    exact ⟨below.mp inside.1, above.mp inside.2, fun isOpen => by simp [isOpen] at isClosed⟩
  case isFalse =>
    simp only [Bool.and_eq_true, decide_eq_true_eq] at inside
    have lowLt := not_le.mp (mt above.mpr (not_le.mpr inside.1))
    have ltHigh := not_le.mp (mt below.mpr (not_le.mpr inside.2))
    exact ⟨lowLt.le, ltHigh.le, fun _ => ⟨lowLt, ltHigh⟩⟩

/-- A number covers its own value. -/
theorem covers_self (nonzero : number.significand ≠ 0) :
    number.Covers (number.significand * 2 ^ number.exponent) := by
  have whole : (2 : ℚ) ^ number.exponent = 2 ^ 2 * number.quarter := pow_eq_mul_quarter 2 (by omega)
  have low : number.neighbourhood.low < 4 * number.significand := by
    simp only [neighbourhood]
    split <;> omega
  have low : (number.neighbourhood.low : ℚ) < 4 * number.significand := by exact_mod_cast low
  have quarterPos := number.quarter_pos
  have lowLt : number.neighbourhood.low * number.quarter <
      number.significand * 2 ^ number.exponent := by
    rw [whole]
    nlinarith
  have ltHigh : number.significand * 2 ^ number.exponent <
      number.neighbourhood.high * number.quarter := by
    rw [whole, high_neighbourhood]
    nlinarith
  exact ⟨lowLt.le, ltHigh.le, fun _ => ⟨lowLt, ltHigh⟩⟩

theorem exact_eq (number : Binary64) :
    (number.exact.1 * 10 ^ number.exact.2 : ℚ) = number.significand * 2 ^ number.exponent := by
  rw [Binary64.exact]
  split
  case isTrue nonneg => simp [pow_toNat 2 nonneg]
  case isFalse negative =>
    have five := pow_toNat_neg 5 (not_le.mp negative).le
    have ten : (10 : ℚ) ^ number.exponent = 5 ^ number.exponent * 2 ^ number.exponent := by
      rw [← mul_zpow]
      norm_num
    simp only [Nat.pow_eq, Nat.cast_mul, Nat.cast_pow, Nat.cast_ofNat, five, ten]
    field_simp

theorem dropZeros_eq (count coefficient : Nat) (exponent : Int) :
    ((dropZeros count coefficient exponent).1 * 10 ^ (dropZeros count coefficient exponent).2 : ℚ) =
      coefficient * 10 ^ exponent := by
  induction count generalizing coefficient exponent with
  | zero => rfl
  | succ count ih =>
      rw [dropZeros]
      split
      case isFalse => rfl
      case isTrue zeroLast =>
        have tenth : (coefficient : ℚ) = (coefficient / 10 : Nat) * 10 := by
          exact_mod_cast (Nat.div_mul_cancel (Nat.dvd_of_mod_eq_zero zeroLast)).symm
        rw [ih, zpow_add₀ (by norm_num), zpow_one, tenth]
        ring

theorem negative_shortest (number : Binary64) : number.shortest.negative = number.negative := by
  rw [shortest]
  split <;> rfl

theorem covers_zero (isZero : number.significand = 0) : number.Covers 0 := by
  have low : number.neighbourhood.low = 0 := by simp [neighbourhood, isZero]
  have isClosed : number.neighbourhood.closed = true := by simp [neighbourhood, isZero]
  have quarterPos := number.quarter_pos
  refine ⟨by simp [low], by positivity, fun isOpen => ?_⟩
  rw [isClosed] at isOpen
  cases isOpen

theorem covers_shortest (number : Binary64) : number.Covers number.shortest.magnitude := by
  rw [shortest]
  split
  case isTrue isZero => simpa [Decimal.magnitude] using covers_zero isZero
  case isFalse nonzero =>
    have covered : number.Covers ((number.firstGridPoint?.getD number.exact).1 *
        10 ^ (number.firstGridPoint?.getD number.exact).2) := by
      cases found : number.firstGridPoint? with
      | none =>
          rw [Option.getD_none, exact_eq]
          exact covers_self nonzero
      | some grid =>
          rcases List.exists_of_findSome?_eq_some found with ⟨count, -, taken⟩
          rcases Option.map_eq_some_iff.mp taken with ⟨point, isPoint, rfl⟩
          exact covers_of_gridPoint? isPoint
    simpa only [Decimal.magnitude, dropZeros_eq] using covered

theorem coefficient_ne_zero_or (number : Binary64) :
    number.shortest.coefficient ≠ 0 ∨ number.shortest.exponent = 0 := by
  by_cases isZero : number.significand = 0
  · exact Or.inr (by simp [shortest, isZero])
  · exact Or.inl fun none => isZero (number.covers_shortest.significand_eq_zero (Or.inl none))

/-- The shortest decimal of a number is rounded to that number. -/
theorem ofDecimal?_shortest (number : Binary64) : ofDecimal? number.shortest = some number :=
  ofDecimal?_of_covers number.negative_shortest number.covers_shortest

end Binary64

end PropertyCascade
