import PropertyCascade.Proofs.Number.Positional

/-!
# Whole numbers

The shortest decimal of a number has digits behind the point if and only if the number is not whole.

Around a number with a negative exponent there is no whole value but its own, because such a value
is an integer in units of the last place, which is rounded to the significand. So a decimal without
digits behind the point only stands for a whole number. For the converse, the grids are tried from
the widest to the narrowest. On the grid of the integers a whole number finds itself, if not before,
so no narrower grid is tried. Numbers for which the search ends above the integers have an exponent
that is not negative, and then the decimal that is equal to the number has no digits behind the
point either.
-/

namespace PropertyCascade

namespace Binary64

/-- The value of a number without its sign. -/
def magnitude (number : Binary64) : ℚ :=
  number.significand * 2 ^ number.exponent

/-- A number without a fraction. -/
def IsWhole (number : Binary64) : Prop :=
  ∃ n : Nat, number.magnitude = n

variable {number : Binary64} {n : Nat}

theorem magnitude_eq_quarters (number : Binary64) :
    number.magnitude = 4 * number.significand * number.quarter := by
  have unit : (2 : ℚ) ^ number.exponent = 2 ^ 2 * number.quarter := pow_eq_mul_quarter 2 (by omega)
  rw [magnitude, unit]
  ring

theorem isWhole_of_nonneg (nonneg : 0 ≤ number.exponent) : number.IsWhole :=
  ⟨number.significand * 2 ^ number.exponent.toNat, by simp [magnitude, pow_toNat 2 nonneg]⟩

/-- Only whole numbers have integers around them. -/
theorem Covers.isWhole (covers : number.Covers n) : number.IsWhole := by
  by_cases nonneg : 0 ≤ number.exponent
  case pos => exact isWhole_of_nonneg nonneg
  case neg =>
    set scaledUp := n * 2 ^ (-number.exponent).toNat with isScaled
    have scaledCast : (scaledUp : ℚ) = n * 2 ^ (-number.exponent) := by
      rw [isScaled, Nat.cast_mul, Nat.cast_pow, ← zpow_natCast, Int.toNat_of_nonneg (by omega)]
      rfl
    have near := covers.isRounded.near
    rw [← scaledCast] at near
    have same : scaledUp = number.significand := by
      rcases abs_le.mp near with ⟨low, high⟩
      have notAbove : (scaledUp : ℚ) < (number.significand + 1 : Nat) := by
        push_cast
        linarith
      have notBelow : (number.significand : ℚ) < (scaledUp + 1 : Nat) := by
        push_cast
        linarith
      have notAbove := Nat.cast_lt.mp notAbove
      have notBelow := Nat.cast_lt.mp notBelow
      omega
    refine ⟨n, ?_⟩
    rw [magnitude, ← same, scaledCast, mul_assoc, ← zpow_add₀ (by norm_num), neg_add_cancel,
      zpow_zero, mul_one]

/-! ## The grid of the integers -/

theorem gridPoint?_eq (around : Neighbourhood) (gridExponent exponent : Int) :
    gridPoint? around gridExponent exponent =
      let scale := commonScale gridExponent exponent
      let below := around.centre * scale.2 / scale.1
      if around.inside scale below && around.inside scale (below + 1) then
        if around.centre * scale.2 - below * scale.1 <
            (below + 1) * scale.1 - around.centre * scale.2 then some below
        else some (below + 1)
      else if around.inside scale below then some below
      else if around.inside scale (below + 1) then some (below + 1)
      else none :=
  rfl

theorem commonScale_fst_pos (gridExponent exponent : Int) :
    0 < (commonScale gridExponent exponent).1 :=
  Nat.mul_pos (Nat.pow_pos (by decide)) (Nat.pow_pos (by decide))

/-- A whole number lies on the grid of the integers. -/
theorem isSome_gridPoint?_zero (nonzero : number.significand ≠ 0) (isWhole : number.magnitude = n) :
    (gridPoint? number.neighbourhood 0 number.exponent).isSome := by
  set scale := commonScale 0 number.exponent with isScale
  have unitPos : 0 < scale.2 := commonScale_pos 0 number.exponent
  have onGrid : number.neighbourhood.centre * scale.2 = n * scale.1 := by
    have proportion := number.commonScale_proportion 0
    rw [zpow_zero, one_mul] at proportion
    have cast : (4 * number.significand * scale.2 : ℚ) = n * scale.1 := by
      rw [← proportion, ← isWhole, magnitude_eq_quarters]
      ring
    exact_mod_cast cast
  have below : number.neighbourhood.centre * scale.2 / scale.1 = n := by
    rw [onGrid, Nat.mul_div_cancel _ (commonScale_fst_pos 0 number.exponent)]
  have low : number.neighbourhood.low * scale.2 < n * scale.1 := by
    rw [← onGrid]
    refine Nat.mul_lt_mul_of_pos_right ?_ unitPos
    simp only [neighbourhood]
    split <;> omega
  have high : n * scale.1 < number.neighbourhood.high * scale.2 := by
    rw [← onGrid]
    exact Nat.mul_lt_mul_of_pos_right (by simp [neighbourhood]) unitPos
  have inside : number.neighbourhood.inside scale n = true := by
    rw [Neighbourhood.inside]
    split <;> simp [low, high, low.le, high.le]
  rw [gridPoint?_eq]
  simp only [← isScale, below, inside, Bool.true_and, if_true]
  split
  · split <;> rfl
  · rfl

/-! ## The first digit -/

/-- A power of ten adds its zeros to a canonical numeral. -/
theorem length_ofNat_mul_pow (positive : 0 < n) {product count : Nat}
    (isProduct : product = n * Nat.pow 10 count) :
    (Numeral.ofNat product).length = (Numeral.ofNat n).length + count := by
  have valueEq : Numeral.value (Numeral.ofNat n ++ List.replicate count '0') =
      product := by
    rw [Numeral.value_append_zeros, Numeral.value_ofNat, isProduct, Nat.pow_eq]
  have allDigits : ∀ c ∈ Numeral.ofNat n ++ List.replicate count '0', Numeral.isDigit c = true := by
    intro c member
    rcases List.mem_append.mp member with inNumeral | inZeros
    · exact Numeral.isDigit_of_mem_ofNat inNumeral
    · rw [List.eq_of_mem_replicate inZeros]
      decide
  have length : 0 < (Numeral.ofNat n).length := List.length_pos_of_ne_nil (Numeral.ofNat_ne_nil n)
  have large : 10 ^ ((Numeral.ofNat n ++ List.replicate count '0').length - 1) ≤
      Numeral.value (Numeral.ofNat n ++ List.replicate count '0') := by
    rw [valueEq, List.length_append, List.length_replicate, Nat.sub_add_comm length, Nat.pow_add,
      isProduct, Nat.pow_eq]
    exact Nat.mul_le_mul_right _ (Numeral.pow_length_ofNat_le positive)
  rw [← valueEq, ← Numeral.eq_ofNat_value allDigits large, List.length_append,
    List.length_replicate]

/-- A whole number has all its digits in front of the point. -/
theorem decimalPoint_eq (positive : 0 < n) (isWhole : number.magnitude = n) :
    number.decimalPoint = (Numeral.ofNat n).length := by
  set fraction := scaled (number.significand * Nat.pow 10 330) 1 number.exponent with isFraction
  have bottomPos : 0 < fraction.2 := scaled_denominator_pos Nat.one_pos number.exponent
  have quotient : fraction.1 / fraction.2 = n * Nat.pow 10 330 := by
    have value := div_scaled (number.significand * Nat.pow 10 330) 1 number.exponent
    rw [← isFraction, div_eq_iff (by exact_mod_cast bottomPos.ne')] at value
    have cast : (fraction.1 : ℚ) = (n * Nat.pow 10 330 * fraction.2 : Nat) := by
      rw [value, Nat.cast_mul, Nat.cast_mul, Nat.cast_mul, ← isWhole, magnitude, Nat.cast_one]
      ring
    rw [Nat.cast_inj.mp cast, Nat.mul_div_cancel _ bottomPos]
  rw [decimalPoint, ← isFraction]
  simp only [length_ofNat_mul_pow positive quotient, Nat.cast_add]
  exact add_sub_cancel_right _ _

/-- A whole number with a negative exponent has at most sixteen digits. -/
theorem length_ofNat_le (negative : number.exponent < 0) (isWhole : number.magnitude = n) :
    (Numeral.ofNat n).length ≤ 16 := by
  have fraction : (2 : ℚ) ^ number.exponent ≤ 1 := zpow_le_one_of_nonpos₀ (by norm_num) negative.le
  have significandLt : (number.significand : ℚ) < 2 ^ 53 := by
    exact_mod_cast number.significand_lt
  have cast : (n : ℚ) < 10 ^ 16 := by
    rw [← isWhole, magnitude]
    nlinarith
  exact (Nat.length_toDigits_le_iff (by decide) (by decide)).mpr (by exact_mod_cast cast)

/-! ## The search -/

/-- What is found first among numbers is found at one before which nothing is found. -/
theorem exists_of_findSome?_range {Result : Type} {count : Nat} {found? : Nat → Option Result}
    {result : Result} (found : (List.range count).findSome? found? = some result) :
    ∃ first, found? first = some result ∧ ∀ earlier < first, found? earlier = none := by
  rcases List.findSome?_eq_some_iff.mp found with ⟨front, first, back, whole, isFound, missed⟩
  refine ⟨first, isFound, fun earlier before => missed earlier ?_⟩
  have increasing := List.pairwise_lt_range (n := count)
  rw [whole] at increasing
  have firstBelow : first < count := by
    rw [← List.mem_range, whole]
    simp
  have member : earlier ∈ front ++ first :: back := by
    rw [← whole, List.mem_range]
    omega
  rcases List.mem_append.mp member with inFront | behind
  · exact inFront
  · have after := (List.pairwise_append.mp increasing).2.1
    rcases List.mem_cons.mp behind with rfl | inBack
    · omega
    · have := (List.pairwise_cons.mp after).1 earlier inBack
      omega

theorem exponent_le_dropZeros (count coefficient : Nat) (exponent : Int) :
    exponent ≤ (dropZeros count coefficient exponent).2 := by
  induction count generalizing coefficient exponent with
  | zero => exact le_rfl
  | succ count ih =>
      rw [dropZeros]
      split
      case isTrue => exact (by omega : exponent ≤ exponent + 1).trans (ih _ _)
      case isFalse => exact le_rfl

theorem firstGrid_nonneg (nonzero : number.significand ≠ 0) (isWhole : number.magnitude = n) :
    0 ≤ (number.firstGridPoint?.getD number.exact).2 := by
  have positive : 0 < n := by
    have value : (0 : ℚ) < number.magnitude :=
      mul_pos (by exact_mod_cast Nat.pos_of_ne_zero nonzero) (by positivity)
    rw [isWhole] at value
    exact_mod_cast value
  have point := decimalPoint_eq positive isWhole
  have length : 0 < (Numeral.ofNat n).length := List.length_pos_of_ne_nil (Numeral.ofNat_ne_nil n)
  have onIntegers := isSome_gridPoint?_zero nonzero isWhole
  have integers : number.decimalPoint - ((number.decimalPoint - 1).toNat + 1 : Nat) = 0 := by omega
  cases found : number.firstGridPoint? with
  | none =>
      rw [Option.getD_none, Binary64.exact]
      split
      case isTrue => exact le_rfl
      case isFalse negative =>
        have within : (number.decimalPoint - 1).toNat ∈ List.range 17 := by
          have := length_ofNat_le (not_le.mp negative) isWhole
          exact List.mem_range.mpr (by omega)
        have missed := List.findSome?_eq_none_iff.mp found _ within
        simp only [integers, Option.map_eq_none_iff] at missed
        rw [missed] at onIntegers
        cases onIntegers
  | some grid =>
      rcases exists_of_findSome?_range found with ⟨first, isFound, missed⟩
      rcases Option.map_eq_some_iff.mp isFound with ⟨digits, -, rfl⟩
      rw [Option.getD_some]
      by_contra negative
      have missedIntegers := missed (number.decimalPoint - 1).toNat (by omega)
      simp only [integers, Option.map_eq_none_iff] at missedIntegers
      rw [missedIntegers] at onIntegers
      cases onIntegers

theorem magnitude_shortest_of_nonneg (nonneg : 0 ≤ number.shortest.exponent) :
    number.shortest.magnitude =
      (number.shortest.coefficient * 10 ^ number.shortest.exponent.toNat : Nat) := by
  rw [Decimal.magnitude, ← pow_toNat 10 nonneg]
  push_cast
  rfl

/-- The shortest decimal has no digits behind the point if and only if the number is whole. -/
theorem shortest_nonneg_iff : 0 ≤ number.shortest.exponent ↔ number.IsWhole := by
  constructor
  · intro nonneg
    have covers := number.covers_shortest
    rw [magnitude_shortest_of_nonneg nonneg] at covers
    exact covers.isWhole
  · rintro ⟨n, isWhole⟩
    rw [shortest]
    split
    case isTrue => exact le_rfl
    case isFalse nonzero =>
      exact (firstGrid_nonneg nonzero isWhole).trans (exponent_le_dropZeros ..)

/-! ## Whole numbers and words -/

/-- Around a number below `2 ^ 63` there is nothing from `2 ^ 63` on. -/
theorem Covers.lt_word {value : ℚ} (covers : number.Covers value)
    (small : number.magnitude < 2 ^ 63) : value < 2 ^ 63 := by
  have quarterPos := number.quarter_pos
  have high := covers.le_high
  rw [high_neighbourhood] at high
  have exponentLe : number.exponent ≤ 10 := by
    by_contra greater
    have normal : 2 ^ 52 ≤ number.significand := number.normal_or_least.resolve_right (by omega)
    have normal : (2 ^ 52 : ℚ) ≤ number.significand := by exact_mod_cast normal
    have power : (2 : ℚ) ^ (11 : Int) ≤ 2 ^ number.exponent :=
      zpow_le_zpow_right₀ (by norm_num) (by omega)
    rw [magnitude] at small
    norm_num at power
    nlinarith
  have unit : number.quarter ≤ 2 ^ (8 : Int) :=
    zpow_le_zpow_right₀ (by norm_num) (by omega)
  have significandLe : (number.significand : ℚ) ≤ 2 ^ 53 - 1 := by
    have : number.significand + 1 ≤ 2 ^ 53 := number.significand_lt
    have : (number.significand : ℚ) + 1 ≤ 2 ^ 53 := by exact_mod_cast this
    linarith
  norm_num at unit
  nlinarith

/-- The shortest decimal of `2 ^ 63` is greater than it. -/
theorem shortest_word (negative : Bool) :
    (Binary64.mk negative (Nat.pow 2 52) 11 (by decide) (by decide) (.inl le_rfl)).shortest =
      ⟨negative, 9223372036854776, 3⟩ := by
  cases negative <;> decide +kernel

/-- From `2 ^ 63` on the shortest decimals lie above `2 ^ 63`. -/
theorem lt_magnitude_shortest (large : 2 ^ 63 ≤ number.magnitude) :
    2 ^ 63 < number.shortest.magnitude := by
  have exponentLe : 11 ≤ number.exponent := by
    by_contra less
    have power : (2 : ℚ) ^ number.exponent ≤ 2 ^ (10 : Int) :=
      zpow_le_zpow_right₀ (by norm_num) (by omega)
    have significandLt : (number.significand : ℚ) < 2 ^ 53 := by
      exact_mod_cast number.significand_lt
    have powerPos : (0 : ℚ) < 2 ^ number.exponent := by positivity
    rw [magnitude] at large
    norm_num at power
    nlinarith
  have normal : 2 ^ 52 ≤ number.significand := number.normal_or_least.resolve_right (by omega)
  by_cases isWord : number.significand = Nat.pow 2 52 ∧ number.exponent = 11
  case pos =>
    rcases number with ⟨negative, significand, exponent, _, _, _⟩
    rcases isWord with ⟨rfl, rfl⟩
    rw [shortest_word]
    norm_num [Decimal.magnitude]
  case neg =>
    have low := number.covers_shortest.low_le
    have lowNeighbour := number.le_low_neighbourhood
    rcases Int.lt_or_eq_of_le exponentLe with greater | same
    · have unit : (2 : ℚ) ^ (10 : Int) ≤ number.quarter :=
        zpow_le_zpow_right₀ (by norm_num) (by omega)
      have normal : (2 ^ 52 : ℚ) ≤ number.significand := by exact_mod_cast normal
      norm_num at unit
      nlinarith
    · have above : 2 ^ 52 + 1 ≤ number.significand := by
        have : number.significand ≠ 2 ^ 52 := fun least => isWord ⟨least, same.symm⟩
        omega
      have above : (2 ^ 52 + 1 : ℚ) ≤ number.significand := by exact_mod_cast above
      have unit : number.quarter = 2 ^ (9 : Int) := by rw [quarter, ← same]; rfl
      rw [unit] at low
      norm_num at low
      linarith

end Binary64

end PropertyCascade
