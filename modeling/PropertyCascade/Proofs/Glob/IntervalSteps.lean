import PropertyCascade.Proofs.Glob.Interval
import PropertyCascade.Proofs.Glob.Trap

/-!
# Intervals in machine words

The expression of an interval is put together by calculating with words of 64 bits and with digits,
where every step may trap: bounds are negated, powers of ten separate the numbers with one count of
digits from those with the next, and digits are stepped up and down. None of these steps traps for
the bounds of an interval. A power that is asked for is at most the upper bound, and the digit at
which two bounds of the same length part is less in the lower one.
-/

namespace PropertyCascade

namespace Glob

open Checked

namespace Digits

/-! ## Bounds of the same length -/

/-- The digit sequences between two bounds, which are stepped up and down digit by digit. -/
def sameLength : List Nat → List Nat → Checked (List NumeralExpr)
  | low :: lowRest, high :: highRest =>
      if low = high then do
        let tails ← sameLength lowRest highRest
        pure (prefixed low tails)
      else do
        let width := lowRest.length
        let lowIsFloor := lowRest.all (· == 0)
        let highIsCeiling := highRest.all (· == 9)
        let lowest ←
          if lowIsFloor then pure []
          else do
            let tails ← sameLength lowRest (List.replicate width 9)
            pure (prefixed low tails)
        let first ← if lowIsFloor then pure low else digitAfter low
        let last ← if highIsCeiling then pure high else digitBefore high
        let highest ←
          if highIsCeiling then pure []
          else do
            let tails ← sameLength (List.replicate width 0) highRest
            pure (prefixed high tails)
        pure (lowest ++ (if first ≤ last then [free first last width] else []) ++ highest)
  | _, _ => pure [.empty]
termination_by low => low.length

theorem sameLength_nines {digits : List Nat} (small : ∀ digit ∈ digits, digit ≤ 9) :
    sameLength digits (List.replicate digits.length 9) = .ok (atLeast digits) := by
  induction digits with
  | nil => simp [sameLength, atLeast]
  | cons digit rest ih =>
      rcases List.forall_mem_cons.mp small with ⟨first, others⟩
      rw [List.length_cons, List.replicate_succ, sameLength, atLeast]
      by_cases isNine : digit = 9
      case pos => simp [isNine, ih others]
      case neg =>
        have less : digit < 9 := by omega
        by_cases isFloor : rest.all (· == 0) = true
        case pos => simp [isNine, isFloor, first]
        case neg => simp [isNine, isFloor, ih others, digitAfter_eq less, Nat.succ_le_of_lt less]

theorem sameLength_zeros (digits : List Nat) :
    sameLength (List.replicate digits.length 0) digits = .ok (atMost digits) := by
  induction digits with
  | nil => simp [sameLength, atMost]
  | cons digit rest ih =>
      rw [List.length_cons, List.replicate_succ, sameLength, atMost]
      by_cases isZero : digit = 0
      case pos => simp [isZero, ih]
      case neg =>
        have positive : 0 < digit := Nat.pos_of_ne_zero isZero
        by_cases isCeiling : rest.all (· == 9) = true
        case pos => simp [Ne.symm isZero, isZero, isCeiling]
        case neg => simp [Ne.symm isZero, isZero, isCeiling, ih, digitBefore_eq positive]

/-- The digits at which two bounds part can be stepped towards each other. -/
theorem sameLength_eq {low high : List Nat} (lowSmall : ∀ digit ∈ low, digit ≤ 9)
    (highSmall : ∀ digit ∈ high, digit ≤ 9) (lengths : low.length = high.length)
    (ordered : value low ≤ value high) : sameLength low high = .ok (between low high) := by
  induction low generalizing high with
  | nil => simp [sameLength, between]
  | cons lowDigit lowRest ih =>
      cases high with
      | nil => cases lengths
      | cons highDigit highRest =>
          rcases List.forall_mem_cons.mp lowSmall with ⟨lowDigitSmall, lowRestSmall⟩
          rcases List.forall_mem_cons.mp highSmall with ⟨highDigitSmall, highRestSmall⟩
          have sameRest : lowRest.length = highRest.length := Nat.succ.inj lengths
          rw [value_cons_le_cons_iff lowRestSmall highRestSmall sameRest] at ordered
          rw [sameLength, between]
          rcases ordered with less | ⟨rfl, orderedRest⟩
          case inr => simp [ih lowRestSmall highRestSmall sameRest orderedRest]
          case inl =>
            have same : lowDigit ≠ highDigit := less.ne
            have after : digitAfter lowDigit = .ok (lowDigit + 1) := digitAfter_eq (by omega)
            have before : digitBefore highDigit = .ok (highDigit - 1) := digitBefore_eq (by omega)
            have nines := sameLength_nines lowRestSmall
            have zeros := sameLength_zeros highRest
            rw [← sameRest] at zeros
            by_cases isFloor : lowRest.all (· == 0) = true
            case pos =>
              by_cases isCeiling : highRest.all (· == 9) = true
              case pos => simp [same, isFloor, isCeiling]
              case neg => simp [same, isFloor, isCeiling, before, zeros]
            case neg =>
              by_cases isCeiling : highRest.all (· == 9) = true
              case pos => simp [same, isFloor, isCeiling, after, nines]
              case neg => simp [same, isFloor, isCeiling, after, before, nines, zeros]

/-- Between bounds in the wrong order, the digit after nine would be asked for. -/
example : sameLength [9, 1] [0, 0] = .error .noDigit := by
  decide +kernel

/-! ## Positive numbers -/

/-- The number of digits of an integer. -/
def count (number : Int) : Nat :=
  if 0 < number then Nat.log 10 number.toNat + 1 else 1

/-- The digits of an integer, as it is written. -/
def ofInt (number : Int) : List Nat :=
  (Numeral.ofInt number).map Numeral.digitValue

/-- The least number of so many digits that a lower bound admits. -/
def floor (low : Int) (length : Nat) : Checked Int :=
  if length = count low then pure low
  else do
    let exponent ← minus length 1
    power exponent

/-- The greatest number of so many digits that an upper bound admits. -/
def ceiling (high : Int) (length : Nat) : Checked Int :=
  if length = count high then pure high
  else do
    let above ← power length
    word (above - 1)

/-- The numerals of the numbers between two positive ones, by their number of digits. -/
def positiveRange (low high : Int) : Checked NumeralExpr := do
  let lengths := List.range' (count low) (count high + 1 - count low)
  let alternatives ← lengths.mapM fun length => do
    let first ← floor low length
    let last ← ceiling high length
    sameLength (ofInt first) (ofInt last)
  pure (NumeralExpr.grouped alternatives.flatten)

theorem ofInt_natCast (number : Nat) : ofInt number = ofNat number := by
  rw [ofInt, Numeral.ofInt, if_neg (by omega), Int.natAbs_natCast, ofNat]

theorem count_eq {number : Nat} (positive : 0 < number) :
    count number = (ofNat number).length := by
  have lengthPositive := length_ofNat_pos number
  have isLog : Nat.log 10 number = (ofNat number).length - 1 := by
    refine Nat.log_eq_of_pow_le_of_lt_pow (pow_length_le positive) ?_
    rw [Nat.sub_add_cancel lengthPositive]
    exact lt_pow_length number
  rw [count, if_pos (by exact_mod_cast positive), Int.toNat_natCast, isLog,
    Nat.sub_add_cancel lengthPositive]

/-- Digits without a leading zero are those of their value. -/
theorem ofNat_value {digits : List Nat} (small : ∀ digit ∈ digits, digit ≤ 9)
    (large : 10 ^ (digits.length - 1) ≤ value digits) : ofNat (value digits) = digits := by
  have written : (digits.map Nat.digitChar).map Numeral.digitValue = digits := by
    rw [List.map_map]
    conv_rhs => rw [← List.map_id digits]
    exact List.map_congr_left fun digit member => Numeral.digitValue_digitChar (small digit member)
  have sameValue : Numeral.value (digits.map Nat.digitChar) = value digits := by
    rw [← value_map_digitValue, written]
  have allDigits : ∀ c ∈ digits.map Nat.digitChar, Numeral.isDigit c = true := by
    intro c member
    rcases List.mem_map.mp member with ⟨digit, digitMember, rfl⟩
    exact Numeral.isDigit_digitChar (small digit digitMember)
  have canonical := Numeral.eq_ofNat_value allDigits (by simpa [sameValue] using large)
  rw [ofNat, ← sameValue, ← canonical, written]

section Range

variable {low high length : Nat}

theorem ofInt_lowest (positive : 0 < low) (shortest : (ofNat low).length ≤ length) :
    ofInt (value (lowest low length)) = lowest low length := by
  have lengthPositive : 0 < length := lt_of_lt_of_le (length_ofNat_pos low) shortest
  rw [ofInt_natCast]
  refine ofNat_value le_nine_of_mem_lowest ?_
  rw [length_lowest lengthPositive]
  exact ((value_lowest_le_iff positive shortest _).mp (Nat.le_refl _)).2

theorem ofInt_highest (positive : 0 < high) (lengthPositive : 0 < length) :
    ofInt (value (highest high length)) = highest high length := by
  rw [ofInt_natCast]
  refine ofNat_value le_nine_of_mem_highest ?_
  have isValue := value_highest_succ high length
  rw [length_highest]
  split at isValue
  case isTrue same =>
    rw [Nat.succ.inj isValue, same]
    exact pow_length_le positive
  case isFalse =>
    have : 10 ^ (length - 1) < 10 ^ length := Nat.pow_lt_pow_right (by decide) (by omega)
    omega

theorem word_natCast {number : Nat} (fits : (number : Int) ≤ Numeral.greatest) :
    word number = .ok (number : Int) := by
  have : Numeral.least ≤ 0 := by decide
  exact word_eq ⟨by omega, fits⟩

/-- A power of ten that is at most a word is a word. -/
theorem power_eq {exponent : Nat} (within : 10 ^ exponent ≤ high)
    (fits : (high : Int) ≤ Numeral.greatest) :
    power exponent = .ok ((10 ^ exponent : Nat) : Int) := by
  have isPower : Int.pow 10 exponent = ((10 ^ exponent : Nat) : Int) :=
    (Int.natCast_pow 10 exponent).symm
  rw [power, isPower, word_natCast (by omega)]

theorem pow_le_of_lt_length (positive : 0 < high) {exponent : Nat}
    (less : exponent < (ofNat high).length) : 10 ^ exponent ≤ high :=
  le_trans (Nat.pow_le_pow_right (by decide) (by omega)) (pow_length_le positive)

theorem floor_eq (positive : 0 < low) (ordered : low ≤ high)
    (fits : (high : Int) ≤ Numeral.greatest) (shortest : (ofNat low).length ≤ length)
    (longest : length ≤ (ofNat high).length) :
    floor low length = .ok (value (lowest low length) : Int) := by
  have lengthPositive : 0 < length := lt_of_lt_of_le (length_ofNat_pos low) shortest
  rw [floor, count_eq positive, value_lowest]
  split
  case isTrue => rfl
  case isFalse =>
    have within : 10 ^ (length - 1) ≤ high :=
      pow_le_of_lt_length (lt_of_lt_of_le positive ordered) (by omega)
    rw [minus_eq lengthPositive, ok_bind, power_eq within fits]

theorem ceiling_eq (positive : 0 < high) (fits : (high : Int) ≤ Numeral.greatest)
    (longest : length ≤ (ofNat high).length) :
    ceiling high length = .ok (value (highest high length) : Int) := by
  have isValue := value_highest_succ high length
  rw [ceiling, count_eq positive]
  split at isValue
  case isTrue same => rw [if_pos same, Nat.succ.inj isValue, pure_eq]
  case isFalse different =>
    have within : 10 ^ length ≤ high := pow_le_of_lt_length positive (by omega)
    have less : ((10 ^ length : Nat) : Int) - 1 = (value (highest high length) : Int) := by omega
    rw [if_neg different, power_eq within fits, ok_bind, less, word_natCast (by omega)]

theorem positiveRange_eq (positive : 0 < low) (ordered : low ≤ high)
    (fits : (high : Int) ≤ Numeral.greatest) :
    positiveRange low high = .ok (Digits.positive low high) := by
  have highPositive : 0 < high := lt_of_lt_of_le positive ordered
  have eachLength : ∀ length ∈ List.range' (ofNat low).length
      ((ofNat high).length + 1 - (ofNat low).length),
      (do
        let first ← floor low length
        let last ← ceiling high length
        sameLength (ofInt first) (ofInt last)) =
          .ok (between (lowest low length) (highest high length)) := by
    intro length member
    rcases List.mem_range'_1.mp member with ⟨shortest, longest⟩
    have longest : length ≤ (ofNat high).length := by omega
    have lengthPositive : 0 < length := lt_of_lt_of_le (length_ofNat_pos low) shortest
    have sameLengths : (lowest low length).length = (highest high length).length := by
      rw [length_lowest lengthPositive, length_highest]
    rw [floor_eq positive ordered fits shortest longest, ok_bind,
      ceiling_eq highPositive fits longest, ok_bind, ofInt_lowest positive shortest,
      ofInt_highest highPositive lengthPositive]
    exact sameLength_eq le_nine_of_mem_lowest le_nine_of_mem_highest sameLengths
      (value_lowest_le_value_highest positive ordered shortest longest)
  rw [positiveRange, count_eq positive, count_eq highPositive, mapM_eq_ok eachLength, ok_bind,
    positive_eq, alternatives, List.flatMap_def]
  rfl

end Range

end Digits

namespace Interval

/-- The numerals below zero, if the lower bound of an interval around zero admits any. -/
def belowZero (first : Int) : Checked (List NumeralExpr) :=
  if first < 0 then do
    let high ← word (-first)
    let magnitudes ← Digits.positiveRange 1 high
    pure [negated magnitudes]
  else pure []

/-- The numerals above zero, if the upper bound of an interval around zero admits any. -/
def aboveZero (last : Int) : Checked (List NumeralExpr) :=
  if 0 < last then do
    let magnitudes ← Digits.positiveRange 1 last
    pure [magnitudes]
  else pure []

/-- The expression for the canonical numerals in the interval, in machine words. -/
def expressionSteps (interval : Interval) : Checked NumeralExpr :=
  let first := interval.first
  let last := interval.last
  if first = last then pure (numeralExpr (Numeral.ofInt first))
  else if last < 0 then do
    let low ← word (-last)
    let high ← word (-first)
    let magnitudes ← Digits.positiveRange low high
    pure (negated magnitudes)
  else if 0 < first then Digits.positiveRange first last
  else do
    let below ← belowZero first
    let above ← aboveZero last
    pure (NumeralExpr.grouped ([.char '0'] ++ below ++ above))

/-- A bound that is less than zero can be negated. -/
theorem word_neg (interval : Interval) {bound : Int} (within : interval.first ≤ bound)
    (negative : bound < 0) :
    word (-bound) = .ok (bound.natAbs : Int) ∧ (bound.natAbs : Int) ≤ Numeral.greatest := by
  have isMagnitude : -bound = (bound.natAbs : Int) := by omega
  have opposite : Numeral.greatest = -Numeral.least - 1 := by decide
  have fits : (bound.natAbs : Int) ≤ Numeral.greatest := by
    have := interval.bounded.1
    omega
  exact ⟨by rw [isMagnitude, Digits.word_natCast fits], fits⟩

theorem positiveRange_bounds {first last : Int} (positive : 0 < first) (ordered : first ≤ last)
    (fits : last ≤ Numeral.greatest) :
    Digits.positiveRange first last = .ok (Digits.positive first.natAbs last.natAbs) := by
  have isFirst : (first.natAbs : Int) = first := by omega
  have isLast : (last.natAbs : Int) = last := by omega
  have range := Digits.positiveRange_eq (show 0 < first.natAbs by omega)
    (show _ ≤ last.natAbs by omega) (by rwa [isLast])
  rwa [isFirst, isLast] at range

theorem belowZero_eq (interval : Interval) :
    belowZero interval.first =
      .ok (if interval.first < 0 then [negated (Digits.positive 1 interval.first.natAbs)]
        else []) := by
  rw [belowZero]
  split
  case isTrue negative =>
    rcases interval.word_neg (Int.le_refl _) negative with ⟨isWord, fits⟩
    have range := positiveRange_bounds Int.one_pos (by omega) fits
    rw [isWord, ok_bind, range]
    rfl
  case isFalse => rfl

theorem aboveZero_eq (interval : Interval) :
    aboveZero interval.last =
      .ok (if 0 < interval.last then [Digits.positive 1 interval.last.natAbs] else []) := by
  rw [aboveZero]
  split
  case isTrue positive =>
    rw [positiveRange_bounds Int.one_pos positive interval.bounded.2]
    rfl
  case isFalse => rfl

/-- No step of calculating with the bounds of an interval traps. -/
theorem expressionSteps_eq (interval : Interval) :
    interval.expressionSteps = .ok interval.expression := by
  have ordered := interval.ordered
  rw [expressionSteps, expression]
  split
  case isTrue => rfl
  case isFalse different =>
    split
    case isTrue lastNegative =>
      rcases interval.word_neg ordered lastNegative with ⟨lowIsWord, -⟩
      rcases interval.word_neg (Int.le_refl _) (by omega) with ⟨highIsWord, fits⟩
      have range := Digits.positiveRange_eq (show 0 < interval.last.natAbs by omega)
        (show _ ≤ interval.first.natAbs by omega) fits
      rw [lowIsWord, ok_bind, highIsWord, ok_bind, range]
      rfl
    case isFalse =>
      split
      case isTrue firstPositive =>
        exact positiveRange_bounds firstPositive ordered interval.bounded.2
      case isFalse =>
        rw [belowZero_eq, ok_bind, aboveZero_eq]
        rfl

end Interval

end Glob

end PropertyCascade
