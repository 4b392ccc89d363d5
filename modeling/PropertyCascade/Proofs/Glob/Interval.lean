import PropertyCascade.Glob.Item
import PropertyCascade.Proofs.Glob.Digits

/-!
# Exactness of intervals

The expression of an interval denotes exactly the canonical numerals of the integers in it, and
the matcher accepts exactly these texts: no other numeral of a number, and nothing that is no
numeral.

The positive numbers are treated by their counts of digits. Within one count the bounds are digits
of this length, so that the bounding digit by digit applies; beyond the shortest count the lower
bound is a one before zeros, which leaves out the sequences that start with a zero. Negative
numbers are positive ones behind a sign, and an interval around zero is put together from both
sides and the zero.
-/

namespace PropertyCascade

namespace Glob

namespace Digits

open NumeralExpr

/-! ## Bounds for one count of digits -/

/-- The least digits of a given count that a lower bound admits. -/
def lowest (low count : Nat) : List Nat :=
  if count = (ofNat low).length then ofNat low else 1 :: List.replicate (count - 1) 0

/-- The greatest digits of a given count that an upper bound admits. -/
def highest (high count : Nat) : List Nat :=
  if count = (ofNat high).length then ofNat high else List.replicate count 9

theorem length_ofNat (number : Nat) : (ofNat number).length = (Numeral.ofNat number).length :=
  List.length_map _

theorem length_ofNat_pos (number : Nat) : 0 < (ofNat number).length := by
  rw [length_ofNat]
  exact List.length_pos_iff.mpr (Numeral.ofNat_ne_nil number)

theorem lt_pow_length (number : Nat) : number < 10 ^ (ofNat number).length := by
  rw [length_ofNat]
  exact Numeral.lt_pow_length_ofNat number

theorem pow_length_le {number : Nat} (positive : 0 < number) :
    10 ^ ((ofNat number).length - 1) ≤ number := by
  rw [length_ofNat]
  exact Numeral.pow_length_ofNat_le positive

theorem length_mono {low high : Nat} (positive : 0 < low) (ordered : low ≤ high) :
    (ofNat low).length ≤ (ofNat high).length := by
  have : 10 ^ ((ofNat low).length - 1) < 10 ^ (ofNat high).length :=
    lt_of_le_of_lt (le_trans (pow_length_le positive) ordered) (lt_pow_length high)
  have := (Nat.pow_lt_pow_iff_right (by decide)).mp this
  omega

section Count

variable {low high count : Nat}

theorem length_lowest (positive : 0 < count) : (lowest low count).length = count := by
  rw [lowest]
  split
  case isTrue same => exact same.symm
  case isFalse =>
    rw [List.length_cons, List.length_replicate]
    omega

theorem length_highest : (highest high count).length = count := by
  rw [highest]
  split
  case isTrue same => exact same.symm
  case isFalse => exact List.length_replicate

theorem le_nine_of_mem_lowest : ∀ digit ∈ lowest low count, digit ≤ 9 := by
  intro digit member
  rw [lowest] at member
  split at member
  case isTrue => exact le_nine_of_mem_ofNat member
  case isFalse =>
    rcases List.mem_cons.mp member with rfl | zero
    · decide
    · rw [List.eq_of_mem_replicate zero]
      decide

theorem le_nine_of_mem_highest : ∀ digit ∈ highest high count, digit ≤ 9 := by
  intro digit member
  rw [highest] at member
  split at member
  case isTrue => exact le_nine_of_mem_ofNat member
  case isFalse => rw [List.eq_of_mem_replicate member]

theorem value_lowest :
    value (lowest low count) = if count = (ofNat low).length then low else 10 ^ (count - 1) := by
  rw [lowest]
  split
  case isTrue => exact value_ofNat low
  case isFalse =>
    rw [value, value_eq_zero (by simp), List.length_replicate]
    simp

theorem value_highest_succ (high count : Nat) :
    value (highest high count) + 1 =
      if count = (ofNat high).length then high + 1 else 10 ^ count := by
  rw [highest]
  split
  case isTrue => rw [value_ofNat]
  case isFalse => rw [value_of_all_nine (by simp), List.length_replicate]

/-- The lower bound for a count of digits excludes smaller numbers and leading zeros. -/
theorem value_lowest_le_iff (positive : 0 < low) (shortest : (ofNat low).length ≤ count)
    (number : Nat) :
    value (lowest low count) ≤ number ↔ low ≤ number ∧ 10 ^ (count - 1) ≤ number := by
  rw [value_lowest]
  split
  case isTrue same =>
    have := pow_length_le positive
    rw [← same] at this
    omega
  case isFalse different =>
    have := lt_pow_length low
    have : 10 ^ (ofNat low).length ≤ 10 ^ (count - 1) :=
      Nat.pow_le_pow_right (by decide) (by omega)
    omega

/-- The upper bound for a count of digits excludes greater numbers. -/
theorem le_value_highest_iff (positive : 0 < high) (longest : count ≤ (ofNat high).length)
    {number : Nat} (short : number < 10 ^ count) :
    number ≤ value (highest high count) ↔ number ≤ high := by
  have := value_highest_succ high count
  split at this
  case isTrue => omega
  case isFalse different =>
    have := pow_length_le positive
    have : 10 ^ count ≤ 10 ^ ((ofNat high).length - 1) :=
      Nat.pow_le_pow_right (by decide) (by omega)
    omega

theorem value_lowest_le_value_highest (positive : 0 < low) (ordered : low ≤ high)
    (shortest : (ofNat low).length ≤ count) (longest : count ≤ (ofNat high).length) :
    value (lowest low count) ≤ value (highest high count) := by
  have countPos : 0 < count := lt_of_lt_of_le (length_ofNat_pos low) shortest
  have small : value (lowest low count) < 10 ^ count := by
    have small := value_lt (le_nine_of_mem_lowest : ∀ digit ∈ lowest low count, digit ≤ 9)
    rwa [length_lowest countPos] at small
  rw [le_value_highest_iff (by omega) longest small, value_lowest]
  split
  case isTrue => exact ordered
  case isFalse different =>
    have := pow_length_le (lt_of_lt_of_le positive ordered)
    have : 10 ^ (count - 1) ≤ 10 ^ ((ofNat high).length - 1) :=
      Nat.pow_le_pow_right (by decide) (by omega)
    omega

end Count

/-! ## Positive numbers -/

/-- The alternatives for the numerals between two numbers, for one count of digits after the
other. -/
def alternatives (low high : Nat) : List NumeralExpr :=
  (List.range' (ofNat low).length ((ofNat high).length + 1 - (ofNat low).length)).flatMap
    fun count => between (lowest low count) (highest high count)

theorem positive_eq (low high : Nat) : positive low high = grouped (alternatives low high) :=
  rfl

theorem denotedBySome_alternatives {low high : Nat} (positive : 0 < low) (ordered : low ≤ high)
    (text : Text) :
    DenotedBySome (alternatives low high) text ↔
      ∃ number, low ≤ number ∧ number ≤ high ∧ text = Numeral.ofNat number := by
  have byCount : DenotedBySome (alternatives low high) text ↔
      ∃ count, (ofNat low).length ≤ count ∧ count ≤ (ofNat high).length ∧
        OfLength count text ∧ low ≤ Numeral.value text ∧ 10 ^ (count - 1) ≤ Numeral.value text ∧
          Numeral.value text ≤ high := by
    have ofCount {count : Nat} (shortest : (ofNat low).length ≤ count)
        (longest : count ≤ (ofNat high).length) :
        DenotedBySome (between (lowest low count) (highest high count)) text ↔
          OfLength count text ∧ low ≤ Numeral.value text ∧ 10 ^ (count - 1) ≤ Numeral.value text ∧
            Numeral.value text ≤ high := by
      have countPos : 0 < count := lt_of_lt_of_le (length_ofNat_pos low) shortest
      rw [denotedBySome_between le_nine_of_mem_lowest le_nine_of_mem_highest
        (by rw [length_lowest countPos, length_highest])
        (value_lowest_le_value_highest positive ordered shortest longest),
        length_lowest countPos, value_lowest_le_iff positive shortest, and_assoc]
      refine and_congr_right fun digits => and_congr_right fun _ => and_congr_right fun _ => ?_
      exact le_value_highest_iff (by omega) longest digits.value_lt
    constructor
    · intro chosen
      rcases chosen with ⟨expr, member, denotes⟩
      rcases List.mem_flatMap.mp member with ⟨count, inRange, member⟩
      rw [List.mem_range'_1] at inRange
      have shortest : (ofNat low).length ≤ count := inRange.1
      have longest : count ≤ (ofNat high).length := by omega
      exact ⟨count, shortest, longest, (ofCount shortest longest).mp ⟨expr, member, denotes⟩⟩
    · intro counted
      rcases counted with ⟨count, shortest, longest, bounded⟩
      rcases (ofCount shortest longest).mpr bounded with ⟨expr, member, denotes⟩
      refine ⟨expr, List.mem_flatMap.mpr ⟨count, ?_, member⟩, denotes⟩
      rw [List.mem_range'_1]
      omega
  rw [byCount]
  constructor
  · intro counted
    rcases counted with ⟨count, -, -, digits, above, large, below⟩
    rw [← digits.1] at large
    exact ⟨Numeral.value text, above, below, Numeral.eq_ofNat_value digits.2 large⟩
  · intro someNumber
    rcases someNumber with ⟨number, above, below, rfl⟩
    have numberPos : 0 < number := by omega
    have lengths := length_ofNat number
    refine ⟨(ofNat number).length, length_mono positive above, length_mono numberPos below,
      ⟨lengths.symm, fun c member => Numeral.isDigit_of_mem_ofNat member⟩, ?_⟩
    rw [Numeral.value_ofNat]
    exact ⟨above, pow_length_le numberPos, below⟩

theorem denotes_positive {low high : Nat} (positive : 0 < low) (ordered : low ≤ high)
    (text : Text) :
    (Digits.positive low high).Denotes text ↔
      ∃ number, low ≤ number ∧ number ≤ high ∧ text = Numeral.ofNat number := by
  have nonempty : alternatives low high ≠ [] := by
    intro empty
    have lowDenoted := (denotedBySome_alternatives positive ordered (Numeral.ofNat low)).mpr
      ⟨low, le_refl low, ordered, rfl⟩
    rw [empty] at lowDenoted
    exact not_denotedBySome_nil lowDenoted
  rw [positive_eq, denotes_grouped nonempty]
  exact denotedBySome_alternatives positive ordered text

/-! ## Writing the expressions -/

section Plain

variable {digit width : Nat} {digits low high : List Nat}

theorem isPlain_prefixed {tails : List NumeralExpr} (small : digit ≤ 9)
    (plain : ∀ expr ∈ tails, expr.IsPlain) : ∀ expr ∈ prefixed digit tails, expr.IsPlain := by
  intro expr member
  rcases List.mem_map.mp member with ⟨tail, tailMember, rfl⟩
  exact .seq (.digit small) (plain tail tailMember)

theorem isPlain_free {first last : Nat} (ordered : first ≤ last) (small : last ≤ 9) :
    (free first last width).IsPlain :=
  .seq (.span ordered small) (.anyDigits width)

theorem isPlain_of_mem_atLeast (small : ∀ digit ∈ digits, digit ≤ 9) :
    ∀ expr ∈ atLeast digits, expr.IsPlain := by
  induction digits with
  | nil => exact List.forall_mem_singleton.mpr .empty
  | cons digit rest ih =>
      rcases List.forall_mem_cons.mp small with ⟨digitSmall, restSmall⟩
      intro expr member
      rw [atLeast] at member
      split at member
      case isTrue => exact isPlain_prefixed digitSmall (ih restSmall) expr member
      case isFalse =>
        split at member
        case isTrue =>
          rw [List.mem_singleton.mp member]
          exact isPlain_free digitSmall (le_refl 9)
        case isFalse =>
          rcases List.mem_append.mp member with bound | later
          · exact isPlain_prefixed digitSmall (ih restSmall) expr bound
          · rw [List.mem_singleton.mp later]
            exact isPlain_free (by omega) (le_refl 9)

theorem isPlain_of_mem_atMost (small : ∀ digit ∈ digits, digit ≤ 9) :
    ∀ expr ∈ atMost digits, expr.IsPlain := by
  induction digits with
  | nil => exact List.forall_mem_singleton.mpr .empty
  | cons digit rest ih =>
      rcases List.forall_mem_cons.mp small with ⟨digitSmall, restSmall⟩
      intro expr member
      rw [atMost] at member
      split at member
      case isTrue => exact isPlain_prefixed digitSmall (ih restSmall) expr member
      case isFalse =>
        split at member
        case isTrue =>
          rw [List.mem_singleton.mp member]
          exact isPlain_free (Nat.zero_le digit) digitSmall
        case isFalse =>
          rcases List.mem_cons.mp member with rfl | bound
          · exact isPlain_free (Nat.zero_le _) (by omega)
          · exact isPlain_prefixed digitSmall (ih restSmall) expr bound

theorem isPlain_of_mem_between (lowSmall : ∀ digit ∈ low, digit ≤ 9)
    (highSmall : ∀ digit ∈ high, digit ≤ 9) : ∀ expr ∈ between low high, expr.IsPlain := by
  induction low generalizing high with
  | nil => exact List.forall_mem_singleton.mpr .empty
  | cons lowDigit lowRest ih =>
      cases high with
      | nil => exact List.forall_mem_singleton.mpr .empty
      | cons highDigit highRest =>
          rcases List.forall_mem_cons.mp lowSmall with ⟨lowDigitSmall, lowRestSmall⟩
          rcases List.forall_mem_cons.mp highSmall with ⟨highDigitSmall, highRestSmall⟩
          intro expr member
          rw [between] at member
          split at member
          case isTrue =>
            exact isPlain_prefixed lowDigitSmall (ih lowRestSmall highRestSmall) expr member
          case isFalse =>
            rcases List.mem_append.mp member with front | atHigh
            · rcases List.mem_append.mp front with atLow | inside
              · have inTail := (List.mem_ite_nil_left.mp atLow).2
                exact isPlain_prefixed lowDigitSmall (isPlain_of_mem_atLeast lowRestSmall) expr
                  inTail
              · rcases List.mem_ite_nil_right.mp inside with ⟨ordered, inside⟩
                rw [List.mem_singleton.mp inside]
                exact isPlain_free ordered (by split <;> omega)
            · have inTail := (List.mem_ite_nil_left.mp atHigh).2
              exact isPlain_prefixed highDigitSmall (isPlain_of_mem_atMost highRestSmall) expr
                inTail

end Plain

theorem isWritten_positive (low high : Nat) : (positive low high).IsWritten := by
  rw [positive_eq]
  apply isWritten_grouped
  intro expr member
  rcases List.mem_flatMap.mp member with ⟨count, -, member⟩
  exact (isPlain_of_mem_between le_nine_of_mem_lowest le_nine_of_mem_highest expr member).isWritten

end Digits

namespace Interval

open NumeralExpr

/-! ## Intervals -/

theorem denotes_numeralExpr (numeral text : Text) :
    (numeralExpr numeral).Denotes text ↔ text = numeral := by
  fun_induction numeralExpr numeral generalizing text with
  | case1 => rfl
  | case2 only => rfl
  | case3 c rest nonempty ih =>
      constructor
      · intro splits
        rcases splits with ⟨_, after, rfl, rfl, denotes⟩
        rw [(ih after).mp denotes]
        rfl
      · rintro rfl
        exact ⟨[c], rest, rfl, rfl, (ih rest).mpr rfl⟩

theorem isWritten_numeralExpr {numeral : Text} (ordinary : ∀ c ∈ numeral, c ∉ Regex.special) :
    (numeralExpr numeral).IsWritten := by
  fun_induction numeralExpr numeral with
  | case1 => exact .empty
  | case2 only => exact .char (ordinary only (List.mem_singleton_self only))
  | case3 c rest nonempty ih =>
      rcases List.forall_mem_cons.mp ordinary with ⟨first, later⟩
      exact .seq (.char first) (ih later)

theorem not_mem_special_of_mem_ofInt {number : Int} :
    ∀ c ∈ Numeral.ofInt number, c ∉ Regex.special := by
  have digits : ∀ c ∈ Numeral.ofNat number.natAbs, c ∉ Regex.special := by
    intro c member
    have digit := Numeral.isDigit_of_mem_ofNat member
    rw [← Numeral.digitChar_digitValue digit]
    exact Regex.digitChar_not_mem_special (Numeral.digitValue_le digit)
  rw [Numeral.ofInt]
  split
  case isTrue => exact List.forall_mem_cons.mpr ⟨by decide, digits⟩
  case isFalse => exact digits

/-- The numerals of the positive numbers between two are those of the integers between them. -/
theorem denotes_positive_int {low high : Nat} (positive : 0 < low) (ordered : low ≤ high)
    (text : Text) :
    (Digits.positive low high).Denotes text ↔
      ∃ number : Int, low ≤ number ∧ number ≤ high ∧ text = Numeral.ofInt number := by
  rw [Digits.denotes_positive positive ordered]
  constructor
  · intro someNumber
    rcases someNumber with ⟨number, above, below, rfl⟩
    exact ⟨number, by omega, by omega, by simp [Numeral.ofInt]⟩
  · intro someNumber
    rcases someNumber with ⟨number, above, below, rfl⟩
    refine ⟨number.natAbs, by omega, by omega, ?_⟩
    rw [Numeral.ofInt, if_neg (by omega)]

/-- The numerals of positive numbers behind a sign are those of the negative integers between. -/
theorem denotes_negated_int {low high : Nat} (positive : 0 < low) (ordered : low ≤ high)
    (text : Text) :
    (negated (Digits.positive low high)).Denotes text ↔
      ∃ number : Int, -high ≤ number ∧ number ≤ -low ∧ text = Numeral.ofInt number := by
  constructor
  · intro splits
    rcases splits with ⟨_, _, rfl, rfl, denotes⟩
    rcases (Digits.denotes_positive positive ordered _).mp denotes with ⟨number, above, below, rfl⟩
    refine ⟨-number, by omega, by omega, ?_⟩
    rw [Numeral.ofInt, if_pos (by omega), Int.natAbs_neg, Int.natAbs_natCast]
    rfl
  · intro someNumber
    rcases someNumber with ⟨number, above, below, rfl⟩
    rw [Numeral.ofInt, if_pos (by omega)]
    exact ⟨['-'], _, rfl, rfl, (Digits.denotes_positive positive ordered _).mpr
      ⟨number.natAbs, by omega, by omega, rfl⟩⟩

/-- Around zero the numerals are the zero, those below it and those above it. -/
theorem denotes_around_zero {first last : Int} (notAbove : first ≤ 0) (notBelow : 0 ≤ last)
    (text : Text) :
    (grouped ([.char '0'] ++
      (if first < 0 then [negated (Digits.positive 1 first.natAbs)] else []) ++
      (if 0 < last then [Digits.positive 1 last.natAbs] else []))).Denotes text ↔
      ∃ number : Int, first ≤ number ∧ number ≤ last ∧ text = Numeral.ofInt number := by
  have below (negative : first < 0) :
      (negated (Digits.positive 1 first.natAbs)).Denotes text ↔
        ∃ number : Int, first ≤ number ∧ number ≤ -1 ∧ text = Numeral.ofInt number := by
    have lowEnd : -(first.natAbs : Int) = first := by omega
    rw [denotes_negated_int (by decide) (by omega), lowEnd]
    rfl
  have above (positive : 0 < last) :
      (Digits.positive 1 last.natAbs).Denotes text ↔
        ∃ number : Int, 1 ≤ number ∧ number ≤ last ∧ text = Numeral.ofInt number := by
    have highEnd : (last.natAbs : Int) = last := by omega
    rw [denotes_positive_int (by decide) (by omega), highEnd]
    rfl
  rw [denotes_grouped (by simp)]
  constructor
  · intro chosen
    rcases chosen with ⟨expr, member, denotes⟩
    rcases List.mem_append.mp member with front | upper
    · rcases List.mem_append.mp front with zero | lower
      · rw [List.mem_singleton.mp zero] at denotes
        exact ⟨0, notAbove, notBelow, denotes⟩
      · rcases List.mem_ite_nil_right.mp lower with ⟨negative, same⟩
        rw [List.mem_singleton.mp same, below negative] at denotes
        rcases denotes with ⟨number, least, greatest, rfl⟩
        exact ⟨number, least, by omega, rfl⟩
    · rcases List.mem_ite_nil_right.mp upper with ⟨positive, same⟩
      rw [List.mem_singleton.mp same, above positive] at denotes
      rcases denotes with ⟨number, least, greatest, rfl⟩
      exact ⟨number, by omega, greatest, rfl⟩
  · intro someNumber
    rcases someNumber with ⟨number, least, greatest, rfl⟩
    rcases Int.lt_trichotomy number 0 with negative | rfl | positive
    · have firstNegative : first < 0 := lt_of_le_of_lt least negative
      have denotes := (below firstNegative).mpr ⟨number, least, by omega, rfl⟩
      exact ⟨_, by simp [firstNegative], denotes⟩
    · exact ⟨.char '0', by simp, rfl⟩
    · have lastPositive : 0 < last := lt_of_lt_of_le positive greatest
      have denotes := (above lastPositive).mpr ⟨number, by omega, greatest, rfl⟩
      exact ⟨_, by simp [lastPositive], denotes⟩

theorem denotes_expression (interval : Interval) (text : Text) :
    interval.expression.Denotes text ↔ interval.Denotes text := by
  have ordered := interval.ordered
  rw [expression, Interval.Denotes]
  split
  case isTrue same =>
    rw [denotes_numeralExpr]
    constructor
    · rintro rfl
      exact ⟨interval.first, le_refl _, ordered, rfl⟩
    · intro someNumber
      rcases someNumber with ⟨number, above, below, rfl⟩
      rw [show number = interval.first by omega]
  case isFalse different =>
    split
    case isTrue negative =>
      have lowEnd : -(interval.first.natAbs : Int) = interval.first := by omega
      have highEnd : -(interval.last.natAbs : Int) = interval.last := by omega
      rw [denotes_negated_int (by omega) (by omega), lowEnd, highEnd]
    case isFalse notNegative =>
      split
      case isTrue positive =>
        have lowEnd : (interval.first.natAbs : Int) = interval.first := by omega
        have highEnd : (interval.last.natAbs : Int) = interval.last := by omega
        rw [denotes_positive_int (by omega) (by omega), lowEnd, highEnd]
      case isFalse notPositive => exact denotes_around_zero (by omega) (by omega) text

theorem isWritten_expression (interval : Interval) : interval.expression.IsWritten := by
  have sides (low high : Nat) : (negated (Digits.positive low high)).IsWritten :=
    .seq (.char (by decide)) (Digits.isWritten_positive low high)
  rw [expression]
  split
  case isTrue => exact isWritten_numeralExpr not_mem_special_of_mem_ofInt
  case isFalse =>
    split
    case isTrue => exact sides _ _
    case isFalse =>
      split
      case isTrue => exact Digits.isWritten_positive _ _
      case isFalse =>
        apply isWritten_grouped
        intro expr member
        rcases List.mem_append.mp member with front | upper
        · rcases List.mem_append.mp front with zero | lower
          · rw [List.mem_singleton.mp zero]
            exact .char (by decide)
          · rw [List.mem_singleton.mp (List.mem_ite_nil_right.mp lower).2]
            exact sides _ _
        · rw [List.mem_singleton.mp (List.mem_ite_nil_right.mp upper).2]
          exact Digits.isWritten_positive _ _

/-- The matcher moves past exactly the canonical numerals in an interval. -/
theorem movesPast_expression (interval : Interval) :
    Marking.MovesPast interval.expression.advance interval.Denotes :=
  (movesPast_advance interval.isWritten_expression).congr interval.denotes_expression

/-! ## Matching -/

theorem exists_ofWords {first last : Int64} (ordered : first ≤ last)
    (notLeast : first ≠ Int64.minValue) :
    ∃ interval, ofWords first last = .ok interval ∧ interval.first = first.toInt ∧
      interval.last = last.toInt := by
  have bounds : first.toInt ≤ last.toInt ∧
      (Numeral.least < first.toInt ∧ last.toInt ≤ Numeral.greatest) := by
    have aboveLeast := first.le_toInt
    have belowGreatest := last.toInt_lt
    have different : first.toInt ≠ Int64.minValue.toInt :=
      fun same => notLeast (Int64.toInt_inj.mp same)
    rw [Int64.toInt_minValue] at different
    have leastValue : Numeral.least = -2 ^ 63 := by decide
    have greatestValue : Numeral.greatest = 2 ^ 63 - 1 := rfl
    exact ⟨Int64.le_iff_toInt_le.mp ordered, by omega, by omega⟩
  refine ⟨⟨first.toInt, last.toInt, bounds.1, bounds.2⟩, ?_, rfl, rfl⟩
  rw [ofWords, ofBounds?, dif_pos bounds]

theorem denotes_text_iff (interval : Interval) (text : Text) :
    Regex.Denotes interval.expression.text text ↔
      ∃ number : Int, interval.first ≤ number ∧ number ≤ interval.last ∧
        Numeral.IsCanonical text number := by
  rw [interval.isWritten_expression.denotes_text, denotes_expression]
  simp only [Numeral.isCanonical_iff]
  rfl

theorem matchesAll_numerals_iff (interval : Interval) (text : Text) :
    Item.matchesAll [.numerals interval] text = true ↔
      ∃ number : Int, interval.first ≤ number ∧ number ≤ interval.last ∧
        Numeral.IsCanonical text number := by
  simp only [Numeral.isCanonical_iff]
  exact interval.movesPast_expression.atEnd_iff text

/-- Two words in order, the first of which is not the least word, make an interval. The regular
expression written for it denotes exactly the canonical numerals of the integers between them, among
all texts, and its matcher accepts exactly these, so the numeral of a word is accepted exactly when
the interval contains it. -/
theorem matchesAll_iff_isCanonical (first last : Int64) (ordered : first ≤ last)
    (notLeast : first ≠ Int64.minValue) :
    ∃ interval, ofWords first last = .ok interval ∧
      (∀ text, Regex.Denotes interval.expression.text text ↔
        ∃ number : Int, first.toInt ≤ number ∧ number ≤ last.toInt ∧
          Numeral.IsCanonical text number) ∧
      (∀ text, Item.matchesAll [.numerals interval] text = true ↔
        ∃ number : Int, first.toInt ≤ number ∧ number ≤ last.toInt ∧
          Numeral.IsCanonical text number) ∧
      ∀ number : Int64, Item.matchesAll [.numerals interval] (Numeral.ofInt number.toInt) =
        interval.contains number.toInt := by
  rcases exists_ofWords ordered notLeast with ⟨interval, read, firstEq, lastEq⟩
  refine ⟨interval, read, fun text => ?_, fun text => ?_, fun number => ?_⟩
  · rw [denotes_text_iff, firstEq, lastEq]
  · rw [matchesAll_numerals_iff, firstEq, lastEq]
  · rw [Bool.eq_iff_iff, matchesAll_numerals_iff, contains, Bool.and_eq_true, decide_eq_true_eq,
      decide_eq_true_eq]
    constructor
    · intro someNumber
      rcases someNumber with ⟨other, above, below, canonical⟩
      rw [Numeral.ofInt_injective (Numeral.isCanonical_iff.mp canonical)]
      exact ⟨above, below⟩
    · intro inside
      rcases inside with ⟨above, below⟩
      exact ⟨_, above, below, Numeral.isCanonical_iff.mpr rfl⟩

theorem matchesAll_iff_isCanonical_around_zero :
    (-12 : Int64) ≤ 105 ∧ (-12 : Int64) ≠ Int64.minValue ∧
      ∃ interval, ofWords (-12) 105 = .ok interval ∧
        Item.matchesAll [.numerals interval] ['-', '7'] = true ∧
        Item.matchesAll [.numerals interval] ['0', '0', '7'] = false := by
  have ordered : (-12 : Int64) ≤ 105 := by decide
  have notLeast : (-12 : Int64) ≠ Int64.minValue := by decide
  rcases matchesAll_iff_isCanonical (-12) 105 ordered notLeast with
    ⟨interval, read, -, accepts, -⟩
  refine ⟨ordered, notLeast, interval, read, ?_, ?_⟩
  · have canonical : Numeral.IsCanonical ['-', '7'] (-(Numeral.value ['7'] : Int)) :=
      .negative (List.forall_mem_singleton.mpr (by decide)) (by decide)
    exact (accepts _).mpr ⟨_, by decide, by decide, canonical⟩
  · rw [Bool.eq_false_iff, ne_eq, accepts]
    intro someNumber
    rcases someNumber with ⟨number, -, -, canonical⟩
    cases canonical with
    | positive _ notZero => exact notZero rfl

end Interval

end Glob

end PropertyCascade
