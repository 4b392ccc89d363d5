import Mathlib.Data.Nat.Digits.Lemmas
import PropertyCascade.Number.Numeral

/-!
# Values of numerals

A sequence of digits is determined by its length and its value, and the sequences of one length are
in the order of their values. The canonical numeral of a number is the sequence of digits with that
value that does not start with a zero, so canonical numerals can be recognised by their digits
alone.
-/

namespace PropertyCascade

namespace Numeral

/-! ## Digits -/

theorem isDigit_iff {c : Char} : isDigit c = true ↔ 48 ≤ c.toNat ∧ c.toNat ≤ 57 := by
  simp [isDigit, Char.le_def, UInt32.le_iff_toNat_le]

theorem digitValue_le {c : Char} (digit : isDigit c = true) : digitValue c ≤ 9 := by
  have := (isDigit_iff.mp digit).2
  simp only [digitValue]
  omega

theorem isDigit_digitChar {value : Nat} (small : value ≤ 9) :
    isDigit (Nat.digitChar value) = true := by
  rw [isDigit_iff, Nat.toNat_digitChar_of_lt_ten (by omega)]
  omega

@[simp]
theorem digitValue_digitChar {value : Nat} (small : value ≤ 9) :
    digitValue (Nat.digitChar value) = value := by
  rw [digitValue, Nat.toNat_digitChar_of_lt_ten (by omega)]
  omega

theorem eq_of_digitValue_eq {c other : Char} (digit : isDigit c = true)
    (otherDigit : isDigit other = true) (same : digitValue c = digitValue other) : c = other := by
  rcases isDigit_iff.mp digit with ⟨low, -⟩
  rcases isDigit_iff.mp otherDigit with ⟨otherLow, -⟩
  simp only [digitValue] at same
  exact Char.toNat_inj.mp (by omega)

theorem digitChar_digitValue {c : Char} (digit : isDigit c = true) :
    Nat.digitChar (digitValue c) = c := by
  have small := digitValue_le digit
  exact eq_of_digitValue_eq (isDigit_digitChar small) digit (digitValue_digitChar small)

/-! ## Values -/

theorem value_cons (c : Char) (digits : Text) :
    value (c :: digits) = digitValue c * 10 ^ digits.length + value digits := by
  have general (number : Nat) :
      digits.foldl (fun number digit => 10 * number + digitValue digit) number =
        number * 10 ^ digits.length + value digits := by
    rw [value]
    induction digits generalizing number with
    | nil => simp
    | cons digit rest ih =>
        rw [List.foldl_cons, ih, List.foldl_cons, ih (10 * 0 + digitValue digit),
          List.length_cons, Nat.pow_succ]
        ring
  rw [value, List.foldl_cons, general]
  simp

theorem value_lt {digits : Text} (allDigits : ∀ c ∈ digits, isDigit c = true) :
    value digits < 10 ^ digits.length := by
  induction digits with
  | nil => simp [value]
  | cons c rest ih =>
      have first := digitValue_le (allDigits c List.mem_cons_self)
      have later := ih fun digit member => allDigits digit (List.mem_cons_of_mem _ member)
      have : digitValue c * 10 ^ rest.length ≤ 9 * 10 ^ rest.length :=
        Nat.mul_le_mul_right _ first
      rw [value_cons, List.length_cons, Nat.pow_succ]
      omega

/-- Numbers with a leading digit are compared by that digit first. -/
theorem lead_le_lead_iff {width digit other rest otherRest : Nat} (restSmall : rest < 10 ^ width)
    (otherSmall : otherRest < 10 ^ width) :
    digit * 10 ^ width + rest ≤ other * 10 ^ width + otherRest ↔
      digit < other ∨ digit = other ∧ rest ≤ otherRest := by
  rcases Nat.lt_trichotomy digit other with less | rfl | greater
  · have : (digit + 1) * 10 ^ width ≤ other * 10 ^ width := Nat.mul_le_mul_right _ less
    rw [Nat.add_mul, Nat.one_mul] at this
    exact ⟨fun _ => Or.inl less, fun _ => by omega⟩
  · omega
  · have : (other + 1) * 10 ^ width ≤ digit * 10 ^ width := Nat.mul_le_mul_right _ greater
    rw [Nat.add_mul, Nat.one_mul] at this
    exact ⟨fun _ => by omega, fun _ => by omega⟩

theorem eq_of_value_eq {digits others : Text} (allDigits : ∀ c ∈ digits, isDigit c = true)
    (allOthers : ∀ c ∈ others, isDigit c = true) (sameLength : digits.length = others.length)
    (sameValue : value digits = value others) : digits = others := by
  induction digits generalizing others with
  | nil => exact (List.length_eq_zero_iff.mp sameLength.symm).symm
  | cons c rest ih =>
      cases others with
      | nil => simp at sameLength
      | cons other otherRest =>
          rcases List.forall_mem_cons.mp allDigits with ⟨digit, restDigits⟩
          rcases List.forall_mem_cons.mp allOthers with ⟨otherDigit, otherDigits⟩
          have lengths : rest.length = otherRest.length := by simpa using sameLength
          have small := value_lt restDigits
          have otherSmall := value_lt otherDigits
          rw [lengths] at small
          rw [value_cons, value_cons, lengths] at sameValue
          have atMost := (lead_le_lead_iff small otherSmall).mp sameValue.le
          have atLeast := (lead_le_lead_iff otherSmall small).mp sameValue.ge
          have sameDigit : digitValue c = digitValue other := by omega
          have sameRest : value rest = value otherRest := by omega
          rw [eq_of_digitValue_eq digit otherDigit sameDigit,
            ih restDigits otherDigits lengths sameRest]

/-! ## Canonical numerals -/

theorem isDigit_of_mem_ofNat {number : Nat} {c : Char} (member : c ∈ ofNat number) :
    isDigit c = true := by
  have digit := Nat.isDigit_of_mem_toDigits (by decide) (by decide) member
  simpa [Char.isDigit, isDigit, Char.le_def, UInt32.le_iff_toNat_le] using digit

theorem value_append_singleton (digits : Text) (c : Char) :
    value (digits ++ [c]) = 10 * value digits + digitValue c := by
  simp [value]

theorem value_ofNat (number : Nat) : value (ofNat number) = number := by
  induction number using Nat.strongRecOn with
  | ind number ih =>
      have lastSmall : number % 10 ≤ 9 := by omega
      rw [ofNat, Nat.toDigits_eq_if (by decide)]
      split
      case isTrue small =>
        rw [value_cons, digitValue_digitChar (by omega)]
        simp [value]
      case isFalse large =>
        have front := ih (number / 10) (by omega)
        rw [ofNat] at front
        rw [value_append_singleton, front, digitValue_digitChar lastSmall]
        omega

theorem ofNat_ne_nil (number : Nat) : ofNat number ≠ [] :=
  Nat.toDigits_ne_nil

theorem lt_pow_length_ofNat (number : Nat) : number < 10 ^ (ofNat number).length := by
  have small := value_lt fun c (member : c ∈ ofNat number) => isDigit_of_mem_ofNat member
  rwa [value_ofNat] at small

theorem pow_length_ofNat_le {number : Nat} (positive : 0 < number) :
    10 ^ ((ofNat number).length - 1) ≤ number := by
  by_contra less
  have longer : 0 < (ofNat number).length - 1 := by
    by_contra short
    rw [Nat.eq_zero_of_not_pos short] at less
    omega
  have := (Nat.length_toDigits_le_iff (by decide) longer).mpr (Nat.lt_of_not_le less)
  simp only [ofNat] at longer this
  omega

/-- A sequence of digits that is large enough for its length is a canonical numeral. -/
theorem eq_ofNat_value {digits : Text} (allDigits : ∀ c ∈ digits, isDigit c = true)
    (large : 10 ^ (digits.length - 1) ≤ value digits) : digits = ofNat (value digits) := by
  have positive : 0 < value digits := lt_of_lt_of_le (Nat.pow_pos (by decide)) large
  have upper := value_lt allDigits
  have lengths : digits.length = (ofNat (value digits)).length := by
    have canonicalUpper := lt_pow_length_ofNat (value digits)
    have canonicalLower := pow_length_ofNat_le positive
    have above : digits.length - 1 < (ofNat (value digits)).length :=
      (Nat.pow_lt_pow_iff_right (by decide)).mp (lt_of_le_of_lt large canonicalUpper)
    have below : (ofNat (value digits)).length - 1 < digits.length :=
      (Nat.pow_lt_pow_iff_right (by decide)).mp (lt_of_le_of_lt canonicalLower upper)
    omega
  exact eq_of_value_eq allDigits (fun c member => isDigit_of_mem_ofNat member) lengths
    (value_ofNat _).symm

/-- A canonical numeral: a zero alone, or digits of which the first is not zero, with or without a
minus sign. -/
inductive IsCanonical : Text → Int → Prop where
  | zero : IsCanonical ['0'] 0
  | positive {lead : Char} {rest : Text} (allDigits : ∀ c ∈ lead :: rest, isDigit c = true)
      (notZero : lead ≠ '0') : IsCanonical (lead :: rest) (value (lead :: rest))
  | negative {lead : Char} {rest : Text} (allDigits : ∀ c ∈ lead :: rest, isDigit c = true)
      (notZero : lead ≠ '0') : IsCanonical ('-' :: lead :: rest) (-(value (lead :: rest) : Int))

theorem pow_le_value_iff {lead : Char} {rest : Text}
    (allDigits : ∀ c ∈ lead :: rest, isDigit c = true) :
    10 ^ rest.length ≤ value (lead :: rest) ↔ lead ≠ '0' := by
  rcases List.forall_mem_cons.mp allDigits with ⟨digit, restDigits⟩
  have small := value_lt restDigits
  have compared : 10 ^ rest.length ≤ value (lead :: rest) ↔
      1 < digitValue lead ∨ 1 = digitValue lead ∧ 0 ≤ value rest := by
    rw [value_cons, ← lead_le_lead_iff (Nat.pow_pos (by decide)) small, Nat.one_mul, Nat.add_zero]
  rw [compared]
  have isZero : digitValue lead = 0 ↔ lead = '0' :=
    ⟨fun same => eq_of_digitValue_eq digit (by decide) same, fun same => by rw [same]; rfl⟩
  rw [ne_eq, ← isZero]
  omega

theorem exists_lead {number : Nat} (positive : 0 < number) :
    ∃ lead rest, ofNat number = lead :: rest ∧ (∀ c ∈ lead :: rest, isDigit c = true) ∧
      lead ≠ '0' ∧ value (lead :: rest) = number := by
  rcases List.exists_cons_of_ne_nil (ofNat_ne_nil number) with ⟨lead, rest, digits⟩
  have allDigits : ∀ c ∈ lead :: rest, isDigit c = true :=
    fun c member => isDigit_of_mem_ofNat (digits ▸ member)
  have valueEq : value (lead :: rest) = number := by rw [← digits, value_ofNat]
  refine ⟨lead, rest, digits, allDigits, ?_, valueEq⟩
  rw [← pow_le_value_iff allDigits, valueEq]
  simpa [digits] using pow_length_ofNat_le positive

/-- The canonical numerals are those that the library writes. -/
theorem isCanonical_iff {text : Text} {number : Int} :
    IsCanonical text number ↔ text = ofInt number := by
  have canonical {lead : Char} {rest : Text} (allDigits : ∀ c ∈ lead :: rest, isDigit c = true)
      (notZero : lead ≠ '0') :
      0 < value (lead :: rest) ∧ lead :: rest = ofNat (value (lead :: rest)) := by
    have large := (pow_le_value_iff allDigits).mpr notZero
    exact ⟨lt_of_lt_of_le (Nat.pow_pos (by decide)) large,
      eq_ofNat_value allDigits (by simpa using large)⟩
  constructor
  · intro isCanonical
    cases isCanonical with
    | zero => rfl
    | positive allDigits notZero =>
        rcases canonical allDigits notZero with ⟨-, written⟩
        rw [ofInt, if_neg (by omega), Int.natAbs_natCast, ← written]
    | negative allDigits notZero =>
        rcases canonical allDigits notZero with ⟨positive, written⟩
        rw [ofInt, if_pos (by omega), Int.natAbs_neg, Int.natAbs_natCast, ← written]
  · rintro rfl
    rcases Int.lt_trichotomy number 0 with below | rfl | above
    · have positive : 0 < number.natAbs := by omega
      rcases exists_lead positive with ⟨lead, rest, digits, allDigits, notZero, valueEq⟩
      have written := IsCanonical.negative allDigits notZero
      have negated : -(number.natAbs : Int) = number := by omega
      rw [valueEq, negated] at written
      rwa [ofInt, if_pos below, digits]
    · exact .zero
    · have positive : 0 < number.natAbs := by omega
      rcases exists_lead positive with ⟨lead, rest, digits, allDigits, notZero, valueEq⟩
      have written := IsCanonical.positive allDigits notZero
      have kept : (number.natAbs : Int) = number := by omega
      rw [valueEq, kept] at written
      rwa [ofInt, if_neg (by omega), digits]

/-! ## Reading numerals back -/

theorem takeSign_of_isDigit {c : Char} {rest : Text} (digit : isDigit c = true) :
    takeSign (c :: rest) = (false, c :: rest) := by
  have notMinus : c ≠ '-' := by
    rintro rfl
    exact absurd digit (by decide)
  have notPlus : c ≠ '+' := by
    rintro rfl
    exact absurd digit (by decide)
  simp [takeSign, notMinus, notPlus]

theorem isDigit_or_sign_of_int? {text : Text} {number : Int} (read : int? text = some number) :
    ∀ c ∈ text, isDigit c = true ∨ c = '-' ∨ c = '+' := by
  have allDigits {digits : Text} {value : Nat} (read : nat? digits = some value) :
      ∀ c ∈ digits, isDigit c = true := by
    rw [nat?] at read
    split at read
    case isTrue valid => exact List.all_eq_true.mp valid.2
    case isFalse => cases read
  intro c member
  rw [int?, Option.map_eq_some_iff] at read
  rcases read with ⟨magnitude, read, -⟩
  rcases Option.bind_eq_some_iff.mp read with ⟨value, read, -⟩
  have inDigits : c ∈ (takeSign text).2 ∨ c = '-' ∨ c = '+' := by
    unfold takeSign
    split
    · rcases List.mem_cons.mp member with same | later
      · exact Or.inr (Or.inl same)
      · exact Or.inl later
    · rcases List.mem_cons.mp member with same | later
      · exact Or.inr (Or.inr same)
      · exact Or.inl later
    · exact Or.inl member
  exact inDigits.imp_left (allDigits read c)

theorem int?_ofInt (number : Int) : int? (ofInt number) = some number := by
  have digits : nat? (ofNat number.natAbs) = some number.natAbs := by
    have allDigits : (ofNat number.natAbs).all isDigit = true :=
      List.all_eq_true.mpr fun c member => isDigit_of_mem_ofNat member
    rw [nat?, if_pos ⟨ofNat_ne_nil _, allDigits⟩, value_ofNat]
  rw [ofInt]
  split
  case isTrue below => simp [int?, takeSign, digits, abs_of_neg below]
  case isFalse above =>
    rcases List.exists_cons_of_ne_nil (ofNat_ne_nil number.natAbs) with ⟨lead, rest, written⟩
    have member : lead ∈ ofNat number.natAbs := by simp [written]
    rw [written] at digits ⊢
    have kept : (number.natAbs : Int) = number := by omega
    simp only [int?, takeSign_of_isDigit (isDigit_of_mem_ofNat member), digits]
    simp [kept]

theorem ofInt_injective {number other : Int} (same : ofInt number = ofInt other) :
    number = other := by
  rw [← Option.some.injEq, ← int?_ofInt number, same, int?_ofInt]

/-! ## Words -/

theorem toInt_of_word? {number : Int} {word : Int64} (read : word? number = some word) :
    word.toInt = number := by
  rw [word?] at read
  split at read
  case isTrue bounds =>
    rcases bounds with ⟨above, below⟩
    rw [← Option.some.inj read]
    have leastValue : least = -2 ^ 63 := by decide
    have greatestValue : greatest = 2 ^ 63 - 1 := rfl
    exact Int64.toInt_ofInt_of_le (by omega) (by omega)
  case isFalse => cases read

theorem word?_toInt (word : Int64) : word? word.toInt = some word := by
  have least : least = -2 ^ 63 := by decide
  have greatest : greatest = 2 ^ 63 - 1 := rfl
  have above := word.le_toInt
  have below := word.toInt_lt
  rw [word?, if_pos ⟨by omega, by omega⟩, Int64.ofInt_toInt]

end Numeral

end PropertyCascade
