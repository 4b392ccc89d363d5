import PropertyCascade.Proofs.Number.Shortest
import PropertyCascade.Proofs.Text.Cut

/-!
# Positional texts

The text of a decimal has all its digits before a point, or some on either side of it, and reading
such a text gives a decimal of the same value. It has no zero at the front that could be left out,
so it is a numeral for grammars that forbid leading zeros.
-/

namespace PropertyCascade

namespace Numeral

theorem value_zeros_append (count : Nat) (digits : Text) :
    value (List.replicate count '0' ++ digits) = value digits := by
  induction count with
  | zero => rfl
  | succ count ih =>
      rw [List.replicate_succ, List.cons_append, value_cons, ih]
      simp [digitValue]

theorem value_append_zeros (digits : Text) (count : Nat) :
    value (digits ++ List.replicate count '0') = value digits * 10 ^ count := by
  induction count with
  | zero => simp
  | succ count ih =>
      rw [List.replicate_succ', ← List.append_assoc, value_append_singleton, ih, pow_succ,
        show digitValue '0' = 0 from rfl]
      ring

theorem head?_ofNat_ne {number : Nat} (nonzero : number ≠ 0) : (ofNat number).head? ≠ some '0' := by
  rcases exists_lead (Nat.pos_of_ne_zero nonzero) with ⟨lead, rest, digits, -, notZero, -⟩
  simpa [digits] using notZero

end Numeral

namespace Decimal

open Numeral

/-- The sign before a magnitude. -/
def signText (negative : Bool) : Text :=
  if negative then ['-'] else []

/-- Digits before and after a point that denote a magnitude, without a leading zero. -/
structure IsPositional (whole fraction : Text) (magnitude : ℚ) : Prop where
  whole_digits : ∀ c ∈ whole, isDigit c = true
  fraction_digits : ∀ c ∈ fraction, isDigit c = true
  whole_ne_nil : whole ≠ []
  fraction_ne_nil : fraction ≠ []
  no_leading_zero : whole.head? ≠ some '0' ∨ whole.length = 1
  value_eq : (value (whole ++ fraction) * 10 ^ (-(fraction.length : Int)) : ℚ) = magnitude

/-- A magnitude without a fraction is one with a zero after the point. -/
theorem isPositional_whole {coefficient : Nat} {exponent : Int} (nonneg : 0 ≤ exponent)
    (nonzero : coefficient ≠ 0 ∨ exponent = 0) :
    IsPositional (magnitudeText coefficient exponent) ['0'] (coefficient * 10 ^ exponent) := by
  rw [magnitudeText, if_pos nonneg]
  refine ⟨fun c member => ?_, List.forall_mem_singleton.mpr (by decide), by simp [ofNat_ne_nil],
    by simp, ?_, ?_⟩
  · rcases List.mem_append.mp member with inDigits | inZeros
    · exact isDigit_of_mem_ofNat inDigits
    · rw [List.eq_of_mem_replicate inZeros]
      decide
  · rcases nonzero with nonzero | rfl
    · rw [List.head?_append_of_ne_nil _ (ofNat_ne_nil _)]
      exact Or.inl (head?_ofNat_ne nonzero)
    · by_cases isZero : coefficient = 0
      · rw [isZero]
        exact Or.inr rfl
      · exact Or.inl (by simpa using head?_ofNat_ne isZero)
  · rw [value_append_singleton, value_append_zeros, value_ofNat, show digitValue '0' = 0 from rfl]
    simp [← pow_toNat 10 nonneg]
    ring

/-- A magnitude with a fraction has at least one digit before the point. -/
theorem exists_isPositional (coefficient : Nat) {exponent : Int} (negative : exponent < 0) :
    ∃ whole fraction, magnitudeText coefficient exponent = whole ++ '.' :: fraction ∧
      IsPositional whole fraction (coefficient * 10 ^ exponent) := by
  set places := (-exponent).toNat with placesEq
  set padded := List.replicate (places + 1 - (ofNat coefficient).length) '0' ++ ofNat coefficient
    with paddedEq
  have paddedLength : padded.length =
      places + 1 - (ofNat coefficient).length + (ofNat coefficient).length := by simp [padded]
  have paddedDigits : ∀ c ∈ padded, isDigit c = true := by
    intro c member
    rcases List.mem_append.mp member with inZeros | inDigits
    · rw [List.eq_of_mem_replicate inZeros]
      decide
    · exact isDigit_of_mem_ofNat inDigits
  have fractionLength : (padded.drop (padded.length - places)).length = places := by
    rw [List.length_drop]
    omega
  have wholeLength : (padded.take (padded.length - places)).length = padded.length - places := by
    rw [List.length_take]
    omega
  refine ⟨padded.take (padded.length - places), padded.drop (padded.length - places), ?_,
    fun c member => paddedDigits c (List.mem_of_mem_take member),
    fun c member => paddedDigits c (List.mem_of_mem_drop member), ?_, ?_, ?_, ?_⟩
  · rw [magnitudeText, if_neg (by omega)]
  · rw [← List.length_pos_iff_ne_nil, wholeLength]
    omega
  · rw [← List.length_pos_iff_ne_nil, fractionLength]
    omega
  · by_cases short : (ofNat coefficient).length < places + 1
    · exact Or.inr (by omega)
    · have nonzero : coefficient ≠ 0 := by
        rintro rfl
        exact short (by rw [show (ofNat 0).length = 1 from rfl]; omega)
      have unpadded : padded = ofNat coefficient := by
        rw [paddedEq, show places + 1 - (ofNat coefficient).length = 0 by omega]
        rfl
      refine Or.inl ?_
      rw [List.head?_take, if_neg (by omega), unpadded]
      exact head?_ofNat_ne nonzero
  · rw [List.take_append_drop, fractionLength, paddedEq, value_zeros_append, value_ofNat]
    congr 2
    omega

theorem text_eq (decimal : Decimal) :
    decimal.text =
      signText decimal.negative ++ magnitudeText decimal.coefficient decimal.exponent := by
  rw [text, signText]
  cases decimal.negative <;> rfl

theorem takeSign_signText {magnitude : Text} (negative : Bool)
    (digit : magnitude.head?.any isDigit = true) :
    takeSign (signText negative ++ magnitude) = (negative, magnitude) := by
  cases negative with
  | true => rfl
  | false =>
      cases magnitude with
      | nil => cases digit
      | cons c rest => exact takeSign_of_isDigit (by simpa using digit)

theorem IsPositional.head?_whole {whole fraction : Text} {magnitude : ℚ}
    (positional : IsPositional whole fraction magnitude) (rest : Text) :
    (whole ++ rest).head?.any isDigit = true := by
  rcases List.exists_cons_of_ne_nil positional.whole_ne_nil with ⟨c, after, rfl⟩
  simpa using positional.whole_digits c List.mem_cons_self

/-- A positional text is read as a decimal with its sign and its digits. -/
theorem read?_positional {whole fraction : Text} {magnitude : ℚ} (negative : Bool)
    (positional : IsPositional whole fraction magnitude) :
    read? (signText negative ++ (whole ++ '.' :: fraction)) =
      some ⟨negative, value (whole ++ fraction), -(fraction.length : Int)⟩ := by
  have sign := takeSign_signText negative (positional.head?_whole ('.' :: fraction))
  have cut : (whole ++ '.' :: fraction).span isDigit = (whole, '.' :: fraction) :=
    Text.span_append positional.whole_digits rfl
  have cutFraction : fraction.span isDigit = (fraction, []) := by
    have stops : Text.Stops isDigit [] := rfl
    simpa only [List.append_nil] using Text.span_append positional.fraction_digits stops
  have digits : whole ++ fraction ≠ [] := by simp [positional.whole_ne_nil]
  simp only [read?, sign, cut, Decimal.fraction, cutFraction, if_neg digits]
  simp [exponent?]

/-- The digits of the shortest decimal of a number are read as that number. -/
theorem ofDecimal?_positional {number : Binary64} {whole fraction : Text}
    (positional : IsPositional whole fraction number.shortest.magnitude) :
    Binary64.ofDecimal? ⟨number.negative, value (whole ++ fraction), -(fraction.length : Int)⟩ =
      some number := by
  refine Binary64.ofDecimal?_of_covers rfl ?_
  rw [Decimal.magnitude, positional.value_eq]
  exact number.covers_shortest

end Decimal

end PropertyCascade
