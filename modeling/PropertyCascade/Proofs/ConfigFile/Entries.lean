import PropertyCascade.Proofs.ConfigFile.Lines
import PropertyCascade.Proofs.Number.Numeral
import PropertyCascade.Proofs.Text.Cut

/-!
# Entries on a line

What an assignment gives a key can be written on one line again: key, `=` and the text that is shown
for the value. Neither side has a line end, the first `=` is the one in between, and the line cannot
be taken for a header. A key may start with a bracket, and a text may end with one, but not both in
one assignment, for its line would have been a header. Only texts are shown with brackets at all.
-/

namespace PropertyCascade

namespace Decimal

open Numeral

theorem isDigit_or_point_of_mem_magnitudeText {coefficient : Nat} {exponent : Int} {c : Char}
    (member : c ∈ magnitudeText coefficient exponent) : isDigit c = true ∨ c = '.' := by
  have digitOfZeros {count : Nat} (zero : c ∈ List.replicate count '0') : isDigit c = true := by
    rw [List.eq_of_mem_replicate zero]
    decide
  rw [magnitudeText] at member
  split at member
  case isTrue =>
    rcases List.mem_append.mp member with inDigits | inZeros
    · exact Or.inl (isDigit_of_mem_ofNat inDigits)
    · exact Or.inl (digitOfZeros inZeros)
  case isFalse =>
    have digitOfPadded {count : Nat}
        (padded : c ∈ List.replicate count '0' ++ ofNat coefficient) : isDigit c = true :=
      (List.mem_append.mp padded).elim digitOfZeros isDigit_of_mem_ofNat
    rcases List.mem_append.mp member with before | after
    · exact Or.inl (digitOfPadded (List.mem_of_mem_take before))
    · rcases List.mem_cons.mp after with isPoint | inFraction
      · exact Or.inr isPoint
      · exact Or.inl (digitOfPadded (List.mem_of_mem_drop inFraction))

end Decimal

namespace Value

/-- A character of the texts that are shown for flags and numbers. -/
def isTyped (c : Char) : Bool :=
  Numeral.isDigit c || c.isLower || c == '-' || c == '.'

theorem isTyped_of_isDigit {c : Char} (digit : Numeral.isDigit c = true) : isTyped c = true := by
  simp [isTyped, digit]

theorem isTyped_of_mem_display {value : Value} (typed : value.text? = none) {c : Char}
    (member : c ∈ value.display) : isTyped c = true := by
  cases value with
  | text content => cases typed
  | flag truth =>
      have all : (flagText truth).all isTyped = true := by cases truth <;> rfl
      exact List.all_eq_true.mp all c member
  | integer n =>
      rw [display, Numeral.ofInt] at member
      split at member
      case isTrue =>
        rcases List.mem_cons.mp member with rfl | digit
        · decide
        · exact isTyped_of_isDigit (Numeral.isDigit_of_mem_ofNat digit)
      case isFalse => exact isTyped_of_isDigit (Numeral.isDigit_of_mem_ofNat member)
  | number x =>
      have magnitude {coefficient : Nat} {exponent : Int}
          (inMagnitude : c ∈ Decimal.magnitudeText coefficient exponent) : isTyped c = true := by
        rcases Decimal.isDigit_or_point_of_mem_magnitudeText inMagnitude with digit | rfl
        · exact isTyped_of_isDigit digit
        · decide
      rw [display, Binary64.text, Decimal.text] at member
      split at member
      case isTrue =>
        rcases List.mem_cons.mp member with rfl | inMagnitude
        · decide
        · exact magnitude inMagnitude
      case isFalse => exact magnitude member

/-- A text that is not typed is shown as it was written. -/
theorem display_ofText {raw content : Text} (untyped : (ofText raw).text? = some content) :
    (ofText raw).display = raw := by
  unfold ofText at untyped ⊢
  split_ifs at untyped ⊢
  · cases untyped
  · cases untyped
  · split at untyped
    · cases untyped
    · split at untyped
      · cases untyped
      · rfl

/-- The text shown for the value of a text is the text itself, if it has any character that is not
found in the texts of flags and numbers. -/
theorem display_ofText_of_mem {raw : Text} {c : Char} (member : c ∈ (ofText raw).display)
    (untyped : isTyped c = false) : (ofText raw).display = raw := by
  cases kind : (ofText raw).text? with
  | none => exact absurd (isTyped_of_mem_display kind member) (by simp [untyped])
  | some content => exact display_ofText kind

end Value

namespace Statement

open Text

/-- An assignment is a key and a raw value around the first `=` of its line, with blanks anywhere
around the two. -/
theorem exists_blanks_of_assignment {line key : Text} {value : Value}
    (said : ofLine? line = some (assignment key value)) :
    ∃ beforeKey afterKey beforeValue raw afterValue, IsBlank beforeKey ∧ IsBlank afterValue ∧
      '=' ∉ key ∧ value = Value.ofText raw ∧
      line = beforeKey ++ key ++ afterKey ++ '=' :: (beforeValue ++ raw ++ afterValue) := by
  rw [ofLine?, ofTrimmed?] at said
  split at said
  case isTrue => cases said
  case isFalse =>
    split at said
    case h_1 => cases said
    case h_2 =>
      rw [assignment?] at said
      split at said
      case h_1 => cases said
      case h_2 front back cut =>
        simp only at said
        split at said
        case isTrue => cases said
        case isFalse =>
          rcases Option.some.inj said with ⟨⟩
          rcases eq_append_of_cutFirst cut with ⟨notInFront, trimmed⟩
          rcases exists_blanks_around line with ⟨first, last, firstBlank, lastBlank, whole⟩
          rcases exists_blanks_around front with ⟨second, afterKey, secondBlank, -, frontWhole⟩
          rcases exists_blanks_around back with ⟨beforeValue, third, -, thirdBlank, backWhole⟩
          refine ⟨first ++ second, afterKey, beforeValue, trim back, third ++ last,
            firstBlank.append secondBlank, thirdBlank.append lastBlank,
            fun member => notInFront (mem_of_mem_trim member), rfl, ?_⟩
          conv_lhs => rw [whole, trimmed, frontWhole, backWhole]
          simp

/-- A key and the text of a value that can be told apart on a line, which is no header. -/
structure FitsLine (entry : Text × Value) : Prop where
  key_oneLine : '\n' ∉ entry.1
  key_uncut : '=' ∉ entry.1
  display_oneLine : '\n' ∉ entry.2.display
  not_header : pattern? (entry.1 ++ '=' :: entry.2.display) = none

/-- Of the brackets around a line with `=`, one belongs to what stands before it and one to what
stands after it. -/
theorem exists_of_bracketed {key shown pattern : Text}
    (bracketed : pattern? (key ++ '=' :: shown) = some pattern) :
    ∃ keyRest front, key = '[' :: keyRest ∧ shown = front ++ [']'] := by
  have whole := pattern?_eq_some_iff.mp bracketed
  cases key with
  | nil => simp at whole
  | cons first keyRest =>
      simp only [List.cons_append, List.cons.injEq] at whole
      rcases whole with ⟨rfl, between⟩
      have isLast : (keyRest ++ '=' :: shown).getLast? = some ']' := by
        rw [between, List.getLast?_concat]
      cases shown with
      | nil => simp at isLast
      | cons c rest =>
          have isLastShown : (c :: rest).getLast? = some ']' := by simpa using isLast
          rcases List.getLast?_eq_some_iff.mp isLastShown with ⟨front, shown⟩
          exact ⟨keyRest, front, rfl, shown⟩

/-- What a line assigns fits on a line. -/
theorem fitsLine_of_ofLine? {line key : Text} {value : Value} (oneLine : '\n' ∉ line)
    (said : ofLine? line = some (assignment key value)) : FitsLine (key, value) := by
  rcases exists_blanks_of_assignment said with ⟨beforeKey, afterKey, beforeValue, raw, afterValue,
    beforeKeyBlank, afterValueBlank, noSignInKey, rfl, written⟩
  have keyInLine {c : Char} (member : c ∈ key) : c ∈ line := by simp [written, member]
  have rawInLine {c : Char} (member : c ∈ raw) : c ∈ line := by simp [written, member]
  refine ⟨fun inKey => oneLine (keyInLine inKey), noSignInKey, fun inDisplay => ?_, ?_⟩
  · have shown : (Value.ofText raw).display = raw :=
      Value.display_ofText_of_mem inDisplay (by decide)
    exact oneLine (rawInLine (shown ▸ inDisplay))
  · apply Option.eq_none_iff_forall_ne_some.mpr
    intro pattern bracketed
    rcases exists_of_bracketed bracketed with ⟨keyRest, front, rfl, shown⟩
    have closing : ']' ∈ (Value.ofText raw).display := by simp [shown]
    have isRaw : (Value.ofText raw).display = raw :=
      Value.display_ofText_of_mem closing (by decide)
    have isHeaderLine : IsHeaderLine (keyRest ++ afterKey ++ '=' :: (beforeValue ++ front)) line :=
      ⟨beforeKey, afterValue, beforeKeyBlank, afterValueBlank, by
        rw [written, ← isRaw, shown]
        simp⟩
    have saidHeader := ofLine?_eq_header_iff.mpr isHeaderLine
    rw [said] at saidHeader
    cases saidHeader

end Statement

end PropertyCascade
