import PropertyCascade.Proofs.Number.Literal
import PropertyCascade.Proofs.Number.Nearest
import PropertyCascade.Value

/-!
# Typed values

Which texts become flags, integers and numbers, each said by the form of the text alone, and that
every other text stays as it is. The readers are tried one after the other, so the forms have to be
told apart: no numeral and no literal spells a flag, because these start with a letter, and a
numeral that fits is not read as a number although it is a literal.
-/

namespace PropertyCascade

namespace Value

open Numeral Decimal

/-- A spelling of one of the flags. -/
def IsFlag (raw : Text) : Prop :=
  ∃ truth, Text.equalsIgnoringCase raw (flagText truth) = true

/-- A numeral of an integer of 64 bits. -/
def IsWord (raw : Text) : Prop :=
  ∃ word : Int64, IsNumeral raw word.toInt

/-- A literal whose value is below half of a unit above the greatest number. -/
def IsFinite (raw : Text) : Prop :=
  ∃ negative magnitude, IsLiteral raw negative magnitude ∧ magnitude < 2 ^ 1024 - 2 ^ 970

/-! ## The readers -/

theorem int64?_eq_some_iff {raw : Text} {word : Int64} :
    int64? raw = some word ↔ IsNumeral raw word.toInt := by
  rw [int64?, Option.bind_eq_some_iff]
  constructor
  · rintro ⟨number, isRead, fits⟩
    rw [toInt_of_word? fits]
    exact int?_eq_some_iff.mp isRead
  · intro isNumeral
    exact ⟨word.toInt, int?_eq_some_iff.mpr isNumeral, word?_toInt word⟩

theorem int64?_eq_none_iff {raw : Text} : int64? raw = none ↔ ¬IsWord raw := by
  rw [Option.eq_none_iff_forall_ne_some, IsWord, not_exists]
  exact forall_congr' fun word => not_congr int64?_eq_some_iff

theorem number?_eq_some_iff {raw : Text} {number : Binary64} :
    number? raw = some number ↔
      ∃ magnitude, IsLiteral raw number.negative magnitude ∧ number.Covers magnitude := by
  rw [number?, Option.bind_eq_some_iff]
  constructor
  · rintro ⟨decimal, isRead, rounded⟩
    rcases Binary64.ofDecimal?_eq_some_iff.mp rounded with ⟨sameSign, covers⟩
    exact ⟨_, exists_read?_iff.mp ⟨decimal, isRead, sameSign, rfl⟩, covers⟩
  · rintro ⟨magnitude, isLiteral, covers⟩
    rcases exists_read?_iff.mpr isLiteral with ⟨decimal, isRead, sameSign, rfl⟩
    exact ⟨decimal, isRead, Binary64.ofDecimal?_eq_some_iff.mpr ⟨sameSign, covers⟩⟩

theorem exists_number?_iff {raw : Text} : (∃ number, number? raw = some number) ↔ IsFinite raw := by
  constructor
  · rintro ⟨number, isRead⟩
    rcases number?_eq_some_iff.mp isRead with ⟨magnitude, isLiteral, covers⟩
    exact ⟨number.negative, magnitude, isLiteral, covers.lt_bound⟩
  · rintro ⟨negative, magnitude, isLiteral, small⟩
    rcases exists_read?_iff.mpr isLiteral with ⟨decimal, isRead, -, rfl⟩
    rcases Binary64.exists_ofDecimal?_iff.mpr small with ⟨number, rounded⟩
    exact ⟨number, by rw [number?, isRead, Option.bind_some, rounded]⟩

/-! ## Flags and numbers apart -/

/-- The first character of a literal is a digit, a sign or a point. -/
theorem head_of_isLiteral {raw : Text} {negative : Bool} {magnitude : ℚ}
    (isLiteral : IsLiteral raw negative magnitude) :
    ∃ c rest, raw = c :: rest ∧ (isDigit c = true ∨ c ∈ ['+', '-', '.']) := by
  cases isLiteral with
  | @intro sign digits power negative magnitude exponent isSign isMagnitude isPower =>
      cases isSign with
      | plus => exact ⟨'+', digits ++ power, rfl, .inr (by decide)⟩
      | minus => exact ⟨'-', digits ++ power, rfl, .inr (by decide)⟩
      | none =>
          cases isMagnitude with
          | fraction => exact ⟨'.', _, rfl, .inr (by decide)⟩
          | whole areDigits =>
              rcases areDigits.head with ⟨c, rest, rfl, digit⟩
              exact ⟨c, rest ++ power, rfl, .inl digit⟩
          | @point whole fraction areDigits =>
              rcases areDigits.head with ⟨c, rest, rfl, digit⟩
              exact ⟨c, rest ++ '.' :: fraction ++ power, rfl, .inl digit⟩

/-- No literal spells a flag. -/
theorem not_isFlag_of_isLiteral {raw : Text} {negative : Bool} {magnitude : ℚ}
    (isLiteral : IsLiteral raw negative magnitude) : ¬IsFlag raw := by
  rintro ⟨truth, spells⟩
  rcases head_of_isLiteral isLiteral with ⟨c, rest, rfl, first⟩
  have firstOf : Text.asciiLower c = 't' ∨ Text.asciiLower c = 'f' := by
    cases truth <;> simp_all [Text.equalsIgnoringCase, flagText, Text.asciiLower]
  rcases first with digit | sign
  · have unchanged : Text.asciiLower c = c := by
      have small := (isDigit_iff.mp digit).2
      rw [Text.asciiLower, if_neg]
      rintro ⟨above, -⟩
      rw [Char.le_def, UInt32.le_iff_toNat_le] at above
      have : 65 ≤ c.toNat := above
      omega
    rw [unchanged] at firstOf
    rcases firstOf with rfl | rfl <;> revert digit <;> decide
  · revert firstOf
    simp only [List.mem_cons, List.not_mem_nil, or_false] at sign
    rcases sign with rfl | rfl | rfl <;> decide

/-- No text spells both flags. -/
theorem flag_unique {raw : Text} {truth other : Bool}
    (spells : Text.equalsIgnoringCase raw (flagText truth) = true)
    (spellsOther : Text.equalsIgnoringCase raw (flagText other) = true) : truth = other := by
  simp only [Text.equalsIgnoringCase, beq_iff_eq] at spells spellsOther
  have same : (flagText truth).map Text.asciiLower = (flagText other).map Text.asciiLower :=
    spells.symm.trans spellsOther
  revert same
  cases truth <;> cases other <;> decide

theorem not_isFlag_of_isNumeral {raw : Text} {number : Int} (isNumeral : IsNumeral raw number) :
    ¬IsFlag raw := by
  rcases exists_isLiteral isNumeral with ⟨negative, magnitude, isLiteral⟩
  exact not_isFlag_of_isLiteral isLiteral

/-! ## The cases -/

/-- What the first reader that succeeds makes of a text. -/
inductive IsTyped (raw : Text) : Value → Prop where
  | flag (truth : Bool) (spells : Text.equalsIgnoringCase raw (flagText truth) = true) :
      IsTyped raw (flag truth)
  | integer {word : Int64} (noFlag : ¬IsFlag raw) (isRead : int64? raw = some word) :
      IsTyped raw (integer word)
  | number {x : Binary64} (noFlag : ¬IsFlag raw) (noWord : int64? raw = none)
      (isRead : number? raw = some x) : IsTyped raw (number x)
  | text (noFlag : ¬IsFlag raw) (noWord : int64? raw = none) (noNumber : number? raw = none) :
      IsTyped raw (text raw)

theorem isTyped_ofText (raw : Text) : IsTyped raw (ofText raw) := by
  unfold ofText
  split
  case isTrue spells => exact .flag true spells
  case isFalse notTrue =>
    split
    case isTrue spells => exact .flag false spells
    case isFalse notFalse =>
      have noFlag : ¬IsFlag raw := by
        rintro ⟨_ | _, spells⟩
        · exact notFalse spells
        · exact notTrue spells
      split
      case h_1 word isRead => exact .integer noFlag isRead
      case h_2 noWord =>
        split
        case h_1 x isRead => exact .number noFlag noWord isRead
        case h_2 noNumber => exact .text noFlag noWord noNumber

section Kinds

variable {raw : Text}

theorem ofText_eq_flag_iff {truth : Bool} :
    ofText raw = flag truth ↔ Text.equalsIgnoringCase raw (flagText truth) = true := by
  have typed := isTyped_ofText raw
  generalize ofText raw = value at typed
  constructor
  · rintro rfl
    cases typed with
    | flag _ spells => exact spells
  · intro spells
    cases typed with
    | flag _ spellsOther => rw [flag_unique spells spellsOther]
    | integer noFlag => exact absurd ⟨truth, spells⟩ noFlag
    | number noFlag => exact absurd ⟨truth, spells⟩ noFlag
    | text noFlag => exact absurd ⟨truth, spells⟩ noFlag

theorem ofText_eq_integer_iff {word : Int64} :
    ofText raw = integer word ↔ IsNumeral raw word.toInt := by
  have typed := isTyped_ofText raw
  generalize ofText raw = value at typed
  constructor
  · rintro rfl
    cases typed with
    | integer _ isRead => exact int64?_eq_some_iff.mp isRead
  · intro isNumeral
    have wordRead := int64?_eq_some_iff.mpr isNumeral
    cases typed with
    | flag _ spells => exact absurd ⟨_, spells⟩ (not_isFlag_of_isNumeral isNumeral)
    | integer _ isRead => rw [Option.some.inj (isRead.symm.trans wordRead)]
    | number _ noWord => simp [noWord] at wordRead
    | text _ noWord => simp [noWord] at wordRead

theorem ofText_eq_number_iff {x : Binary64} :
    ofText raw = number x ↔
      ¬IsWord raw ∧ ∃ magnitude, IsLiteral raw x.negative magnitude ∧ x.Covers magnitude := by
  rw [← int64?_eq_none_iff, ← number?_eq_some_iff]
  have typed := isTyped_ofText raw
  generalize ofText raw = value at typed
  constructor
  · rintro rfl
    cases typed with
    | number _ noWord isRead => exact ⟨noWord, isRead⟩
  · rintro ⟨noWord, numberRead⟩
    cases typed with
    | flag _ spells =>
        rcases number?_eq_some_iff.mp numberRead with ⟨magnitude, isLiteral, -⟩
        exact absurd ⟨_, spells⟩ (not_isFlag_of_isLiteral isLiteral)
    | integer _ isRead => simp [isRead] at noWord
    | number _ _ isRead => rw [Option.some.inj (isRead.symm.trans numberRead)]
    | text _ _ noNumber => simp [noNumber] at numberRead

theorem exists_ofText_eq_number_iff :
    (∃ x, ofText raw = number x) ↔ ¬IsWord raw ∧ IsFinite raw := by
  rw [← exists_number?_iff, ← exists_and_left]
  apply exists_congr
  intro x
  rw [ofText_eq_number_iff, number?_eq_some_iff]

theorem ofText_eq_text_iff {content : Text} :
    ofText raw = text content ↔
      content = raw ∧ ¬IsFlag raw ∧ ¬IsWord raw ∧ ¬IsFinite raw := by
  rw [← int64?_eq_none_iff, ← exists_number?_iff, not_exists]
  have typed := isTyped_ofText raw
  generalize ofText raw = value at typed
  constructor
  · rintro rfl
    cases typed with
    | text noFlag noWord noNumber => exact ⟨rfl, noFlag, noWord, fun x => by simp [noNumber]⟩
  · rintro ⟨rfl, noFlag, noWord, noNumber⟩
    cases typed with
    | flag _ spells => exact absurd ⟨_, spells⟩ noFlag
    | integer _ isRead => simp [isRead] at noWord
    | number _ _ isRead => exact absurd isRead (noNumber _)
    | text => rfl

end Kinds

/-- A text becomes a flag if it spells one in any case, an integer if it is a numeral of a word, and
a number if it is no such numeral but a literal that does not round past the greatest number; the
number then has the sign of the literal and its value lies around it. Every other text stays as it
is. -/
theorem ofText_kinds (raw : Text) :
    (∀ truth, ofText raw = flag truth ↔
      Text.equalsIgnoringCase raw (flagText truth) = true) ∧
    (∀ word, ofText raw = integer word ↔ IsNumeral raw word.toInt) ∧
    ((∃ x, ofText raw = number x) ↔ ¬IsWord raw ∧ IsFinite raw) ∧
    (∀ x, ofText raw = number x ↔
      ¬IsWord raw ∧ ∃ magnitude, IsLiteral raw x.negative magnitude ∧ x.Covers magnitude) ∧
    ∀ content, ofText raw = text content ↔
      content = raw ∧ ¬IsFlag raw ∧ ¬IsWord raw ∧ ¬IsFinite raw :=
  ⟨fun _ => ofText_eq_flag_iff, fun _ => ofText_eq_integer_iff, exists_ofText_eq_number_iff,
    fun _ => ofText_eq_number_iff, fun _ => ofText_eq_text_iff⟩

/-- Names of infinities, numbers that are too great and unfinished literals are texts. -/
example : ["inf", "NaN", "1e309", "-1e309", "1.2.3", "1e", "-", ".", "+-1", "٣", ""].all (fun raw =>
    ofText raw.toList == text raw.toList) = true := by
  decide +kernel

end Value

end PropertyCascade
