import PropertyCascade.Proofs.Number.Whole
import PropertyCascade.Proofs.PlainReport
import PropertyCascade.Proofs.Value

/-!
# Plain entries read again

A line of plain output can be put into a config file. It assigns to its key what the shown text is
read as, and this is the value again, of the same kind, with one exception: a whole number below
`2 ^ 63` is shown without a point, and its digits are those of an integer.

Flags and integers have spellings of their own, and texts are shown as they were written. The text
of a number is a literal, so it can only be taken for an integer. It is one if it has no point,
which is so for whole numbers alone, and if its digits fit a word. These are the digits of the
shortest decimal. On which side of `2 ^ 63` they lie is a matter of the number itself, although they
need not be its digits.
-/

namespace PropertyCascade

open Numeral Decimal

/-! ## Texts of numbers -/

namespace Binary64

variable {number : Binary64}

theorem isSign_signText (negative : Bool) : IsSign (signText negative) negative := by
  cases negative with
  | false => exact .none
  | true => exact .minus

theorem areDigits_magnitudeText (nonneg : 0 ≤ number.shortest.exponent) :
    AreDigits (magnitudeText number.shortest.coefficient number.shortest.exponent) :=
  have positional := isPositional_whole nonneg number.coefficient_ne_zero_or
  ⟨positional.whole_ne_nil, positional.whole_digits⟩

theorem value_magnitudeText (nonneg : 0 ≤ number.shortest.exponent) :
    (value (magnitudeText number.shortest.coefficient number.shortest.exponent) : ℚ) =
      number.shortest.magnitude := by
  rw [magnitudeText, if_pos nonneg, value_append_zeros, value_ofNat,
    magnitude_shortest_of_nonneg nonneg]

/-- The text of a whole number is a numeral. -/
theorem exists_isNumeral_text (nonneg : 0 ≤ number.shortest.exponent) :
    ∃ n : Nat, IsNumeral number.text (signed number.negative n) ∧
      number.shortest.magnitude = n := by
  refine ⟨_, ?_, (value_magnitudeText nonneg).symm⟩
  rw [text, text_eq, negative_shortest]
  exact .intro (isSign_signText number.negative) (areDigits_magnitudeText nonneg)

/-- The text of a number is a literal of its shortest decimal. -/
theorem isLiteral_text (number : Binary64) :
    IsLiteral number.text number.negative number.shortest.magnitude := by
  have literal {digits : Text} {magnitude : ℚ} (isMagnitude : IsMagnitude digits magnitude) :
      IsLiteral (signText number.negative ++ digits) number.negative magnitude := by
    have isLiteral := IsLiteral.intro (isSign_signText number.negative) isMagnitude .none
    rwa [List.append_nil, zpow_zero, mul_one] at isLiteral
  rw [text, text_eq, negative_shortest]
  apply literal
  by_cases nonneg : 0 ≤ number.shortest.exponent
  case pos =>
    rw [← value_magnitudeText nonneg]
    exact .whole (areDigits_magnitudeText nonneg)
  case neg =>
    rcases exists_isPositional number.shortest.coefficient (not_le.mp nonneg) with
      ⟨whole, fraction, digits, positional⟩
    rw [digits, Decimal.magnitude, ← positional.value_eq, ← scaledValue, scaledValue_eq]
    exact .point ⟨positional.whole_ne_nil, positional.whole_digits⟩ positional.fraction_digits

/-- The text of a number that is not whole has a point. -/
theorem point_mem_text (negative : number.shortest.exponent < 0) : '.' ∈ number.text := by
  rcases exists_isPositional number.shortest.coefficient negative with
    ⟨whole, fraction, digits, -⟩
  rw [text, text_eq, digits]
  simp

end Binary64

/-! ## Values -/

namespace Value

/-- A whole number below `2 ^ 63`. -/
def IsShownAsInteger (value : Value) : Prop :=
  ∃ (x : Binary64) (n : Nat), value = number x ∧ x.magnitude = n ∧ n < 2 ^ 63

theorem isShownAsInteger_number_iff {x : Binary64} :
    (number x).IsShownAsInteger ↔ ∃ n : Nat, x.magnitude = n ∧ n < 2 ^ 63 := by
  constructor
  · rintro ⟨_, n, ⟨rfl⟩, isWhole, small⟩
    exact ⟨n, isWhole, small⟩
  · rintro ⟨n, isWhole, small⟩
    exact ⟨x, n, rfl, isWhole, small⟩

/-- The word that the digits of a whole number are taken for. -/
theorem exists_isNumeral_word {x : Binary64} {n : Nat} (isWhole : x.magnitude = n)
    (small : n < 2 ^ 63) :
    ∃ word : Int64, IsNumeral x.text word.toInt ∧
      word.toInt = signed x.negative word.toInt.natAbs ∧ x.Covers word.toInt.natAbs := by
  have nonneg := Binary64.shortest_nonneg_iff.mpr ⟨n, isWhole⟩
  rcases Binary64.exists_isNumeral_text nonneg with ⟨shown, isNumeral, shownValue⟩
  have covers := x.covers_shortest
  rw [shownValue] at covers
  have shownSmall : shown < 2 ^ 63 := by
    have magnitudeSmall : x.magnitude < 2 ^ 63 := by
      rw [isWhole]
      exact_mod_cast small
    exact_mod_cast covers.lt_word magnitudeSmall
  have fits : (Int64.ofInt (signed x.negative shown)).toInt = signed x.negative shown := by
    refine Int64.toInt_ofInt_of_le ?_ ?_ <;> rw [signed] <;> split <;> omega
  refine ⟨Int64.ofInt (signed x.negative shown), ?_, ?_, ?_⟩
  · rwa [fits]
  · rw [fits, natAbs_signed]
  · rwa [fits, natAbs_signed]

theorem isWord_text_iff {x : Binary64} :
    IsWord x.text ↔ ∃ n : Nat, x.magnitude = n ∧ n < 2 ^ 63 := by
  constructor
  · rintro ⟨word, isNumeral⟩
    have nonneg : 0 ≤ x.shortest.exponent := by
      by_contra negative
      rcases isDigit_or_sign_of_int? (int?_eq_some_iff.mpr isNumeral) '.'
        (Binary64.point_mem_text (not_le.mp negative)) with digit | sign
      · exact absurd digit (by decide)
      · exact absurd sign (by decide)
    rcases Binary64.shortest_nonneg_iff.mp nonneg with ⟨n, isWhole⟩
    rcases Binary64.exists_isNumeral_text nonneg with ⟨shown, isShown, shownValue⟩
    refine ⟨n, isWhole, ?_⟩
    by_contra large
    have magnitudeLarge : 2 ^ 63 ≤ x.magnitude := by
      rw [isWhole]
      exact_mod_cast not_lt.mp large
    have shownLarge := Binary64.lt_magnitude_shortest magnitudeLarge
    rw [shownValue] at shownLarge
    have shownLarge : 2 ^ 63 < shown := by exact_mod_cast shownLarge
    have same := congrArg Int.natAbs (isNumeral.unique isShown)
    rw [natAbs_signed] at same
    have above := word.le_toInt
    have below := word.toInt_lt
    omega
  · rintro ⟨n, isWhole, small⟩
    rcases exists_isNumeral_word isWhole small with ⟨word, isNumeral, -⟩
    exact ⟨word, isNumeral⟩

theorem ofText_text_eq_iff {x : Binary64} :
    ofText x.text = number x ↔ ¬(number x).IsShownAsInteger := by
  rw [isShownAsInteger_number_iff, ← isWord_text_iff, ofText_eq_number_iff]
  constructor
  · exact fun isRead => isRead.1
  · exact fun notWord => ⟨notWord, _, x.isLiteral_text, x.covers_shortest⟩

/-- The text shown for the value of a text has this value again, unless it is the text of a number
that reads as an integer. -/
theorem ofText_display_eq_iff (raw : Text) :
    ofText (ofText raw).display = ofText raw ↔ ¬(ofText raw).IsShownAsInteger := by
  have otherKind {value : Value} (kind : ∀ x, value ≠ number x) : ¬value.IsShownAsInteger := by
    rintro ⟨x, n, isNumber, -⟩
    exact kind x isNumber
  cases isRead : ofText raw with
  | flag truth =>
      refine iff_of_true (ofText_eq_flag_iff.mpr ?_) (otherKind (by simp))
      simp [display, Text.equalsIgnoringCase]
  | integer word =>
      refine iff_of_true (ofText_eq_integer_iff.mpr ?_) (otherKind (by simp))
      exact int?_eq_some_iff.mp (int?_ofInt word.toInt)
  | number x => exact ofText_text_eq_iff
  | text content =>
      refine iff_of_true ?_ (otherKind (by simp))
      rw [display, (ofText_eq_text_iff.mp isRead).1, isRead,
        (ofText_eq_text_iff.mp isRead).1]

/-- A number that reads as an integer keeps its sign, and the integer lies around the number. -/
theorem exists_ofText_text_eq_integer {x : Binary64} (shown : (number x).IsShownAsInteger) :
    ∃ word : Int64, ofText x.text = integer word ∧
      word.toInt = signed x.negative word.toInt.natAbs ∧ x.Covers word.toInt.natAbs := by
  rcases isShownAsInteger_number_iff.mp shown with ⟨n, isWhole, small⟩
  rcases exists_isNumeral_word isWhole small with ⟨word, isNumeral, sameSign, covers⟩
  exact ⟨word, ofText_eq_integer_iff.mpr isNumeral, sameSign, covers⟩

/-! ## Blanks -/

theorem isBlank_of_isTyped {c : Char} (typed : isTyped c = true) : Text.isBlank c = false := by
  have visible : 0x2D ≤ c.toNat ∧ c.toNat ≤ 0x7A := by
    simp only [isTyped, Bool.or_eq_true, beq_iff_eq, isDigit_iff] at typed
    rcases typed with ((digit | lower) | rfl) | rfl
    · omega
    · have between : (decide ('a'.val ≤ c.val) && decide (c.val ≤ 'z'.val)) = true := lower
      simp only [Bool.and_eq_true, decide_eq_true_eq, UInt32.le_iff_toNat_le] at between
      have low : 0x61 ≤ c.toNat := between.1
      have high : c.toNat ≤ 0x7A := between.2
      omega
    · decide
    · decide
  simp only [Text.isBlank, Text.blankRanges, List.any_cons, List.any_nil, Bool.or_false,
    Bool.or_eq_false_iff, Bool.and_eq_false_iff, decide_eq_false_iff_not]
  omega

theorem isTrimmed_display {raw : Text} (trimmed : Text.IsTrimmed raw) :
    Text.IsTrimmed (ofText raw).display := by
  cases kind : (ofText raw).text? with
  | some content => rwa [display_ofText kind]
  | none =>
      have loud {c : Char} (member : c ∈ (ofText raw).display) : Text.isBlank c = false :=
        isBlank_of_isTyped (isTyped_of_mem_display kind member)
      constructor
      · cases first : (ofText raw).display.head? with
        | none => rfl
        | some c => exact loud (List.mem_of_head? first)
      · cases last : (ofText raw).display.getLast? with
        | none => rfl
        | some c => exact loud (List.mem_of_getLast? last)

end Value

/-! ## Lines -/

namespace Statement

open Text

theorem isComment_append {front : Text} (nonempty : front ≠ []) (back : Text) :
    isComment (front ++ back) = isComment front := by
  rcases List.exists_cons_of_ne_nil nonempty with ⟨c, rest, rfl⟩
  unfold isComment
  split <;> simp_all

/-- What is assigned to a key is read from a trimmed text, and the key does not start a comment. -/
theorem exists_raw_of_assignment {line key : Text} {value : Value}
    (said : ofLine? line = some (assignment key value)) :
    key ≠ [] ∧ IsTrimmed key ∧ isComment key = false ∧
      ∃ raw, IsTrimmed raw ∧ value = Value.ofText raw := by
  rw [ofLine?, ofTrimmed?] at said
  split at said
  case isTrue => cases said
  case isFalse loud =>
    split at said
    case h_1 => cases said
    case h_2 =>
      rw [assignment?] at said
      split at said
      case h_1 => cases said
      case h_2 front back cut =>
        simp only at said
        split at said
        case isTrue => cases said
        case isFalse nonempty =>
          rcases Option.some.inj said with ⟨⟩
          refine ⟨nonempty, isTrimmed_trim front, ?_, trim back, isTrimmed_trim back, rfl⟩
          have trimmed := isTrimmed_trim line
          rw [(eq_append_of_cutFirst cut).2] at trimmed loud
          rcases exists_append_trim trimmed with ⟨rest, whole⟩
          rw [whole, isComment_append nonempty] at loud
          simpa using (not_or.mp loud).2

end Statement

namespace Report

open Text

/-- The line of an entry that a line has made assigns what its shown text is read as. -/
theorem ofLine?_plainLine {line key : Text} {value : Value} (oneLine : '\n' ∉ line)
    (said : Statement.ofLine? line = some (.assignment key value)) :
    Statement.ofLine? (plainLine ⟨false⟩ (key, value)) =
      some (.assignment key (Value.ofText value.display)) := by
  rcases Statement.exists_raw_of_assignment said with
    ⟨nonempty, keyTrimmed, notComment, raw, rawTrimmed, rfl⟩
  have fits := Statement.fitsLine_of_ofLine? oneLine said
  have shownTrimmed := Value.isTrimmed_display rawTrimmed
  have written : plainLine ⟨false⟩ (key, Value.ofText raw) =
      key ++ '=' :: (Value.ofText raw).display := rfl
  have trimmed : IsTrimmed (key ++ '=' :: (Value.ofText raw).display) := by
    constructor
    · rw [List.head?_append_of_ne_nil _ nonempty]
      exact keyTrimmed.1
    · rw [List.getLast?_append, List.getLast?_cons]
      cases last : (Value.ofText raw).display.getLast? with
      | none => rfl
      | some c => simpa using shownTrimmed.last last
  rw [written, Statement.ofLine?, trimmed.trim_eq, Statement.ofTrimmed?, if_neg, fits.not_header]
  · simp only [Statement.assignment?, cutFirst_append fits.key_uncut, keyTrimmed.trim_eq,
      shownTrimmed.trim_eq, if_neg nonempty]
  · rw [Statement.isComment_append nonempty, notComment]
    simp

/-- Read again, a shown value is the value itself, of the same kind, unless it is a whole number
below `2 ^ 63`. Such a number becomes an integer around it, with its sign. So does the value of its
entry, when the plain line of the entry stands in a config file. -/
theorem plainLine_reread (raw : Text) :
    (Value.ofText (Value.ofText raw).display = Value.ofText raw ↔
      ¬(Value.ofText raw).IsShownAsInteger) ∧
    (∀ x : Binary64, Value.ofText raw = .number x → (Value.ofText raw).IsShownAsInteger →
      ∃ word : Int64, Value.ofText (Value.ofText raw).display = .integer word ∧
        word.toInt = signed x.negative word.toInt.natAbs ∧ x.Covers word.toInt.natAbs) ∧
    ∀ table : Properties, table.IsResolved → ∀ entry ∈ table.entries,
      Statement.ofLine? (plainLine ⟨false⟩ entry) =
        some (.assignment entry.1 (Value.ofText entry.2.display)) ∧
      (Value.ofText entry.2.display = entry.2 ↔ ¬entry.2.IsShownAsInteger) := by
  refine ⟨Value.ofText_display_eq_iff raw, fun x isNumber shown => ?_,
    fun table resolved entry held => ?_⟩
  · rw [isNumber] at shown ⊢
    exact Value.exists_ofText_text_eq_integer shown
  · rcases resolved.exists_line held with ⟨line, oneLine, said⟩
    refine ⟨ofLine?_plainLine oneLine said, ?_⟩
    rcases Statement.exists_raw_of_assignment said with ⟨-, -, -, source, -, isRead⟩
    rw [isRead]
    exact Value.ofText_display_eq_iff source

/-- A number that is written with an exponent becomes an integer. -/
theorem ofText_display_ne_withExponent :
    Value.ofText (Value.ofText "1e3".toList).display ≠ Value.ofText "1e3".toList := by
  decide +kernel

/-- A file with a whole number and one that is not whole. -/
def numberStore : FileStore :=
  FileStore.empty.insert (.ofText "/.e".toList) "[*]\na = -1e3\nb = 15e-1\n".toList

/-- What is in effect at the path `/f` in that store. -/
def numberTable : Properties :=
  (Resolution.ofNames numberStore.source ".e".toList
    (PathName.ofText "/f".toList).names).properties

/-- Of the plain lines of these two numbers, only the second one assigns the number it shows. -/
theorem plainLine_reread_numberTable :
    (∃ x : Binary64, Value.ofText "-1e3".toList = .number x ∧ x.Covers 1000) ∧
      numberTable.IsResolved ∧
      Statement.ofLine? "a=-1000".toList = some (.assignment ['a'] (.integer (-1000))) ∧
      (['a'], Value.ofText "-1e3".toList) ∈ numberTable.entries ∧
      Statement.ofLine? "b=1.5".toList =
        some (.assignment ['b'] (Value.ofText "15e-1".toList)) ∧
      (['b'], Value.ofText "15e-1".toList) ∈ numberTable.entries := by
  have resolved : numberTable.IsResolved :=
    ⟨numberStore.source, ".e".toList, .ofText "/f".toList, rfl⟩
  have first : (['a'], Value.ofText "-1e3".toList) ∈ numberTable.entries := by decide +kernel
  have second : (['b'], Value.ofText "15e-1".toList) ∈ numberTable.entries := by decide +kernel
  have firstLine : plainLine ⟨false⟩ (['a'], Value.ofText "-1e3".toList) = "a=-1000".toList := by
    decide +kernel
  have secondLine : plainLine ⟨false⟩ (['b'], Value.ofText "15e-1".toList) = "b=1.5".toList := by
    decide +kernel
  have reread : Value.ofText (Value.ofText "-1e3".toList).display = .integer (-1000) := by
    decide +kernel
  have changed : Value.ofText "-1e3".toList ≠ .integer (-1000) := by decide +kernel
  rcases plainLine_reread "-1e3".toList with ⟨same, becomes, lines⟩
  have firstSaid := (lines numberTable resolved _ first).1
  have secondSaid := (lines numberTable resolved _ second).1
  rw [firstLine, reread] at firstSaid
  rw [secondLine] at secondSaid
  have shown : (Value.ofText "-1e3".toList).IsShownAsInteger := by
    by_contra notShown
    exact changed ((same.mpr notShown).symm.trans reread)
  refine ⟨?_, resolved, firstSaid, first, secondSaid.trans (by decide +kernel), second⟩
  have ⟨x, _, isNumber, _⟩ := shown
  rcases becomes x isNumber shown with ⟨word, isInteger, -, covers⟩
  rcases reread.symm.trans isInteger with ⟨⟩
  exact ⟨x, isNumber, covers⟩

end Report

end PropertyCascade
