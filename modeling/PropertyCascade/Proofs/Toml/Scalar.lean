import PropertyCascade.Proofs.Number.Positional
import PropertyCascade.Proofs.Toml.Quoted
import PropertyCascade.Toml.Document

/-!
# Keys and values read back

A key is read back if no character of a bare key follows it, and a property value at the end of a
line. Flags, integers and floats are words of which the reader finds out what they are: an integer
has no point, so it is not a float, and a float has one, so it is not an integer, whatever number it
is. A float is read as the number whose shortest decimal was written.
-/

namespace PropertyCascade

namespace Toml

/-! ## Keys -/

namespace Key

theorem fits_ofKey (content : Text) :
    Quoted.Form.ofKey content = .basic ∨
      Quoted.Form.ofKey content = .literal ∧ (Quoted.Form.ofKey content).holds content = true := by
  rw [Quoted.Form.ofKey]
  split_ifs with basicHolds literalHolds
  · exact Or.inl rfl
  · exact Or.inr ⟨rfl, literalHolds⟩
  · exact Or.inl rfl

/-- A character that a key may start with. -/
def starts (c : Char) : Bool :=
  isBare c || c == '\x22' || c == '\x27'

theorem exists_head_write (key : Text) :
    ∃ first rest, write key = first :: rest ∧ starts first = true := by
  rw [write]
  split
  case isTrue bare =>
    rcases List.exists_cons_of_ne_nil bare.1 with ⟨first, rest, rfl⟩
    have : isBare first = true := List.all_eq_true.mp bare.2 first List.mem_cons_self
    exact ⟨first, rest, rfl, by simp [starts, this]⟩
  case isFalse =>
    rcases fits_ofKey key with form | ⟨form, -⟩ <;> rw [form] <;> exact ⟨_, _, rfl, rfl⟩

theorem read?_write (key : Text) {rest : Text} (stops : Text.Stops isBare rest) :
    read? (write key ++ rest) = some (key, rest) := by
  rw [write]
  split
  case isTrue bare =>
    have cut := Text.span_append (List.all_eq_true.mp bare.2) stops
    rcases List.exists_cons_of_ne_nil bare.1 with ⟨first, others, rfl⟩
    rw [read?, cut]
  case isFalse =>
    have read := Quoted.readLine?_write (fits_ofKey key) rest
    have quoted : Text.Stops isBare (Quoted.writeAs (Quoted.Form.ofKey key) key ++ rest) := by
      rcases fits_ofKey key with form | ⟨form, -⟩ <;> rw [form] <;> rfl
    rw [read?, quoted.span_eq, read]

theorem not_isSpace_of_starts {first : Char} (start : starts first = true) :
    Layout.isSpace first = false := by
  rw [Bool.eq_false_iff]
  intro space
  simp only [Layout.isSpace, Bool.or_eq_true, beq_iff_eq] at space
  rcases space with rfl | rfl <;> cases start

theorem skipSpaces_write (key rest : Text) :
    Layout.skipSpaces (write key ++ rest) = write key ++ rest := by
  rcases exists_head_write key with ⟨first, others, written, start⟩
  rw [written, Layout.skipSpaces]
  exact Text.Stops.dropWhile_eq (by simp [Text.Stops, not_isSpace_of_starts start])

/-- A key is read as a path of one key, with the spaces that follow it. -/
theorem readPath?_write (key : Text) {rest : Text} (stops : Text.Stops isBare rest)
    (noDot : (Layout.skipSpaces rest).head? ≠ some '.') :
    readPath? (write key ++ rest) = some ([key], Layout.skipSpaces rest) := by
  have alone : readPath? (write key ++ rest) = readPath (78 + 1) (write key ++ rest) := rfl
  rw [alone, readPath, skipSpaces_write, read?_write key stops]
  simp only [Option.bind_eq_bind, Option.bind_some]
  split
  case h_1 more dotted => simp [dotted] at noDot
  case h_2 => rfl

end Key

/-! ## Words of digits -/

namespace Scalar

open Numeral (isDigit takeSign)

/-- A character of a numeral or of a positional text. -/
def isNumeric (c : Char) : Bool :=
  isDigit c || c == '-' || c == '.'

theorem ne_of_isNumeric {c other : Char} (numeric : isNumeric c = true)
    (notNumeric : isNumeric other = false) : c ≠ other := by
  rintro rfl
  rw [numeric] at notNumeric
  cases notNumeric

theorem isNumeric_of_isDigit {c : Char} (digit : isDigit c = true) : isNumeric c = true := by
  simp [isNumeric, digit]

theorem isWordChar_of_isNumeric {c : Char} (numeric : isNumeric c = true) :
    isWordChar c = true := by
  simp only [isNumeric, Bool.or_eq_true, beq_iff_eq] at numeric
  rcases numeric with (digit | rfl) | rfl
  · simp [isWordChar, digit]
  · rfl
  · rfl

theorem isGrouped_eq {property : Char → Bool} {text : Text} (noUnderscore : '_' ∉ text) :
    isGrouped property text = (text != [] && text.all property) := by
  have apart : ∀ c ∈ text, (c == '_') = false :=
    fun c member => by simpa using fun same : c = '_' => noUnderscore (same ▸ member)
  simp [isGrouped, List.splitOn, List.splitOnP_eq_singleton apart]

section Word

variable {word : Text} (numeric : ∀ c ∈ word, isNumeric c = true)

include numeric

theorem not_mem_of_isNumeric {c : Char} (notNumeric : isNumeric c = false) : c ∉ word :=
  fun member => ne_of_isNumeric (numeric c member) notNumeric rfl

theorem ungrouped_eq : ungrouped word = word :=
  List.filter_eq_self.mpr fun c member => by
    simpa using ne_of_isNumeric (numeric c member) (by decide : isNumeric '_' = false)

theorem boolean?_eq_none : boolean? word = none := by
  have notTrue : word ≠ Value.flagText true := by
    rintro rfl
    exact absurd (numeric 't' (by decide)) (by decide)
  have notFalse : word ≠ Value.flagText false := by
    rintro rfl
    exact absurd (numeric 'f' (by decide)) (by decide)
  rw [boolean?, if_neg notTrue, if_neg notFalse]

theorem integer?_eq :
    integer? word = if isMagnitude (unsigned word) then Numeral.int64? word else none := by
  unfold integer?
  split
  case h_1 => exact absurd (numeric 'x' (by simp)) (by decide)
  case h_2 => exact absurd (numeric 'o' (by simp)) (by decide)
  case h_3 => exact absurd (numeric 'b' (by simp)) (by decide)
  case h_4 => rw [ungrouped_eq numeric]

theorem cutExponent_eq : cutExponent word = (word, none) := by
  have kept : ∀ c ∈ word, (c != 'e' && c != 'E') = true := fun c member => by
    have lower := ne_of_isNumeric (numeric c member) (by decide : isNumeric 'e' = false)
    have upper := ne_of_isNumeric (numeric c member) (by decide : isNumeric 'E' = false)
    simp [lower, upper]
  have cut : word.span (fun c => c != 'e' && c != 'E') = (word, []) := by
    have stops : Text.Stops (fun c => c != 'e' && c != 'E') [] := rfl
    simpa only [List.append_nil] using Text.span_append kept stops
  rw [cutExponent, cut]

end Word

/-! ## Integers -/

theorem isMagnitude_of_digits {digits : Text} (allDigits : ∀ c ∈ digits, isDigit c = true)
    (nonempty : digits ≠ []) (noLeadingZero : digits.head? ≠ some '0' ∨ digits.length = 1) :
    isMagnitude digits = true := by
  have noUnderscore : '_' ∉ digits := fun member => absurd (allDigits '_' member) (by decide)
  have all : digits.all isDigit = true := List.all_eq_true.mpr allDigits
  simpa [isMagnitude, isGrouped_eq noUnderscore, nonempty, all] using noLeadingZero

theorem ofInt_eq_signText (number : Int) :
    Numeral.ofInt number = Decimal.signText (number < 0) ++ Numeral.ofNat number.natAbs := by
  rw [Numeral.ofInt]
  split <;> simp_all [Decimal.signText]

theorem isNumeric_of_mem_signed {negative : Bool} {magnitude : Text}
    (numeric : ∀ c ∈ magnitude, isNumeric c = true) :
    ∀ c ∈ Decimal.signText negative ++ magnitude, isNumeric c = true := by
  intro c member
  rcases List.mem_append.mp member with inSign | inMagnitude
  · cases negative with
    | true =>
        rw [List.mem_singleton.mp inSign]
        rfl
    | false => cases inSign
  · exact numeric c inMagnitude

theorem unsigned_signed {negative : Bool} {magnitude : Text}
    (digit : magnitude.head?.any isDigit = true) :
    unsigned (Decimal.signText negative ++ magnitude) = magnitude := by
  rw [unsigned, Decimal.takeSign_signText negative digit]

/-- An integer is read as itself. -/
theorem ofWord?_ofInt (number : Int64) :
    (∀ c ∈ Numeral.ofInt number.toInt, isNumeric c = true) ∧
      ofWord? (Numeral.ofInt number.toInt) = some (.integer number) := by
  have digits : ∀ c ∈ Numeral.ofNat number.toInt.natAbs, isDigit c = true :=
    fun c member => Numeral.isDigit_of_mem_ofNat member
  have numeric : ∀ c ∈ Numeral.ofInt number.toInt, isNumeric c = true := by
    rw [ofInt_eq_signText]
    exact isNumeric_of_mem_signed fun c member => isNumeric_of_isDigit (digits c member)
  have noLeadingZero : (Numeral.ofNat number.toInt.natAbs).head? ≠ some '0' ∨
      (Numeral.ofNat number.toInt.natAbs).length = 1 := by
    by_cases isZero : number.toInt.natAbs = 0
    · rw [isZero]
      exact Or.inr rfl
    · exact Or.inl (Numeral.head?_ofNat_ne isZero)
  have first : (Numeral.ofNat number.toInt.natAbs).head?.any isDigit = true := by
    rcases List.exists_cons_of_ne_nil (Numeral.ofNat_ne_nil number.toInt.natAbs) with
      ⟨lead, rest, written⟩
    rw [written] at digits ⊢
    simpa using digits lead List.mem_cons_self
  have magnitude : isMagnitude (unsigned (Numeral.ofInt number.toInt)) = true := by
    rw [ofInt_eq_signText, unsigned_signed first]
    exact isMagnitude_of_digits digits (Numeral.ofNat_ne_nil _) noLeadingZero
  refine ⟨numeric, ?_⟩
  have read : integer? (Numeral.ofInt number.toInt) = some number := by
    rw [integer?_eq numeric, if_pos magnitude, Numeral.int64?, Numeral.int?_ofInt,
      Option.bind_some, Numeral.word?_toInt]
  rw [ofWord?, boolean?_eq_none numeric, read]

/-! ## Floats -/

section Float

variable {whole fraction : Text} {number : Binary64}
  (positional : Decimal.IsPositional whole fraction number.shortest.magnitude)

include positional

theorem isNumeric_of_mem_positional (negative : Bool) :
    ∀ c ∈ Decimal.signText negative ++ (whole ++ '.' :: fraction), isNumeric c = true := by
  refine isNumeric_of_mem_signed fun c member => ?_
  rcases List.mem_append.mp member with inWhole | inFraction
  · exact isNumeric_of_isDigit (positional.whole_digits c inWhole)
  · rcases List.mem_cons.mp inFraction with rfl | inFraction
    · rfl
    · exact isNumeric_of_isDigit (positional.fraction_digits c inFraction)

theorem integer?_positional (negative : Bool) :
    integer? (Decimal.signText negative ++ (whole ++ '.' :: fraction)) = none := by
  have numeric := isNumeric_of_mem_positional positional negative
  have noUnderscore : '_' ∉ whole ++ '.' :: fraction := fun member =>
    not_mem_of_isNumeric numeric (by decide) (List.mem_append_right _ member)
  have notMagnitude : isMagnitude (whole ++ '.' :: fraction) = false := by
    have : (whole ++ '.' :: fraction).all isDigit = false := by
      simp [show isDigit '.' = false from rfl]
    simp [isMagnitude, isGrouped_eq noUnderscore, this]
  rw [integer?_eq numeric, unsigned_signed (positional.head?_whole _), notMagnitude]
  rfl

theorem isFloat_positional (negative : Bool) :
    isFloat (Decimal.signText negative ++ (whole ++ '.' :: fraction)) = true := by
  have noPoint : '.' ∉ whole :=
    fun member => absurd (positional.whole_digits '.' member) (by decide)
  have noUnderscore : '_' ∉ fraction :=
    fun member => absurd (positional.fraction_digits '_' member) (by decide)
  have magnitude := isMagnitude_of_digits positional.whole_digits positional.whole_ne_nil
    positional.no_leading_zero
  have grouped : isGrouped isDigit fraction = true := by
    simp [isGrouped_eq noUnderscore, positional.fraction_ne_nil,
      List.all_eq_true.mpr positional.fraction_digits]
  rw [isFloat, cutExponent_eq (isNumeric_of_mem_positional positional negative)]
  simp [unsigned_signed (positional.head?_whole _), Text.cutFirst_append noPoint, magnitude,
    grouped]

/-- The digits of the shortest decimal of a number are read as that number, and as a float. -/
theorem ofWord?_positional :
    ofWord? (Decimal.signText number.negative ++ (whole ++ '.' :: fraction)) =
      some (.float number) := by
  have numeric := isNumeric_of_mem_positional positional number.negative
  have unsignedEq : unsigned (Decimal.signText number.negative ++ (whole ++ '.' :: fraction)) =
      whole ++ '.' :: fraction := unsigned_signed (positional.head?_whole _)
  have point : '.' ∈ whole ++ '.' :: fraction := by simp
  have notInfinity : whole ++ '.' :: fraction ≠ ['i', 'n', 'f'] :=
    fun same => absurd (same ▸ point) (by decide)
  have notNan : whole ++ '.' :: fraction ≠ ['n', 'a', 'n'] :=
    fun same => absurd (same ▸ point) (by decide)
  have read : float? (Decimal.signText number.negative ++ (whole ++ '.' :: fraction)) =
      some (.float number) := by
    rw [float?, unsignedEq, if_neg notInfinity, if_neg notNan,
      if_pos (isFloat_positional positional _), ungrouped_eq numeric,
      Decimal.read?_positional _ positional, Option.bind_some, ofDecimal,
      Decimal.ofDecimal?_positional positional]
  rw [ofWord?, boolean?_eq_none numeric, integer?_positional positional, read]

end Float

/-- The text of a float has digits on both sides of a point. -/
theorem exists_positional_writeFloat (number : Binary64) :
    ∃ whole fraction, Decimal.IsPositional whole fraction number.shortest.magnitude ∧
      writeFloat number = Decimal.signText number.negative ++ (whole ++ '.' :: fraction) := by
  rw [writeFloat, Binary64.isIntegral, Binary64.text, Decimal.text_eq,
    Binary64.negative_shortest]
  split
  case isTrue nonneg =>
    refine ⟨_, _, Decimal.isPositional_whole (by simpa using nonneg)
      number.coefficient_ne_zero_or, ?_⟩
    rw [List.append_assoc]
  case isFalse negative =>
    rcases Decimal.exists_isPositional number.shortest.coefficient
      (not_le.mp (by simpa using negative)) with ⟨whole, fraction, written, positional⟩
    exact ⟨whole, fraction, positional, by rw [written]⟩

/-! ## Property values -/

/-- What a document says where a property value is written: the same flag, integer or text, and for
a number the float that is the same number with the same sign, so that both have one text. -/
def nodeOf : Value → Node
  | .flag truth => .boolean truth
  | .integer number => .integer number
  | .number number => .float number
  | .text content => .string content

/-- A value that is not a text is written as a word. -/
theorem ofWord?_write {value : Value} (notText : ¬value.text?.isSome = true) :
    write value ≠ [] ∧ (∀ c ∈ write value, isWordChar c = true) ∧
      ofWord? (write value) = some (nodeOf value) := by
  cases value with
  | flag truth =>
      refine ⟨by cases truth <;> decide, List.all_eq_true.mp (by cases truth <;> rfl), ?_⟩
      cases truth <;> rfl
  | integer number =>
      rcases ofWord?_ofInt number with ⟨numeric, read⟩
      refine ⟨?_, fun c member => isWordChar_of_isNumeric (numeric c member), read⟩
      rw [write, ofInt_eq_signText]
      simp [Numeral.ofNat_ne_nil]
  | number number =>
      rcases exists_positional_writeFloat number with ⟨whole, fraction, positional, written⟩
      have numeric := isNumeric_of_mem_positional positional number.negative
      rw [write, written]
      exact ⟨by simp, fun c member => isWordChar_of_isNumeric (numeric c member),
        ofWord?_positional positional⟩
  | text content => exact absurd rfl notText

theorem skipSpaces_write (value : Value) (rest : Text) :
    Layout.skipSpaces (write value ++ rest) = write value ++ rest := by
  have head : ∃ first others, write value = first :: others ∧ Layout.isSpace first = false := by
    by_cases isText : value.text?.isSome = true
    case pos =>
      cases value with
      | text content =>
          rcases Quoted.exists_mark_write content with ⟨mark, others, written, isMark⟩
          exact ⟨mark, others, written, by rcases isMark with rfl | rfl <;> rfl⟩
      | _ => cases isText
    case neg =>
      rcases ofWord?_write isText with ⟨nonempty, wordChars, -⟩
      rcases List.exists_cons_of_ne_nil nonempty with ⟨first, others, written⟩
      have wordChar := wordChars first (by simp [written])
      refine ⟨first, others, written, ?_⟩
      rw [Bool.eq_false_iff]
      intro space
      simp only [Layout.isSpace, Bool.or_eq_true, beq_iff_eq] at space
      rcases space with rfl | rfl <;> cases wordChar
  rcases head with ⟨first, others, written, notSpace⟩
  rw [written, Layout.skipSpaces]
  exact Text.Stops.dropWhile_eq (by simp [Text.Stops, notSpace])

/-- A word at the end of a line is read as a whole. -/
theorem read?_word {word : Text} (wordChars : ∀ c ∈ word, isWordChar c = true) (rest : Text) :
    read? (word ++ '\n' :: rest) = (ofWord? word).map fun node => (node, '\n' :: rest) := by
  have stops : Text.Stops isWordChar ('\n' :: rest) := rfl
  rw [read?, Text.span_append wordChars stops]
  rfl

end Scalar

namespace Statement

theorem readValue_word {word : Text} {node : Node} (nonempty : word ≠ [])
    (wordChars : ∀ c ∈ word, Scalar.isWordChar c = true) (read : Scalar.ofWord? word = some node)
    (steps levels : Nat) (rest : Text) :
    readValue (steps + 1) levels (word ++ '\n' :: rest) = some (node, '\n' :: rest) := by
  have scalar : Scalar.read? (word ++ '\n' :: rest) = some (node, '\n' :: rest) := by
    rw [Scalar.read?_word wordChars, read]
    rfl
  rcases List.exists_cons_of_ne_nil nonempty with ⟨first, others, rfl⟩
  have different {c : Char} {after : Text} (other : Scalar.isWordChar c = false) :
      first :: others ++ '\n' :: rest ≠ c :: after := by
    intro same
    rw [← (List.cons.inj same).1, wordChars first List.mem_cons_self] at other
    cases other
  rw [← scalar]
  unfold readValue
  split
  case h_1 same => exact absurd same (different rfl)
  case h_2 same => exact absurd same (different rfl)
  case h_3 same => exact absurd same (different rfl)
  case h_4 same => exact absurd same (different rfl)
  case h_5 => rfl

/-- A property value at the end of a line is read back. -/
theorem readValue_write (value : Value) (steps levels : Nat) (rest : Text) :
    readValue (steps + 1) levels (Scalar.write value ++ '\n' :: rest) =
      some (Scalar.nodeOf value, '\n' :: rest) := by
  by_cases isText : value.text?.isSome = true
  case neg =>
    rcases Scalar.ofWord?_write isText with ⟨nonempty, wordChars, read⟩
    exact readValue_word nonempty wordChars read steps levels rest
  case pos =>
    cases value with
    | text content =>
        have read : Quoted.read? (Quoted.write content ++ '\n' :: rest) =
            some (content, '\n' :: rest) := Quoted.read?_write content (by simp) (by simp)
        rcases Quoted.exists_mark_write content with ⟨mark, others, written, isMark⟩
        rw [written, List.cons_append] at read
        rw [Scalar.write, written, List.cons_append]
        rcases isMark with rfl | rfl <;> simp [readValue, read, Scalar.nodeOf]
    | _ => cases isText

end Statement

end Toml

end PropertyCascade
