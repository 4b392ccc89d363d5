import Mathlib.Tactic.SplitIfs
import PropertyCascade.Proofs.Text.Cut
import PropertyCascade.Toml.Quoted

/-!
# Strings read back

A string that is written in one of the four forms is read as it was, and the reader stops after its
closing mark. Between single marks every character is written as a unit that the reader takes in one
step. Between three marks the reader looks ahead for the closing ones, so what is carried through
the string is how many marks stand just before: the writer never lets a third one follow, and the
marks that end the string go to the closing ones, of which the reader gives back up to two.
-/

namespace PropertyCascade

namespace Toml

namespace Quoted

/-! ## Characters -/

theorem hexValue?_hexDigit : ∀ value < 16, hexValue? (hexDigit value) = some value := by
  decide

theorem scalar?_codeDigits {code : Nat} (small : code < 65536) (valid : code.isValidChar) :
    scalar? (codeDigits code) = some (Char.ofNat code) := by
  have digit (place : Nat) : hexValue? (hexDigit (code / place % 16)) = some (code / place % 16) :=
    hexValue?_hexDigit _ (Nat.mod_lt _ (by decide))
  have lastDigit : hexValue? (hexDigit (code % 16)) = some (code % 16) :=
    hexValue?_hexDigit _ (Nat.mod_lt _ (by decide))
  have whole : 16 * (16 * (16 * (code / 4096 % 16) + code / 256 % 16) + code / 16 % 16) +
      code % 16 = code := by omega
  simp [scalar?, codeDigits, digit, lastDigit, whole, valid]

theorem scalar?_of_isControl {c : Char} (control : isControl c = true) :
    scalar? (codeDigits c.toNat) = some c := by
  have small : c.toNat < 65536 := by
    simp [isControl] at control
    omega
  rw [scalar?_codeDigits small c.valid, Char.ofNat_toNat]

/-- A text that stands for a character between quotation marks, where neither a mark nor a
backslash stands for itself. -/
inductive Spells : Text → Char → Prop where
  | letter {letter c : Char} (read : unescaped? letter = some c) : Spells ['\\', letter] c
  | code {c : Char} (control : isControl c = true) : Spells ('\\' :: 'u' :: codeDigits c.toNat) c
  | plain {c : Char} (printable : isPrintable c = true) (notMark : c ≠ '\x22')
      (notBackslash : c ≠ '\\') : Spells [c] c

theorem spells_escaped {c : Char} (notMark : c ≠ '\x22') : Spells (escaped c) c := by
  rw [escaped]
  split_ifs with backspace tab newline formFeed carriageReturn backslash control
  · exact .letter (by rw [backspace]; rfl)
  · exact .letter (by rw [tab]; rfl)
  · exact .letter (by rw [newline]; rfl)
  · exact .letter (by rw [formFeed]; rfl)
  · exact .letter (by rw [carriageReturn]; rfl)
  · exact .letter (by rw [backslash]; rfl)
  · exact .code control
  · exact .plain (by simp [isPrintable, control]) notMark backslash

theorem spells_basicUnit (c : Char) : Spells (basicUnit c) c := by
  rw [basicUnit]
  split
  case isTrue isMark => exact .letter (by rw [isMark]; rfl)
  case isFalse notMark => exact spells_escaped notMark

theorem Spells.exists_cons {unit : Text} {c : Char} (spells : Spells unit c) :
    ∃ first rest, unit = first :: rest ∧ first ≠ '\x22' ∧ isPrintable first = true := by
  cases spells with
  | letter => exact ⟨_, _, rfl, by decide, rfl⟩
  | code => exact ⟨_, _, rfl, by decide, rfl⟩
  | plain printable notMark => exact ⟨_, _, rfl, notMark, printable⟩

theorem readBasic_unit {unit : Text} {c : Char} (spells : Spells unit c) (rest : Text) :
    readBasic (unit ++ rest) = consRead c (readBasic rest) := by
  cases spells with
  | @letter letter _ read =>
      have notShort : letter ≠ 'u' := by rintro rfl; cases read
      have notLong : letter ≠ 'U' := by rintro rfl; cases read
      simp [readBasic, read, notShort, notLong]
  | code control =>
      have read := scalar?_of_isControl control
      rw [codeDigits] at read ⊢
      simp [readBasic, read]
  | plain printable notMark notBackslash => simp [readBasic, printable, notBackslash]

theorem readMultiBasic_unit {unit : Text} {c : Char} (spells : Spells unit c) (rest : Text) :
    readMultiBasic .inside (unit ++ rest) = consRead c (readMultiBasic .inside rest) := by
  cases spells with
  | @letter letter _ read =>
      have notShort : letter ≠ 'u' := by rintro rfl; cases read
      have notLong : letter ≠ 'U' := by rintro rfl; cases read
      have notNewline : letter ≠ '\n' := by rintro rfl; cases read
      have notReturn : letter ≠ '\r' := by rintro rfl; cases read
      have notSpace : letter ≠ ' ' := by rintro rfl; cases read
      have notTab : letter ≠ '\t' := by rintro rfl; cases read
      simp [readMultiBasic, read, notShort, notLong, notReturn]
  | code control =>
      have read := scalar?_of_isControl control
      rw [codeDigits] at read ⊢
      simp [readMultiBasic, read]
  | plain printable notMark notBackslash =>
      have notNewline : c ≠ '\n' := by rintro rfl; cases printable
      have notReturn : c ≠ '\r' := by rintro rfl; cases printable
      simp [readMultiBasic, printable, notMark, notBackslash, notReturn]

/-! ## Between single marks -/

theorem readBasic_written (content rest : Text) :
    readBasic (content.flatMap basicUnit ++ '\x22' :: rest) = some (content, rest) := by
  induction content with
  | nil => rfl
  | cons c content ih =>
      rw [List.flatMap_cons, List.append_assoc, readBasic_unit (spells_basicUnit c), ih]
      rfl

theorem readLiteral_written {content : Text} (holds : Form.literal.holds content = true)
    (rest : Text) : readLiteral (content ++ '\x27' :: rest) = some (content, rest) := by
  induction content with
  | nil => rfl
  | cons c content ih =>
      simp only [Form.holds, List.all_cons, Bool.and_eq_true, bne_iff_ne] at holds ih
      rcases holds with ⟨⟨printable, notMark⟩, others⟩
      simp [readLiteral, printable, ih others, consRead]

/-! ## Between three marks -/

/-- A closing mark and those before it that belong to the string. -/
theorem closing_marks {mark : Char} {rest : Text} (free : rest.head? ≠ some mark) :
    closing mark rest = ([], rest) ∧ closing mark (mark :: rest) = ([mark], rest) ∧
      closing mark (mark :: mark :: rest) = ([mark, mark], rest) := by
  cases rest with
  | nil => simp [closing]
  | cons c after =>
      have different : c ≠ mark := by simpa using free
      cases after <;> simp [closing, different]

/-- What may follow a mark: nothing or a last mark, both of which the closing marks take up, or
text in which no two marks come next. -/
def Guarded (mark : Char) (body : Text) : Prop :=
  body = [] ∨ body = [mark] ∨ ∀ after rest, body ++ after ≠ mark :: mark :: rest

theorem guarded_cons {mark first : Char} (different : first ≠ mark) (body : Text) :
    Guarded mark (first :: body) :=
  Or.inr (Or.inr fun _ _ same => different (List.cons.inj same).1)

theorem guarded_mark_cons {mark first : Char} (different : first ≠ mark) (body : Text) :
    Guarded mark (mark :: first :: body) :=
  Or.inr (Or.inr fun _ _ same => different (List.cons.inj (List.cons.inj same).2).1)

theorem guarded_of_shortRuns {mark : Char} {run : Nat} {content : Text}
    (short : shortRuns mark (run + 1) content = true) : Guarded mark content := by
  cases content with
  | nil => exact Or.inl rfl
  | cons c content =>
      by_cases isMark : c = mark
      case neg => exact guarded_cons isMark content
      case pos =>
        subst isMark
        cases content with
        | nil => exact Or.inr (Or.inl rfl)
        | cons d content =>
            refine guarded_mark_cons (fun isMark => ?_) content
            simp only [shortRuns, isMark, ↓reduceIte, Bool.and_eq_true, decide_eq_true_eq] at short
            omega

theorem readMultiLiteral_mark {content rest : Text} (free : rest.head? ≠ some '\x27')
    (guarded : Guarded '\x27' content)
    (read : readMultiLiteral (content ++ '\x27' :: '\x27' :: '\x27' :: rest) =
      some (content, rest)) :
    readMultiLiteral ('\x27' :: (content ++ '\x27' :: '\x27' :: '\x27' :: rest)) =
      some ('\x27' :: content, rest) := by
  rcases closing_marks free with ⟨-, one, two⟩
  rcases guarded with isNil | isMark | apart
  · simp [readMultiLiteral, isNil, one]
  · simp [readMultiLiteral, isMark, two]
  · have notClosing := apart ('\x27' :: '\x27' :: '\x27' :: rest)
    have printable : isPrintable '\x27' = true := rfl
    simp [readMultiLiteral, notClosing, printable, read, consRead]

theorem readMultiLiteral_written {content rest : Text} (free : rest.head? ≠ some '\x27')
    (printable : content.all (fun c => isPrintable c || c == '\n') = true) {run : Nat}
    (short : shortRuns '\x27' run content = true) :
    readMultiLiteral (content ++ '\x27' :: '\x27' :: '\x27' :: rest) = some (content, rest) := by
  induction content generalizing run with
  | nil => simp [readMultiLiteral, (closing_marks free).1]
  | cons c content ih =>
      rw [List.all_cons, Bool.and_eq_true] at printable
      rw [shortRuns] at short
      split at short
      case isTrue isMark =>
        rw [Bool.and_eq_true] at short
        rw [isMark]
        exact readMultiLiteral_mark free (guarded_of_shortRuns short.2) (ih printable.2 short.2)
      case isFalse notMark =>
        have read := ih printable.2 short
        by_cases newline : c = '\n'
        · simp [readMultiLiteral, newline, read, consRead]
        · have printable : isPrintable c = true := by simpa [newline] using printable.1
          have notReturn : c ≠ '\r' := by rintro rfl; cases printable
          simp [readMultiLiteral, notMark, notReturn, printable, read, consRead]

/-- Between three quotation marks a character is written as a mark, or as a unit that starts with
another character and that the reader takes in one step. -/
theorem multiBasicBody_cons (run : Nat) (c : Char) (content : Text) :
    (c = '\x22' ∧ run < 2 ∧
        multiBasicBody run (c :: content) = '\x22' :: multiBasicBody (run + 1) content) ∨
      ∃ first unit,
        multiBasicBody run (c :: content) = first :: (unit ++ multiBasicBody 0 content) ∧
        first ≠ '\x22' ∧ (c ≠ '\n' → isPrintable first = true) ∧
        ∀ rest, readMultiBasic .inside (first :: (unit ++ rest)) =
          consRead c (readMultiBasic .inside rest) := by
  rw [multiBasicBody]
  split_ifs with isMark short newline
  · exact Or.inl ⟨isMark, short, by rw [isMark]⟩
  · rw [isMark]
    exact Or.inr ⟨'\\', ['\x22'], rfl, by decide, fun _ => rfl, readMultiBasic_unit (.letter rfl)⟩
  · rw [newline]
    exact Or.inr ⟨'\n', [], rfl, by decide, fun other => absurd rfl other, fun rest => by
      simp [readMultiBasic]⟩
  · have spells := spells_escaped isMark
    rcases spells.exists_cons with ⟨first, unit, written, notMark, printable⟩
    rw [written] at spells ⊢
    exact Or.inr ⟨first, unit, rfl, notMark, fun _ => printable, readMultiBasic_unit spells⟩

theorem eq_nil_of_multiBasicBody {run : Nat} {content : Text}
    (isNil : multiBasicBody run content = []) : content = [] := by
  cases content with
  | nil => rfl
  | cons c content =>
      rcases multiBasicBody_cons run c content with ⟨-, -, body⟩ | ⟨first, unit, body, -⟩ <;>
        rw [body] at isNil <;> cases isNil

theorem eq_mark_of_multiBasicBody {run : Nat} {content : Text}
    (isMark : multiBasicBody run content = ['\x22']) : content = ['\x22'] := by
  cases content with
  | nil => cases isMark
  | cons c content =>
      rcases multiBasicBody_cons run c content with
        ⟨same, -, body⟩ | ⟨first, unit, body, notMark, -⟩
      · rw [body] at isMark
        rw [same, eq_nil_of_multiBasicBody (List.cons.inj isMark).2]
      · rw [body] at isMark
        exact absurd (List.cons.inj isMark).1 notMark

theorem guarded_multiBasicBody (run : Nat) (content : Text) :
    Guarded '\x22' (multiBasicBody (run + 1) content) := by
  cases content with
  | nil => exact Or.inl rfl
  | cons c content =>
      rcases multiBasicBody_cons (run + 1) c content with
        ⟨-, -, body⟩ | ⟨first, unit, body, notMark, -⟩ <;> rw [body]
      · cases content with
        | nil => exact Or.inr (Or.inl rfl)
        | cons d content =>
            rcases multiBasicBody_cons (run + 1 + 1) d content with
              ⟨-, short, -⟩ | ⟨first, unit, body, notMark, -⟩
            · omega
            · rw [body]
              exact guarded_mark_cons notMark _
      · exact guarded_cons notMark _

theorem readMultiBasic_mark {body content rest : Text} (free : rest.head? ≠ some '\x22')
    (guarded : Guarded '\x22' body) (nil : body = [] → content = [])
    (mark : body = ['\x22'] → content = ['\x22'])
    (read : readMultiBasic .inside (body ++ '\x22' :: '\x22' :: '\x22' :: rest) =
      some (content, rest)) :
    readMultiBasic .inside ('\x22' :: (body ++ '\x22' :: '\x22' :: '\x22' :: rest)) =
      some ('\x22' :: content, rest) := by
  rcases closing_marks free with ⟨-, one, two⟩
  rcases guarded with isNil | isMark | apart
  · simp [readMultiBasic, isNil, nil isNil, one]
  · simp [readMultiBasic, isMark, mark isMark, two]
  · have notClosing := apart ('\x22' :: '\x22' :: '\x22' :: rest)
    have printable : isPrintable '\x22' = true := rfl
    simp [readMultiBasic, notClosing, printable, read, consRead]

/-- The induction is on the string for every count of marks before it: a mark raises the count, and
any other unit starts it again. -/
theorem readMultiBasic_written (content : Text) {rest : Text} (free : rest.head? ≠ some '\x22')
    (run : Nat) :
    readMultiBasic .inside (multiBasicBody run content ++ '\x22' :: '\x22' :: '\x22' :: rest) =
      some (content, rest) := by
  induction content generalizing run with
  | nil => simp [multiBasicBody, readMultiBasic, (closing_marks free).1]
  | cons c content ih =>
      rcases multiBasicBody_cons run c content with
        ⟨isMark, -, body⟩ | ⟨first, unit, body, -, -, read⟩ <;> rw [body]
      · rw [isMark]
        exact readMultiBasic_mark free (guarded_multiBasicBody run content)
          eq_nil_of_multiBasicBody eq_mark_of_multiBasicBody (ih (run + 1))
      · rw [List.cons_append, List.append_assoc, read, ih 0]
        rfl

/-! ## In any form -/

theorem withoutFirstLineEnd_eq_self {first : Char} (printable : isPrintable first = true)
    (rest : Text) : withoutFirstLineEnd (first :: rest) = first :: rest := by
  have notNewline : first ≠ '\n' := by rintro rfl; cases printable
  have notReturn : first ≠ '\r' := by rintro rfl; cases printable
  simp [withoutFirstLineEnd, notNewline, notReturn]

/-- The line end after the opening marks is there if the string has one, and is not missed if the
string has none. -/
theorem withoutFirstLineEnd_opening {content body : Text}
    (printable : '\n' ∉ content → ∃ first rest, body = first :: rest ∧ isPrintable first = true) :
    withoutFirstLineEnd (opening content ++ body) = body := by
  rw [opening]
  split
  case isTrue => rfl
  case isFalse noNewline =>
    rcases printable (by simpa using noNewline) with ⟨first, rest, rfl, isPrintable⟩
    exact withoutFirstLineEnd_eq_self isPrintable rest

theorem head_multiBasicBody {content : Text} (noNewline : '\n' ∉ content) (after : Text) :
    ∃ first rest, multiBasicBody 0 content ++ '\x22' :: after = first :: rest ∧
      isPrintable first = true := by
  cases content with
  | nil => exact ⟨_, _, rfl, rfl⟩
  | cons c content =>
      have other : c ≠ '\n' := fun same => noNewline (by simp [same])
      rcases multiBasicBody_cons 0 c content with
        ⟨-, -, body⟩ | ⟨first, unit, body, -, printable, -⟩ <;> rw [body]
      · exact ⟨_, _, rfl, rfl⟩
      · exact ⟨_, _, rfl, printable other⟩

theorem head_multiLiteral {content : Text} (noNewline : '\n' ∉ content)
    (printable : content.all (fun c => isPrintable c || c == '\n') = true) (after : Text) :
    ∃ first rest, content ++ '\x27' :: after = first :: rest ∧ isPrintable first = true := by
  cases content with
  | nil => exact ⟨_, _, rfl, rfl⟩
  | cons c content =>
      have other : c ≠ '\n' := fun same => noNewline (by simp [same])
      have : isPrintable c = true := by
        rw [List.all_cons, Bool.and_eq_true] at printable
        simpa [other] using printable.1
      exact ⟨_, _, rfl, this⟩

/-- A form fits a string that it holds, and the two between quotation marks fit every string. -/
def Form.Fits (form : Form) (content : Text) : Prop :=
  form.holds content = true ∨ form = .basic ∨ form = .multiBasic

theorem Form.fits_ofString (content : Text) : (ofString content).Fits content := by
  rw [ofString]
  split_ifs with basicHolds literalHolds multiBasicHolds multiLiteralHolds newline
  · exact Or.inl basicHolds
  · exact Or.inl literalHolds
  · exact Or.inl multiBasicHolds
  · exact Or.inl multiLiteralHolds
  · exact Or.inr (Or.inr rfl)
  · exact Or.inr (Or.inl rfl)

/-- Both single-line forms are read back whatever follows them. -/
theorem readLine?_write {content : Text} {form : Form}
    (fits : form = .basic ∨ form = .literal ∧ form.holds content = true) (rest : Text) :
    readLine? (writeAs form content ++ rest) = some (content, rest) := by
  rcases fits with rfl | ⟨rfl, holds⟩
  · simpa [writeAs, readLine?] using readBasic_written content rest
  · simpa [writeAs, readLine?] using readLiteral_written holds rest

theorem read?_eq_readLine? {text : Text}
    (notBasic : ∀ rest, text ≠ '\x22' :: '\x22' :: '\x22' :: rest)
    (notLiteral : ∀ rest, text ≠ '\x27' :: '\x27' :: '\x27' :: rest) :
    read? text = readLine? text := by
  unfold read?
  split
  case h_1 => exact absurd rfl (notBasic _)
  case h_2 => exact absurd rfl (notLiteral _)
  case h_3 => rfl

theorem read?_writeAs {form : Form} {content rest : Text} (fits : form.Fits content)
    (noBasic : rest.head? ≠ some '\x22') (noLiteral : rest.head? ≠ some '\x27') :
    read? (writeAs form content ++ rest) = some (content, rest) := by
  cases form with
  | basic =>
      rw [read?_eq_readLine?, readLine?_write (Or.inl rfl)]
      · intro after same
        cases content with
        | nil => simp_all [writeAs]
        | cons c content =>
            rcases (spells_basicUnit c).exists_cons with ⟨first, unitRest, unit, notMark, -⟩
            simp [writeAs, unit, notMark] at same
      · intro after same
        simp [writeAs] at same
  | literal =>
      have holds : Form.literal.holds content = true := by simpa [Form.Fits] using fits
      rw [read?_eq_readLine?, readLine?_write (Or.inr ⟨rfl, holds⟩)]
      · intro after same
        simp [writeAs] at same
      · intro after same
        cases content with
        | nil => simp_all [writeAs]
        | cons c content =>
            simp only [Form.holds, List.all_cons, Bool.and_eq_true, bne_iff_ne] at holds
            simp [writeAs, holds.1.2] at same
  | multiBasic =>
      have opened : read? (writeAs .multiBasic content ++ rest) =
          readMultiBasic .inside (withoutFirstLineEnd (opening content ++
            (multiBasicBody 0 content ++ '\x22' :: '\x22' :: '\x22' :: rest))) := by
        simp [read?, writeAs]
      rw [opened, withoutFirstLineEnd_opening fun noNewline => head_multiBasicBody noNewline _,
        readMultiBasic_written content noBasic 0]
  | multiLiteral =>
      have holds : Form.multiLiteral.holds content = true := by simpa [Form.Fits] using fits
      rw [Form.holds, Bool.and_eq_true] at holds
      have opened : read? (writeAs .multiLiteral content ++ rest) =
          readMultiLiteral (withoutFirstLineEnd (opening content ++
            (content ++ '\x27' :: '\x27' :: '\x27' :: rest))) := by
        simp [read?, writeAs]
      rw [opened,
        withoutFirstLineEnd_opening fun noNewline => head_multiLiteral noNewline holds.1 _,
        readMultiLiteral_written noLiteral holds.1 holds.2]

/-- A string that is written as a value is read back if no mark follows. -/
theorem read?_write (content : Text) {rest : Text} (noBasic : rest.head? ≠ some '\x22')
    (noLiteral : rest.head? ≠ some '\x27') :
    read? (write content ++ rest) = some (content, rest) :=
  read?_writeAs (Form.fits_ofString content) noBasic noLiteral

theorem exists_mark_write (content : Text) :
    ∃ mark rest, write content = mark :: rest ∧ (mark = '\x22' ∨ mark = '\x27') := by
  rw [write]
  cases Form.ofString content with
  | basic => exact ⟨_, _, rfl, Or.inl rfl⟩
  | literal => exact ⟨_, _, rfl, Or.inr rfl⟩
  | multiBasic => exact ⟨_, _, rfl, Or.inl rfl⟩
  | multiLiteral => exact ⟨_, _, rfl, Or.inr rfl⟩

end Quoted

end Toml

end PropertyCascade
