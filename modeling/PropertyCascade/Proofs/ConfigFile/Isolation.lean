import PropertyCascade.Level
import PropertyCascade.Proofs.ConfigFile.Lines

/-!
# Isolation of faulty sections

A section whose header is no pattern makes no difference to anything else in its file: its lines can
be taken out of the text, and the level has the same preamble, is a root as before, and gives every
file the same properties. All that remains of the section is its fault.

The lines of such a section stay together through reading, because the statements of a text are those
of its lines and a header ends what stands before it. So the sections of the whole file are those of
the shorter one with the faulty one put between them.
-/

namespace PropertyCascade

open Text

namespace Statement

/-- Lines as a text, each with a line end. -/
def ended (lines : List Text) : Text :=
  lines.flatMap fun line => line ++ ['\n']

/-- The first line of a text, without its line end. -/
def firstLine (text : Text) : Text :=
  text.takeWhile (· != '\n')

theorem ofUnmarked_ended {lines : List Text} (oneLine : ∀ line ∈ lines, '\n' ∉ line)
    (rest : Text) :
    ofUnmarked (ended lines ++ rest) = lines.filterMap ofLine? ++ ofUnmarked rest := by
  induction lines with
  | nil => rfl
  | cons line others ih =>
      rcases List.forall_mem_cons.mp oneLine with ⟨lineIsOne, othersAreOne⟩
      have regroup : ended (line :: others) ++ rest = line ++ '\n' :: (ended others ++ rest) := by
        simp [ended]
      rw [regroup, ofUnmarked_append, ofUnmarked_line lineIsOne, ih othersAreOne]
      cases said : ofLine? line <;> simp [said]

/-- The first line of a text is a header. -/
def StartsWithHeader (text : Text) : Prop :=
  ∃ pattern, IsHeaderLine pattern (firstLine text)

theorem firstLine_append_dropWhile (text : Text) :
    firstLine text ++ text.dropWhile (· != '\n') = text :=
  List.takeWhile_append_dropWhile

theorem firstLine_append {line : Text} (oneLine : '\n' ∉ line) (rest : Text) :
    firstLine (line ++ '\n' :: rest) = line := by
  have all : ∀ c ∈ line, (c != '\n') = true := by
    intro c member
    have : c ≠ '\n' := fun same => oneLine (same ▸ member)
    simpa using this
  rw [firstLine, List.takeWhile_append_of_pos all]
  simp

/-- A header at the start of a text is its first statement. -/
theorem StartsWithHeader.leading_ofUnmarked {text : Text} (starts : StartsWithHeader text) :
    leading (ofUnmarked text) = [] := by
  rcases starts with ⟨pattern, isHeader⟩
  have said := ofLine?_eq_header_iff.mpr isHeader
  have oneLine : '\n' ∉ firstLine text := by
    intro member
    simpa using List.mem_takeWhile_imp member
  have whole := firstLine_append_dropWhile text
  cases after : text.dropWhile (· != '\n') with
  | nil =>
      rw [after, List.append_nil] at whole
      rw [← whole, ofUnmarked_line oneLine, said]
      rfl
  | cons c rest =>
      have lineEnd : c = '\n' := by
        have stops := List.head?_dropWhile_not (· != '\n') text
        simpa [after] using stops
      rw [after, lineEnd] at whole
      rw [← whole, ofUnmarked_append, ofUnmarked_line oneLine, said]
      rfl

/-- A text that starts with a header does not start with a byte order mark. -/
theorem StartsWithHeader.head?_ne_mark {text : Text} (starts : StartsWithHeader text) :
    text.head? ≠ some '\uFEFF' := by
  rcases starts with ⟨pattern, before, after, beforeBlank, -, line⟩
  rw [← firstLine_append_dropWhile text, line]
  cases before with
  | nil => simp
  | cons c others =>
      have blank := beforeBlank c List.mem_cons_self
      intro mark
      have : c = '\uFEFF' := by simpa using mark
      rw [this] at blank
      exact absurd blank (by decide)

/-- What a part of a text says that ends with a line end, whatever follows. -/
theorem exists_statements_of_ends {before : Text}
    (ends : before = [] ∨ before = ['\uFEFF'] ∨ before.getLast? = some '\n') :
    ∃ statements, ∀ rest : Text, rest.head? ≠ some '\uFEFF' →
      ofText (before ++ rest) = statements ++ ofUnmarked rest := by
  rcases ends with rfl | rfl | ends
  · refine ⟨[], fun rest noMark => ?_⟩
    rw [List.nil_append, List.nil_append, ofText, withoutMark_eq_self noMark, ofUnmarked]
  · exact ⟨[], fun rest _ => rfl⟩
  · rcases List.getLast?_eq_some_iff.mp ends with ⟨front, rfl⟩
    refine ⟨ofUnmarked (withoutMark front), fun rest _ => ?_⟩
    rw [List.append_assoc, List.singleton_append, ofText, withoutMark_append_lineEnd, ← ofUnmarked,
      ofUnmarked_append]

theorem sections_filterMap {lines : List Text}
    (noHeaders : ∀ line ∈ lines, ∀ pattern, ¬IsHeaderLine pattern line) :
    Section.ofStatements (lines.filterMap ofLine?) = [] := by
  induction lines with
  | nil => rfl
  | cons line others ih =>
      rcases List.forall_mem_cons.mp noHeaders with ⟨lineIsNone, othersAreNone⟩
      rw [List.filterMap_cons]
      cases said : ofLine? line with
      | none => exact ih othersAreNone
      | some statement =>
          cases statement with
          | header pattern => exact absurd (ofLine?_eq_header_iff.mp said) (lineIsNone pattern)
          | assignment key value => exact ih othersAreNone

/-- A header and the lines under it make a section of their own, between the sections before it and
those after it. -/
theorem exists_read_of_block {before headerLine pattern after : Text} {lines : List Text}
    (ends : before = [] ∨ before = ['\uFEFF'] ∨ before.getLast? = some '\n')
    (isHeader : IsHeaderLine pattern headerLine)
    (noHeaders : ∀ line ∈ lines, ∀ other, ¬IsHeaderLine other line)
    (oneLine : ∀ line ∈ headerLine :: lines, '\n' ∉ line)
    (starts : after = [] ∨ StartsWithHeader after) :
    ∃ preamble earlier properties later,
      ConfigFile.read (before ++ ended (headerLine :: lines) ++ after) =
          ⟨preamble, earlier ++ ⟨pattern, properties⟩ :: later⟩ ∧
        ConfigFile.read (before ++ after) = ⟨preamble, earlier ++ later⟩ := by
  rcases exists_statements_of_ends ends with ⟨statements, said⟩
  have separate : leading (ofUnmarked after) = [] := by
    rcases starts with rfl | starts
    · rfl
    · exact starts.leading_ofUnmarked
  have noMark : after.head? ≠ some '\uFEFF' := by
    rcases starts with rfl | starts
    · simp
    · exact starts.head?_ne_mark
  have blockStarts : StartsWithHeader (ended (headerLine :: lines) ++ after) := by
    have regroup : ended (headerLine :: lines) ++ after =
        headerLine ++ '\n' :: (ended lines ++ after) := by
      simp [ended]
    rw [StartsWithHeader, regroup, firstLine_append (oneLine headerLine List.mem_cons_self)]
    exact ⟨pattern, isHeader⟩
  have whole : ofText (before ++ ended (headerLine :: lines) ++ after) =
      statements ++ (header pattern :: (lines.filterMap ofLine? ++ ofUnmarked after)) := by
    rw [List.append_assoc, said _ blockStarts.head?_ne_mark, ofUnmarked_ended oneLine,
      List.filterMap_cons, ofLine?_eq_header_iff.mpr isHeader]
    rfl
  have headerFirst : leading (header pattern :: (lines.filterMap ofLine? ++ ofUnmarked after)) =
      [] := rfl
  refine ⟨OrderedMap.ofList (leading statements), Section.ofStatements statements,
    OrderedMap.ofList (leading (lines.filterMap ofLine?)),
    Section.ofStatements (ofUnmarked after), ?_, ?_⟩
  · rw [ConfigFile.read, whole, ConfigFile.ofStatements, leading_append headerFirst,
      sections_append headerFirst, Section.ofStatements, leading_append separate,
      sections_append separate, sections_filterMap noHeaders, List.nil_append]
  · rw [ConfigFile.read, said _ noMark, ConfigFile.ofStatements, leading_append separate,
      sections_append separate]

end Statement

namespace Level

variable {preamble : Properties} {earlier later : List Section} {faulty : Section}
  {fault : Glob.Fault}

/-- A faulty section covers nothing. -/
theorem matching_insert_faulty (isFaulty : Glob.Pattern.compile faulty.pattern = .error fault)
    (basename relativePath : Text) :
    (ofConfigFile ⟨preamble, earlier ++ faulty :: later⟩).matching basename relativePath =
      (ofConfigFile ⟨preamble, earlier ++ later⟩).matching basename relativePath := by
  simp [matching, ofConfigFile, CompiledSection.covers, CompiledSection.ofSection, isFaulty]

theorem faults_insert_faulty (isFaulty : Glob.Pattern.compile faulty.pattern = .error fault) :
    (ofConfigFile ⟨preamble, earlier ++ faulty :: later⟩).faults.length =
      (ofConfigFile ⟨preamble, earlier ++ later⟩).faults.length + 1 := by
  simp [faults, ofConfigFile, CompiledSection.fault?, CompiledSection.ofSection, isFaulty]
  omega

/-- The lines from a faulty header up to the next header can be taken out of a text: the level has
the same preamble, is a root as before and gives every file the same properties. It only has one
fault less. -/
theorem ofText_isolates_faulty {before headerLine pattern after : Text} {lines : List Text}
    {fault : Glob.Fault}
    (ends : before = [] ∨ before = ['\uFEFF'] ∨ before.getLast? = some '\n')
    (isHeader : Statement.IsHeaderLine pattern headerLine)
    (isFaulty : Glob.Pattern.compile pattern = .error fault)
    (noHeaders : ∀ line ∈ lines, ∀ other, ¬Statement.IsHeaderLine other line)
    (oneLine : ∀ line ∈ headerLine :: lines, '\n' ∉ line)
    (starts : after = [] ∨ Statement.StartsWithHeader after) :
    let whole := ofText (before ++ Statement.ended (headerLine :: lines) ++ after)
    let rest := ofText (before ++ after)
    whole.preamble = rest.preamble ∧ whole.isRoot = rest.isRoot ∧
      (∀ basename relativePath,
        whole.matching basename relativePath = rest.matching basename relativePath) ∧
      whole.faults.length = rest.faults.length + 1 := by
  intro whole rest
  rcases Statement.exists_read_of_block ends isHeader noHeaders oneLine starts with
    ⟨preamble, earlier, properties, later, wholeRead, restRead⟩
  have wholeEq : whole = ofConfigFile ⟨preamble, earlier ++ ⟨pattern, properties⟩ :: later⟩ := by
    rw [← wholeRead]
    rfl
  have restEq : rest = ofConfigFile ⟨preamble, earlier ++ later⟩ := by
    rw [← restRead]
    rfl
  rw [wholeEq, restEq]
  exact ⟨rfl, rfl, matching_insert_faulty isFaulty, faults_insert_faulty isFaulty⟩

/-- A faulty section that would otherwise make the level a root, between a preamble and a section
with the same key. -/
theorem ofText_isolates_faulty_unclosedBrace :
    let before := "\uFEFFk=0\n".toList
    let headerLine := " [*.\x7Bjs]\r".toList
    let lines := ["root=true".toList, "[k=1".toList]
    let after := "[*]\nk=2".toList
    let whole := ofText (before ++ Statement.ended (headerLine :: lines) ++ after)
    let rest := ofText (before ++ after)
    Glob.Pattern.compile "*.\x7Bjs".toList = .error (.unterminatedBrace 2) ∧
      whole.isRoot = rest.isRoot ∧
      whole.matching "a.js".toList "a.js".toList = rest.matching "a.js".toList "a.js".toList ∧
      whole.faults.length = rest.faults.length + 1 := by
  intro before headerLine lines after whole rest
  have isHeader : Statement.IsHeaderLine "*.\x7Bjs".toList headerLine :=
    ⟨[' '], ['\r'], by decide, by decide, by decide⟩
  have isFaulty : Glob.Pattern.compile "*.\x7Bjs".toList = .error (.unterminatedBrace 2) := by
    rfl
  have noHeaders : ∀ line ∈ lines, ∀ other, ¬Statement.IsHeaderLine other line := by
    intro line member other isHeader
    have said := Statement.ofLine?_eq_header_iff.mpr isHeader
    have noHeader : (lines.all fun line =>
        (Statement.pattern? (Text.trim line)).isNone) = true := by decide
    have trimmed := Statement.pattern?_eq_some_iff.mpr
      (Statement.ofTrimmed?_eq_header_iff.mp said)
    simpa [trimmed] using List.all_eq_true.mp noHeader line member
  have starts : Statement.StartsWithHeader after :=
    ⟨['*'], [], [], by decide, by decide, by decide⟩
  have ends : before.getLast? = some '\n' := by decide
  rcases ofText_isolates_faulty (Or.inr (Or.inr ends)) isHeader isFaulty noHeaders (by decide)
    (Or.inr starts) with ⟨-, isRoot, matching, faults⟩
  exact ⟨isFaulty, isRoot, matching _ _, faults⟩

end Level

end PropertyCascade
