import Mathlib.Data.List.Forall2
import Mathlib.Data.List.ModifyLast
import PropertyCascade.OrderedMap.Lemmas
import PropertyCascade.Proofs.ConfigFile.Lines

/-!
# Concatenation of config files

Reading a text that is put together from two at a line end gives what the two parts say, one after
the other. Only the assignments in front of the first header of the second part change their place:
they come after whatever the first part ends with, so they belong to its last section, or to its
preamble if it has no section.

The statements of the whole are those of the parts, and the place of an assignment depends on the
headers before it, so the induction is on the statements of the first part: as long as a header is
still to come, the assignments of the second part belong to a later section.

Carriage returns before line ends are blanks at the ends of lines, and no line says anything else
with a blank at its end.
-/

namespace PropertyCascade

open Text

/-- A section with further assignments at its end. -/
def Section.overlay (fileSection : Section) (properties : Properties) : Section :=
  { fileSection with properties := fileSection.properties.overlay properties }

namespace ConfigFile

/-- A config file with another one behind it, whose preamble goes to the last section before it, or
to the preamble if there is none. -/
def append (first second : ConfigFile) : ConfigFile :=
  if first.sections = [] then ⟨first.preamble.overlay second.preamble, second.sections⟩
  else ⟨first.preamble,
    first.sections.modifyLast (·.overlay second.preamble) ++ second.sections⟩

/-- Texts that are equal but for carriage returns before some of the line ends of the second. -/
inductive ReturnsAdded : Text → Text → Prop where
  | nil : ReturnsAdded [] []
  | char {text returned : Text} (c : Char) (rest : ReturnsAdded text returned) :
      ReturnsAdded (c :: text) (c :: returned)
  | lineEnd {text returned : Text} (rest : ReturnsAdded text returned) :
      ReturnsAdded ('\n' :: text) ('\r' :: '\n' :: returned)

/-! ## Statements behind others -/

section Statements

variable (left right : List Statement)

theorem ofList_append (entries others : List (Text × Value)) :
    OrderedMap.ofList (entries ++ others) =
      (OrderedMap.ofList entries).overlay (OrderedMap.ofList others) := by
  apply OrderedMap.eq_of_get?_eq
  intro key
  rw [OrderedMap.get?_overlay, OrderedMap.get?_ofList, OrderedMap.get?_ofList,
    OrderedMap.get?_ofList, OrderedMap.lastUnder_append]

/-- The first header ends the assignments before it, also those that follow other statements. -/
theorem leading_append_eq :
    Statement.leading (left ++ right) =
      if Section.ofStatements left = [] then Statement.leading left ++ Statement.leading right
      else Statement.leading left := by
  induction left with
  | nil => rfl
  | cons statement rest ih =>
      cases statement with
      | header pattern => rfl
      | assignment key value =>
          rw [List.cons_append, Statement.leading, ih, Section.ofStatements, Statement.leading]
          split <;> rfl

theorem sections_append_eq :
    Section.ofStatements (left ++ right) =
      (Section.ofStatements left).modifyLast
          (·.overlay (OrderedMap.ofList (Statement.leading right))) ++
        Section.ofStatements right := by
  induction left with
  | nil => rfl
  | cons statement rest ih =>
      cases statement with
      | assignment key value => exact ih
      | header pattern =>
          rw [List.cons_append, Section.ofStatements, Section.ofStatements, ih, leading_append_eq]
          split
          case isTrue isLast =>
            rw [isLast, ofList_append]
            rfl
          case isFalse more =>
            rw [← List.singleton_append (l := Section.ofStatements rest),
              List.modifyLast_append_of_right_ne_nil _ _ _ more, List.append_assoc,
              List.singleton_append]

theorem ofStatements_append :
    ofStatements (left ++ right) = (ofStatements left).append (ofStatements right) := by
  rw [append, ofStatements, leading_append_eq, sections_append_eq]
  by_cases none : Section.ofStatements left = []
  case pos =>
    have noSection : (ofStatements left).sections = [] := none
    rw [if_pos none, if_pos noSection, none, ofList_append]
    rfl
  case neg =>
    have someSection : (ofStatements left).sections ≠ [] := none
    rw [if_neg none, if_neg someSection]
    rfl

end Statements

/-! ## Carriage returns -/

section Returns

variable {text returned : Text}

theorem ReturnsAdded.withoutMark (added : ReturnsAdded text returned) :
    ReturnsAdded (withoutMark text) (withoutMark returned) := by
  cases added with
  | nil => exact .nil
  | lineEnd rest => exact .lineEnd rest
  | char c rest =>
      by_cases mark : c = '\uFEFF'
      · rw [mark]
        exact rest
      · rw [withoutMark_eq_self (by simpa using mark), withoutMark_eq_self (by simpa using mark)]
        exact .char c rest

/-- Lines that are equal but for blanks at the end of the second. -/
def IsPadded (line padded : Text) : Prop :=
  ∃ blanks, IsBlank blanks ∧ padded = line ++ blanks

/-- Added carriage returns stand at the ends of lines. -/
theorem ReturnsAdded.lines (added : ReturnsAdded text returned) :
    List.Forall₂ IsPadded (text.splitOn '\n') (returned.splitOn '\n') := by
  have unpadded : IsPadded [] [] := ⟨[], by decide, rfl⟩
  induction added with
  | nil => exact .cons unpadded .nil
  | @char text returned c rest ih =>
      rw [List.splitOn_cons_eq_if_modifyHead, List.splitOn_cons_eq_if_modifyHead]
      split
      case isTrue => exact .cons unpadded ih
      case isFalse =>
        generalize text.splitOn '\n' = lines, returned.splitOn '\n' = padded at ih
        cases ih with
        | nil => exact .nil
        | cons first others =>
            rcases first with ⟨blanks, blank, rfl⟩
            exact .cons ⟨blanks, blank, rfl⟩ others
  | lineEnd rest ih =>
      rw [List.splitOn_cons_eq_if_modifyHead, List.splitOn_cons_eq_if_modifyHead,
        List.splitOn_cons_eq_if_modifyHead]
      exact .cons ⟨['\r'], by decide, rfl⟩ ih

theorem ReturnsAdded.read_eq (added : ReturnsAdded text returned) : read returned = read text := by
  have lines := added.withoutMark.lines
  rw [read, read, Statement.ofText, Statement.ofText]
  congr 1
  generalize (Text.withoutMark text).splitOn '\n' = plain,
    (Text.withoutMark returned).splitOn '\n' = padded at lines
  induction lines with
  | nil => rfl
  | cons first _ ih =>
      rcases first with ⟨blanks, blank, rfl⟩
      rw [List.filterMap_cons, List.filterMap_cons, Statement.ofLine?_append blank, ih]

end Returns

/-- A text behind a line end is read as a file behind another one, and the kind of the line ends
makes no difference. -/
theorem read_append_lineEnd :
    (∀ first second : Text, second.head? ≠ some '\uFEFF' →
      read (first ++ '\n' :: second) = (read first).append (read second)) ∧
    ∀ text returned, ReturnsAdded text returned → read returned = read text := by
  refine ⟨fun first second noMark => ?_, fun text returned added => added.read_eq⟩
  rw [read, Statement.ofText_append noMark, ofStatements_append]
  rfl

/-- The first part has a byte order mark, two sections and an unended line, the second assigns a key
of the last section again before its own section. -/
theorem read_append_lineEnd_sharedSection :
    let first := "\uFEFFr=0\n[a]\nk=1\n[b]\nk=1\r\nj = 2\r".toList
    let second := "k=3\nx\n[c]\nk=4".toList
    let returned := "k=3\r\nx\n[c]\r\nk=4".toList
    second.head? ≠ some '\uFEFF' ∧ ReturnsAdded second returned ∧
      (read (first ++ '\n' :: second)) =
        ⟨(read first).preamble,
          [⟨['a'], OrderedMap.ofList [(['k'], .integer 1)]⟩,
            ⟨['b'], OrderedMap.ofList [(['k'], .integer 3), (['j'], .integer 2)]⟩,
            ⟨['c'], OrderedMap.ofList [(['k'], .integer 4)]⟩]⟩ ∧
      read returned = read second := by
  intro first second returned
  have noMark : second.head? ≠ some '\uFEFF' := by decide
  have added : ReturnsAdded second returned :=
    .char _ <| .char _ <| .char _ <| .lineEnd <| .char _ <| .char _ <| .char _ <| .char _ <|
    .char _ <| .lineEnd <| .char _ <| .char _ <| .char _ .nil
  refine ⟨noMark, added, ?_, read_append_lineEnd.2 second returned added⟩
  rw [read_append_lineEnd.1 first second noMark]
  decide +kernel

end ConfigFile

end PropertyCascade
