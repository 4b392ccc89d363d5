import PropertyCascade.ConfigFile
import PropertyCascade.Proofs.Text.Trim

/-!
# Lines of config files

A config file means what its lines say, one after the other, and a line means the same whatever
blanks stand around it. This file gives the laws by which a text is taken apart: at its line ends,
and at the headers, which cut the statements into a preamble and sections. A line says that a section
starts exactly if it has brackets at both ends.
-/

namespace PropertyCascade

namespace Statement

open Text

/-! ## What a line says -/

/-- A line with a pattern between brackets, and blanks around these. -/
def IsHeaderLine (pattern line : Text) : Prop :=
  ∃ before after, IsBlank before ∧ IsBlank after ∧
    line = before ++ '[' :: pattern ++ ']' :: after

theorem pattern?_eq_some_iff {line pattern : Text} :
    pattern? line = some pattern ↔ line = '[' :: pattern ++ [']'] := by
  constructor
  · intro found
    unfold pattern? at found
    split at found
    case h_1 rest =>
      split at found
      case isTrue closed =>
        rcases Option.some.inj found with rfl
        rcases List.getLast?_eq_some_iff.mp closed with ⟨front, rfl⟩
        simp
      case isFalse => cases found
    case h_2 => cases found
  · rintro rfl
    simp [pattern?]

theorem assignment?_ne_header (line pattern : Text) :
    assignment? line ≠ some (header pattern) := by
  intro found
  rw [assignment?] at found
  split at found
  · cases found
  · simp only at found
    split at found <;> cases found

theorem ofTrimmed?_eq_header_iff {line pattern : Text} :
    ofTrimmed? line = some (header pattern) ↔ line = '[' :: pattern ++ [']'] := by
  rw [← pattern?_eq_some_iff]
  constructor
  · intro found
    rw [ofTrimmed?] at found
    split at found
    case isTrue => cases found
    case isFalse =>
      split at found
      case h_1 between => simpa [between] using found
      case h_2 => exact absurd found (assignment?_ne_header _ _)
  · intro between
    have whole := pattern?_eq_some_iff.mp between
    have notComment : ¬(line = [] ∨ isComment line = true) := by simp [whole, isComment]
    rw [ofTrimmed?, if_neg notComment, between]

theorem trim_header {before pattern after : Text} (beforeBlank : IsBlank before)
    (afterBlank : IsBlank after) :
    trim (before ++ '[' :: pattern ++ ']' :: after) = '[' :: pattern ++ [']'] := by
  rw [List.append_assoc, trim_append_left beforeBlank, trim, List.cons_append,
    trimStart_cons (by decide), ← List.cons_append, trimEnd_append_cons (by decide),
    trimEnd_of_isBlank afterBlank]

theorem ofLine?_eq_header_iff {line pattern : Text} :
    ofLine? line = some (header pattern) ↔ IsHeaderLine pattern line := by
  rw [ofLine?, ofTrimmed?_eq_header_iff]
  constructor
  · intro trimmed
    rcases exists_blanks_around line with ⟨before, after, beforeBlank, afterBlank, whole⟩
    refine ⟨before, after, beforeBlank, afterBlank, ?_⟩
    rw [whole, trimmed]
    simp
  · rintro ⟨before, after, beforeBlank, afterBlank, rfl⟩
    exact trim_header beforeBlank afterBlank

theorem ofLine?_append {blanks : Text} (blank : IsBlank blanks) (line : Text) :
    ofLine? (line ++ blanks) = ofLine? line := by
  rw [ofLine?, trim_append_right blank, ofLine?]

/-! ## What several lines say -/

/-- The statements in a text that has no byte order mark at its start. -/
def ofUnmarked (text : Text) : List Statement :=
  (text.splitOn '\n').filterMap ofLine?

theorem ofUnmarked_append (left right : Text) :
    ofUnmarked (left ++ '\n' :: right) = ofUnmarked left ++ ofUnmarked right := by
  rw [ofUnmarked, List.splitOn_append_cons_self, List.filterMap_append, ofUnmarked, ofUnmarked]

/-- A line end is no byte order mark, so one at the start of a text belongs to its first line. -/
theorem withoutMark_append_lineEnd (left right : Text) :
    withoutMark (left ++ '\n' :: right) = withoutMark left ++ '\n' :: right := by
  cases left with
  | nil => rfl
  | cons c rest =>
      by_cases mark : c = '\uFEFF'
      · rw [mark]
        rfl
      · rw [withoutMark_eq_self (by simpa using mark), withoutMark_eq_self (by simpa using mark)]

/-- A text behind a line end is read by itself, unless it starts with a byte order mark. -/
theorem ofText_append {right : Text} (noMark : right.head? ≠ some '\uFEFF') (left : Text) :
    ofText (left ++ '\n' :: right) = ofText left ++ ofText right := by
  rw [ofText, withoutMark_append_lineEnd, ← ofUnmarked, ofUnmarked_append, ofUnmarked, ofUnmarked,
    ofText, ofText, withoutMark_eq_self noMark]

theorem ofUnmarked_line {line : Text} (oneLine : '\n' ∉ line) :
    ofUnmarked line = (ofLine? line).toList := by
  rw [ofUnmarked, List.splitOn_eq_singleton oneLine]
  cases said : ofLine? line <;> simp [said]

/-! ## Preamble and sections -/

/-- Statements that do not start with an assignment leave the ones before them as they are. -/
theorem leading_append {right : List Statement} (separate : leading right = [])
    (left : List Statement) : leading (left ++ right) = leading left := by
  induction left with
  | nil => exact separate
  | cons statement rest ih =>
      cases statement with
      | header pattern => rfl
      | assignment key value => rw [List.cons_append, leading, leading, ih]

theorem sections_append {right : List Statement} (separate : leading right = [])
    (left : List Statement) :
    Section.ofStatements (left ++ right) =
      Section.ofStatements left ++ Section.ofStatements right := by
  induction left with
  | nil => rfl
  | cons statement rest ih =>
      cases statement with
      | header pattern =>
          rw [List.cons_append, Section.ofStatements, Section.ofStatements, ih,
            leading_append separate, List.cons_append]
      | assignment key value => exact ih

end Statement

end PropertyCascade
