import Mathlib.Data.List.DropRight
import PropertyCascade.Text.Blank

/-!
# Trimmed texts

Blanks at the ends of a text make no difference to what is left by trimming, and a text without such
blanks is left as it is. At the end, trimming goes back to the last character that is not blank,
whatever stands before it.
-/

namespace PropertyCascade

namespace Text

/-- All characters are blanks. -/
def IsBlank (text : Text) : Prop :=
  ∀ c ∈ text, isBlank c = true

/-- No blank stands at either end. -/
def IsTrimmed (text : Text) : Prop :=
  text.head?.any isBlank = false ∧ text.getLast?.any isBlank = false

instance (text : Text) : Decidable (IsBlank text) :=
  decidable_of_iff (text.all isBlank = true) List.all_eq_true

instance (text : Text) : Decidable (IsTrimmed text) :=
  inferInstanceAs (Decidable (_ ∧ _))

theorem IsTrimmed.head {text : Text} {c : Char} (trimmed : IsTrimmed text)
    (first : text.head? = some c) : isBlank c = false := by
  simpa [first] using trimmed.1

theorem IsTrimmed.last {text : Text} {c : Char} (trimmed : IsTrimmed text)
    (last : text.getLast? = some c) : isBlank c = false := by
  simpa [last] using trimmed.2

variable {blanks : Text}

theorem IsBlank.append {others : Text} (blank : IsBlank blanks) (othersBlank : IsBlank others) :
    IsBlank (blanks ++ others) := by
  intro c member
  exact (List.mem_append.mp member).elim (blank c) (othersBlank c)

theorem trimStart_append (blank : IsBlank blanks) (text : Text) :
    trimStart (blanks ++ text) = trimStart text :=
  List.dropWhile_append_of_pos blank

theorem trimStart_cons {c : Char} (notBlank : isBlank c = false) (text : Text) :
    trimStart (c :: text) = c :: text :=
  List.dropWhile_cons_of_neg (by simp [notBlank])

theorem trimEnd_append (blank : IsBlank blanks) (text : Text) :
    trimEnd (text ++ blanks) = trimEnd text := by
  have reversed : ∀ c ∈ blanks.reverse, isBlank c = true :=
    fun c member => blank c (List.mem_reverse.mp member)
  rw [trimEnd, List.reverse_append, List.dropWhile_append_of_pos reversed, trimEnd]

theorem trimEnd_append_cons {c : Char} (notBlank : isBlank c = false) (left right : Text) :
    trimEnd (left ++ c :: right) = left ++ c :: trimEnd right := by
  have stop : (c :: left.reverse).dropWhile isBlank = c :: left.reverse :=
    List.dropWhile_cons_of_neg (by simp [notBlank])
  rw [trimEnd, List.reverse_append, List.reverse_cons, List.append_assoc, List.singleton_append,
    List.dropWhile_append, stop, trimEnd]
  cases right.reverse.dropWhile isBlank <;> simp

theorem trimStart_of_isBlank (blank : IsBlank blanks) : trimStart blanks = [] :=
  List.dropWhile_eq_nil_iff.mpr blank

theorem trimEnd_of_isBlank (blank : IsBlank blanks) : trimEnd blanks = [] := by
  simpa [trimEnd] using trimEnd_append blank []

theorem trim_of_isBlank (blank : IsBlank blanks) : trim blanks = [] := by
  rw [trim, trimStart_of_isBlank blank]
  rfl

theorem trim_append_left (blank : IsBlank blanks) (text : Text) :
    trim (blanks ++ text) = trim text := by
  rw [trim, trimStart_append blank, trim]

theorem trim_append_right (blank : IsBlank blanks) (text : Text) :
    trim (text ++ blanks) = trim text := by
  rw [trim, trim, trimStart, List.dropWhile_append]
  split
  case isTrue empty =>
    rw [trimStart, List.isEmpty_iff.mp empty, List.dropWhile_eq_nil_iff.mpr blank]
  case isFalse => exact trimEnd_append blank _

theorem IsTrimmed.trim_eq {text : Text} (trimmed : IsTrimmed text) : trim text = text := by
  cases text with
  | nil => rfl
  | cons first rest =>
      rcases List.eq_nil_or_concat (first :: rest) with nil | ⟨front, last, whole⟩
      · cases nil
      · have firstLoud : isBlank first = false := trimmed.head rfl
        have lastLoud : isBlank last = false := trimmed.last (by simp [whole])
        rw [trim, trimStart_cons firstLoud, whole, List.concat_eq_append,
          trimEnd_append_cons lastLoud]
        rfl

theorem exists_blanks_after (text : Text) :
    ∃ after, IsBlank after ∧ text = trimEnd text ++ after := by
  refine ⟨(text.reverse.takeWhile isBlank).reverse, fun c member => ?_, ?_⟩
  · exact List.mem_takeWhile_imp (List.mem_reverse.mp member)
  · rw [trimEnd, ← List.reverse_append, List.takeWhile_append_dropWhile, List.reverse_reverse]

theorem trim_trimEnd (text : Text) : trim (trimEnd text) = trim text := by
  rcases exists_blanks_after text with ⟨after, blank, whole⟩
  rw [← trim_append_right blank (trimEnd text), ← whole]

/-- A text is what is left by trimming, with blanks around. -/
theorem exists_blanks_around (text : Text) :
    ∃ before after, IsBlank before ∧ IsBlank after ∧ text = before ++ trim text ++ after := by
  rcases exists_blanks_after (trimStart text) with ⟨after, blank, whole⟩
  refine ⟨text.takeWhile isBlank, after, fun c => List.mem_takeWhile_imp, blank, ?_⟩
  rw [List.append_assoc, trim, ← whole, trimStart, List.takeWhile_append_dropWhile]

theorem isTrimmed_trim (text : Text) : IsTrimmed (trim text) := by
  have firstLoud (rest : Text) : (rest.dropWhile isBlank).head?.any isBlank = false := by
    have notBlank := List.head?_dropWhile_not isBlank rest
    cases first : (rest.dropWhile isBlank).head? with
    | none => rfl
    | some c => simpa [first] using notBlank
  constructor
  · rcases exists_blanks_after (trimStart text) with ⟨after, -, whole⟩
    cases first : (trim text).head? with
    | none => rfl
    | some c =>
        have sameFirst : (trimStart text).head? = some c := by
          rw [whole, List.head?_append, ← trim, first, Option.some_or]
        have loud := firstLoud text
        rw [← trimStart, sameFirst] at loud
        exact loud
  · rw [trim, trimEnd, List.getLast?_reverse]
    exact firstLoud _

/-- Where a text is trimmed, nothing blank stands in front of what is left of its first part. -/
theorem exists_append_trim {before after : Text} (trimmed : IsTrimmed (before ++ after)) :
    ∃ rest, before ++ after = trim before ++ rest := by
  rcases exists_blanks_around before with ⟨blanks, others, blank, -, whole⟩
  cases blanks with
  | nil =>
      refine ⟨others ++ after, ?_⟩
      rw [← List.append_assoc, ← List.nil_append (trim before), ← whole]
  | cons c rest =>
      rw [whole] at trimmed
      have loud := trimmed.head (c := c) (by simp)
      rw [blank c List.mem_cons_self] at loud
      cases loud

theorem mem_of_mem_trim {text : Text} {c : Char} (member : c ∈ trim text) : c ∈ text := by
  rcases exists_blanks_around text with ⟨before, after, -, -, whole⟩
  rw [whole]
  exact List.mem_append_left _ (List.mem_append_right _ member)

end Text

end PropertyCascade
