import Mathlib.Data.List.TakeDrop
import PropertyCascade.Text.Basic

/-!
# Cut texts

Where a reader stops: a text is cut at the first character without a property, so what follows the
characters that have it is seen only by its first one. A text that is cut at a separator, at the
first or at every one, is put together again with the separators in between.
-/

namespace PropertyCascade

universe u

/-- No piece of a list that is split at a separator has the separator. -/
theorem separator_not_mem_of_mem_splitOn {Element : Type u} [BEq Element] [LawfulBEq Element]
    {separator : Element} {list piece : List Element} (member : piece ∈ list.splitOn separator) :
    separator ∉ piece := by
  induction list generalizing piece with
  | nil => simp_all
  | cons element rest ih =>
      rw [List.splitOn_cons_eq_if_modifyHead] at member
      rcases List.exists_cons_of_ne_nil (List.splitOn_ne_nil separator rest) with
        ⟨first, others, pieces⟩
      rw [pieces] at ih member
      split at member
      case isTrue =>
        rcases List.mem_cons.mp member with rfl | later
        · exact List.not_mem_nil
        · exact ih later
      case isFalse different =>
        rcases List.mem_cons.mp member with rfl | later
        · have notFirst : separator ∉ first := ih List.mem_cons_self
          have notElement : separator ≠ element := fun same => different (by simp [same])
          simp [notFirst, notElement]
        · exact ih (List.mem_cons_of_mem _ later)

namespace Text

theorem eq_append_of_cutFirst {separator : Char} {text before after : Text}
    (cut : cutFirst separator text = some (before, after)) :
    separator ∉ before ∧ text = before ++ separator :: after := by
  induction text generalizing before with
  | nil => cases cut
  | cons c rest ih =>
      rw [cutFirst] at cut
      split at cut
      case isTrue same =>
        rcases Option.some.inj cut with ⟨⟩
        exact ⟨List.not_mem_nil, by rw [same, List.nil_append]⟩
      case isFalse different =>
        rcases Option.map_eq_some_iff.mp cut with ⟨⟨front, back⟩, cutRest, equal⟩
        rcases equal with ⟨⟩
        rcases ih cutRest with ⟨notInFront, whole⟩
        refine ⟨fun member => ?_, by rw [whole, List.cons_append]⟩
        rcases List.mem_cons.mp member with same | inFront
        · exact different same.symm
        · exact notInFront inFront

/-- A text that does not go on with a property: it is empty, or its first character lacks it. -/
def Stops (property : Char → Bool) (text : Text) : Prop :=
  text.head?.all (fun c => !property c) = true

instance (property : Char → Bool) (text : Text) : Decidable (Stops property text) :=
  inferInstanceAs (Decidable (_ = _))

variable {property : Char → Bool} {front rest : Text}

theorem Stops.dropWhile_eq (stops : Stops property rest) : rest.dropWhile property = rest := by
  cases rest with
  | nil => rfl
  | cons c after =>
      have : property c = false := by simpa [Stops] using stops
      simp [this]

theorem Stops.takeWhile_eq (stops : Stops property rest) : rest.takeWhile property = [] := by
  cases rest with
  | nil => rfl
  | cons c after =>
      have : property c = false := by simpa [Stops] using stops
      simp [this]

theorem dropWhile_append (taken : ∀ c ∈ front, property c = true) (stops : Stops property rest) :
    (front ++ rest).dropWhile property = rest := by
  rw [List.dropWhile_append_of_pos taken, stops.dropWhile_eq]

theorem Stops.span_eq (stops : Stops property rest) : rest.span property = ([], rest) := by
  rw [List.span_eq_takeWhile_dropWhile, stops.takeWhile_eq, stops.dropWhile_eq]

theorem span_append (taken : ∀ c ∈ front, property c = true) (stops : Stops property rest) :
    (front ++ rest).span property = (front, rest) := by
  rw [List.span_eq_takeWhile_dropWhile, List.takeWhile_append_of_pos taken, stops.takeWhile_eq,
    dropWhile_append taken stops, List.append_nil]

end Text

end PropertyCascade
