import Mathlib.Data.List.Basic
import PropertyCascade.Proofs.PathName.Spelling

/-!
# Parents of absolute names

The parent of an absolute name, in whatever spelling, has the parts of the name but the last. The
name is cut behind a segment that has an effect, so only the segments that have one count, and the
one left out is the last of these. At the root there is none to leave out and no parent.
-/

namespace PropertyCascade

namespace PathName

open Segment

theorem effective_dropWhile (segments : List Segment) :
    effective (segments.dropWhile isNoise) = effective segments := by
  induction segments with
  | nil => rfl
  | cons segment rest ih =>
      cases noise : segment.isNoise with
      | true =>
          rw [List.dropWhile_cons_of_pos noise, ih]
          simp [effective, noise]
      | false => rw [List.dropWhile_cons_of_neg (by simp [noise])]

theorem effective_reverse (segments : List Segment) :
    effective segments.reverse = (effective segments).reverse :=
  List.filter_reverse ..

/-- Without its last segment that has an effect, a name is without its last effect. -/
theorem effective_withoutLast (reversed : List Segment) :
    effective (withoutLast reversed) = (effective reversed).tail := by
  rw [withoutLast, effective_dropWhile, ← effective_dropWhile reversed]
  cases loud : reversed.dropWhile isNoise with
  | nil => rfl
  | cons segment rest =>
      have first : segment.isNoise = false := by
        have head := List.head?_dropWhile_not isNoise reversed
        simpa [loud] using head
      simp [effective, first]

theorem withoutLast_sublist (reversed : List Segment) :
    (withoutLast reversed).Sublist reversed :=
  (List.dropWhile_sublist _).trans ((List.drop_sublist _ _).trans (List.dropWhile_sublist _))

theorem effective_segments_tail {path : PathName} (isAbsolute : path.isAbsolute = true) :
    effective path.segments.tail = effective path.segments := by
  rcases exists_segments path with ⟨first, rest, segments⟩
  rw [segments, ((isAbsolute_eq_of_segments segments).mp isAbsolute).1, effective_nil_cons,
    List.tail_cons]

/-- At the root there is no parent. Below it, the parent is absolute again and has all parts but the
last. -/
theorem parent?_of_isAbsolute {path : PathName} (isAbsolute : path.isAbsolute = true) :
    path.parent? = none ∧ path.parts = [root] ∨
      ∃ parent last, path.parent? = some parent ∧ parent.isAbsolute = true ∧
        path.parts = parent.parts ++ [last] := by
  have parts := parts_of_isAbsolute isAbsolute
  rcases List.eq_nil_or_concat' (effective path.segments) with atRoot | ⟨front, last, below⟩
  · rw [atRoot] at parts
    refine Or.inl ⟨?_, parts⟩
    rw [parent?, parts]
    rfl
  · have notRoot : last ≠ root := by
      have written : last ∈ path.segments :=
        (List.mem_filter.mp (show last ∈ effective path.segments by simp [below])).1
      rintro rfl
      exact separator_not_mem_of_mem_segments written (by simp [root])
    have whole : ∀ segment ∈ (withoutLast path.segments.tail.reverse).reverse,
        separator ∉ segment := by
      intro segment member
      have kept := (withoutLast_sublist _).subset (List.mem_reverse.mp member)
      exact separator_not_mem_of_mem_segments (List.mem_of_mem_tail (List.mem_reverse.mp kept))
    have left : effective (withoutLast path.segments.tail.reverse).reverse = front := by
      rw [effective_reverse, effective_withoutLast, effective_reverse,
        effective_segments_tail isAbsolute, below]
      simp
    refine Or.inr ⟨absolute (withoutLast path.segments.tail.reverse).reverse, last, ?_,
      isAbsolute_absolute _, ?_⟩
    · rw [parent?, parts, below, ← List.cons_append, List.getLast?_concat]
      simp only [notRoot, isAbsolute, if_true, if_false]
    · rw [parts, below, parts_absolute_eq whole, left, List.cons_append]

/-- Every segment that has an effect takes a byte at least. -/
theorem length_effective_le (path : PathName) :
    (effective path.segments).length ≤ path.bytes.length := by
  rcases path with ⟨bytes⟩
  induction bytes with
  | nil => simp [segments, effective, isNoise]
  | cons byte rest ih =>
      simp only [segments, List.splitOn_cons_eq_if_modifyHead, List.length_cons] at ih ⊢
      split
      case isTrue =>
        rw [effective_nil_cons]
        exact Nat.le_succ_of_le ih
      case isFalse =>
        rcases List.exists_cons_of_ne_nil (List.splitOn_ne_nil separator rest) with
          ⟨first, others, pieces⟩
        rw [pieces] at ih ⊢
        have fewer : (effective others).length ≤ (effective (first :: others)).length :=
          ((List.sublist_cons_self first others).filter _).length_le
        have oneMore : (effective ((byte :: first) :: others)).length ≤
            (effective others).length + 1 := by
          rw [effective, List.filter_cons]
          split
          case isTrue => exact Nat.le_refl _
          case isFalse => exact Nat.le_succ _
        exact Nat.le_trans oneMore (Nat.succ_le_succ (Nat.le_trans fewer ih))

end PathName

end PropertyCascade
