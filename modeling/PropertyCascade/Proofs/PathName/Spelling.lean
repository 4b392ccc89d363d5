import Mathlib.Logic.Relation
import PropertyCascade.Proofs.PathName

/-!
# Spellings of a path

Two names have the same parts if and only if they are spellings of one path: one can be got from the
other by repeating separators, by a separator at the end, and by dots between separators or behind
the last one, each written or left out. A `..`, and a dot at the start of a relative name, cannot be
written or left out like that.

Every name is respelled step by step as the one name in which its parts are written without anything
else, from the front to the back. So names with the same parts have a spelling in common.
-/

namespace PropertyCascade

namespace PathName

open Segment Relation

/-- What can be left out of a name without a change of its meaning. -/
inductive Shortens : List UInt8 → List UInt8 → Prop where
  | repeated (front back : List UInt8) :
      Shortens (front ++ separator :: separator :: back) (front ++ separator :: back)
  | atEnd {front : List UInt8} (nonempty : front ≠ []) : Shortens (front ++ [separator]) front
  | dot (front back : List UInt8) :
      Shortens (front ++ separator :: dot :: separator :: back) (front ++ separator :: back)
  | dotAtEnd (front : List UInt8) : Shortens (front ++ [separator, dot]) (front ++ [separator])

/-- Names that differ in repeated separators, in separators at the end, and in dots behind a
separator. -/
def SpelledAlike (path other : PathName) : Prop :=
  EqvGen Shortens path.bytes other.bytes

/-! ## What is left out has no effect -/

/-- The part that the first segment of a name is. An empty one in front of a separator is the
root. -/
def lead (first : Segment) (rest : List Segment) : List Segment :=
  if first = [] then if rest = [] then [] else [root] else [first]

theorem exists_segments (path : PathName) : ∃ first rest, path.segments = first :: rest :=
  List.exists_cons_of_ne_nil (List.splitOn_ne_nil separator path.bytes)

theorem isAbsolute_eq_of_segments {path : PathName} {first : Segment} {rest : List Segment}
    (segments : path.segments = first :: rest) :
    path.isAbsolute = true ↔ first = [] ∧ rest ≠ [] := by
  rcases path with ⟨_ | ⟨byte, bytes⟩⟩
  · cases segments
    simp [isAbsolute]
  · rw [PathName.segments, List.splitOn_cons_eq_if_modifyHead] at segments
    split at segments
    case isTrue isSeparator =>
      cases segments
      simpa [isAbsolute] using isSeparator
    case isFalse notSeparator =>
      rcases List.exists_cons_of_ne_nil (List.splitOn_ne_nil separator bytes) with
        ⟨later, others, isLater⟩
      rw [isLater] at segments
      cases segments
      simpa [isAbsolute] using notSeparator

theorem parts_of_segments {path : PathName} {first : Segment} {rest : List Segment}
    (segments : path.segments = first :: rest) :
    path.parts = lead first rest ++ effective rest := by
  have absoluteIff := isAbsolute_eq_of_segments segments
  rw [parts, lead]
  by_cases noFirst : first = []
  case pos =>
    subst noFirst
    by_cases noRest : rest = []
    · subst noRest
      rw [if_neg (by simp [absoluteIff]), segments]
      rfl
    · rw [if_pos (absoluteIff.mpr ⟨rfl, noRest⟩), if_pos rfl, if_neg noRest, segments,
        effective_nil_cons]
      rfl
  case neg =>
    rw [if_neg (by simp [absoluteIff, noFirst]), if_neg noFirst, segments]
    dsimp only
    split
    case isTrue isHere => rw [isHere]; rfl
    case isFalse notHere => simp [effective, isNoise, noFirst, notHere]

theorem parts_eq_of_segments {path other : PathName} {first : Segment}
    {rest otherRest : List Segment} (segments : path.segments = first :: rest)
    (otherSegments : other.segments = first :: otherRest)
    (sameEffect : effective rest = effective otherRest)
    (leadAlike : first = [] → (rest = [] ↔ otherRest = [])) : path.parts = other.parts := by
  rw [parts_of_segments segments, parts_of_segments otherSegments, sameEffect, lead, lead]
  split
  case isTrue noFirst => simp only [leadAlike noFirst]
  case isFalse => rfl

theorem segments_append_separator (front back : List UInt8) :
    segments ⟨front ++ separator :: back⟩ = segments ⟨front⟩ ++ segments ⟨back⟩ :=
  List.splitOn_append_cons_self ..

/-- Behind a separator only the effect of the segments counts. -/
theorem parts_append_separator_eq {back shorter : List UInt8} (front : List UInt8)
    (sameEffect : effective (segments ⟨back⟩) = effective (segments ⟨shorter⟩)) :
    parts ⟨front ++ separator :: back⟩ = parts ⟨front ++ separator :: shorter⟩ := by
  rcases exists_segments ⟨front⟩ with ⟨first, rest, isFront⟩
  have behind (bytes : List UInt8) : segments ⟨front ++ separator :: bytes⟩ =
      first :: (rest ++ segments ⟨bytes⟩) := by
    rw [segments_append_separator, isFront, List.cons_append]
  have nonempty (bytes : List UInt8) : rest ++ segments ⟨bytes⟩ ≠ [] :=
    List.append_ne_nil_of_right_ne_nil _ (List.splitOn_ne_nil separator bytes)
  apply parts_eq_of_segments (behind back) (behind shorter)
  · rw [effective_append, effective_append, sameEffect]
  · exact fun _ => iff_of_false (nonempty back) (nonempty shorter)

theorem Shortens.parts_eq {bytes shorter : List UInt8} (shortens : Shortens bytes shorter) :
    parts ⟨bytes⟩ = parts ⟨shorter⟩ := by
  cases shortens with
  | repeated front back =>
      apply parts_append_separator_eq
      have behind := segments_append_separator [] back
      rw [List.nil_append] at behind
      rw [behind]
      exact effective_nil_cons _
  | atEnd nonempty =>
      rcases exists_segments ⟨shorter⟩ with ⟨first, rest, short⟩
      have long : segments ⟨shorter ++ [separator]⟩ = first :: (rest ++ [[]]) := by
        rw [segments_append_separator, short, List.cons_append]
        rfl
      apply parts_eq_of_segments long short
      · rw [effective_append, effective_nil_cons]
        simp [effective]
      · rintro rfl
        -- A name that starts with an empty segment has a second one.
        have notLast : rest ≠ [] := by
          rintro rfl
          have whole : [separator].intercalate (shorter.splitOn separator) = shorter :=
            List.intercalate_splitOn separator
          rw [show shorter.splitOn separator = [[]] from short] at whole
          exact nonempty whole.symm
        simp [notLast]
  | dot front back =>
      apply parts_append_separator_eq
      have behind : segments ⟨Segment.dot :: separator :: back⟩ = here :: segments ⟨back⟩ :=
        segments_append_separator here back
      rw [behind]
      rfl
  | dotAtEnd front => exact parts_append_separator_eq front rfl

/-! ## The plain spelling -/

/-- Segments, each behind a separator. -/
def behindSeparators (segments : List Segment) : List UInt8 :=
  segments.flatMap (separator :: ·)

/-- The name in which given parts are written without anything else. -/
def plainSpelling : List Segment → List UInt8
  | [] => []
  | first :: rest =>
      if first = root then if rest = [] then [separator] else behindSeparators rest
      else first ++ behindSeparators rest

theorem bytes_of_segments {path : PathName} {first : Segment} {rest : List Segment}
    (segments : path.segments = first :: rest) : path.bytes = first ++ behindSeparators rest := by
  have general (first : Segment) (rest : List Segment) :
      [separator].intercalate (first :: rest) = first ++ behindSeparators rest := by
    induction rest generalizing first with
    | nil => simp [behindSeparators]
    | cons second others ih =>
        rw [List.intercalate_cons_cons, ih]
        simp [behindSeparators]
  rw [← general, ← segments, PathName.segments, List.intercalate_splitOn]

/-- Behind something that is written, segments without effect can be left out. -/
theorem eqvGen_behindSeparators {front : List UInt8} (nonempty : front ≠ [])
    (segments : List Segment) :
    EqvGen Shortens (front ++ behindSeparators segments)
      (front ++ behindSeparators (effective segments)) := by
  induction segments generalizing front with
  | nil => exact .refl _
  | cons segment rest ih =>
      by_cases noise : segment = [] ∨ segment = here
      case neg =>
        have loud : effective (segment :: rest) = segment :: effective rest := by
          rcases not_or.mp noise with ⟨notEmpty, notHere⟩
          simp [effective, isNoise, notEmpty, notHere]
        have written : front ++ separator :: segment ≠ [] := by simp
        rw [loud]
        simpa [behindSeparators] using ih written
      case pos =>
        have silent : effective (segment :: rest) = effective rest := by
          rcases noise with rfl | rfl <;> rfl
        rw [silent]
        refine .trans _ _ _ ?_ (ih nonempty)
        rcases noise with rfl | rfl
        · cases rest with
          | nil => simpa [behindSeparators] using EqvGen.rel _ _ (Shortens.atEnd nonempty)
          | cons next others =>
              simpa [behindSeparators] using
                EqvGen.rel _ _ (Shortens.repeated front (next ++ behindSeparators others))
        · cases rest with
          | nil =>
              refine .trans _ _ _ (.rel _ _ (Shortens.dotAtEnd front)) ?_
              simpa [behindSeparators] using EqvGen.rel _ _ (Shortens.atEnd nonempty)
          | cons next others =>
              simpa [behindSeparators, here] using
                EqvGen.rel _ _ (Shortens.dot front (next ++ behindSeparators others))

/-- A separator can be written once more in front of segments behind separators. -/
theorem eqvGen_separator_cons {segments : List Segment} (nonempty : segments ≠ []) :
    EqvGen Shortens (separator :: behindSeparators segments) (behindSeparators segments) := by
  rcases List.exists_cons_of_ne_nil nonempty with ⟨first, rest, rfl⟩
  simpa [behindSeparators] using
    EqvGen.rel _ _ (Shortens.repeated [] (first ++ behindSeparators rest))

theorem eqvGen_plainSpelling (path : PathName) :
    EqvGen Shortens path.bytes (plainSpelling path.parts) := by
  rcases exists_segments path with ⟨first, rest, segments⟩
  rw [bytes_of_segments segments, parts_of_segments segments, lead]
  by_cases noFirst : first = []
  case neg =>
    have notRoot : first ≠ root := by
      rintro rfl
      have member : root ∈ path.segments := by simp [segments]
      exact separator_not_mem_of_mem_segments member (by simp [root])
    rw [if_neg noFirst, List.singleton_append, plainSpelling, if_neg notRoot]
    exact eqvGen_behindSeparators noFirst rest
  case pos =>
    subst noFirst
    rw [if_pos rfl, List.nil_append]
    by_cases noRest : rest = []
    case pos =>
      subst noRest
      exact .refl _
    case neg =>
      rw [if_neg noRest, List.singleton_append, plainSpelling, if_pos rfl]
      -- One more separator is something written, behind which the segments are left out.
      refine .trans _ _ _ (.symm _ _ (eqvGen_separator_cons noRest)) ?_
      refine .trans _ _ _ (eqvGen_behindSeparators (List.cons_ne_nil separator []) rest) ?_
      split
      case isTrue noEffect =>
        rw [noEffect]
        exact .refl _
      case isFalse someEffect => exact eqvGen_separator_cons someEffect

/-- Names have the same parts if and only if they are spellings of one path. -/
theorem parts_eq_iff_spelledAlike (path other : PathName) :
    path.parts = other.parts ↔ SpelledAlike path other := by
  constructor
  · intro same
    have plain := eqvGen_plainSpelling path
    rw [same] at plain
    exact .trans _ _ _ plain (.symm _ _ (eqvGen_plainSpelling other))
  · intro alike
    have general {bytes others : List UInt8} (alike : EqvGen Shortens bytes others) :
        parts ⟨bytes⟩ = parts ⟨others⟩ := by
      induction alike with
      | rel _ _ shortens => exact shortens.parts_eq
      | refl => rfl
      | symm _ _ _ ih => exact ih.symm
      | trans _ _ _ _ _ ih ihLater => exact ih.trans ihLater
    exact general alike

/-- A separator at the end and dots behind separators do not count, but a dot at the start and a
`..` do. -/
example : (ofText "a//./b/.".toList).parts = (ofText "a/b".toList).parts ∧
    (ofText "./a".toList).parts ≠ (ofText "a".toList).parts ∧
    (ofText "a/../b".toList).parts ≠ (ofText "b".toList).parts := by
  decide

end PathName

end PropertyCascade
