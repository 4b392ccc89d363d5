import Mathlib.Data.List.Basic
import PropertyCascade.Glob.Marking

/-!
# Moving markings

A function on markings moves them past the texts of a set if it marks exactly the positions at
which such a text ends that starts at a marked position. Each primitive way to advance a marking
moves past the texts that its name says, moving past one set and then past another is moving past
the concatenations, and a union of two moves is a move past the union. The position after the last
letter is reached from the one before the first letter if and only if the whole text is in the set,
so a matcher that is put together from moves is exact.
-/

namespace PropertyCascade

namespace Glob

namespace Marking

variable {Letter : Type}

/-- The piece of a text between two positions. -/
inductive Between : List Letter → Nat → Nat → List Letter → Prop where
  | here (text : List Letter) : Between text 0 0 []
  | take {text : List Letter} {position : Nat} {piece : List Letter} (letter : Letter)
      (between : Between text 0 position piece) :
      Between (letter :: text) 0 (position + 1) (letter :: piece)
  | skip {text : List Letter} {start position : Nat} {piece : List Letter} (letter : Letter)
      (between : Between text start position piece) :
      Between (letter :: text) (start + 1) (position + 1) piece

namespace Between

@[simp]
theorem zero_iff {text piece : List Letter} {start : Nat} :
    Between text start 0 piece ↔ start = 0 ∧ piece = [] := by
  constructor
  · intro between
    cases between
    exact ⟨rfl, rfl⟩
  · intro nothing
    rcases nothing with ⟨rfl, rfl⟩
    exact .here text

@[simp]
theorem cons_succ_iff {letter : Letter} {text piece : List Letter} {start position : Nat} :
    Between (letter :: text) (start + 1) (position + 1) piece ↔
      Between text start position piece := by
  constructor
  · intro between
    cases between with
    | skip _ between => exact between
  · exact .skip letter

theorem cons_zero_iff {letter : Letter} {text piece : List Letter} {position : Nat} :
    Between (letter :: text) 0 (position + 1) piece ↔
      ∃ rest, piece = letter :: rest ∧ Between text 0 position rest := by
  constructor
  · intro between
    cases between with
    | take _ between => exact ⟨_, rfl, between⟩
  · intro between
    rcases between with ⟨rest, rfl, between⟩
    exact .take letter between

@[simp]
theorem nil_iff {piece : List Letter} {start position : Nat} :
    Between [] start position piece ↔ start = 0 ∧ position = 0 ∧ piece = [] := by
  constructor
  · intro between
    cases between
    exact ⟨rfl, rfl, rfl⟩
  · intro empty
    rcases empty with ⟨rfl, rfl, rfl⟩
    exact .here []

theorem append {text first second : List Letter} {start middle finish : Nat}
    (left : Between text start middle first) (right : Between text middle finish second) :
    Between text start finish (first ++ second) := by
  induction left generalizing finish with
  | here => exact right
  | take letter _ ih =>
      cases right with
      | skip _ right => exact .take letter (ih right)
  | skip letter _ ih =>
      cases right with
      | skip _ right => exact .skip letter (ih right)

theorem exists_middle {text first second : List Letter} {start finish : Nat}
    (between : Between text start finish (first ++ second)) :
    ∃ middle, Between text start middle first ∧ Between text middle finish second := by
  generalize whole : first ++ second = piece at between
  induction between generalizing first with
  | here text =>
      rcases List.append_eq_nil_iff.mp whole with ⟨rfl, rfl⟩
      exact ⟨0, .here text, .here text⟩
  | take letter between ih =>
      cases first with
      | nil =>
          subst whole
          exact ⟨0, .here _, .take letter between⟩
      | cons head rest =>
          rcases List.cons.inj whole with ⟨rfl, restWhole⟩
          rcases ih restWhole with ⟨middle, left, right⟩
          exact ⟨middle + 1, .take head left, .skip head right⟩
  | skip letter _ ih =>
      rcases ih whole with ⟨middle, left, right⟩
      exact ⟨middle + 1, .skip letter left, .skip letter right⟩

theorem length_iff {text piece : List Letter} :
    Between text 0 text.length piece ↔ piece = text := by
  induction text generalizing piece with
  | nil => simp
  | cons letter rest ih => simp [cons_zero_iff, ih]

end Between

/-- A function on markings moves them past the texts that a predicate holds of. -/
def MovesPast (advance : List Letter → Marking → Marking) (holds : List Letter → Prop) : Prop :=
  ∀ text marking, marking.length = text.length + 1 →
    (advance text marking).length = text.length + 1 ∧
      ∀ position, (advance text marking)[position]? = some true ↔
        ∃ start piece, marking[start]? = some true ∧ Between text start position piece ∧
          holds piece

/-- A single letter that satisfies a condition. -/
def OneLetter (accepts : Letter → Bool) (piece : List Letter) : Prop :=
  ∃ letter, piece = [letter] ∧ accepts letter = true

theorem movesPast_past (accepts : Letter → Bool) :
    MovesPast (past accepts) (OneLetter accepts) := by
  intro text marking lengths
  refine ⟨by simp [past, lengths], fun position => ?_⟩
  induction text generalizing marking position with
  | nil =>
      cases position <;> simp [past, OneLetter]
  | cons letter rest ih =>
      rcases List.exists_cons_of_length_eq_add_one lengths with ⟨here, others, rfl⟩
      have otherLengths : others.length = rest.length + 1 := by simpa using lengths
      cases position with
      | zero => simp [past, OneLetter]
      | succ position =>
          cases position with
          | zero =>
              simp only [past, List.zipWith_cons_cons, List.getElem?_cons_succ,
                List.getElem?_cons_zero, Option.some.injEq, Bool.and_eq_true]
              constructor
              · intro moved
                rcases moved with ⟨marked, accepted⟩
                exact ⟨0, [letter], by simp [marked], .take letter (.here rest),
                  letter, rfl, accepted⟩
              · intro reached
                rcases reached with ⟨start, piece, marked, between, single, rfl, accepted⟩
                cases between with
                | take _ between => exact ⟨by simpa using marked, accepted⟩
                | skip _ between => simp at between
          | succ position =>
              have shifted := ih others otherLengths (position + 1)
              simp only [past, List.zipWith_cons_cons, List.getElem?_cons_succ] at shifted ⊢
              rw [shifted]
              constructor
              · intro reached
                rcases reached with ⟨start, piece, marked, between, holds⟩
                exact ⟨start + 1, piece, by simpa using marked, .skip letter between, holds⟩
              · intro reached
                rcases reached with ⟨start, piece, marked, between, single, rfl, accepted⟩
                cases between with
                | take _ between => cases between
                | skip _ between =>
                    exact ⟨_, _, by simpa using marked, between, single, rfl, accepted⟩

/-- Moving past many letters, where `carried` says whether a run of them reaches the first
position. -/
theorem pastMany_iff {accepts : Letter → Bool} {carried : Bool} {text : List Letter}
    {marking : Marking} (lengths : marking.length = text.length + 1) (position : Nat) :
    (pastMany accepts carried text marking)[position]? = some true ↔
      ∃ start piece, (marking[start]? = some true ∨ start = 0 ∧ carried = true) ∧
        Between text start position piece ∧ ∀ letter ∈ piece, accepts letter = true := by
  induction text generalizing carried marking position with
  | nil =>
      rcases List.exists_cons_of_length_eq_add_one lengths with ⟨here, others, rfl⟩
      obtain rfl : others = [] := by simpa using lengths
      cases position with
      | zero => simp [pastMany, or_comm]
      | succ position => simp [pastMany]
  | cons letter rest ih =>
      rcases List.exists_cons_of_length_eq_add_one lengths with ⟨here, others, rfl⟩
      have otherLengths : others.length = rest.length + 1 := by simpa using lengths
      cases position with
      | zero => simp [pastMany, or_comm]
      | succ position =>
          rw [pastMany, List.getElem?_cons_succ, ih otherLengths]
          constructor
          · intro reached
            rcases reached with ⟨start, piece, marked | ⟨rfl, run⟩, between, all⟩
            · exact ⟨start + 1, piece, Or.inl (by simpa using marked), .skip letter between, all⟩
            · rcases Bool.and_eq_true_iff.mp run with ⟨reached, accepted⟩
              refine ⟨0, letter :: piece, ?_, .take letter between, ?_⟩
              · simpa [or_comm] using reached
              · exact List.forall_mem_cons.mpr ⟨accepted, all⟩
          · intro reached
            rcases reached with ⟨start, piece, marked, between, all⟩
            cases between with
            | take _ between =>
                rcases List.forall_mem_cons.mp all with ⟨accepted, all⟩
                refine ⟨0, _, Or.inr ⟨rfl, ?_⟩, between, all⟩
                simpa [accepted, or_comm] using marked
            | skip _ between =>
                exact ⟨_, piece, Or.inl (by simpa using marked), between, all⟩

theorem length_pastMany (accepts : Letter → Bool) (carried : Bool) {text : List Letter}
    {marking : Marking} (lengths : marking.length = text.length + 1) :
    (pastMany accepts carried text marking).length = text.length + 1 := by
  induction text generalizing carried marking with
  | nil =>
      rcases List.exists_cons_of_length_eq_add_one lengths with ⟨here, others, rfl⟩
      rfl
  | cons letter rest ih =>
      rcases List.exists_cons_of_length_eq_add_one lengths with ⟨here, others, rfl⟩
      simp [pastMany, ih _ (by simpa using lengths)]

theorem movesPast_pastMany (accepts : Letter → Bool) :
    MovesPast (pastMany accepts false) fun piece => ∀ letter ∈ piece, accepts letter = true := by
  intro text marking lengths
  refine ⟨length_pastMany accepts false lengths, fun position => ?_⟩
  simp [pastMany_iff lengths]

/-- A text that ends with a separator. -/
def EndsWith (separates : Letter → Bool) (piece : List Letter) : Prop :=
  ∃ front letter, piece = front ++ [letter] ∧ separates letter = true

theorem endsWith_cons_cons {separates : Letter → Bool} {first second : Letter}
    {rest : List Letter} :
    EndsWith separates (first :: second :: rest) ↔ EndsWith separates (second :: rest) := by
  constructor
  · intro ends
    rcases ends with ⟨front, letter, whole, separated⟩
    cases front with
    | nil => simp at whole
    | cons head front =>
        rcases List.cons.inj whole with ⟨-, restWhole⟩
        exact ⟨front, letter, restWhole, separated⟩
  · intro ends
    rcases ends with ⟨front, letter, whole, separated⟩
    exact ⟨first :: front, letter, by simp [whole], separated⟩

theorem endsWith_singleton {separates : Letter → Bool} {letter : Letter} :
    EndsWith separates [letter] ↔ separates letter = true := by
  constructor
  · intro ends
    rcases ends with ⟨front, last, whole, separated⟩
    have same : some letter = some last := by
      rw [← List.getLast?_singleton, whole, List.getLast?_concat]
    rwa [Option.some.inj same]
  · intro separated
    exact ⟨[], letter, rfl, separated⟩

theorem not_endsWith_nil {separates : Letter → Bool} : ¬EndsWith separates [] := by
  intro ends
  rcases ends with ⟨front, letter, whole, -⟩
  simp at whole

/-- A piece that starts before the first letter ends with a separator if what follows that letter
does, or if nothing follows and the letter itself separates. -/
theorem fromFirst_iff {separates : Letter → Bool} {letter : Letter} {rest : List Letter}
    {position : Nat} :
    (∃ piece, Between (letter :: rest) 0 (position + 1) piece ∧ EndsWith separates piece) ↔
      position = 0 ∧ separates letter = true ∨
        ∃ piece, Between rest 0 position piece ∧ EndsWith separates piece := by
  constructor
  · intro reached
    rcases reached with ⟨piece, between, ends⟩
    rcases Between.cons_zero_iff.mp between with ⟨later, rfl, laterBetween⟩
    cases later with
    | nil =>
        refine Or.inl ⟨?_, endsWith_singleton.mp ends⟩
        cases laterBetween
        rfl
    | cons second others => exact Or.inr ⟨_, laterBetween, endsWith_cons_cons.mp ends⟩
  · intro reached
    rcases reached with ⟨rfl, separated⟩ | ⟨piece, between, ends⟩
    · exact ⟨[letter], .take letter (.here rest), endsWith_singleton.mpr separated⟩
    · cases piece with
      | nil => exact absurd ends not_endsWith_nil
      | cons second others => exact ⟨_, .take letter between, endsWith_cons_cons.mpr ends⟩

/-- Moving past directories, where `seen` says whether an earlier position is marked and
`separated` whether a separator stands before the first position. -/
theorem pastDirectories_iff {separates : Letter → Bool} {seen separated : Bool}
    {text : List Letter} {marking : Marking} (lengths : marking.length = text.length + 1)
    (position : Nat) :
    (pastDirectories separates seen separated text marking)[position]? = some true ↔
      (∃ start piece, marking[start]? = some true ∧ Between text start position piece ∧
        (piece = [] ∨ EndsWith separates piece)) ∨
      seen = true ∧ (position = 0 ∧ separated = true ∨
        ∃ piece, Between text 0 position piece ∧ EndsWith separates piece) := by
  induction text generalizing seen separated marking position with
  | nil =>
      rcases List.exists_cons_of_length_eq_add_one lengths with ⟨here, others, rfl⟩
      obtain rfl : others = [] := by simpa using lengths
      cases position with
      | zero => simp [pastDirectories, not_endsWith_nil]
      | succ position => simp [pastDirectories]
  | cons letter rest ih =>
      rcases List.exists_cons_of_length_eq_add_one lengths with ⟨here, others, rfl⟩
      have otherLengths : others.length = rest.length + 1 := by simpa using lengths
      cases position with
      | zero => simp [pastDirectories, not_endsWith_nil]
      | succ position =>
          rw [pastDirectories, List.getElem?_cons_succ, ih otherLengths, ← fromFirst_iff]
          constructor
          · intro reached
            rcases reached with
              ⟨start, piece, marked, between, holds⟩ | ⟨reached, piece, between, ends⟩
            · exact Or.inl ⟨start + 1, piece, by simpa using marked, .skip letter between, holds⟩
            · rcases Bool.or_eq_true_iff.mp reached with earlier | marked
              · exact Or.inr ⟨earlier, Or.inr ⟨piece, between, ends⟩⟩
              · exact Or.inl ⟨0, piece, by simp [marked], between, Or.inr ends⟩
          · intro reached
            rcases reached with
              ⟨start, piece, marked, between, holds⟩ | ⟨earlier, impossible | ending⟩
            · cases between with
              | take _ between =>
                  have ends := holds.resolve_left (by simp)
                  exact Or.inr ⟨by simp [show here = true by simpa using marked], _,
                    .take letter between, ends⟩
              | skip _ between =>
                  exact Or.inl ⟨_, piece, by simpa using marked, between, holds⟩
            · simp at impossible
            · exact Or.inr ⟨by simp [earlier], ending⟩

theorem length_pastDirectories (separates : Letter → Bool) (seen separated : Bool)
    {text : List Letter} {marking : Marking} (lengths : marking.length = text.length + 1) :
    (pastDirectories separates seen separated text marking).length = text.length + 1 := by
  induction text generalizing seen separated marking with
  | nil =>
      rcases List.exists_cons_of_length_eq_add_one lengths with ⟨here, others, rfl⟩
      rfl
  | cons letter rest ih =>
      rcases List.exists_cons_of_length_eq_add_one lengths with ⟨here, others, rfl⟩
      simp [pastDirectories, ih _ _ (by simpa using lengths)]

theorem movesPast_pastDirectories (separates : Letter → Bool) :
    MovesPast (pastDirectories separates false false) fun piece =>
      piece = [] ∨ EndsWith separates piece := by
  intro text marking lengths
  refine ⟨length_pastDirectories separates false false lengths, fun position => ?_⟩
  simp [pastDirectories_iff lengths]

section Combination

variable {advance other : List Letter → Marking → Marking} {holds otherHolds : List Letter → Prop}

theorem movesPast_nothing :
    MovesPast (fun (_ : List Letter) marking => marking) fun piece => piece = [] := by
  intro text marking lengths
  refine ⟨lengths, fun position => ?_⟩
  constructor
  · intro marked
    have inside : position < text.length + 1 := by
      rw [← lengths]
      exact (List.getElem?_eq_some_iff.mp marked).1
    refine ⟨position, [], marked, ?_, rfl⟩
    clear marked lengths
    induction position generalizing text with
    | zero => exact .here text
    | succ position ih =>
        cases text with
        | nil => simp at inside
        | cons letter rest => exact .skip letter (ih rest (by simpa using inside))
  · intro reached
    rcases reached with ⟨start, piece, marked, between, rfl⟩
    generalize nothing : ([] : List Letter) = piece at between
    have same : start = position := by
      clear marked lengths
      induction between with
      | here => rfl
      | take => simp at nothing
      | skip _ _ ih => rw [ih nothing]
    rwa [← same]

theorem MovesPast.append (first : MovesPast advance holds) (second : MovesPast other otherHolds) :
    MovesPast (fun text marking => other text (advance text marking)) fun piece =>
      ∃ before after, piece = before ++ after ∧ holds before ∧ otherHolds after := by
  intro text marking lengths
  rcases first text marking lengths with ⟨middleLengths, middles⟩
  rcases second text _ middleLengths with ⟨finalLengths, finals⟩
  refine ⟨finalLengths, fun position => ?_⟩
  rw [finals position]
  constructor
  · intro reached
    rcases reached with ⟨middle, after, marked, right, afterHolds⟩
    rcases (middles middle).mp marked with ⟨start, before, marked, left, beforeHolds⟩
    exact ⟨start, before ++ after, marked, left.append right, before, after, rfl, beforeHolds,
      afterHolds⟩
  · intro reached
    rcases reached with ⟨start, piece, marked, between, before, after, rfl, beforeHolds, afterHolds⟩
    rcases between.exists_middle with ⟨middle, left, right⟩
    exact ⟨middle, after, (middles middle).mpr ⟨start, before, marked, left, beforeHolds⟩, right,
      afterHolds⟩

theorem MovesPast.union (left : MovesPast advance holds) (right : MovesPast other otherHolds) :
    MovesPast (fun text marking => Marking.union (advance text marking) (other text marking))
      fun piece => holds piece ∨ otherHolds piece := by
  intro text marking lengths
  rcases left text marking lengths with ⟨leftLengths, lefts⟩
  rcases right text marking lengths with ⟨rightLengths, rights⟩
  refine ⟨by simp [Marking.union, leftLengths, rightLengths], fun position => ?_⟩
  have either : (Marking.union (advance text marking) (other text marking))[position]? =
      some true ↔ (advance text marking)[position]? = some true ∨
        (other text marking)[position]? = some true := by
    rw [Marking.union, List.getElem?_zipWith]
    by_cases inside : position < text.length + 1
    · rw [List.getElem?_eq_getElem (by omega), List.getElem?_eq_getElem (by omega)]
      simp
    · rw [List.getElem?_eq_none (by omega), List.getElem?_eq_none (by omega)]
      simp
  rw [either, lefts position, rights position]
  constructor
  · rintro (⟨start, piece, marked, between, pieceHolds⟩ |
      ⟨start, piece, marked, between, pieceHolds⟩)
    · exact ⟨start, piece, marked, between, Or.inl pieceHolds⟩
    · exact ⟨start, piece, marked, between, Or.inr pieceHolds⟩
  · intro reached
    rcases reached with ⟨start, piece, marked, between, pieceHolds | pieceHolds⟩
    · exact Or.inl ⟨start, piece, marked, between, pieceHolds⟩
    · exact Or.inr ⟨start, piece, marked, between, pieceHolds⟩

theorem movesPast_nowhere :
    MovesPast (fun (text : List Letter) _ => nowhere text) fun _ => False := by
  intro text marking _
  refine ⟨by simp [nowhere], fun position => ?_⟩
  cases position with
  | zero => simp [nowhere]
  | succ position => simp [nowhere, List.getElem?_replicate]

theorem MovesPast.congr (moves : MovesPast advance holds)
    (same : ∀ piece, holds piece ↔ otherHolds piece) : MovesPast advance otherHolds := by
  intro text marking lengths
  rcases moves text marking lengths with ⟨afterLengths, afters⟩
  refine ⟨afterLengths, fun position => ?_⟩
  rw [afters position]
  simp only [same]

/-- From the start of a text its end is reached if and only if the whole text is in the set. -/
theorem MovesPast.atEnd_iff (moves : MovesPast advance holds) (text : List Letter) :
    (advance text (start text)).atEnd = true ↔ holds text := by
  rcases moves text (start text) (by simp [start]) with ⟨lengths, marks⟩
  have last : (advance text (start text)).atEnd = true ↔
      (advance text (start text))[text.length]? = some true := by
    rw [atEnd, List.getLast?_eq_getElem?, lengths, Nat.add_sub_cancel]
    simp
  have onlyFirst (position : Nat) : (start text)[position]? = some true ↔ position = 0 := by
    cases position <;> simp [start, List.getElem?_replicate]
  rw [last, marks]
  constructor
  · intro reached
    rcases reached with ⟨first, piece, marked, between, pieceHolds⟩
    rcases (onlyFirst first).mp marked with rfl
    rwa [Between.length_iff.mp between] at pieceHolds
  · intro textHolds
    exact ⟨0, text, (onlyFirst 0).mpr rfl, Between.length_iff.mpr rfl, textHolds⟩

end Combination

end Marking

end Glob

end PropertyCascade
