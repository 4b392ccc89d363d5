import Mathlib.Tactic.SplitIfs
import PropertyCascade.Text.Basic

/-!
# Taking texts apart

A text is split after its beginning, or at the separators between two brackets. Brackets nest, and
a separator inside of further brackets does not count. What is a bracket or a separator depends on
the notation, and so do the pieces that are taken as a whole, such as an escaped character.

The part of a text up to the separator or the closing bracket that ends it is determined by the
text: parts form a prefix code. So does the sequence of the parts between two brackets, which can
therefore be taken apart in one way only.
-/

namespace PropertyCascade

/-- The texts that consist of one that a predicate holds of and a later one that another predicate
holds of. -/
def Splits (holds holdsLater : Text → Prop) (text : Text) : Prop :=
  ∃ before after, text = before ++ after ∧ holds before ∧ holdsLater after

theorem Splits.congr {holds other holdsLater : Text → Prop} {text : Text}
    (same : ∀ before, holds before ↔ other before) :
    Splits holds holdsLater text ↔ Splits other holdsLater text := by
  simp only [Splits, same]

theorem splits_assoc {first second third : Text → Prop} {text : Text} :
    Splits first (Splits second third) text ↔ Splits (Splits first second) third text := by
  constructor
  · intro splits
    rcases splits with ⟨before, _, rfl, holdsBefore, middle, after, rfl, holdsMiddle, holdsAfter⟩
    exact ⟨before ++ middle, after, by simp, ⟨before, middle, rfl, holdsBefore, holdsMiddle⟩,
      holdsAfter⟩
  · intro splits
    rcases splits with ⟨_, after, rfl, ⟨before, middle, rfl, holdsBefore, holdsMiddle⟩, holdsAfter⟩
    exact ⟨before, middle ++ after, by simp, holdsBefore, middle, after, rfl, holdsMiddle,
      holdsAfter⟩

/-- No part is a part again with one of the stops and more characters after it. -/
def IsPrefixCode (IsPart : Text → Prop) (stops : List Char) : Prop :=
  ∀ {part other rest otherRest : Text} {stop otherStop : Char}, IsPart part → IsPart other →
    stop ∈ stops → otherStop ∈ stops → part ++ stop :: rest = other ++ otherStop :: otherRest →
      part = other ∧ stop = otherStop ∧ rest = otherRest

theorem isPrefixCode_not_mem (stop : Char) : IsPrefixCode (stop ∉ ·) [stop] := by
  intro part other rest otherRest first second noStop otherNoStop stops otherStops same
  simp only [List.mem_singleton] at stops otherStops
  subst first second
  have cut {part : Text} (noStop : stop ∉ part) (rest : Text) :
      (part ++ stop :: rest).takeWhile (· != stop) = part := by
    have differ : ∀ c ∈ part, (c != stop) = true := by
      intro c member
      simp only [bne_iff_ne]
      exact ne_of_mem_of_not_mem member noStop
    rw [List.takeWhile_append_of_pos differ]
    simp
  have partSame : part = other := by
    rw [← cut noStop rest, same, cut otherNoStop otherRest]
  subst other
  simpa using same

theorem IsPrefixCode.intercalate_unique {IsPart : Text → Prop} {separator closing : Char}
    (isCode : IsPrefixCode IsPart [separator, closing]) (different : separator ≠ closing)
    {parts others : List Text} {rest otherRest : Text} (nonempty : parts ≠ [])
    (otherNonempty : others ≠ []) (areParts : ∀ part ∈ parts, IsPart part)
    (othersAreParts : ∀ part ∈ others, IsPart part)
    (same : [separator].intercalate parts ++ closing :: rest =
      [separator].intercalate others ++ closing :: otherRest) :
    parts = others ∧ rest = otherRest := by
  have between : separator ∈ [separator, closing] := by simp
  have atEnd : closing ∈ [separator, closing] := by simp
  induction parts generalizing others with
  | nil => exact absurd rfl nonempty
  | cons part parts ih =>
      rcases List.forall_mem_cons.mp areParts with ⟨isPart, areParts⟩
      cases others with
      | nil => exact absurd rfl otherNonempty
      | cons other others =>
          rcases List.forall_mem_cons.mp othersAreParts with ⟨otherIsPart, laterAreParts⟩
          cases parts with
          | nil =>
              cases others with
              | nil =>
                  rw [List.intercalate_singleton, List.intercalate_singleton] at same
                  rcases isCode isPart otherIsPart atEnd atEnd same with ⟨rfl, -, restSame⟩
                  exact ⟨rfl, restSame⟩
              | cons otherSecond others =>
                  simp only [List.intercalate_singleton, List.intercalate_cons_cons,
                    List.append_assoc, List.singleton_append] at same
                  have stopSame := (isCode isPart otherIsPart atEnd between same).2.1
                  exact absurd stopSame different.symm
          | cons second parts =>
              cases others with
              | nil =>
                  simp only [List.intercalate_singleton, List.intercalate_cons_cons,
                    List.append_assoc, List.singleton_append] at same
                  have stopSame := (isCode isPart otherIsPart between atEnd same).2.1
                  exact absurd stopSame different
              | cons otherSecond others =>
                  simp only [List.intercalate_cons_cons, List.append_assoc,
                    List.singleton_append] at same
                  rcases isCode isPart otherIsPart between between same with ⟨rfl, -, laterSame⟩
                  rcases ih (List.cons_ne_nil _ _)
                      (List.cons_ne_nil _ _) areParts laterAreParts laterSame with
                    ⟨partsSame, restSame⟩
                  exact ⟨by rw [partsSame], restSame⟩

/-- The brackets and the separator of a notation. -/
structure Bracketing where
  opening : Char
  closing : Char
  separator : Char
  distinct : opening ≠ closing ∧ opening ≠ separator ∧ separator ≠ closing
  /-- The pieces that are taken as a whole, whatever characters they consist of. -/
  IsWhole : Text → Prop
  /-- The characters with which such a piece starts. -/
  heads : List Char
  apart : opening ∉ heads ∧ closing ∉ heads ∧ separator ∉ heads
  startsWithHead : ∀ piece, IsWhole piece → ∃ c ∈ heads, ∃ later, piece = c :: later
  wholeUnique : ∀ {piece other rest otherRest : Text}, IsWhole piece → IsWhole other →
    piece ++ rest = other ++ otherRest → piece = other ∧ rest = otherRest

namespace Bracketing

variable (bracketing : Bracketing)

/-- The number of open brackets after a character that neither ends the part nor starts a piece
which is taken as a whole. -/
def depthAfter (depth : Nat) (c : Char) : Option Nat :=
  if c ∈ bracketing.heads then none
  else if c = bracketing.opening then some (depth + 1)
  else if depth = 0 ∧ (c = bracketing.closing ∨ c = bracketing.separator) then none
  else if c = bracketing.closing then some (depth - 1)
  else some depth

/-- What is left of a part inside a number of open brackets. -/
inductive Closes : Nat → Text → Prop where
  | nil : Closes 0 []
  | char {depth next : Nat} {rest : Text} {c : Char}
      (moves : bracketing.depthAfter depth c = some next) (later : Closes next rest) :
      Closes depth (c :: rest)
  | whole {depth : Nat} {piece rest : Text} (isWhole : bracketing.IsWhole piece)
      (later : Closes depth rest) : Closes depth (piece ++ rest)

/-- A part: its brackets balance, and its separators stand between them. -/
def IsPart (text : Text) : Prop :=
  bracketing.Closes 0 text

variable {bracketing}

theorem not_mem_heads {depth next : Nat} {c : Char}
    (moves : bracketing.depthAfter depth c = some next) : c ∉ bracketing.heads := by
  intro member
  simp [depthAfter, member] at moves

theorem depthAfter_stop {stop : Char}
    (stops : stop ∈ [bracketing.separator, bracketing.closing]) :
    bracketing.depthAfter 0 stop = none ∧ stop ∉ bracketing.heads := by
  rcases bracketing.distinct with ⟨notClosing, notSeparator, -⟩
  rcases bracketing.apart with ⟨-, closingApart, separatorApart⟩
  simp only [List.mem_cons, List.not_mem_nil, or_false] at stops
  rcases stops with rfl | rfl
  · simp [depthAfter, separatorApart, notSeparator.symm]
  · simp [depthAfter, closingApart, notClosing.symm]

@[simp]
theorem depthAfter_opening (depth : Nat) :
    bracketing.depthAfter depth bracketing.opening = some (depth + 1) := by
  simp [depthAfter, bracketing.apart.1]

@[simp]
theorem depthAfter_closing (depth : Nat) :
    bracketing.depthAfter (depth + 1) bracketing.closing = some depth := by
  simp [depthAfter, bracketing.apart.2.1, bracketing.distinct.1.symm]

@[simp]
theorem depthAfter_separator (depth : Nat) :
    bracketing.depthAfter (depth + 1) bracketing.separator = some (depth + 1) := by
  rcases bracketing.distinct with ⟨-, notSeparator, different⟩
  simp [depthAfter, bracketing.apart.2.2, notSeparator.symm, different]

theorem depthAfter_ordinary {c : Char} (depth : Nat) (notHead : c ∉ bracketing.heads)
    (notOpening : c ≠ bracketing.opening) (notClosing : c ≠ bracketing.closing)
    (notSeparator : c ≠ bracketing.separator) : bracketing.depthAfter depth c = some depth := by
  simp [depthAfter, notHead, notOpening, notClosing, notSeparator]

/-- A part ends at the first separator or closing bracket outside of all brackets. -/
theorem isPrefixCode_closes (depth : Nat) :
    IsPrefixCode (bracketing.Closes depth) [bracketing.separator, bracketing.closing] := by
  intro content other rest otherRest stop otherStop closes otherCloses stops otherStops same
  rcases depthAfter_stop stops with ⟨stopEnds, stopNotHead⟩
  rcases depthAfter_stop otherStops with ⟨otherEnds, otherNotHead⟩
  induction closes generalizing other with
  | nil =>
      cases otherCloses with
      | nil => simpa using same
      | char moves =>
          rw [← (List.cons.inj same).1, stopEnds] at moves
          cases moves
      | whole isWhole =>
          rcases bracketing.startsWithHead _ isWhole with ⟨c, isHead, later, rfl⟩
          rw [← (List.cons.inj same).1] at isHead
          exact absurd isHead stopNotHead
  | char moves _ ih =>
      cases otherCloses with
      | nil =>
          rw [(List.cons.inj same).1, otherEnds] at moves
          cases moves
      | char otherMoves otherLater =>
          simp only [List.cons_append, List.cons.injEq] at same
          rcases same with ⟨rfl, same⟩
          rcases Option.some.inj (moves.symm.trans otherMoves) with rfl
          rcases ih otherLater same with ⟨rfl, stopSame, restSame⟩
          exact ⟨rfl, stopSame, restSame⟩
      | whole isWhole =>
          rcases bracketing.startsWithHead _ isWhole with ⟨c, isHead, later, rfl⟩
          rw [← (List.cons.inj same).1] at isHead
          exact absurd isHead (not_mem_heads moves)
  | whole isWhole _ ih =>
      cases otherCloses with
      | nil =>
          rcases bracketing.startsWithHead _ isWhole with ⟨c, isHead, later, rfl⟩
          rw [(List.cons.inj same).1] at isHead
          exact absurd isHead otherNotHead
      | char otherMoves =>
          rcases bracketing.startsWithHead _ isWhole with ⟨c, isHead, later, rfl⟩
          rw [(List.cons.inj same).1] at isHead
          exact absurd isHead (not_mem_heads otherMoves)
      | whole otherIsWhole otherLater =>
          rw [List.append_assoc, List.append_assoc] at same
          rcases bracketing.wholeUnique isWhole otherIsWhole same with ⟨rfl, laterSame⟩
          rcases ih otherLater laterSame with ⟨rfl, stopSame, restSame⟩
          exact ⟨rfl, stopSame, restSame⟩

/-- The parts between two brackets can be told apart in one way only. -/
theorem parts_unique {parts others : List Text} {rest otherRest : Text} (nonempty : parts ≠ [])
    (otherNonempty : others ≠ []) (areParts : ∀ part ∈ parts, bracketing.IsPart part)
    (othersAreParts : ∀ part ∈ others, bracketing.IsPart part)
    (same : [bracketing.separator].intercalate parts ++ bracketing.closing :: rest =
      [bracketing.separator].intercalate others ++ bracketing.closing :: otherRest) :
    parts = others ∧ rest = otherRest :=
  IsPrefixCode.intercalate_unique (isPrefixCode_closes 0) bracketing.distinct.2.2 nonempty
    otherNonempty areParts othersAreParts same

/-! ## Putting parts together -/

theorem depthAfter_add {depth next : Nat} {c : Char}
    (moves : bracketing.depthAfter depth c = some next) (outer : Nat) :
    bracketing.depthAfter (depth + outer) c = some (next + outer) := by
  simp only [depthAfter] at moves ⊢
  split_ifs at moves ⊢ <;> simp_all <;> omega

theorem Closes.append {depth outer : Nat} {text rest : Text}
    (closes : bracketing.Closes depth text) (later : bracketing.Closes outer rest) :
    bracketing.Closes (depth + outer) (text ++ rest) := by
  induction closes with
  | nil => simpa using later
  | char moves _ ih => exact .char (depthAfter_add moves outer) ih
  | whole isWhole _ ih =>
      rw [List.append_assoc]
      exact .whole isWhole ih

theorem IsPart.append {text rest : Text} (isPart : bracketing.IsPart text)
    (later : bracketing.IsPart rest) : bracketing.IsPart (text ++ rest) :=
  Closes.append isPart later

theorem isPart_whole {piece : Text} (isWhole : bracketing.IsWhole piece) :
    bracketing.IsPart piece := by
  have closes : bracketing.Closes 0 (piece ++ []) := .whole isWhole .nil
  rwa [List.append_nil] at closes

theorem isPart_of_ordinary {text : Text}
    (ordinary : ∀ c ∈ text, bracketing.depthAfter 0 c = some 0) : bracketing.IsPart text := by
  induction text with
  | nil => exact .nil
  | cons c rest ih =>
      rcases List.forall_mem_cons.mp ordinary with ⟨first, later⟩
      exact .char first (ih later)

theorem closes_intercalate {parts : List Text}
    (areParts : ∀ part ∈ parts, bracketing.IsPart part) :
    bracketing.Closes 1 ([bracketing.separator].intercalate parts ++ [bracketing.closing]) := by
  have closing : bracketing.Closes 1 [bracketing.closing] :=
    .char (depthAfter_closing 0) .nil
  induction parts with
  | nil => exact closing
  | cons part parts ih =>
      rcases List.forall_mem_cons.mp areParts with ⟨isPart, areParts⟩
      cases parts with
      | nil =>
          rw [List.intercalate_singleton, ← Nat.zero_add 1]
          exact Closes.append isPart closing
      | cons second others =>
          have later : bracketing.Closes 1 (bracketing.separator ::
              ([bracketing.separator].intercalate (second :: others) ++ [bracketing.closing])) :=
            .char (depthAfter_separator 0) (ih areParts)
          rw [List.intercalate_cons_cons, List.append_assoc, List.append_assoc, ← Nat.zero_add 1]
          exact Closes.append isPart later

end Bracketing

end PropertyCascade
