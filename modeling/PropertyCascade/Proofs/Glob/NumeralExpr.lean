import PropertyCascade.Glob.NumeralExpr
import PropertyCascade.Proofs.Glob.Marking
import PropertyCascade.Proofs.Glob.Regex

/-!
# Matching numeral expressions

Two things are done with an expression: a marking is advanced past it, and its text is read as a
regular expression. Both agree with what the expression denotes if the expression can be written
down: an alternation without parentheses around it would be read differently, and a span has to
lie within the ten digits. `IsWritten` says that this is so.
-/

namespace PropertyCascade

namespace Glob

namespace NumeralExpr

/-- The expressions between which an expression chooses. -/
def alternatives : NumeralExpr → List NumeralExpr
  | either left right => left :: right.alternatives
  | expr => [expr]

/-- An expression whose text is read the way it is built. -/
inductive IsWritten : NumeralExpr → Prop where
  | empty : IsWritten empty
  | char {c : Char} (ordinary : c ∉ Regex.special) : IsWritten (char c)
  | span {first last : Nat} (ordered : first ≤ last) (decimal : last ≤ 9) :
      IsWritten (span first last)
  | anyDigits (count : Nat) : IsWritten (anyDigits count)
  | seq {left right : NumeralExpr} (leftWritten : IsWritten left)
      (rightWritten : IsWritten right) : IsWritten (seq left right)
  | group {body : NumeralExpr}
      (eachWritten : ∀ alternative ∈ body.alternatives, IsWritten alternative) :
      IsWritten (group body)

/-- An expression that neither chooses nor groups: digits, spans of digits and repetitions of
arbitrary digits, one after the other. -/
inductive IsPlain : NumeralExpr → Prop where
  | empty : IsPlain empty
  | digit {digit : Nat} (decimal : digit ≤ 9) : IsPlain (char (Nat.digitChar digit))
  | span {first last : Nat} (ordered : first ≤ last) (decimal : last ≤ 9) :
      IsPlain (span first last)
  | anyDigits (count : Nat) : IsPlain (anyDigits count)
  | seq {left right : NumeralExpr} (leftPlain : IsPlain left) (rightPlain : IsPlain right) :
      IsPlain (seq left right)

theorem IsPlain.isWritten {expr : NumeralExpr} (plain : expr.IsPlain) : expr.IsWritten := by
  induction plain with
  | empty => exact .empty
  | digit decimal => exact .char (Regex.digitChar_not_mem_special decimal)
  | span ordered decimal => exact .span ordered decimal
  | anyDigits count => exact .anyDigits count
  | seq _ _ ihLeft ihRight => exact .seq ihLeft ihRight

/-! ## Alternatives -/

theorem alternatives_ne_nil (expr : NumeralExpr) : expr.alternatives ≠ [] := by
  cases expr <;> simp [alternatives]

theorem denotes_alternatives {expr : NumeralExpr} {text : Text} :
    expr.Denotes text ↔ ∃ alternative ∈ expr.alternatives, alternative.Denotes text := by
  induction expr with
  | either left right _ ihRight => simp [alternatives, Denotes, ihRight]
  | _ => simp [alternatives]

theorem text_alternatives (expr : NumeralExpr) :
    ['|'].intercalate (expr.alternatives.map NumeralExpr.text) = expr.text := by
  induction expr with
  | either left right _ ihRight =>
      rcases List.exists_cons_of_ne_nil right.alternatives_ne_nil with ⟨second, others, same⟩
      rw [same, List.map_cons] at ihRight
      rw [alternatives, same, List.map_cons, List.map_cons, List.intercalate_cons_cons, ihRight,
        NumeralExpr.text]
      simp
  | _ => simp [alternatives]

theorem IsWritten.alternatives_eq {expr : NumeralExpr} (written : expr.IsWritten) :
    expr.alternatives = [expr] := by
  cases written <;> rfl

theorem movesPast_alternatives {expr : NumeralExpr}
    (each : ∀ alternative ∈ expr.alternatives,
      Marking.MovesPast alternative.advance alternative.Denotes) :
    Marking.MovesPast expr.advance expr.Denotes := by
  induction expr with
  | either left right _ ihRight =>
      rcases List.forall_mem_cons.mp each with ⟨leftMoves, rightEach⟩
      exact leftMoves.union (ihRight rightEach)
  | _ => exact each _ (List.mem_singleton_self _)

/-! ## Advancing a marking -/

theorem inSpan_iff {first last : Nat} (decimal : last ≤ 9) {c : Char} :
    inSpan first last c = true ↔
      ∃ digit, first ≤ digit ∧ digit ≤ last ∧ c = Nat.digitChar digit := by
  simp only [inSpan, Bool.and_eq_true, decide_eq_true_eq]
  constructor
  · intro inside
    rcases inside with ⟨⟨digit, low⟩, high⟩
    exact ⟨Numeral.digitValue c, low, high, (Numeral.digitChar_digitValue digit).symm⟩
  · intro oneDigit
    rcases oneDigit with ⟨digit, low, high, rfl⟩
    have small : digit ≤ 9 := by omega
    rw [Numeral.digitValue_digitChar small]
    exact ⟨⟨Numeral.isDigit_digitChar small, low⟩, high⟩

theorem movesPast_pastDigits (count : Nat) :
    Marking.MovesPast (pastDigits count) fun text =>
      text.length = count ∧ ∀ c ∈ text, Numeral.isDigit c = true := by
  induction count with
  | zero =>
      apply Marking.movesPast_nothing.congr
      intro text
      constructor
      · rintro rfl
        simp
      · intro nothing
        rcases nothing with ⟨empty, -⟩
        exact List.length_eq_zero_iff.mp empty
  | succ count ih =>
      apply ((Marking.movesPast_past Numeral.isDigit).append ih).congr
      intro text
      constructor
      · intro splits
        rcases splits with ⟨_, after, rfl, ⟨c, rfl, digit⟩, rfl, digits⟩
        exact ⟨by simp, List.forall_mem_cons.mpr ⟨digit, digits⟩⟩
      · intro allDigits
        rcases allDigits with ⟨lengths, digits⟩
        cases text with
        | nil => simp at lengths
        | cons c rest =>
            rcases List.forall_mem_cons.mp digits with ⟨digit, restDigits⟩
            exact ⟨[c], rest, rfl, ⟨c, rfl, digit⟩, by simpa using lengths, restDigits⟩

theorem movesPast_advance {expr : NumeralExpr} (written : expr.IsWritten) :
    Marking.MovesPast expr.advance expr.Denotes := by
  induction written with
  | empty => exact Marking.movesPast_nothing
  | @char c _ =>
      apply (Marking.movesPast_past (· == c)).congr
      intro text
      simp [Marking.OneLetter, Denotes]
  | @span first last _ decimal =>
      apply (Marking.movesPast_past (inSpan first last)).congr
      intro text
      constructor
      · intro oneLetter
        rcases oneLetter with ⟨c, rfl, inside⟩
        rcases (inSpan_iff decimal).mp inside with ⟨digit, low, high, rfl⟩
        exact ⟨digit, low, high, rfl⟩
      · intro oneDigit
        rcases oneDigit with ⟨digit, low, high, rfl⟩
        exact ⟨_, rfl, (inSpan_iff decimal).mpr ⟨digit, low, high, rfl⟩⟩
  | anyDigits count => exact movesPast_pastDigits count
  | seq _ _ ihLeft ihRight => exact ihLeft.append ihRight
  | @group body _ ih =>
      change Marking.MovesPast body.advance body.Denotes
      exact movesPast_alternatives ih

/-! ## Reading the text -/

theorem expresses_span {first last : Nat} (ordered : first ≤ last) (decimal : last ≤ 9) :
    Regex.Expresses (span first last).text (span first last).Denotes := by
  simp only [NumeralExpr.text]
  split_ifs with same
  · subst last
    have ordinary := Regex.digitChar_not_mem_special decimal
    refine (Regex.expresses_once (.char ordinary)).congr fun text => ?_
    simp only [exists_eq_right, Denotes]
    constructor
    · intro only
      exact ⟨first, le_refl _, le_refl _, only⟩
    · intro oneDigit
      rcases oneDigit with ⟨digit, above, below, rfl⟩
      rw [le_antisymm below above]
  · refine (Regex.expresses_once (Regex.isPiece_digits ordered decimal)).congr fun text => ?_
    constructor
    · intro oneLetter
      rcases oneLetter with ⟨_, rfl, digit, above, below, rfl⟩
      exact ⟨digit, above, below, rfl⟩
    · intro oneDigit
      rcases oneDigit with ⟨digit, above, below, rfl⟩
      exact ⟨_, rfl, digit, above, below, rfl⟩

theorem expresses_anyDigits (count : Nat) :
    Regex.Expresses (anyDigits count).text (anyDigits count).Denotes := by
  rcases count with _ | _ | count
  · refine Regex.expresses_nil.congr fun text => ?_
    simp only [Denotes, List.length_eq_zero_iff]
    constructor
    · rintro rfl
      exact ⟨rfl, List.forall_mem_nil _⟩
    · exact And.left
  · have expresses := Regex.expresses_piece Regex.isPiece_anyDigit .once
    exact expresses.congr fun text => and_comm
  · have expresses := Regex.expresses_piece Regex.isPiece_anyDigit (.times (count + 2))
    exact expresses.congr fun text => and_comm

/-- The text of an expression denotes, as a regular expression, what the expression denotes. -/
theorem IsWritten.expresses_text {expr : NumeralExpr} (written : expr.IsWritten) :
    Regex.Expresses expr.text expr.Denotes := by
  induction written with
  | empty => exact Regex.expresses_nil
  | char ordinary =>
      refine (Regex.expresses_once (.char ordinary)).congr fun text => ?_
      simp only [exists_eq_right, Denotes]
  | span ordered decimal => exact expresses_span ordered decimal
  | anyDigits count => exact expresses_anyDigits count
  | seq _ _ ihLeft ihRight => exact ihLeft.append ihRight
  | @group body _ ih =>
      have expresses := Regex.expresses_group body.alternatives_ne_nil ih
      rw [Regex.inParentheses, text_alternatives] at expresses
      exact expresses.congr fun text => denotes_alternatives.symm

theorem IsWritten.denotes_text {expr : NumeralExpr} (written : expr.IsWritten) (text : Text) :
    Regex.Denotes expr.text text ↔ expr.Denotes text :=
  written.expresses_text.denotes_iff text

/-! ## One of several expressions -/

theorem denotes_oneOf {alternatives : List NumeralExpr} (nonempty : alternatives ≠ [])
    (text : Text) :
    (oneOf alternatives).Denotes text ↔ ∃ expr ∈ alternatives, expr.Denotes text := by
  induction alternatives with
  | nil => exact absurd rfl nonempty
  | cons first rest ih =>
      cases rest with
      | nil => simp [oneOf]
      | cons second others => simp [oneOf, Denotes, ih (by simp)]

theorem denotes_grouped {alternatives : List NumeralExpr} (nonempty : alternatives ≠ [])
    (text : Text) :
    (grouped alternatives).Denotes text ↔ ∃ expr ∈ alternatives, expr.Denotes text := by
  rw [← denotes_oneOf nonempty]
  cases alternatives with
  | nil => exact absurd rfl nonempty
  | cons first rest => cases rest <;> rfl

theorem alternatives_oneOf {alternatives : List NumeralExpr} (nonempty : alternatives ≠ [])
    (written : ∀ expr ∈ alternatives, expr.IsWritten) :
    (oneOf alternatives).alternatives = alternatives := by
  induction alternatives with
  | nil => exact absurd rfl nonempty
  | cons first rest ih =>
      rcases List.forall_mem_cons.mp written with ⟨firstWritten, restWritten⟩
      cases rest with
      | nil => exact firstWritten.alternatives_eq
      | cons second others =>
          rw [oneOf, NumeralExpr.alternatives, ih (List.cons_ne_nil _ _) restWritten]
          simp

theorem isWritten_grouped {alternatives : List NumeralExpr}
    (written : ∀ expr ∈ alternatives, expr.IsWritten) : (grouped alternatives).IsWritten := by
  match alternatives, written with
  | [], _ =>
      apply IsWritten.group
      exact List.forall_mem_singleton.mpr .empty
  | [only], written => exact List.forall_mem_singleton.mp written
  | first :: second :: others, written =>
      apply IsWritten.group
      rw [alternatives_oneOf (List.cons_ne_nil _ _) written]
      exact written

end NumeralExpr

end Glob

end PropertyCascade
