import Mathlib.Logic.ExistsUnique
import PropertyCascade.Proofs.Glob.IntervalSteps

/-!
# Alternatives for digits

The expressions that bound digits of one length share no text: where two of them were made at one
digit, the texts that they denote have different digits there. Since together they denote the digits
between the bounds, every sequence of digits between the bounds belongs to exactly one of them.

Each expression is written as digits, spans of digits and repetitions, one after the other, so the
bars between the expressions can be put in without parentheses around these.
-/

namespace PropertyCascade

namespace Glob

/-! ## Pieces one after the other -/

namespace Regex

/-- A piece that matches digits and that no bar can cut: a digit, a span of digits, or arbitrary
digits repeated a given number of times. -/
inductive IsDigitPiece : Text → Prop where
  | digit {c : Char} (digit : Numeral.isDigit c = true) : IsDigitPiece [c]
  | span {first last : Char} (firstDigit : Numeral.isDigit first = true)
      (lastDigit : Numeral.isDigit last = true) : IsDigitPiece ['[', first, '-', last, ']']
  | repeated (count : Nat) :
      IsDigitPiece (['[', '0', '-', '9', ']', '{'] ++ Numeral.ofNat count ++ ['}'])

/-- Pieces one after the other, and nothing else. -/
def IsConcatenation (expression : Text) : Prop :=
  ∃ pieces : List Text, (∀ piece ∈ pieces, IsDigitPiece piece) ∧ expression = pieces.flatten

theorem isConcatenation_nil : IsConcatenation [] :=
  ⟨[], by simp⟩

theorem IsDigitPiece.isConcatenation {piece : Text} (isPiece : IsDigitPiece piece) :
    IsConcatenation piece :=
  ⟨[piece], List.forall_mem_singleton.mpr isPiece, by simp⟩

theorem IsConcatenation.append {expression other : Text}
    (first : IsConcatenation expression) (second : IsConcatenation other) :
    IsConcatenation (expression ++ other) := by
  rcases first with ⟨pieces, arePieces, rfl⟩
  rcases second with ⟨others, areOthers, rfl⟩
  exact ⟨pieces ++ others, List.forall_mem_append.mpr ⟨arePieces, areOthers⟩, by simp⟩

theorem ne_bar_of_isDigit {c : Char} (digit : Numeral.isDigit c = true) : c ≠ '|' := by
  rintro rfl
  revert digit
  decide

theorem IsDigitPiece.bar_not_mem {piece : Text} (isPiece : IsDigitPiece piece) : '|' ∉ piece := by
  cases isPiece with
  | digit digit => simp [(ne_bar_of_isDigit digit).symm]
  | span firstDigit lastDigit =>
      simp [(ne_bar_of_isDigit firstDigit).symm, (ne_bar_of_isDigit lastDigit).symm]
  | repeated count =>
      have notInCount : '|' ∉ Numeral.ofNat count :=
        fun member => ne_bar_of_isDigit (Numeral.isDigit_of_mem_ofNat member) rfl
      simp [notInCount]

theorem IsConcatenation.bar_not_mem {expression : Text}
    (isConcatenation : IsConcatenation expression) : '|' ∉ expression := by
  rcases isConcatenation with ⟨pieces, arePieces, rfl⟩
  intro member
  rcases List.mem_flatten.mp member with ⟨piece, isPiece, inPiece⟩
  exact (arePieces piece isPiece).bar_not_mem inPiece

end Regex

theorem NumeralExpr.IsPlain.isConcatenation_text {expr : NumeralExpr} (plain : expr.IsPlain) :
    Regex.IsConcatenation expr.text := by
  induction plain with
  | empty => exact Regex.isConcatenation_nil
  | digit decimal =>
      exact (Regex.IsDigitPiece.digit (Numeral.isDigit_digitChar decimal)).isConcatenation
  | span ordered decimal =>
      have firstDigit := Numeral.isDigit_digitChar (le_trans ordered decimal)
      have lastDigit := Numeral.isDigit_digitChar decimal
      simp only [NumeralExpr.text]
      split
      case isTrue => exact (Regex.IsDigitPiece.digit firstDigit).isConcatenation
      case isFalse => exact (Regex.IsDigitPiece.span firstDigit lastDigit).isConcatenation
  | anyDigits count =>
      rcases count with _ | _ | count
      · exact Regex.isConcatenation_nil
      · exact (Regex.IsDigitPiece.span (by decide) (by decide)).isConcatenation
      · exact (Regex.IsDigitPiece.repeated (count + 2)).isConcatenation
  | seq _ _ ihLeft ihRight => exact ihLeft.append ihRight

namespace Digits

/-! ## Expressions without a text in common -/

/-- No two of several expressions denote one text. -/
def Apart (exprs : List NumeralExpr) : Prop :=
  exprs.Pairwise fun expr other => ∀ text, expr.Denotes text → ¬other.Denotes text

theorem Apart.append {exprs others : List NumeralExpr} (apart : Apart exprs)
    (othersApart : Apart others)
    (noneShared : ∀ text, DenotedBySome exprs text → ¬DenotedBySome others text) :
    Apart (exprs ++ others) := by
  refine List.pairwise_append.mpr ⟨apart, othersApart, ?_⟩
  intro expr member other otherMember text denotes otherDenotes
  exact noneShared text ⟨expr, member, denotes⟩ ⟨other, otherMember, otherDenotes⟩

theorem apart_singleton (expr : NumeralExpr) : Apart [expr] :=
  List.pairwise_singleton ..

theorem apart_prefixed {tails : List NumeralExpr} (apart : Apart tails) (digit : Nat) :
    Apart (prefixed digit tails) := by
  refine List.pairwise_map.mpr (apart.imp ?_)
  intro expr other different text denotes otherDenotes
  rcases denotes with ⟨_, rest, rfl, rfl, restDenotes⟩
  rcases otherDenotes with ⟨_, otherRest, same, rfl, otherRestDenotes⟩
  rw [List.append_cancel_left same] at restDenotes
  exact different otherRest restDenotes otherRestDenotes

/-- The texts that some expressions denote start with digits that satisfy a condition. -/
def StartWith (holds : Nat → Prop) (exprs : List NumeralExpr) : Prop :=
  ∀ text, DenotedBySome exprs text →
    ∃ digit rest, digit ≤ 9 ∧ holds digit ∧ text = Nat.digitChar digit :: rest

theorem startWith_nil (holds : Nat → Prop) : StartWith holds [] :=
  fun _ denoted => absurd denoted not_denotedBySome_nil

theorem startWith_prefixed {digit : Nat} (small : digit ≤ 9) (tails : List NumeralExpr) :
    StartWith (· = digit) (prefixed digit tails) := by
  intro text denoted
  rcases denotedBySome_prefixed.mp denoted with ⟨rest, rfl, -⟩
  exact ⟨digit, rest, small, rfl, rfl⟩

theorem startWith_free {last : Nat} (small : last ≤ 9) (first width : Nat) :
    StartWith (fun digit => first ≤ digit ∧ digit ≤ last) [free first last width] := by
  intro text denoted
  rcases denotedBySome_free.mp denoted with ⟨digit, rest, above, below, rfl, -⟩
  exact ⟨digit, rest, le_trans below small, ⟨above, below⟩, rfl⟩

theorem startWith_free_of_le {last : Nat} (small : last ≤ 9) (first width : Nat) :
    StartWith (fun digit => first ≤ digit ∧ digit ≤ last)
      (if first ≤ last then [free first last width] else []) := by
  split
  case isTrue => exact startWith_free small first width
  case isFalse => exact startWith_nil _

theorem apart_free_of_le (first last width : Nat) :
    Apart (if first ≤ last then [free first last width] else []) := by
  split
  case isTrue => exact apart_singleton _
  case isFalse => exact .nil

theorem StartWith.append {holds : Nat → Prop} {exprs others : List NumeralExpr}
    (start : StartWith holds exprs) (othersStart : StartWith holds others) :
    StartWith holds (exprs ++ others) := by
  intro text denoted
  rcases denotedBySome_append.mp denoted with first | second
  · exact start text first
  · exact othersStart text second

theorem StartWith.imp {holds weaker : Nat → Prop} {exprs : List NumeralExpr}
    (start : StartWith holds exprs) (implies : ∀ digit, holds digit → weaker digit) :
    StartWith weaker exprs := by
  intro text denoted
  rcases start text denoted with ⟨digit, rest, small, isStart, rfl⟩
  exact ⟨digit, rest, small, implies digit isStart, rfl⟩

/-- Expressions whose texts start with different digits share no text. -/
theorem Apart.append_of_startWith {exprs others : List NumeralExpr} {holds otherHolds : Nat → Prop}
    (apart : Apart exprs) (othersApart : Apart others) (start : StartWith holds exprs)
    (othersStart : StartWith otherHolds others)
    (different : ∀ digit, holds digit → ¬otherHolds digit) : Apart (exprs ++ others) := by
  apply apart.append othersApart
  intro text denoted otherDenoted
  rcases start text denoted with ⟨digit, rest, small, isStart, rfl⟩
  rcases othersStart _ otherDenoted with ⟨other, otherRest, otherSmall, isOther, same⟩
  apply different digit isStart
  rwa [← Numeral.digitValue_digitChar small, (List.cons.inj same).1,
    Numeral.digitValue_digitChar otherSmall]

theorem apart_atLeast {digits : List Nat} (small : ∀ digit ∈ digits, digit ≤ 9) :
    Apart (atLeast digits) := by
  induction digits with
  | nil => exact apart_singleton _
  | cons digit rest ih =>
      rcases List.forall_mem_cons.mp small with ⟨digitSmall, restSmall⟩
      have bound := apart_prefixed (ih restSmall) digit
      rw [atLeast]
      split
      case isTrue => exact bound
      case isFalse =>
        split
        case isTrue => exact apart_singleton _
        case isFalse =>
          apply bound.append_of_startWith (apart_singleton _) (startWith_prefixed digitSmall _)
            (startWith_free (le_refl 9) _ _)
          omega

theorem apart_atMost {digits : List Nat} (small : ∀ digit ∈ digits, digit ≤ 9) :
    Apart (atMost digits) := by
  induction digits with
  | nil => exact apart_singleton _
  | cons digit rest ih =>
      rcases List.forall_mem_cons.mp small with ⟨digitSmall, restSmall⟩
      have bound := apart_prefixed (ih restSmall) digit
      rw [atMost]
      split
      case isTrue => exact bound
      case isFalse =>
        split
        case isTrue => exact apart_singleton _
        case isFalse =>
          rw [← List.singleton_append]
          apply (apart_singleton _).append_of_startWith bound
            (startWith_free (by omega) _ _) (startWith_prefixed digitSmall _)
          omega

theorem startWith_ite {holds : Nat → Prop} {exprs : List NumeralExpr}
    (start : StartWith holds exprs) (condition : Bool) :
    StartWith (fun digit => condition = false ∧ holds digit) (if condition then [] else exprs) := by
  cases condition with
  | true => exact startWith_nil _
  | false => exact start.imp fun digit isStart => ⟨rfl, isStart⟩

theorem apart_ite {exprs : List NumeralExpr} (apart : Apart exprs) (condition : Bool) :
    Apart (if condition then [] else exprs) := by
  cases condition with
  | true => exact .nil
  | false => exact apart

/-- Between bounds with different first digits, only what is left to a bound starts with its digit,
and what is left to no bound starts with another digit. -/
theorem apart_between_of_lt {lowDigit highDigit : Nat} {lowRest highRest : List Nat}
    (less : lowDigit < highDigit) (highDigitSmall : highDigit ≤ 9)
    (lowRestSmall : ∀ digit ∈ lowRest, digit ≤ 9) (highRestSmall : ∀ digit ∈ highRest, digit ≤ 9) :
    Apart (between (lowDigit :: lowRest) (highDigit :: highRest)) := by
  rw [between, if_neg less.ne]
  dsimp only
  generalize lowRest.all (· == 0) = floor
  generalize highRest.all (· == 9) = ceiling
  have lowerEnd : ∀ digit, (if floor then lowDigit else lowDigit + 1) ≤ digit ↔
      lowDigit < digit ∨ lowDigit = digit ∧ floor = true := fun _ => first_le_iff
  have upperEnd : ∀ digit, digit ≤ (if ceiling then highDigit else highDigit - 1) ↔
      digit < highDigit ∨ digit = highDigit ∧ ceiling = true :=
    fun _ => le_last_iff (Nat.zero_lt_of_lt less)
  generalize (if floor then lowDigit else lowDigit + 1) = first at lowerEnd ⊢
  generalize (if ceiling then highDigit else highDigit - 1) = last at upperEnd ⊢
  have lastSmall : last ≤ 9 := by
    have := (upperEnd last).mp (le_refl last)
    omega
  have lowDigitSmall : lowDigit ≤ 9 := by omega
  have atLow := startWith_ite (startWith_prefixed lowDigitSmall (atLeast lowRest)) floor
  have atHigh := startWith_ite (startWith_prefixed highDigitSmall (atMost highRest)) ceiling
  have inside := startWith_free_of_le lastSmall first lowRest.length
  have lowApart := apart_ite (apart_prefixed (apart_atLeast lowRestSmall) lowDigit) floor
  have highApart := apart_ite (apart_prefixed (apart_atMost highRestSmall) highDigit) ceiling
  have notAtLow : ∀ digit, floor = false ∧ digit = lowDigit → ¬(first ≤ digit ∧ digit ≤ last) := by
    grind
  have lowNotHigh : ∀ digit, floor = false ∧ digit = lowDigit →
      ¬(ceiling = false ∧ digit = highDigit) := by
    grind
  have insideNotHigh : ∀ digit, first ≤ digit ∧ digit ≤ last →
      ¬(ceiling = false ∧ digit = highDigit) := by
    grind
  exact (lowApart.append_of_startWith (apart_free_of_le first last _) atLow inside
    notAtLow).append_of_startWith highApart
      ((atLow.imp lowNotHigh).append (inside.imp insideNotHigh)) atHigh fun _ => id

theorem apart_between {low high : List Nat} (lowSmall : ∀ digit ∈ low, digit ≤ 9)
    (highSmall : ∀ digit ∈ high, digit ≤ 9) (lengths : low.length = high.length)
    (ordered : value low ≤ value high) : Apart (between low high) := by
  induction low generalizing high with
  | nil => exact apart_singleton _
  | cons lowDigit lowRest ih =>
      rcases List.exists_cons_of_length_eq_add_one lengths.symm with ⟨highDigit, highRest, rfl⟩
      rcases List.forall_mem_cons.mp lowSmall with ⟨-, lowRestSmall⟩
      rcases List.forall_mem_cons.mp highSmall with ⟨highDigitSmall, highRestSmall⟩
      have restLengths : lowRest.length = highRest.length := by simpa using lengths
      rcases (value_cons_le_cons_iff lowRestSmall highRestSmall restLengths).mp ordered with
        less | ⟨rfl, restOrdered⟩
      · exact apart_between_of_lt less highDigitSmall lowRestSmall highRestSmall
      · rw [between, if_pos rfl]
        exact apart_prefixed (ih lowRestSmall highRestSmall restLengths restOrdered) lowDigit

/-! ## One alternative for each text -/

theorem Apart.existsUnique {exprs : List NumeralExpr} (apart : Apart exprs) {text : Text}
    (denoted : DenotedBySome exprs text) :
    ∃! index : Nat, ∃ expr : NumeralExpr, exprs[index]? = some expr ∧ expr.Denotes text := by
  have noneBefore {index other : Nat} {expr otherExpr : NumeralExpr} (before : index < other)
      (isExpr : exprs[index]? = some expr) (isOther : exprs[other]? = some otherExpr)
      (denotes : expr.Denotes text) : ¬otherExpr.Denotes text := by
    rcases List.getElem?_eq_some_iff.mp isExpr with ⟨inRange, rfl⟩
    rcases List.getElem?_eq_some_iff.mp isOther with ⟨otherInRange, rfl⟩
    exact List.pairwise_iff_getElem.mp apart index other inRange otherInRange before text denotes
  rcases denoted with ⟨expr, member, denotes⟩
  rcases List.mem_iff_getElem?.mp member with ⟨index, isExpr⟩
  refine ⟨index, ⟨expr, isExpr, denotes⟩, ?_⟩
  rintro other ⟨otherExpr, isOther, otherDenotes⟩
  rcases Nat.lt_trichotomy other index with before | same | after
  · exact absurd denotes (noneBefore before isOther isExpr otherDenotes)
  · exact same
  · exact absurd otherDenotes (noneBefore after isExpr isOther denotes)

theorem OfLength.digits {count : Nat} {text : Text} (digits : OfLength count text) :
    (text.map Numeral.digitValue).length = count ∧
      ∀ digit ∈ text.map Numeral.digitValue, digit ≤ 9 := by
  refine ⟨by rw [List.length_map, digits.1], ?_⟩
  intro digit member
  rcases List.mem_map.mp member with ⟨c, inText, rfl⟩
  exact Numeral.digitValue_le (digits.2 c inText)

/-- Two sequences of digits of one length, in order, are bounds of digits of this length. No step of
putting the alternatives for them together traps. Each is written as digits, spans of digits and
repetitions, one after the other, and its matcher accepts what the regular expression denotes. Every
sequence of so many digits between the bounds is denoted by exactly one alternative, and no other
text is denoted by any. -/
theorem exactly_one_alternative {count : Nat} {low high : Text} (lowDigits : OfLength count low)
    (highDigits : OfLength count high) (ordered : Numeral.value low ≤ Numeral.value high) :
    ∃ alternatives : List NumeralExpr,
      between (low.map Numeral.digitValue) (high.map Numeral.digitValue) = alternatives ∧
      sameLength (low.map Numeral.digitValue) (high.map Numeral.digitValue) = .ok alternatives ∧
      (∀ alternative ∈ alternatives,
        Regex.IsConcatenation alternative.text ∧ '|' ∉ alternative.text ∧
          ∀ text, (alternative.advance text (Marking.start text)).atEnd = true ↔
            Regex.Denotes alternative.text text) ∧
      ∀ text,
        (OfLength count text ∧ Numeral.value low ≤ Numeral.value text ∧
            Numeral.value text ≤ Numeral.value high →
          ∃! index : Nat, ∃ alternative : NumeralExpr,
            alternatives[index]? = some alternative ∧ Regex.Denotes alternative.text text) ∧
        (¬(OfLength count text ∧ Numeral.value low ≤ Numeral.value text ∧
            Numeral.value text ≤ Numeral.value high) →
          ∀ alternative ∈ alternatives, ¬Regex.Denotes alternative.text text) := by
  rcases lowDigits.digits with ⟨lowLength, lowSmall⟩
  rcases highDigits.digits with ⟨highLength, highSmall⟩
  have lengths := lowLength.trans highLength.symm
  rw [← value_map_digitValue low, ← value_map_digitValue high] at ordered ⊢
  have plain := isPlain_of_mem_between lowSmall highSmall
  have alike {alternative : NumeralExpr}
      (member : alternative ∈ between (low.map Numeral.digitValue) (high.map Numeral.digitValue))
      (text : Text) : Regex.Denotes alternative.text text ↔ alternative.Denotes text :=
    (plain alternative member).isWritten.denotes_text text
  refine ⟨_, rfl, sameLength_eq lowSmall highSmall lengths ordered, fun alternative member => ?_,
    fun text => ?_⟩
  · have concatenation := (plain alternative member).isConcatenation_text
    refine ⟨concatenation, concatenation.bar_not_mem, fun text => ?_⟩
    rw [alike member]
    exact (NumeralExpr.movesPast_advance (plain alternative member).isWritten).atEnd_iff text
  · have covers := denotedBySome_between lowSmall highSmall lengths ordered text
    rw [lowLength] at covers
    rw [← covers]
    constructor
    · intro denoted
      have one := (apart_between lowSmall highSmall lengths ordered).existsUnique denoted
      refine (existsUnique_congr fun index => exists_congr fun alternative => ?_).mpr one
      exact and_congr_right fun found => alike (List.mem_of_getElem? found) text
    · intro notDenoted alternative member denotes
      exact notDenoted ⟨alternative, member, (alike member text).mp denotes⟩

/-- Both bounds have digits that are left to them at more than one place. -/
theorem exactly_one_alternative_threeDigits :
    OfLength 3 "185".toList ∧ OfLength 3 "420".toList ∧
      Numeral.value "185".toList ≤ Numeral.value "420".toList ∧
      ∃ alternatives : List NumeralExpr,
        alternatives.map NumeralExpr.text =
          ["18[5-9]", "19[0-9]", "[2-3][0-9]{2}", "4[0-1][0-9]", "420"].map String.toList ∧
        (∃! index : Nat, ∃ alternative : NumeralExpr, alternatives[index]? = some alternative ∧
          Regex.Denotes alternative.text "399".toList) ∧
        ∀ alternative ∈ alternatives, ¬Regex.Denotes alternative.text "421".toList := by
  have lowDigits : OfLength 3 "185".toList := ⟨rfl, List.all_eq_true.mp (by decide)⟩
  have highDigits : OfLength 3 "420".toList := ⟨rfl, List.all_eq_true.mp (by decide)⟩
  have ordered : Numeral.value "185".toList ≤ Numeral.value "420".toList := by decide
  rcases exactly_one_alternative lowDigits highDigits ordered with ⟨_, rfl, -, -, matched⟩
  refine ⟨lowDigits, highDigits, ordered,
    between ("185".toList.map Numeral.digitValue) ("420".toList.map Numeral.digitValue),
    by decide, ?_, ?_⟩
  · exact (matched "399".toList).1
      ⟨⟨rfl, List.all_eq_true.mp (by decide)⟩, by decide, by decide⟩
  · exact (matched "421".toList).2 fun within => absurd within.2.2 (by decide)

end Digits

end Glob

end PropertyCascade
