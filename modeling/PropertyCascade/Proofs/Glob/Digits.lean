import PropertyCascade.Glob.Interval
import PropertyCascade.Proofs.Glob.NumeralExpr

/-!
# Bounding digits

The expressions that bound numerals digit by digit denote exactly the sequences of digits of the
same length whose values lie within the bounds. Sequences of one length are compared by their first
digits and then by the rest, and the case splits of the expressions follow this order: an all-zero
rest of the lower bound, or an all-nine rest of the upper bound, constrains nothing.

From this the expression for the positive numbers between two denotes exactly their canonical
numerals, because the bounds for each count of digits leave out the sequences that start with a
zero.
-/

namespace PropertyCascade

namespace Glob

namespace Digits

open NumeralExpr

/-! ## Values of digits -/

/-- The number that a sequence of digits denotes. -/
def value : List Nat → Nat
  | [] => 0
  | digit :: rest => digit * 10 ^ rest.length + value rest

theorem value_lt {digits : List Nat} (small : ∀ digit ∈ digits, digit ≤ 9) :
    value digits < 10 ^ digits.length := by
  induction digits with
  | nil => simp [value]
  | cons digit rest ih =>
      rcases List.forall_mem_cons.mp small with ⟨first, later⟩
      have : digit * 10 ^ rest.length ≤ 9 * 10 ^ rest.length := Nat.mul_le_mul_right _ first
      have := ih later
      rw [value, List.length_cons, Nat.pow_succ]
      omega

theorem value_map_digitValue (text : Text) :
    value (text.map Numeral.digitValue) = Numeral.value text := by
  induction text with
  | nil => rfl
  | cons c rest ih => rw [List.map_cons, value, Numeral.value_cons, ih, List.length_map]

theorem value_ofNat (number : Nat) : value (ofNat number) = number := by
  rw [ofNat, value_map_digitValue, Numeral.value_ofNat]

theorem le_nine_of_mem_ofNat {number digit : Nat} (member : digit ∈ ofNat number) : digit ≤ 9 := by
  rcases List.mem_map.mp member with ⟨c, written, rfl⟩
  exact Numeral.digitValue_le (Numeral.isDigit_of_mem_ofNat written)

theorem value_eq_zero {digits : List Nat} (zeros : digits.all (· == 0) = true) :
    value digits = 0 := by
  induction digits with
  | nil => rfl
  | cons digit rest ih =>
      simp only [List.all_cons, Bool.and_eq_true, beq_iff_eq] at zeros
      rw [value, zeros.1, ih zeros.2, Nat.zero_mul]

theorem value_of_all_nine {digits : List Nat} (nines : digits.all (· == 9) = true) :
    value digits + 1 = 10 ^ digits.length := by
  induction digits with
  | nil => rfl
  | cons digit rest ih =>
      simp only [List.all_cons, Bool.and_eq_true, beq_iff_eq] at nines
      have := ih nines.2
      rw [value, nines.1, List.length_cons, Nat.pow_succ]
      omega

/-- Sequences of one length are in the order of their first digits, and then of the others. -/
theorem value_cons_le_cons_iff {digit other : Nat} {digits others : List Nat}
    (small : ∀ digit ∈ digits, digit ≤ 9) (othersSmall : ∀ digit ∈ others, digit ≤ 9)
    (lengths : digits.length = others.length) :
    value (digit :: digits) ≤ value (other :: others) ↔
      digit < other ∨ digit = other ∧ value digits ≤ value others := by
  rw [value, value, lengths]
  exact Numeral.lead_le_lead_iff (lengths ▸ value_lt small) (value_lt othersSmall)

/-! ## Texts of digits -/

/-- A text of a given number of digits. -/
def OfLength (count : Nat) (text : Text) : Prop :=
  text.length = count ∧ ∀ c ∈ text, Numeral.isDigit c = true

theorem OfLength.value_lt {count : Nat} {text : Text} (digits : OfLength count text) :
    Numeral.value text < 10 ^ count :=
  digits.1 ▸ Numeral.value_lt digits.2

theorem ofLength_succ_iff {count : Nat} {text : Text} :
    OfLength (count + 1) text ↔
      ∃ digit rest, digit ≤ 9 ∧ text = Nat.digitChar digit :: rest ∧ OfLength count rest := by
  constructor
  · intro digitsOnly
    rcases digitsOnly with ⟨length, digits⟩
    cases text with
    | nil => simp at length
    | cons c rest =>
        rcases List.forall_mem_cons.mp digits with ⟨first, later⟩
        exact ⟨Numeral.digitValue c, rest, Numeral.digitValue_le first,
          by rw [Numeral.digitChar_digitValue first], by simpa using length, later⟩
  · intro splits
    rcases splits with ⟨digit, rest, small, rfl, length, digits⟩
    exact ⟨by simp [length], List.forall_mem_cons.mpr ⟨Numeral.isDigit_digitChar small, digits⟩⟩

section Lead

variable {digit lead : Nat} {digits : List Nat} {rest : Text}

theorem value_le_lead_iff (small : ∀ other ∈ digits, other ≤ 9) (leadSmall : lead ≤ 9)
    (restDigits : OfLength digits.length rest) :
    value (digit :: digits) ≤ Numeral.value (Nat.digitChar lead :: rest) ↔
      digit < lead ∨ digit = lead ∧ value digits ≤ Numeral.value rest := by
  rw [value, Numeral.value_cons, Numeral.digitValue_digitChar leadSmall, restDigits.1]
  exact Numeral.lead_le_lead_iff (value_lt small) restDigits.value_lt

theorem lead_le_value_iff (small : ∀ other ∈ digits, other ≤ 9) (leadSmall : lead ≤ 9)
    (restDigits : OfLength digits.length rest) :
    Numeral.value (Nat.digitChar lead :: rest) ≤ value (digit :: digits) ↔
      lead < digit ∨ lead = digit ∧ Numeral.value rest ≤ value digits := by
  rw [value, Numeral.value_cons, Numeral.digitValue_digitChar leadSmall, restDigits.1]
  exact Numeral.lead_le_lead_iff restDigits.value_lt (value_lt small)

end Lead

/-- A condition on texts of digits, read off the first digit and the rest. -/
theorem ofLength_succ_and_iff {count : Nat} (condition : Text → Prop)
    (lexicographic : Nat → Text → Prop)
    (compared : ∀ lead tail, lead ≤ 9 → OfLength count tail →
      (condition (Nat.digitChar lead :: tail) ↔ lexicographic lead tail)) (text : Text) :
    OfLength (count + 1) text ∧ condition text ↔
      ∃ lead tail, lead ≤ 9 ∧ text = Nat.digitChar lead :: tail ∧ OfLength count tail ∧
        lexicographic lead tail := by
  rw [ofLength_succ_iff]
  constructor
  · intro splits
    rcases splits with ⟨⟨lead, tail, leadSmall, rfl, tailDigits⟩, holds⟩
    exact ⟨lead, tail, leadSmall, rfl, tailDigits,
      (compared lead tail leadSmall tailDigits).mp holds⟩
  · intro splits
    rcases splits with ⟨lead, tail, leadSmall, rfl, tailDigits, holds⟩
    exact ⟨⟨lead, tail, leadSmall, rfl, tailDigits⟩,
      (compared lead tail leadSmall tailDigits).mpr holds⟩

/-! ## Digit by digit -/

/-- The texts that some expression among several denotes. -/
def DenotedBySome (exprs : List NumeralExpr) (text : Text) : Prop :=
  ∃ expr ∈ exprs, expr.Denotes text

theorem denotedBySome_append {exprs others : List NumeralExpr} {text : Text} :
    DenotedBySome (exprs ++ others) text ↔
      DenotedBySome exprs text ∨ DenotedBySome others text := by
  simp [DenotedBySome, or_and_right, exists_or]

theorem denotedBySome_prefixed {digit : Nat} {tails : List NumeralExpr} {text : Text} :
    DenotedBySome (prefixed digit tails) text ↔
      ∃ rest, text = Nat.digitChar digit :: rest ∧ DenotedBySome tails rest := by
  constructor
  · intro chosen
    rcases chosen with ⟨expr, member, denotes⟩
    rcases List.mem_map.mp member with ⟨tail, tailMember, rfl⟩
    rcases denotes with ⟨_, rest, rfl, rfl, tailDenotes⟩
    exact ⟨rest, rfl, tail, tailMember, tailDenotes⟩
  · intro splits
    rcases splits with ⟨rest, rfl, tail, tailMember, tailDenotes⟩
    exact ⟨_, List.mem_map_of_mem tailMember, [_], rest, rfl, rfl, tailDenotes⟩

theorem denotedBySome_free {first last width : Nat} {text : Text} :
    DenotedBySome [free first last width] text ↔
      ∃ digit rest, first ≤ digit ∧ digit ≤ last ∧ text = Nat.digitChar digit :: rest ∧
        OfLength width rest := by
  simp only [DenotedBySome, List.mem_singleton, exists_eq_left]
  constructor
  · intro splits
    rcases splits with ⟨_, rest, rfl, ⟨digit, low, high, rfl⟩, digits⟩
    exact ⟨digit, rest, low, high, rfl, digits⟩
  · intro splits
    rcases splits with ⟨digit, rest, low, high, rfl, digits⟩
    exact ⟨[_], rest, rfl, ⟨digit, low, high, rfl⟩, digits⟩

theorem denotedBySome_empty {text : Text} : DenotedBySome [.empty] text ↔ text = [] := by
  simp [DenotedBySome, Denotes]

theorem not_denotedBySome_nil {text : Text} : ¬DenotedBySome [] text := by
  simp [DenotedBySome]

theorem denotedBySome_atLeast {digits : List Nat} (small : ∀ digit ∈ digits, digit ≤ 9)
    (text : Text) :
    DenotedBySome (atLeast digits) text ↔
      OfLength digits.length text ∧ value digits ≤ Numeral.value text := by
  induction digits generalizing text with
  | nil =>
      rw [atLeast, denotedBySome_empty]
      constructor
      · rintro rfl
        exact ⟨⟨rfl, by simp⟩, Nat.zero_le _⟩
      · intro bounded
        rcases bounded with ⟨⟨empty, -⟩, -⟩
        exact List.length_eq_zero_iff.mp empty
  | cons digit rest ih =>
      rcases List.forall_mem_cons.mp small with ⟨digitSmall, restSmall⟩
      rw [List.length_cons, ofLength_succ_and_iff (value (digit :: rest) ≤ Numeral.value ·) _
        fun _ _ => value_le_lead_iff restSmall, atLeast]
      split
      case isTrue isNine =>
        rw [denotedBySome_prefixed]
        constructor
        · intro splits
          rcases splits with ⟨tail, rfl, denotes⟩
          rcases (ih restSmall tail).mp denotes with ⟨tailDigits, bounded⟩
          exact ⟨digit, tail, digitSmall, rfl, tailDigits, Or.inr ⟨rfl, bounded⟩⟩
        · intro splits
          rcases splits with ⟨lead, tail, leadSmall, rfl, tailDigits, greater | ⟨rfl, bounded⟩⟩
          · omega
          · exact ⟨tail, rfl, (ih restSmall tail).mpr ⟨tailDigits, bounded⟩⟩
      case isFalse notNine =>
        split
        case isTrue zeros =>
          rw [denotedBySome_free]
          constructor
          · intro splits
            rcases splits with ⟨lead, tail, low, leadSmall, rfl, tailDigits⟩
            refine ⟨lead, tail, leadSmall, rfl, tailDigits, ?_⟩
            rw [value_eq_zero zeros]
            omega
          · intro splits
            rcases splits with ⟨lead, tail, leadSmall, rfl, tailDigits, bounded⟩
            exact ⟨lead, tail, by omega, leadSmall, rfl, tailDigits⟩
        case isFalse =>
          rw [denotedBySome_append, denotedBySome_prefixed, denotedBySome_free]
          constructor
          · intro chosen
            rcases chosen with ⟨tail, rfl, denotes⟩ | ⟨lead, tail, low, leadSmall, rfl, tailDigits⟩
            · rcases (ih restSmall tail).mp denotes with ⟨tailDigits, bounded⟩
              exact ⟨digit, tail, digitSmall, rfl, tailDigits, Or.inr ⟨rfl, bounded⟩⟩
            · exact ⟨lead, tail, leadSmall, rfl, tailDigits, Or.inl low⟩
          · intro splits
            rcases splits with ⟨lead, tail, leadSmall, rfl, tailDigits, greater | ⟨rfl, bounded⟩⟩
            · exact Or.inr ⟨lead, tail, greater, leadSmall, rfl, tailDigits⟩
            · exact Or.inl ⟨tail, rfl, (ih restSmall tail).mpr ⟨tailDigits, bounded⟩⟩

theorem denotedBySome_atMost {digits : List Nat} (small : ∀ digit ∈ digits, digit ≤ 9)
    (text : Text) :
    DenotedBySome (atMost digits) text ↔
      OfLength digits.length text ∧ Numeral.value text ≤ value digits := by
  induction digits generalizing text with
  | nil =>
      rw [atMost, denotedBySome_empty]
      constructor
      · rintro rfl
        exact ⟨⟨rfl, by simp⟩, Nat.le_refl _⟩
      · intro bounded
        rcases bounded with ⟨⟨empty, -⟩, -⟩
        exact List.length_eq_zero_iff.mp empty
  | cons digit rest ih =>
      rcases List.forall_mem_cons.mp small with ⟨digitSmall, restSmall⟩
      rw [List.length_cons, ofLength_succ_and_iff (Numeral.value · ≤ value (digit :: rest)) _
        fun _ _ => lead_le_value_iff restSmall, atMost]
      split
      case isTrue isZero =>
        rw [denotedBySome_prefixed]
        constructor
        · intro splits
          rcases splits with ⟨tail, rfl, denotes⟩
          rcases (ih restSmall tail).mp denotes with ⟨tailDigits, bounded⟩
          exact ⟨digit, tail, digitSmall, rfl, tailDigits, Or.inr ⟨rfl, bounded⟩⟩
        · intro splits
          rcases splits with ⟨lead, tail, leadSmall, rfl, tailDigits, less | ⟨rfl, bounded⟩⟩
          · omega
          · exact ⟨tail, rfl, (ih restSmall tail).mpr ⟨tailDigits, bounded⟩⟩
      case isFalse notZero =>
        split
        case isTrue nines =>
          rw [denotedBySome_free]
          constructor
          · intro splits
            rcases splits with ⟨lead, tail, -, high, rfl, tailDigits⟩
            have := value_of_all_nine nines
            have := tailDigits.value_lt
            exact ⟨lead, tail, by omega, rfl, tailDigits, by omega⟩
          · intro splits
            rcases splits with ⟨lead, tail, leadSmall, rfl, tailDigits, bounded⟩
            exact ⟨lead, tail, Nat.zero_le _, by omega, rfl, tailDigits⟩
        case isFalse =>
          rw [← List.singleton_append, denotedBySome_append, denotedBySome_prefixed,
            denotedBySome_free]
          constructor
          · intro chosen
            rcases chosen with ⟨lead, tail, -, high, rfl, tailDigits⟩ | ⟨tail, rfl, denotes⟩
            · exact ⟨lead, tail, by omega, rfl, tailDigits, Or.inl (by omega)⟩
            · rcases (ih restSmall tail).mp denotes with ⟨tailDigits, bounded⟩
              exact ⟨digit, tail, digitSmall, rfl, tailDigits, Or.inr ⟨rfl, bounded⟩⟩
          · intro splits
            rcases splits with ⟨lead, tail, leadSmall, rfl, tailDigits, less | ⟨rfl, bounded⟩⟩
            · exact Or.inl ⟨lead, tail, Nat.zero_le _, by omega, rfl, tailDigits⟩
            · exact Or.inr ⟨tail, rfl, (ih restSmall tail).mpr ⟨tailDigits, bounded⟩⟩

theorem denotedBySome_ite {condition : Bool} {exprs : List NumeralExpr} {text : Text} :
    DenotedBySome (if condition then [] else exprs) text ↔
      condition = false ∧ DenotedBySome exprs text := by
  cases condition <;> simp [not_denotedBySome_nil]

theorem denotedBySome_free_of_le {first last width : Nat} {text : Text} :
    DenotedBySome (if first ≤ last then [free first last width] else []) text ↔
      ∃ digit rest, first ≤ digit ∧ digit ≤ last ∧ text = Nat.digitChar digit :: rest ∧
        OfLength width rest := by
  split
  case isTrue => exact denotedBySome_free
  case isFalse empty =>
    constructor
    · exact fun denotes => absurd denotes not_denotedBySome_nil
    · intro splits
      rcases splits with ⟨digit, rest, low, high, -⟩
      omega

theorem first_le_iff {floor : Bool} {low lead : Nat} :
    (if floor then low else low + 1) ≤ lead ↔ low < lead ∨ low = lead ∧ floor = true := by
  cases floor with
  | true => simpa using Nat.le_iff_lt_or_eq
  | false => simp

theorem le_last_iff {ceiling : Bool} {high lead : Nat} (positive : 0 < high) :
    lead ≤ (if ceiling then high else high - 1) ↔ lead < high ∨ lead = high ∧ ceiling = true := by
  cases ceiling with
  | true => simpa using Nat.le_iff_lt_or_eq
  | false => simpa using Nat.le_sub_one_iff_lt positive

/-- Between bounds with different first digits, the first digit is that of a bound, whose other
digits then bound the others, or it lies between them. -/
theorem denotedBySome_between_of_lt {lowDigit highDigit : Nat} {lowRest highRest : List Nat}
    (less : lowDigit < highDigit) (highDigitSmall : highDigit ≤ 9)
    (lowRestSmall : ∀ digit ∈ lowRest, digit ≤ 9) (highRestSmall : ∀ digit ∈ highRest, digit ≤ 9)
    (lengths : lowRest.length = highRest.length) (text : Text) :
    DenotedBySome (between (lowDigit :: lowRest) (highDigit :: highRest)) text ↔
      ∃ lead tail, lead ≤ 9 ∧ text = Nat.digitChar lead :: tail ∧ OfLength lowRest.length tail ∧
        (lowDigit < lead ∨ lowDigit = lead ∧ value lowRest ≤ Numeral.value tail) ∧
          (lead < highDigit ∨ lead = highDigit ∧ Numeral.value tail ≤ value highRest) := by
  have aboveFloor (floor : lowRest.all (· == 0) = true) (tail : Text) :
      value lowRest ≤ Numeral.value tail := by
    rw [value_eq_zero floor]
    exact Nat.zero_le _
  have belowCeiling (ceiling : highRest.all (· == 9) = true) {tail : Text}
      (tailDigits : OfLength lowRest.length tail) : Numeral.value tail ≤ value highRest := by
    have tailLess := tailDigits.value_lt
    rw [lengths, ← value_of_all_nine ceiling] at tailLess
    exact Nat.lt_succ_iff.mp tailLess
  rw [between, if_neg less.ne]
  simp only [denotedBySome_append, denotedBySome_ite, denotedBySome_free_of_le,
    denotedBySome_prefixed, denotedBySome_atLeast lowRestSmall,
    denotedBySome_atMost highRestSmall, ← lengths]
  simp only [first_le_iff, le_last_iff (Nat.zero_lt_of_lt less)]
  constructor
  · rintro ((⟨-, tail, rfl, tailDigits, above⟩ | ⟨lead, tail, first, last, rfl, tailDigits⟩) |
      ⟨-, tail, rfl, tailDigits, below⟩)
    · exact ⟨lowDigit, tail, by omega, rfl, tailDigits, Or.inr ⟨rfl, above⟩, Or.inl less⟩
    · have above := first.imp_right (And.imp_right fun floor => aboveFloor floor tail)
      have below := last.imp_right (And.imp_right fun ceiling => belowCeiling ceiling tailDigits)
      exact ⟨lead, tail, by omega, rfl, tailDigits, above, below⟩
    · exact ⟨highDigit, tail, highDigitSmall, rfl, tailDigits, Or.inl less, Or.inr ⟨rfl, below⟩⟩
  · intro splits
    rcases splits with ⟨lead, tail, leadSmall, rfl, tailDigits, above, below⟩
    by_cases atLow : lowRest.all (· == 0) = false ∧ lowDigit = lead
    · rcases atLow with ⟨notFloor, rfl⟩
      exact Or.inl (Or.inl ⟨notFloor, tail, rfl, tailDigits, by omega⟩)
    · by_cases atHigh : highRest.all (· == 9) = false ∧ lead = highDigit
      · rcases atHigh with ⟨notCeiling, rfl⟩
        exact Or.inr ⟨notCeiling, tail, rfl, tailDigits, by omega⟩
      · simp only [not_and', Bool.not_eq_false] at atLow atHigh
        have first := above.imp_right fun same => And.intro same.1 (atLow same.1)
        have last := below.imp_right fun same => And.intro same.1 (atHigh same.1)
        exact Or.inl (Or.inr ⟨lead, tail, first, last, rfl, tailDigits⟩)

theorem denotedBySome_between {low high : List Nat} (lowSmall : ∀ digit ∈ low, digit ≤ 9)
    (highSmall : ∀ digit ∈ high, digit ≤ 9) (lengths : low.length = high.length)
    (ordered : value low ≤ value high) (text : Text) :
    DenotedBySome (between low high) text ↔
      OfLength low.length text ∧ value low ≤ Numeral.value text ∧
        Numeral.value text ≤ value high := by
  induction low generalizing high text with
  | nil =>
      obtain rfl : high = [] := List.length_eq_zero_iff.mp lengths.symm
      rw [between, denotedBySome_empty]
      · constructor
        · rintro rfl
          exact ⟨⟨rfl, by simp⟩, Nat.zero_le _, Nat.le_refl _⟩
        · intro bounded
          rcases bounded with ⟨⟨empty, -⟩, -⟩
          exact List.length_eq_zero_iff.mp empty
      · simp
  | cons lowDigit lowRest ih =>
      rcases List.exists_cons_of_length_eq_add_one lengths.symm with ⟨highDigit, highRest, rfl⟩
      rcases List.forall_mem_cons.mp lowSmall with ⟨lowDigitSmall, lowRestSmall⟩
      rcases List.forall_mem_cons.mp highSmall with ⟨highDigitSmall, highRestSmall⟩
      have restLengths : lowRest.length = highRest.length := by simpa using lengths
      rw [value_cons_le_cons_iff lowRestSmall highRestSmall restLengths] at ordered
      have compared (lead : Nat) (tail : Text) (leadSmall : lead ≤ 9)
          (tailDigits : OfLength lowRest.length tail) :
          value (lowDigit :: lowRest) ≤ Numeral.value (Nat.digitChar lead :: tail) ∧
              Numeral.value (Nat.digitChar lead :: tail) ≤ value (highDigit :: highRest) ↔
            (lowDigit < lead ∨ lowDigit = lead ∧ value lowRest ≤ Numeral.value tail) ∧
              (lead < highDigit ∨ lead = highDigit ∧ Numeral.value tail ≤ value highRest) :=
        and_congr (value_le_lead_iff lowRestSmall leadSmall tailDigits)
          (lead_le_value_iff highRestSmall leadSmall (restLengths ▸ tailDigits))
      rw [List.length_cons, ofLength_succ_and_iff (fun text =>
        value (lowDigit :: lowRest) ≤ Numeral.value text ∧
          Numeral.value text ≤ value (highDigit :: highRest)) _ compared]
      rcases ordered with less | ⟨rfl, restOrdered⟩
      · exact denotedBySome_between_of_lt less highDigitSmall lowRestSmall highRestSmall
          restLengths text
      · have inner := ih lowRestSmall highRestSmall restLengths restOrdered
        rw [between, if_pos rfl, denotedBySome_prefixed]
        constructor
        · intro splits
          rcases splits with ⟨tail, rfl, denotes⟩
          rcases (inner tail).mp denotes with ⟨tailDigits, above, below⟩
          exact ⟨lowDigit, tail, lowDigitSmall, rfl, tailDigits, Or.inr ⟨rfl, above⟩,
            Or.inr ⟨rfl, below⟩⟩
        · intro splits
          rcases splits with ⟨lead, tail, leadSmall, rfl, tailDigits, above, below⟩
          obtain rfl : lowDigit = lead := by omega
          exact ⟨tail, rfl, (inner tail).mpr ⟨tailDigits, by omega, by omega⟩⟩

end Digits

end Glob

end PropertyCascade
