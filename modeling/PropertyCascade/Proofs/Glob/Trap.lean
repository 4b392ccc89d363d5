import PropertyCascade.Number.Numeral

/-!
# Steps that may trap

A program that goes through a text by its indexes, and that calculates with machine words, can be
stopped by a step that makes no sense: by a character or a slice that is not there, or by a result
that its type does not hold. Here such a step is a trap. A loop traps too, if a round of it does not
get ahead, so a loop that does not trap ends.

A loop is followed by what it still has to find at an index: each of its rounds leaves that
unchanged or finds it.
-/

namespace PropertyCascade

namespace Glob

/-- Why a step of a program makes no sense. -/
inductive Trap where
  /-- A character that is not in the text. -/
  | noCharacter
  /-- A slice that ends before it starts, or after the text. -/
  | noSlice
  /-- A sum, a difference or a power that its type does not hold. -/
  | overflow
  /-- The digit after nine, or the one before zero. -/
  | noDigit
  /-- A round of a loop that does not get ahead. -/
  | stuck
  /-- A call for a text that is not shorter than the one at hand. -/
  | notShorter
  deriving DecidableEq, Repr

/-- What a program comes to, unless it traps. -/
abbrev Checked := Except Trap

namespace Checked

variable {Value Result : Type}

@[simp]
theorem ok_bind (value : Value) (next : Value → Checked Result) :
    (Except.ok value >>= next) = next value :=
  rfl

@[simp]
theorem pure_eq (value : Value) : (pure value : Checked Value) = .ok value :=
  rfl

/-- Steps that do not trap, one for each of several values. -/
theorem mapM_eq_ok {step : Value → Checked Result} {result : Value → Result} {values : List Value}
    (each : ∀ value ∈ values, step value = .ok (result value)) :
    values.mapM step = .ok (values.map result) := by
  induction values with
  | nil => rfl
  | cons value values ih =>
      rcases List.forall_mem_cons.mp each with ⟨first, others⟩
      rw [List.mapM_cons, first, ok_bind, ih others]
      rfl

/-! ## Indexes -/

/-- The sum of two indexes, up to the greatest index of their type. -/
def plus (limit index distance : Nat) : Checked Nat :=
  if index + distance ≤ limit then .ok (index + distance) else .error .overflow

/-- The difference of two indexes, or of two counts. -/
def minus (index distance : Nat) : Checked Nat :=
  if distance ≤ index then .ok (index - distance) else .error .overflow

/-- The character at an index. -/
def charAt (chars : Text) (index : Nat) : Checked Char :=
  match chars[index]? with
  | some c => .ok c
  | none => .error .noCharacter

/-- The characters from an index on, up to another one. -/
def slice (chars : Text) (start stop : Nat) : Checked Text :=
  if start ≤ stop ∧ stop ≤ chars.length then .ok ((chars.take stop).drop start)
  else .error .noSlice

theorem plus_eq {limit index distance : Nat} (fits : index + distance ≤ limit) :
    plus limit index distance = .ok (index + distance) :=
  if_pos fits

theorem minus_eq {index distance : Nat} (positive : distance ≤ index) :
    minus index distance = .ok (index - distance) :=
  if_pos positive

theorem slice_eq {chars : Text} {start stop : Nat} (ordered : start ≤ stop)
    (within : stop ≤ chars.length) : slice chars start stop = .ok ((chars.take stop).drop start) :=
  if_pos ⟨ordered, within⟩

section Suffix

variable {chars text rest : Text} {index : Nat} {c : Char}

theorem getElem?_of_drop (isText : chars.drop index = text) (distance : Nat) :
    chars[index + distance]? = text[distance]? := by
  rw [← List.getElem?_drop, isText]

theorem drop_of_drop (isText : chars.drop index = text) (distance : Nat) :
    chars.drop (index + distance) = text.drop distance := by
  rw [← isText, List.drop_drop]

theorem charAt_of_drop (isText : chars.drop index = c :: rest) : charAt chars index = .ok c := by
  have isChar : chars[index]? = some c := getElem?_of_drop isText 0
  rw [charAt, isChar]

theorem exists_drop_eq_cons (within : index < chars.length) :
    ∃ c rest, chars.drop index = c :: rest :=
  ⟨_, _, List.drop_eq_getElem_cons within⟩

theorem length_of_drop (within : index ≤ chars.length) (isText : chars.drop index = text) :
    chars.length = index + text.length := by
  rw [← isText, List.length_drop]
  omega

end Suffix

/-! ## Machine words -/

/-- An integer as a word of 64 bits. -/
def word (number : Int) : Checked Int :=
  if Numeral.least ≤ number ∧ number ≤ Numeral.greatest then .ok number else .error .overflow

/-- A power of ten as a word of 64 bits. -/
def power (exponent : Nat) : Checked Int :=
  word (Int.pow 10 exponent)

/-- The digit after another one. -/
def digitAfter (digit : Nat) : Checked Nat :=
  if digit < 9 then .ok (digit + 1) else .error .noDigit

/-- The digit before another one. -/
def digitBefore (digit : Nat) : Checked Nat :=
  if 0 < digit then .ok (digit - 1) else .error .noDigit

theorem word_eq {number : Int} (fits : Numeral.least ≤ number ∧ number ≤ Numeral.greatest) :
    word number = .ok number :=
  if_pos fits

theorem digitAfter_eq {digit : Nat} (less : digit < 9) : digitAfter digit = .ok (digit + 1) :=
  if_pos less

theorem digitBefore_eq {digit : Nat} (positive : 0 < digit) :
    digitBefore digit = .ok (digit - 1) :=
  if_pos positive

/-! ## Loops -/

/-- What a round of a loop comes to. -/
inductive Round (State Result : Type) where
  /-- The loop goes on at an index. -/
  | next (index : Nat) (state : State)
  /-- The loop ends. -/
  | done (result : Result)

variable {State : Type}

/-- Goes through the indexes below a length, not necessarily through all of them. What is left at
the end of the text becomes the result, unless a round has ended the loop. -/
def loop (length : Nat) (round : Nat → State → Checked (Round State Result))
    (finish : State → Checked Result) (index : Nat) (state : State) : Checked Result :=
  if index < length then
    match round index state with
    | .error trap => .error trap
    | .ok (.done result) => .ok result
    | .ok (.next later state) =>
        if index < later then loop length round finish later state else .error .stuck
  else finish state
termination_by length - index

/-- A round gets ahead and keeps an invariant and what the loop still has to find, or it ends the
loop with that. -/
inductive Advances (find : Nat → State → Result) (invariant : Nat → State → Prop) (index : Nat)
    (state : State) : Checked (Round State Result) → Prop where
  | next {later : Nat} {changed : State} (ahead : index < later) (holds : invariant later changed)
      (same : find later changed = find index state) :
      Advances find invariant index state (.ok (.next later changed))
  | done {result : Result} (found : find index state = result) :
      Advances find invariant index state (.ok (.done result))

/-- A loop whose rounds get ahead ends, and finds what it has to find. -/
theorem loop_eq {length : Nat} {round : Nat → State → Checked (Round State Result)}
    {finish : State → Checked Result} (find : Nat → State → Result)
    {invariant : Nat → State → Prop}
    (each : ∀ index state, index < length → invariant index state →
      Advances find invariant index state (round index state))
    (last : ∀ index state, length ≤ index → invariant index state →
      finish state = .ok (find index state))
    {index : Nat} {state : State} (holds : invariant index state) :
    loop length round finish index state = .ok (find index state) := by
  fun_induction loop length round finish index state with
  | case1 index state within trap isRound =>
      have advances := each index state within holds
      rw [isRound] at advances
      cases advances
  | case2 index state within result isRound =>
      have advances := each index state within holds
      rw [isRound] at advances
      cases advances with
      | done found => rw [found]
  | case3 index state within later changed isRound ahead ih =>
      have advances := each index state within holds
      rw [isRound] at advances
      cases advances with
      | next _ laterHolds same => rw [ih laterHolds, same]
  | case4 index state within later changed isRound notAhead =>
      have advances := each index state within holds
      rw [isRound] at advances
      cases advances with
      | next ahead _ _ => exact absurd ahead notAhead
  | case5 index state notWithin => exact last index state (Nat.le_of_not_lt notWithin) holds

end Checked

end Glob

end PropertyCascade
