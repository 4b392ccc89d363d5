import PropertyCascade.Glob.Pattern

/-!
# Reading patterns by slices

Patterns can also be read without tokens and trees: by one reader that goes through the characters
and calls itself on slices of the text. At an opening brace it looks for the brace that closes it,
cuts the content at its commas, and reads each option as a pattern of its own. The same text is thus
scanned several times: by the search for the closing brace, by the search for commas, by the search
for the end of a class that both of them use, and by the reading of classes and items. Each of these
scans has its own rules for what belongs together, and each but the first sees only a slice.

This file defines the scans and the reader, with a log of the reader's calls of itself.
-/

namespace PropertyCascade

namespace Glob

namespace CharClass

/-- The index of the bracket that closes the class which opens at an index. -/
def closingIndex? (chars : Text) (opening : Nat) : Option Nat :=
  (bodyLength? (chars.drop (opening + 1))).map (opening + 1 + ·)

/-- The members of a class and the number of characters before its closing bracket, read in one
pass over the text after the opening bracket and the sign of negation. -/
def readMembers (text : Text) : Option (List ClassMember × Nat) :=
  match text with
  | [] => none
  | ']' :: _ => some ([], 0)
  | ['\\'] => none
  | '\\' :: escaped :: rest =>
      (readMembers rest).map fun (members, length) => (.single escaped :: members, length + 2)
  | first :: '-' :: last :: rest =>
      if last = ']' then
        (readMembers ('-' :: last :: rest)).map fun (members, length) =>
          (.single first :: members, length + 1)
      else
        (readMembers rest).map fun (members, length) => (.span first last :: members, length + 3)
  | c :: rest =>
      (readMembers rest).map fun (members, length) => (.single c :: members, length + 1)
termination_by text.length

/-- The class with given members, and the number of its characters with both brackets. -/
def ofMembers (offset : Nat) (negated : Bool) :
    Option (List ClassMember × Nat) → Except Fault (CharClass × Nat)
  | none => .error (.unterminatedClass offset)
  | some ([], _) => .error (.emptyClass offset)
  | some (members, length) => .ok (⟨negated, members⟩, length + (if negated then 3 else 2))

/-- The class that a text starts with, and the number of its characters. -/
def read (offset : Nat) : Text → Except Fault (CharClass × Nat)
  | _ :: '!' :: rest => ofMembers offset true (readMembers rest)
  | text => ofMembers offset false (readMembers text.tail)

end CharClass

namespace Scanner

/-- How many of the characters after one belong to it: the character after a backslash, and the
body and the closing bracket of a class. An opening bracket that is never closed stands alone. -/
def followers (c : Char) (rest : Text) : Nat :=
  if c = '\\' then (rest.take 1).length
  else if c = '[' then (CharClass.bodyLength? rest).elim 0 (· + 1)
  else 0

/-- The number of characters before the brace that closes a number of open braces and one more.
The first `taken` characters belong to a piece that was begun before. -/
def lengthFrom (depth taken : Nat) : Text → Option Nat
  | [] => none
  | c :: rest =>
      match taken with
      | more + 1 => (lengthFrom depth more rest).map (· + 1)
      | 0 =>
          if c = '{' then (lengthFrom (depth + 1) 0 rest).map (· + 1)
          else if c = '}' then
            if depth = 0 then some 0 else (lengthFrom (depth - 1) 0 rest).map (· + 1)
          else (lengthFrom depth (followers c rest) rest).map (· + 1)

/-- The length of the content of a brace, given the text after its opening brace. -/
def contentLength? (text : Text) : Option Nat :=
  lengthFrom 0 0 text

/-- The index of the brace that closes the one which opens at an index. -/
def closingBrace? (chars : Text) (opening : Nat) : Option Nat :=
  (contentLength? (chars.drop (opening + 1))).map (opening + 1 + ·)

/-- Puts a character in front of the first of several texts, each given with its offset. -/
def extend (offset : Nat) (c : Char) : List (Nat × Text) → List (Nat × Text)
  | [] => []
  | (_, text) :: others => (offset, c :: text) :: others

/-- The texts between the commas outside of all braces, with their offsets. -/
def optionsFrom (depth taken offset : Nat) : Text → List (Nat × Text)
  | [] => [(offset, [])]
  | c :: rest =>
      match taken with
      | more + 1 => extend offset c (optionsFrom depth more (offset + 1) rest)
      | 0 =>
          if c = '{' then extend offset c (optionsFrom (depth + 1) 0 (offset + 1) rest)
          else if c = '}' then extend offset c (optionsFrom (depth - 1) 0 (offset + 1) rest)
          else if c = ',' ∧ depth = 0 then (offset, []) :: optionsFrom 0 0 (offset + 1) rest
          else extend offset c (optionsFrom depth (followers c rest) (offset + 1) rest)

/-- A part of a pattern that is read as a pattern of its own. -/
structure Slice where
  /-- The offset of its first character. -/
  base : Nat
  /-- Whether it starts a path segment. -/
  fresh : Bool
  chars : Text

/-- A call of the reader, and what it returned. -/
structure Call where
  slice : Slice
  result : Except Fault (List Item)

/-- A reading with the calls that it made, whether or not it ended with a fault. -/
structure Logged (Value : Type) where
  calls : List Call
  result : Except Fault Value

namespace Logged

/-- A reading that makes no calls. -/
def ofExcept {Value : Type} (result : Except Fault Value) : Logged Value :=
  ⟨[], result⟩

instance : Monad Logged where
  pure value := ofExcept (.ok value)
  bind first next :=
    match first.result with
    | .ok value => ⟨first.calls ++ (next value).calls, (next value).result⟩
    | .error fault => ⟨first.calls, .error fault⟩

/-- The log of a call: the call itself, and the calls that it made. -/
def call (slice : Slice) (reading : Logged (List Item)) : Logged (List Item) :=
  ⟨⟨slice, reading.result⟩ :: reading.calls, reading.result⟩

/-- Several readings, one after the other, up to the first fault. -/
def all {Value : Type} : List (Logged Value) → Logged (List Value)
  | [] => pure []
  | reading :: readings => do
      let value ← reading
      let values ← all readings
      pure (value :: values)

section Lemmas

variable {Value Result : Type}

@[simp]
theorem result_pure (value : Value) : (pure value : Logged Value).result = .ok value :=
  rfl

@[simp]
theorem calls_pure (value : Value) : (pure value : Logged Value).calls = [] :=
  rfl

@[simp]
theorem result_bind (first : Logged Value) (next : Value → Logged Result) :
    (first >>= next).result = first.result >>= fun value => (next value).result := by
  rcases first with ⟨calls, _ | _⟩ <;> rfl

theorem mem_calls_bind {first : Logged Value} {next : Value → Logged Result} {made : Call}
    (member : made ∈ (first >>= next).calls) :
    made ∈ first.calls ∨ ∃ value, first.result = .ok value ∧ made ∈ (next value).calls := by
  rcases first with ⟨calls, fault | value⟩
  · exact .inl member
  · rcases List.mem_append.mp member with inFirst | inNext
    · exact .inl inFirst
    · exact .inr ⟨value, rfl, inNext⟩

theorem exists_of_mem_calls_all {readings : List (Logged Value)} {made : Call}
    (member : made ∈ (all readings).calls) : ∃ reading ∈ readings, made ∈ reading.calls := by
  induction readings with
  | nil => simp [all] at member
  | cons reading readings ih =>
      rcases mem_calls_bind member with inFirst | ⟨value, _, inRest⟩
      · exact ⟨reading, List.mem_cons_self .., inFirst⟩
      · rcases mem_calls_bind inRest with inLater | ⟨values, _, inPure⟩
        · rcases ih inLater with ⟨later, laterMember, made⟩
          exact ⟨later, List.mem_cons_of_mem _ laterMember, made⟩
        · simp at inPure

theorem bind_eq_error {first : Except Fault Value} {next : Value → Except Fault Result}
    {fault : Fault} : first >>= next = .error fault ↔
      first = .error fault ∨ ∃ value, first = .ok value ∧ next value = .error fault := by
  cases first with
  | error other => simp [bind, Except.bind]
  | ok value => simp [bind, Except.bind]

theorem exists_of_all_eq_error {readings : List (Logged Value)} {fault : Fault}
    (failed : (all readings).result = .error fault) :
    ∃ reading ∈ readings, reading.result = .error fault := by
  induction readings with
  | nil => cases failed
  | cons reading readings ih =>
      rw [all, result_bind, bind_eq_error] at failed
      rcases failed with isError | ⟨value, _, failed⟩
      · exact ⟨reading, List.mem_cons_self .., isError⟩
      · rw [result_bind, bind_eq_error] at failed
        rcases failed with isError | ⟨values, _, failed⟩
        · rcases ih isError with ⟨later, member, isError⟩
          exact ⟨later, List.mem_cons_of_mem _ member, isError⟩
        · cases failed

end Lemmas

end Logged

/-- What a text starts with. -/
inductive Head where
  /-- Nothing: the text has no characters. -/
  | done
  | fault (fault : Fault)
  /-- An item of some characters, and whether a path segment starts after it. -/
  | item (item : Item) (length : Nat) (fresh : Bool)
  /-- A brace with its content. -/
  | brace (content : Text)

/-- What a text starts with whose first character has a given offset. -/
def head (base : Nat) (fresh : Bool) : Text → Head
  | [] => .done
  | '*' :: '*' :: '/' :: _ =>
      if fresh then .item .directories 3 true else .fault (.misplacedGlobstar base)
  | ['*', '*'] => if fresh then .item .anything 2 false else .fault (.misplacedGlobstar base)
  | '*' :: '*' :: _ => .fault (.misplacedGlobstar base)
  | '*' :: _ => .item .star 1 false
  | '?' :: _ => .item .anyChar 1 false
  | '/' :: _ => .item (.char '/') 1 true
  | ['\\'] => .fault .trailingEscape
  | '\\' :: escaped :: _ => .item (.char escaped) 2 false
  | '[' :: rest =>
      match CharClass.read base ('[' :: rest) with
      | .ok (charClass, length) => .item (.oneOf charClass) length false
      | .error fault => .fault fault
  | '{' :: rest =>
      match contentLength? rest with
      | some length => .brace (rest.take length)
      | none => .fault (.unterminatedBrace base)
  | c :: _ => .item (.char c) 1 false

/-- The slices into which the content of a brace is cut: the whole of it where it has no comma, and
otherwise its options. Only options take the place of the brace. -/
def slicesOf (base : Nat) (fresh : Bool) (content : Text) : List Slice :=
  let options := optionsFrom 0 0 base content
  if options.length < 2 then [⟨base, false, content⟩]
  else options.map fun (offset, text) => ⟨offset, fresh, text⟩

/-! ## Slices get shorter -/

theorem length_pos_of_read {offset length : Nat} {text : Text} {charClass : CharClass}
    (isRead : CharClass.read offset text = .ok (charClass, length)) : 0 < length := by
  have general {negated : Bool} {members : Option (List ClassMember × Nat)}
      (made : CharClass.ofMembers offset negated members = .ok (charClass, length)) :
      0 < length := by
    unfold CharClass.ofMembers at made
    split at made <;> cases made
    cases negated <;> simp
  unfold CharClass.read at isRead
  split at isRead <;> exact general isRead

theorem length_lt_of_head_item {base : Nat} {fresh next : Bool} {chars : Text} {item : Item}
    {length : Nat} (starts : head base fresh chars = .item item length next) :
    (chars.drop length).length < chars.length := by
  have positive : 0 < length ∧ 0 < chars.length := by
    unfold head at starts
    split at starts
    case h_10 rest =>
      split at starts
      case h_1 charClass end? found =>
        cases starts
        exact ⟨length_pos_of_read found, by simp⟩
      case h_2 => cases starts
    case h_11 => split at starts <;> cases starts
    all_goals
      try split at starts
      all_goals
        cases starts
        try simp
  rw [List.length_drop]
  omega

theorem length_le_of_mem_extend {offset length : Nat} {c : Char} {options : List (Nat × Text)}
    (bounded : ∀ option ∈ options, option.2.length ≤ length) :
    ∀ option ∈ extend offset c options, option.2.length ≤ length + 1 := by
  cases options with
  | nil => simp [extend]
  | cons first others =>
      rcases List.forall_mem_cons.mp bounded with ⟨firstBounded, othersBounded⟩
      refine List.forall_mem_cons.mpr ⟨by simpa using firstBounded, fun option member => ?_⟩
      exact Nat.le_succ_of_le (othersBounded option member)

theorem length_le_of_mem_optionsFrom {depth taken offset : Nat} {text : Text} :
    ∀ option ∈ optionsFrom depth taken offset text, option.2.length ≤ text.length := by
  induction text generalizing depth taken offset with
  | nil => simp [optionsFrom]
  | cons c rest ih =>
      unfold optionsFrom
      cases taken with
      | succ more => exact length_le_of_mem_extend ih
      | zero =>
          dsimp only
          split
          case isTrue => exact length_le_of_mem_extend ih
          case isFalse =>
            split
            case isTrue => exact length_le_of_mem_extend ih
            case isFalse =>
              split
              case isTrue =>
                refine List.forall_mem_cons.mpr ⟨by simp, fun option member => ?_⟩
                exact Nat.le_succ_of_le (ih option member)
              case isFalse => exact length_le_of_mem_extend ih

theorem length_le_of_mem_slicesOf {base : Nat} {fresh : Bool} {content : Text} {slice : Slice}
    (member : slice ∈ slicesOf base fresh content) : slice.chars.length ≤ content.length := by
  simp only [slicesOf] at member
  split at member
  case isTrue =>
    cases List.mem_singleton.mp member
    exact Nat.le_refl _
  case isFalse =>
    rcases List.mem_map.mp member with ⟨option, optionMember, rfl⟩
    exact length_le_of_mem_optionsFrom option optionMember

theorem length_lt_of_head_brace {base : Nat} {fresh : Bool} {chars content : Text}
    (starts : head base fresh chars = .brace content) : content.length < chars.length := by
  unfold head at starts
  split at starts
  case h_11 rest =>
    split at starts <;> cases starts
    simp only [List.length_take, List.length_cons]
    omega
  all_goals
    try split at starts
    all_goals cases starts

/-- Reads a brace, given the readings of the slices into which its content is cut. -/
def ofBrace (content : Text) (readings : List (Logged (List Item))) : Logged (List Item) := do
  match ← Logged.ofExcept (Interval.read content) with
  | some interval => pure [Item.numerals interval]
  | none =>
      let choices ← Logged.all readings
      pure (Item.ofChoices choices)

/-- Reads a text whose first character has a given offset. -/
def read (base : Nat) (fresh : Bool) (chars : Text) : Logged (List Item) :=
  match _starts : head base fresh chars with
  | .done => pure []
  | .fault fault => .ofExcept (.error fault)
  | .item item length next => do
      let items ← read (base + length) next (chars.drop length)
      pure (item :: items)
  | .brace content => do
      let here ← ofBrace content ((slicesOf (base + 1) fresh content).attach.map fun slice =>
        .call slice.val (read slice.val.base slice.val.fresh slice.val.chars))
      let items ← read (base + content.length + 2) false (chars.drop (content.length + 2))
      pure (here ++ items)
termination_by chars.length
decreasing_by
  · exact length_lt_of_head_item _starts
  · exact Nat.lt_of_le_of_lt (length_le_of_mem_slicesOf slice.property)
      (length_lt_of_head_brace _starts)
  · have := length_lt_of_head_brace _starts
    rw [List.length_drop]
    omega

/-- Reads a section header. A separator at the start is left out, but counts for the offsets. -/
def readPattern : Text → Logged (List Item)
  | '/' :: body => read 1 true body
  | body => read 0 true body

section Read

variable {base : Nat} {fresh : Bool} {chars : Text}

theorem read_of_done (starts : head base fresh chars = .done) :
    read base fresh chars = pure [] := by
  rw [read]
  split <;> simp_all

theorem read_of_fault {fault : Fault} (starts : head base fresh chars = .fault fault) :
    read base fresh chars = .ofExcept (.error fault) := by
  rw [read]
  split <;> simp_all

theorem read_of_item {item : Item} {length : Nat} {next : Bool}
    (starts : head base fresh chars = .item item length next) :
    read base fresh chars =
      read (base + length) next (chars.drop length) >>= fun items => pure (item :: items) := by
  rw [read]
  split <;> simp_all

theorem read_of_brace {content : Text} (starts : head base fresh chars = .brace content) :
    read base fresh chars =
      ofBrace content ((slicesOf (base + 1) fresh content).map fun slice =>
        .call slice (read slice.base slice.fresh slice.chars)) >>= fun here =>
          read (base + content.length + 2) false (chars.drop (content.length + 2)) >>=
            fun items => pure (here ++ items) := by
  rw [read]
  split <;> simp_all

end Read

end Scanner

end Glob

end PropertyCascade
