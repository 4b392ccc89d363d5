import PropertyCascade.Proofs.Glob.IndexScans
import PropertyCascade.Proofs.Glob.Offsets

/-!
# No traps

The reader that goes through a pattern by its indexes never traps, so it ends for every pattern. A
round of the reader reads what the text behind the index starts with, and every call is for a slice
that is shorter, since it stands within two braces. The offsets are those of characters in the
pattern, and so they fit where the indexes fit.
-/

namespace PropertyCascade

namespace Glob

namespace Indexed

open Checked

/-! ## Calls -/

section Calls

variable {limit base : Nat} {fresh : Bool} {content : Text} {call : Reader}

theorem place_le_of_mem_extend {offset length : Nat} {c : Char} {options : List (Nat × Text)}
    (bounded : ∀ option ∈ options, option.2.length ≤ length)
    (placed : ∀ option ∈ options, option.1 + option.2.length ≤ offset + 1 + length) :
    ∀ option ∈ Scanner.extend offset c options,
      option.1 + option.2.length ≤ offset + (length + 1) := by
  cases options with
  | nil => simp [Scanner.extend]
  | cons first others =>
      have firstBounded := (List.forall_mem_cons.mp bounded).1
      have othersPlaced := (List.forall_mem_cons.mp placed).2
      refine List.forall_mem_cons.mpr ⟨?_, fun option member => ?_⟩
      · rw [List.length_cons]
        omega
      · have := othersPlaced option member
        omega

/-- An option stands in the content. -/
theorem place_le_of_mem_optionsFrom {depth taken offset : Nat} {text : Text} :
    ∀ option ∈ Scanner.optionsFrom depth taken offset text,
      option.1 + option.2.length ≤ offset + text.length := by
  induction text generalizing depth taken offset with
  | nil => simp [Scanner.optionsFrom]
  | cons c rest ih =>
      have extended (depth taken : Nat) :=
        place_le_of_mem_extend (c := c) Scanner.length_le_of_mem_optionsFrom
          (ih : ∀ option ∈ Scanner.optionsFrom depth taken (offset + 1) rest, _)
      unfold Scanner.optionsFrom
      cases taken with
      | succ more => exact extended depth more
      | zero =>
          dsimp only
          split_ifs
          · exact extended (depth + 1) 0
          · exact extended (depth - 1) 0
          · refine List.forall_mem_cons.mpr ⟨by simp, fun option member => ?_⟩
            have := ih option member
            rw [List.length_cons]
            omega
          · exact extended depth (Scanner.followers c rest)

/-- The calls for slices do not trap, and read them. -/
def CallsRead (call : Reader) (slices : List Scanner.Slice) : Prop :=
  ∀ slice ∈ slices, call slice = .ok (Scanner.read slice.base slice.fresh slice.chars).result

/-- The readings of slices. -/
def readingsOf (slices : List Scanner.Slice) : List (Scanner.Logged (List Item)) :=
  slices.map fun slice => .call slice (Scanner.read slice.base slice.fresh slice.chars)

theorem result_all_cons (slice : Scanner.Slice) (slices : List Scanner.Slice) :
    (Scanner.Logged.all (readingsOf (slice :: slices))).result =
      (Scanner.read slice.base slice.fresh slice.chars).result >>= fun items =>
        (Scanner.Logged.all (readingsOf slices)).result >>= fun others =>
          .ok (items :: others) := by
  rw [readingsOf, List.map_cons, ← readingsOf, Scanner.Logged.all, Scanner.Logged.result_bind]
  simp only [Scanner.Logged.result_bind]
  rfl

theorem length_of_result_all {slices : List Scanner.Slice} {choices : List (List Item)}
    (isRead : (Scanner.Logged.all (readingsOf slices)).result = .ok choices) :
    choices.length = slices.length := by
  induction slices generalizing choices with
  | nil =>
      cases isRead
      rfl
  | cons slice slices ih =>
      rw [result_all_cons, Item.bind_eq_ok] at isRead
      rcases isRead with ⟨items, -, isRead⟩
      rcases Item.bind_eq_ok.mp isRead with ⟨others, othersRead, same⟩
      cases same
      rw [List.length_cons, ih othersRead, List.length_cons]

/-- The slice of an option, given the offset of the content and where the option starts in it. -/
def sliceAt (base : Nat) (fresh : Bool) (option : Nat × Text) : Scanner.Slice :=
  ⟨base + option.1, fresh, option.2⟩

theorem readOptions_eq (fits : base + content.length ≤ limit) {options : List (Nat × Text)}
    (placed : ∀ option ∈ options, option.1 + option.2.length ≤ content.length)
    (calls : CallsRead call (options.map (sliceAt base fresh))) :
    readOptions limit call base fresh options =
      .ok (Scanner.Logged.all (readingsOf (options.map (sliceAt base fresh)))).result := by
  induction options with
  | nil => rfl
  | cons option options ih =>
      rcases option with ⟨start, text⟩
      rcases List.forall_mem_cons.mp placed with ⟨firstPlaced, othersPlaced⟩
      rw [List.map_cons] at calls
      rcases List.forall_mem_cons.mp calls with ⟨firstRead, othersRead⟩
      dsimp only [sliceAt] at firstPlaced firstRead
      rw [readOptions, plus_eq (by omega), ok_bind, firstRead, ok_bind, ih othersPlaced othersRead,
        List.map_cons, result_all_cons]
      dsimp only [sliceAt]
      cases (Scanner.read (base + start) fresh text).result with
      | error fault => rfl
      | ok items =>
          cases (Scanner.Logged.all (readingsOf (options.map (sliceAt base fresh)))).result <;> rfl

theorem slicesOf_eq (base : Nat) (fresh : Bool) (content : Text) :
    Scanner.slicesOf base fresh content =
      if (Scanner.optionsFrom 0 0 0 content).length < 2 then [⟨base, false, content⟩]
      else (Scanner.optionsFrom 0 0 0 content).map (sliceAt base fresh) := by
  have moved := Scanner.optionsFrom_add base 0 0 0 content
  rw [Nat.zero_add] at moved
  simp only [Scanner.slicesOf, moved, List.length_map, List.map_map]
  congr 2
  funext option
  simp [sliceAt, Nat.add_comm]

theorem readBrace_eq (fits : base + content.length + 2 ≤ limit)
    (calls : CallsRead call (Scanner.slicesOf base fresh content)) :
    readBrace limit call content base fresh =
      .ok (Scanner.ofBrace content (readingsOf (Scanner.slicesOf base fresh content))).result := by
  rw [readBrace, Scanner.result_ofBrace]
  cases Interval.read content with
  | error fault => rfl
  | ok interval? =>
      cases interval? with
      | some interval =>
          dsimp only
          rw [interval.expressionSteps_eq]
          rfl
      | none =>
          dsimp only
          rw [slicesOf_eq] at calls ⊢
          rw [splitOptions_eq (by omega), ok_bind]
          by_cases single : (Scanner.optionsFrom 0 0 0 content).length < 2
          case pos =>
            rw [if_pos single] at calls ⊢
            rw [if_pos single, calls _ (List.mem_singleton_self _), ok_bind, result_all_cons]
            cases (Scanner.read base false content).result <;> rfl
          case neg =>
            rw [if_neg single] at calls ⊢
            have placed : ∀ option ∈ Scanner.optionsFrom 0 0 0 content,
                option.1 + option.2.length ≤ content.length := by
              intro option member
              have := place_le_of_mem_optionsFrom option member
              omega
            rw [if_neg single, readOptions_eq (by omega) placed calls, ok_bind]
            cases isRead : (Scanner.Logged.all (readingsOf
              ((Scanner.optionsFrom 0 0 0 content).map (sliceAt base fresh)))).result with
            | error fault => rfl
            | ok choices =>
                have length := length_of_result_all isRead
                rw [List.length_map] at length
                rcases choices with _ | ⟨first, _ | ⟨second, others⟩⟩
                · simp only [List.length_nil] at length
                  omega
                · simp only [List.length_singleton] at length
                  omega
                · rfl

end Calls

/-! ## Patterns -/

section Patterns

variable {limit base index length : Nat} {next : Bool} {chars rest : Text} {call : Reader}
  {progress : Progress}

/-- The items of a text, given those before an index. -/
def itemsFrom (base : Nat) (chars : Text) (index : Nat) (progress : Progress) :
    Except Fault (List Item) :=
  (Scanner.read (base + index) progress.fresh (chars.drop index)).result.map (progress.items ++ ·)

/-- A round of the reader that gets ahead, and leaves the items of the text the same. -/
abbrev Reads (base : Nat) (chars : Text) (index : Nat) (progress : Progress)
    (round : Checked ReadRound) : Prop :=
  Advances (itemsFrom base chars) (fun _ _ => True) index progress round

theorem reads_fail {fault : Fault}
    (isRead : (Scanner.read (base + index) progress.fresh (chars.drop index)).result =
      .error fault) :
    Reads base chars index progress (fail fault) := by
  refine .done ?_
  rw [itemsFrom, isRead]
  rfl

theorem reads_fault {fault : Fault}
    (starts : Scanner.head (base + index) progress.fresh (chars.drop index) = .fault fault) :
    Reads base chars index progress (fail fault) :=
  reads_fail (by rw [Scanner.read_of_fault starts]; rfl)

theorem reads_pass {items : List Item} (positive : 0 < length) (fits : index + length ≤ limit)
    (isRead : (Scanner.read (base + index) progress.fresh (chars.drop index)).result =
      (Scanner.read (base + index + length) next (chars.drop (index + length))).result.map
        (items ++ ·)) :
    Reads base chars index progress (progress.pass limit index items length next) := by
  rw [Progress.pass, plus_eq fits, ok_bind]
  refine .next (by omega) trivial ?_
  rw [itemsFrom, itemsFrom, isRead, ← Nat.add_assoc]
  cases (Scanner.read (base + index + length) next (chars.drop (index + length))).result with
  | error fault => rfl
  | ok others => simp [Except.map]

theorem reads_item {item : Item} (fits : index + length ≤ limit)
    (starts : Scanner.head (base + index) progress.fresh (chars.drop index) =
      .item item length next) :
    Reads base chars index progress (progress.pass limit index [item] length next) := by
  have shorter := Scanner.length_lt_of_head_item starts
  rw [List.length_drop] at shorter
  refine reads_pass (by omega) fits ?_
  rw [Scanner.read_of_item starts, Scanner.Logged.result_bind, List.drop_drop]
  rfl

/-! ### Stars -/

theorem reads_globstar (fits : base + chars.length + 2 ≤ limit) (within : index < chars.length)
    (isText : chars.drop index = '*' :: '*' :: rest) :
    Reads base chars index progress (globstarRound limit base index rest.head? progress) := by
  have length := length_of_drop (Nat.le_of_lt within) isText
  rw [List.length_cons, List.length_cons] at length
  rw [globstarRound, plus_eq (by omega), ok_bind]
  rcases rest with _ | ⟨follower, later⟩
  · cases isFresh : progress.fresh with
    | false => exact reads_fault (by rw [isText, isFresh]; rfl)
    | true => exact reads_item (by omega) (by rw [isText, isFresh]; rfl)
  · rw [List.length_cons] at length
    by_cases isSeparator : follower = '/'
    case pos =>
      subst isSeparator
      cases isFresh : progress.fresh with
      | false => exact reads_fault (by rw [isText, isFresh]; rfl)
      | true => exact reads_item (by omega) (by rw [isText, isFresh]; rfl)
    case neg =>
      rw [if_pos (.inr (by simpa using isSeparator))]
      refine reads_fault ?_
      rw [isText, Scanner.head]
      all_goals simp_all

theorem reads_star (fits : base + chars.length + 2 ≤ limit) (within : index < chars.length)
    (isText : chars.drop index = '*' :: rest) :
    Reads base chars index progress (readRound limit base chars call index progress) := by
  have length := length_of_drop (Nat.le_of_lt within) isText
  rw [List.length_cons] at length
  rw [readRound, charAt_of_drop isText, ok_bind, if_pos rfl, plus_eq (by omega), ok_bind,
    getElem?_of_drop isText 1]
  rcases rest with _ | ⟨second, later⟩
  · rw [if_neg (by simp)]
    exact reads_item (by omega) (by rw [isText]; rfl)
  · by_cases isDouble : second = '*'
    case pos =>
      subst isDouble
      have follower : ('*' :: '*' :: later)[2]? = later.head? := List.head?_eq_getElem?.symm
      rw [if_pos (by simp), plus_eq (by omega), ok_bind, getElem?_of_drop isText 2, follower]
      exact reads_globstar fits within isText
    case neg =>
      rw [if_neg (by simpa using isDouble)]
      refine reads_item (by omega) ?_
      rw [isText, Scanner.head]
      all_goals simp_all

/-! ### Classes -/

theorem length_le_of_class {offset : Nat} {charClass : CharClass}
    (isRead : CharClass.read offset ('[' :: rest) = .ok (charClass, length)) :
    length ≤ rest.length + 1 := by
  rw [CharClass.read_eq] at isRead
  cases closes : CharClass.bodyLength? rest with
  | none =>
      rw [closes] at isRead
      cases isRead
  | some body =>
      rcases CharClass.classBody_of_bodyLength? closes with ⟨inner, after, rfl, rfl, -⟩
      rw [closes] at isRead
      dsimp only at isRead
      split at isRead
      case isTrue => cases isRead
      case isFalse =>
        have sameLength := (Prod.mk.inj (Except.ok.inj isRead)).2
        simp only [List.length_append, List.length_cons]
        omega

theorem reads_class (fits : base + chars.length + 2 ≤ limit) (within : index < chars.length)
    (isText : chars.drop index = '[' :: rest) :
    Reads base chars index progress (readRound limit base chars call index progress) := by
  have length := length_of_drop (Nat.le_of_lt within) isText
  rw [readRound, charAt_of_drop isText, ok_bind, if_neg (by decide), if_neg (by decide),
    if_neg (by decide), if_neg (by decide), if_pos rfl,
    slice_eq (Nat.le_of_lt within) (Nat.le_refl _), ok_bind, List.take_length, isText,
    plus_eq (by omega), ok_bind, readClass_eq (by omega), ok_bind]
  have starts : Scanner.head (base + index) progress.fresh (chars.drop index) = _ :=
    congrArg _ isText
  rw [Scanner.head] at starts
  cases isRead : CharClass.read (base + index) ('[' :: rest) with
  | error fault =>
      rw [isRead] at starts
      exact reads_fault starts
  | ok reading =>
      rcases reading with ⟨charClass, classLength⟩
      have bounded := length_le_of_class isRead
      rw [isRead] at starts
      rw [List.length_cons] at length
      exact reads_item (by omega) starts

/-! ### Braces -/

theorem length_lt_of_lengthFrom {depth taken : Nat} {text : Text}
    (found : Scanner.lengthFrom depth taken text = some length) : length < text.length := by
  induction text generalizing depth taken length with
  | nil => cases found
  | cons c rest ih =>
      have later {depth taken : Nat}
          (found : (Scanner.lengthFrom depth taken rest).map (· + 1) = some length) :
          length < (c :: rest).length := by
        rcases Option.map_eq_some_iff.mp found with ⟨inner, innerFound, rfl⟩
        exact Nat.succ_lt_succ (ih innerFound)
      unfold Scanner.lengthFrom at found
      cases taken with
      | succ more => exact later found
      | zero =>
          dsimp only at found
          split_ifs at found
          · exact later found
          · cases found
            exact Nat.succ_pos _
          · exact later found
          · exact later found

/-- The calls for slices that are shorter than a text do not trap, and read them. -/
def CallsShorter (limit : Nat) (chars : Text) (call : Reader) : Prop :=
  ∀ slice : Scanner.Slice, slice.chars.length < chars.length →
    slice.base + slice.chars.length + 2 ≤ limit →
      call slice = .ok (Scanner.read slice.base slice.fresh slice.chars).result

theorem place_le_of_mem_slicesOf {fresh : Bool} {content : Text} {slice : Scanner.Slice}
    (member : slice ∈ Scanner.slicesOf base fresh content) :
    slice.base + slice.chars.length ≤ base + content.length := by
  rw [slicesOf_eq] at member
  split at member
  case isTrue =>
    obtain rfl := List.mem_singleton.mp member
    exact Nat.le_refl _
  case isFalse =>
    rcases List.mem_map.mp member with ⟨option, optionMember, rfl⟩
    have := place_le_of_mem_optionsFrom option optionMember
    dsimp only [sliceAt]
    omega

theorem reads_brace (fits : base + chars.length + 2 ≤ limit) (within : index < chars.length)
    (calls : CallsShorter limit chars call) (isText : chars.drop index = '{' :: rest) :
    Reads base chars index progress (readRound limit base chars call index progress) := by
  have length := length_of_drop (Nat.le_of_lt within) isText
  have isRest : chars.drop (index + 1) = rest := drop_of_drop isText 1
  rw [List.length_cons] at length
  rw [readRound, charAt_of_drop isText, ok_bind, if_neg (by decide), if_neg (by decide),
    if_neg (by decide), if_neg (by decide), if_neg (by decide), if_pos rfl,
    plus_eq (by omega), ok_bind, closingBrace_eq (by omega) within isText, ok_bind,
    Scanner.closingBrace?, isRest]
  have starts : Scanner.head (base + index) progress.fresh (chars.drop index) = _ :=
    congrArg _ isText
  rw [Scanner.head] at starts
  cases closes : Scanner.contentLength? rest with
  | none =>
      rw [closes] at starts
      exact reads_fault starts
  | some inner =>
      have bounded : inner < rest.length := length_lt_of_lengthFrom closes
      have isLength : (rest.take inner).length = inner := List.length_take_of_le (by omega)
      have isContent : (chars.take (index + 1 + inner)).drop (index + 1) = rest.take inner := by
        rw [List.drop_take, isRest, Nat.add_sub_cancel_left]
      have callsSlices : CallsRead call
          (Scanner.slicesOf (base + index + 1) progress.fresh (rest.take inner)) := by
        intro slice member
        have shorter := Scanner.length_le_of_mem_slicesOf member
        have placed := place_le_of_mem_slicesOf member
        exact calls slice (by omega) (by omega)
      rw [closes] at starts
      dsimp only [Option.map_some] at starts ⊢
      rw [plus_eq (by omega), ok_bind, slice_eq (by omega) (by omega), ok_bind, isContent,
        plus_eq (by omega), ok_bind, readBrace_eq (by omega) callsSlices, ok_bind]
      have reading := Scanner.read_of_brace starts
      rw [← readingsOf] at reading
      cases isBrace : (Scanner.ofBrace (rest.take inner) (readingsOf
        (Scanner.slicesOf (base + index + 1) progress.fresh (rest.take inner)))).result with
      | error fault =>
          refine reads_fail ?_
          rw [reading, Scanner.Logged.result_bind, isBrace]
          rfl
      | ok items =>
          have isDistance : index + 1 + inner - index = inner + 1 := by omega
          dsimp only
          rw [minus_eq (by omega), ok_bind, isDistance, plus_eq (by omega), ok_bind]
          refine reads_pass (by omega) (by omega) ?_
          rw [reading, Scanner.Logged.result_bind, isBrace, isLength, List.drop_drop,
            show base + index + inner + 2 = base + index + (inner + 1 + 1) by omega]
          change (Scanner.Logged.result (_ >>= _)) = _
          rw [Scanner.Logged.result_bind]
          rfl

/-! ### Texts -/

theorem reads_escape (fits : base + chars.length + 2 ≤ limit) (within : index < chars.length)
    (isText : chars.drop index = '\\' :: rest) :
    Reads base chars index progress (readRound limit base chars call index progress) := by
  rw [readRound, charAt_of_drop isText, ok_bind, if_neg (by decide), if_neg (by decide),
    if_neg (by decide), if_pos rfl, plus_eq (by omega), ok_bind, getElem?_of_drop isText 1]
  cases rest with
  | nil => exact reads_fault (by rw [isText]; rfl)
  | cons escaped later => exact reads_item (by omega) (by rw [isText]; rfl)

/-- A round of the reader reads what the text goes on with. -/
theorem reads_readRound (fits : base + chars.length + 2 ≤ limit) (within : index < chars.length)
    (calls : CallsShorter limit chars call) (progress : Progress) :
    Reads base chars index progress (readRound limit base chars call index progress) := by
  rcases exists_drop_eq_cons within with ⟨c, rest, isText⟩
  by_cases isStar : c = '*'
  · exact reads_star fits within (isStar ▸ isText)
  by_cases isBracket : c = '['
  · exact reads_class fits within (isBracket ▸ isText)
  by_cases isOpening : c = '{'
  · exact reads_brace fits within calls (isOpening ▸ isText)
  by_cases isEscape : c = '\\'
  · exact reads_escape fits within (isEscape ▸ isText)
  rw [readRound, charAt_of_drop isText, ok_bind, if_neg isStar]
  by_cases isAny : c = '?'
  · rw [if_pos isAny]
    exact reads_item (by omega) (by rw [isText, isAny]; rfl)
  rw [if_neg isAny]
  by_cases isSeparator : c = '/'
  · rw [if_pos isSeparator]
    exact reads_item (by omega) (by rw [isText, isSeparator]; rfl)
  rw [if_neg isSeparator, if_neg isEscape, if_neg isBracket, if_neg isOpening]
  refine reads_item (by omega) ?_
  rw [isText, Scanner.head]
  all_goals simp_all

/-- Reading a text by its indexes does not trap, and reads what the text says. -/
theorem read_eq (base : Nat) (fresh : Bool) (chars : Text)
    (fits : base + chars.length + 2 ≤ limit) :
    read limit base fresh chars = .ok (Scanner.read base fresh chars).result := by
  induction base, fresh, chars using read.induct with
  | _ base fresh chars ih =>
      have calls : CallsShorter limit chars fun slice =>
          if _shorter : slice.chars.length < chars.length then
            read limit slice.base slice.fresh slice.chars
          else .error .notShorter := by
        intro slice shorter slicefits
        dsimp only
        rw [dif_pos shorter]
        exact ih slice shorter slicefits
      have found : itemsFrom base chars 0 ⟨fresh, []⟩ = (Scanner.read base fresh chars).result := by
        rw [itemsFrom]
        change (Scanner.read base fresh chars).result.map _ = _
        cases (Scanner.read base fresh chars).result <;> rfl
      rw [read, ← found]
      refine loop_eq (itemsFrom base chars)
        (fun index progress within _ => reads_readRound fits within calls progress)
        (fun index progress beyond _ => ?_) trivial
      rw [itemsFrom, List.drop_of_length_le beyond, Scanner.read_of_done rfl]
      simp [Except.map]

end Patterns

theorem readPattern_eq (source : Text) {limit : Nat} (fits : source.length + 2 ≤ limit) :
    readPattern limit source = .ok (Pattern.itemsOf source) := by
  rw [← (Scanner.scanners_agree.2 source).1]
  by_cases anchored : source.head? = some '/'
  case pos =>
    rcases List.head?_eq_some_iff.mp anchored with ⟨body, rfl⟩
    rw [List.length_cons] at fits
    exact read_eq 1 true body (by omega)
  case neg =>
    rw [Pattern.readPattern_of_notAnchored anchored, readPattern]
    · exact read_eq 0 true source (by omega)
    · rintro body rfl
      exact anchored rfl

/-- Reading a pattern never traps, whatever the text, as long as the type of its indexes holds two
more than the length of the text: every character and every slice that is asked for is there, no
brace is closed without being open, every round of a loop gets ahead, and every call is for a
shorter slice. Putting together the expression of an interval never traps either, up to the bounds
of 64 bits: no negation, no power of ten and no step of a digit leaves its type. -/
theorem never_traps :
    (∀ (source : Text) (limit : Nat), source.length + 2 ≤ limit →
      readPattern limit source = .ok (Pattern.itemsOf source)) ∧
    ∀ interval : Interval, interval.expressionSteps = .ok interval.expression :=
  ⟨fun source _ fits => readPattern_eq source fits, Interval.expressionSteps_eq⟩

/-- A pattern with a class, a range and an escaped brace in the options of a brace. -/
def rangeInOption : Text := ['{', '[', 'a', ']', ',', '{', '1', '.', '.', '9', '}', '\\', '}', '}']

theorem never_traps_rangeInOption :
    rangeInOption.length + 2 ≤ 2 ^ 64 - 1 ∧
      readPattern (2 ^ 64 - 1) rangeInOption = .ok (.ok [.choice
        [[.oneOf ⟨false, [.single 'a']⟩],
          [.numerals ⟨1, 9, by decide, by decide⟩, .char '}']]]) ∧
      Interval.expressionSteps ⟨-9223372036854775807, 9223372036854775807, by decide, by decide⟩ =
        .ok (Interval.expression
          ⟨-9223372036854775807, 9223372036854775807, by decide, by decide⟩) := by
  have fits : rangeInOption.length + 2 ≤ 2 ^ 64 - 1 := by decide
  refine ⟨fits, ?_, never_traps.2 _⟩
  rw [never_traps.1 rangeInOption (2 ^ 64 - 1) fits]
  rfl

end Indexed

end Glob

end PropertyCascade
