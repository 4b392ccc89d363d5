import PropertyCascade.Proofs.Glob.Pieces

/-!
# Offsets of faults

The offset of a fault is put together from the offsets of slices within slices, and it is to point
into the pattern as written. Every fault with an offset is found at the head of some tokens, and the
offset is where they stand. These tokens may be those of a slice, which ends before the pattern
does, so a class or a brace that is not closed there could be closed further on. A class is not,
since the tokens of a slice are tokens of the pattern; and a brace that is never closed is found
only where nothing follows.

A separator in front of a pattern moves all offsets by one and changes nothing else.
-/

namespace PropertyCascade

namespace Glob

namespace Fault

/-- What stands in a pattern as written at the offset of a fault. A class or a brace that is never
closed is not closed in the whole pattern. -/
def PointsInto (source : Text) : Fault → Prop
  | unterminatedClass offset =>
      source[offset]? = some '[' ∧ CharClass.closingIndex? source offset = none
  | emptyClass offset =>
      ['[', ']'] <+: source.drop offset ∨ ['[', '!', ']'] <+: source.drop offset
  | unterminatedBrace offset =>
      source[offset]? = some '{' ∧ Scanner.closingBrace? source offset = none
  | misplacedGlobstar offset => source[offset]? = some '*' ∧ source[offset + 1]? = some '*'
  | trailingEscape | invalidRange _ _ | reversedSpan | tooDeep => True

theorem PointsInto.offset_lt {source : Text} {fault : Fault} {offset : Nat}
    (points : fault.PointsInto source) (hasOffset : fault.offset? = some offset) :
    offset < source.length := by
  have of_getElem? {c : Char} (found : source[offset]? = some c) : offset < source.length :=
    (List.getElem?_eq_some_iff.mp found).1
  have of_prefix {c : Char} {others : Text} (starts : c :: others <+: source.drop offset) :
      offset < source.length := by
    have := starts.length_le
    rw [List.length_cons, List.length_drop] at this
    omega
  cases fault with
  | unterminatedClass => cases hasOffset; exact of_getElem? points.1
  | emptyClass => cases hasOffset; exact points.elim of_prefix of_prefix
  | unterminatedBrace => cases hasOffset; exact of_getElem? points.1
  | misplacedGlobstar => cases hasOffset; exact of_getElem? points.1
  | trailingEscape | invalidRange | reversedSpan | tooDeep => cases hasOffset

/-- The same fault, so many characters further on. -/
def movedBy (distance : Nat) : Fault → Fault
  | unterminatedClass offset => unterminatedClass (offset + distance)
  | emptyClass offset => emptyClass (offset + distance)
  | unterminatedBrace offset => unterminatedBrace (offset + distance)
  | misplacedGlobstar offset => misplacedGlobstar (offset + distance)
  | fault => fault

end Fault

namespace Scanner

open Token (textOf)

/-! ## Where faults are found -/

/-- A fault that is found at the head of some of the tokens. One of the end of the text is found
where nothing follows. -/
def FoundIn (fault : Fault) (base : Nat) (tokens : List Token) : Prop :=
  ∃ before part after fresh, tokens = before ++ part ++ after ∧
    head (base + (textOf before).length) fresh (textOf part) = .fault fault ∧
    (IsAtEnd fault → after = [])

theorem FoundIn.within {fault : Fault} {inner base : Nat} {tokens front back : List Token}
    (found : FoundIn fault inner tokens) (stands : inner = base + (textOf front).length)
    (last : IsAtEnd fault → back = []) : FoundIn fault base (front ++ tokens ++ back) := by
  rcases found with ⟨before, part, after, fresh, rfl, starts, lastInner⟩
  refine ⟨front ++ before, part, after ++ back, fresh, by simp, ?_, ?_⟩
  · rw [Token.textOf_append, List.length_append, ← Nat.add_assoc, ← stands, starts]
  · intro atEnd
    rw [lastInner atEnd, last atEnd, List.append_nil]

theorem foundIn_of_read {base : Nat} {fresh : Bool} {chars : Text} {fault : Fault} {offset : Nat}
    (failed : (read base fresh chars).result = .error fault)
    (hasOffset : fault.offset? = some offset) :
    FoundIn fault base (Token.ofText base chars) := by
  induction base, fresh, chars using read.induct with
  | case1 base fresh chars starts =>
      rw [read_of_done starts] at failed
      cases failed
  | case2 base fresh chars cause starts =>
      rw [read_of_fault starts] at failed
      cases failed
      exact ⟨[], Token.ofText base chars, [], fresh, by simp, by simpa using starts, fun _ => rfl⟩
  | case3 base fresh chars item length next starts ih =>
      rcases (explains_of_head starts).1 with ⟨front, tokens, isLength⟩
      rw [read_of_item starts, Logged.result_bind, Logged.bind_eq_error] at failed
      rcases failed with failed | ⟨items, _, failed⟩
      · rw [tokens, ← List.append_nil (front ++ _)]
        exact (ih failed).within (by rw [isLength]) fun _ => rfl
      · cases failed
  | case4 base fresh chars content starts ihSlices ih =>
      rw [read_of_brace starts, Logged.result_bind, Logged.bind_eq_error, result_ofBrace,
        Logged.bind_eq_error] at failed
      rcases failed with (failed | ⟨interval?, _, failed⟩) | ⟨here, _, failed⟩
      · rcases exists_invalidRange_of_interval failed with ⟨first, last, rfl⟩
        cases hasOffset
      · cases interval? with
        | some interval => cases failed
        | none =>
            rcases Logged.bind_eq_error.mp failed with failed | ⟨choices, _, failed⟩
            · rcases Logged.exists_of_all_eq_error failed with ⟨reading, member, isError⟩
              rcases List.mem_map.mp member with ⟨slice, isSlice, rfl⟩
              have cut := cutFrom_of_mem_slicesOf starts isSlice
              have notAtEnd := not_isAtEnd_of_isClosed cut.isClosed isError
              have found := ihSlices ⟨slice, isSlice⟩ isError
              rcases cut with ⟨before, part, after, _, tokens, _, _, isBase, isChars⟩
              rw [isChars, isBase, Token.ofText_slice tokens] at found
              rw [tokens]
              exact found.within rfl fun atEnd => absurd atEnd notAtEnd
            · cases failed
      · rw [Logged.result_bind, Logged.bind_eq_error] at failed
        rcases failed with failed | ⟨items, _, failed⟩
        · rcases exists_append_of_brace starts with ⟨front, tokens, isLength⟩
          rw [tokens, ← List.append_nil (front ++ _)]
          exact (ih failed).within (by rw [isLength, Nat.add_assoc]) fun _ => rfl
        · cases failed

/-! ## What stands there -/

section Place

variable {before rest more : Text}

theorem getElem?_length_append (before : Text) (c : Char) (rest : Text) :
    (before ++ c :: rest)[before.length]? = some c := by
  simp

theorem drop_length_append_succ (before : Text) (c : Char) (rest : Text) :
    (before ++ c :: rest).drop (before.length + 1) = rest := by
  rw [List.drop_length_add_append, List.drop_one, List.tail_cons]

theorem pointsInto_misplacedGlobstar (before rest : Text) :
    (Fault.misplacedGlobstar before.length).PointsInto (before ++ '*' :: '*' :: rest) := by
  refine ⟨getElem?_length_append .., ?_⟩
  rw [← List.getElem?_drop, List.drop_left]
  rfl

/-- The fault of a class in a slice is one of the class in the pattern: where the bracket is a token
of its own, it is never closed. -/
theorem pointsInto_of_class {fault : Fault} {later : List Token}
    (failed : CharClass.read before.length ('[' :: rest) = .error fault)
    (tokens : Token.ofText before.length ('[' :: rest ++ more) =
      Token.ofText before.length ('[' :: rest) ++ later) :
    fault.PointsInto (before ++ '[' :: rest ++ more) := by
  rw [CharClass.read_eq] at failed
  rw [List.append_assoc, List.cons_append]
  cases closes : CharClass.bodyLength? rest with
  | none =>
      rw [closes] at failed
      cases failed
      refine ⟨getElem?_length_append .., ?_⟩
      rw [List.cons_append, Token.ofText_cons, Token.ofText_cons, List.cons_append] at tokens
      have sameFirst := (List.cons.inj tokens).1
      rw [CharClass.closingIndex?, drop_length_append_succ]
      cases closesLater : CharClass.bodyLength? (rest ++ more) with
      | none => rfl
      | some length => simp [Token.first, closes, closesLater] at sameFirst
  | some length =>
      rw [closes] at failed
      dsimp only at failed
      split at failed
      case isTrue noMembers =>
        cases failed
        rw [Fault.PointsInto, List.drop_left]
        rcases CharClass.classBody_of_bodyLength? closes with ⟨body, after, rfl, rfl, -⟩
        rw [List.take_left] at noMembers
        unfold CharClass.ofBody at noMembers
        split at noMembers
        case h_1 listed =>
          obtain rfl := CharClass.membersOf_eq_nil_iff.mp noMembers
          exact .inr ⟨after ++ more, rfl⟩
        case h_2 =>
          obtain rfl := CharClass.membersOf_eq_nil_iff.mp noMembers
          exact .inl ⟨after ++ more, rfl⟩
      case isFalse => cases failed

theorem pointsInto_of_head {chars : Text} {fresh : Bool} {fault : Fault} {later : List Token}
    (starts : head before.length fresh chars = .fault fault)
    (tokens : Token.ofText before.length (chars ++ more) =
      Token.ofText before.length chars ++ later)
    (last : IsAtEnd fault → more = []) : fault.PointsInto (before ++ chars ++ more) := by
  unfold head at starts
  split at starts
  case h_2 =>
    split at starts <;> cases starts
    simpa using pointsInto_misplacedGlobstar before _
  case h_3 =>
    split at starts <;> cases starts
    simpa using pointsInto_misplacedGlobstar before _
  case h_4 =>
    cases starts
    simpa using pointsInto_misplacedGlobstar before _
  case h_8 =>
    cases starts
    exact trivial
  case h_10 rest =>
    split at starts
    case h_1 => cases starts
    case h_2 cause failed =>
      cases starts
      exact pointsInto_of_class failed tokens
  case h_11 rest =>
    split at starts
    case h_1 => cases starts
    case h_2 unclosed =>
      cases starts
      obtain rfl := last (.inr ⟨_, rfl⟩)
      rw [List.append_nil]
      refine ⟨getElem?_length_append .., ?_⟩
      rw [closingBrace?, drop_length_append_succ, unclosed]
      rfl
  all_goals cases starts

end Place

theorem FoundIn.pointsInto {fault : Fault} {front body : Text}
    (found : FoundIn fault front.length (Token.ofText front.length body)) :
    fault.PointsInto (front ++ body) := by
  rcases found with ⟨before, part, after, fresh, tokens, starts, last⟩
  have isPart := Token.ofText_slice tokens
  have isSuffix := tokens
  rw [List.append_assoc] at isSuffix
  have isRest := Token.ofText_suffix isSuffix
  have whole := congrArg textOf tokens
  rw [Token.textOf_ofText, Token.textOf_append, Token.textOf_append] at whole
  have stands : front.length + (textOf before).length = (front ++ textOf before).length := by
    rw [List.length_append]
  rw [stands] at starts isPart isRest
  have sameTokens : Token.ofText (front ++ textOf before).length (textOf part ++ textOf after) =
      Token.ofText (front ++ textOf before).length (textOf part) ++ after := by
    rw [isPart, ← Token.textOf_append, isRest]
  rw [whole, ← List.append_assoc, ← List.append_assoc]
  exact pointsInto_of_head starts sameTokens fun atEnd => by rw [last atEnd, Token.textOf_nil]

/-! ## Moved patterns -/

section Moved

variable (distance : Nat)

/-- The same head, so many characters further on. -/
def Head.movedBy : Head → Head
  | .fault cause => .fault (cause.movedBy distance)
  | start => start

/-- The same slice, so many characters further on. -/
def Slice.movedBy (slice : Slice) : Slice :=
  { slice with base := slice.base + distance }

theorem class_read_add (offset : Nat) (text : Text) :
    CharClass.read (offset + distance) text =
      (CharClass.read offset text).mapError (Fault.movedBy distance) := by
  have general (negated : Bool) (members : Option (List ClassMember × Nat)) :
      CharClass.ofMembers (offset + distance) negated members =
        (CharClass.ofMembers offset negated members).mapError (Fault.movedBy distance) := by
    unfold CharClass.ofMembers
    split <;> rfl
  unfold CharClass.read
  split <;> exact general ..

theorem head_add (base : Nat) (fresh : Bool) (chars : Text) :
    head (base + distance) fresh chars = (head base fresh chars).movedBy distance := by
  unfold head
  split
  case h_2 => cases fresh <;> rfl
  case h_3 => cases fresh <;> rfl
  case h_10 rest =>
    rw [class_read_add]
    cases CharClass.read base ('[' :: rest) <;> rfl
  case h_11 rest => cases contentLength? rest <;> rfl
  all_goals rfl

theorem extend_add (offset : Nat) (c : Char) (options : List (Nat × Text)) :
    extend (offset + distance) c (options.map fun (start, text) => (start + distance, text)) =
      (extend offset c options).map fun (start, text) => (start + distance, text) := by
  cases options <;> rfl

theorem optionsFrom_add (depth taken offset : Nat) (text : Text) :
    optionsFrom depth taken (offset + distance) text =
      (optionsFrom depth taken offset text).map fun (start, text) => (start + distance, text) := by
  induction text generalizing depth taken offset with
  | nil => rfl
  | cons c rest ih =>
      have next : offset + distance + 1 = offset + 1 + distance := Nat.add_right_comm ..
      unfold optionsFrom
      rw [next]
      cases taken with
      | succ more =>
          dsimp only
          rw [ih, extend_add]
      | zero =>
          dsimp only
          split_ifs
          · rw [ih, extend_add]
          · rw [ih, extend_add]
          · rw [ih]
            rfl
          · rw [ih, extend_add]

theorem slicesOf_add (base : Nat) (fresh : Bool) (content : Text) :
    slicesOf (base + distance) fresh content =
      (slicesOf base fresh content).map (Slice.movedBy distance) := by
  simp only [slicesOf, optionsFrom_add, List.length_map]
  split
  · rfl
  · simp [Slice.movedBy, Function.comp_def]

variable {distance}

theorem mapError_bind {Value Result : Type} (change : Fault → Fault) (first : Except Fault Value)
    (next : Value → Except Fault Result) :
    (first >>= next).mapError change =
      first.mapError change >>= fun value => (next value).mapError change := by
  cases first <;> rfl

theorem result_all_moved (reading : Slice → Logged (List Item)) (change : Slice → Slice)
    {slices : List Slice} (each : ∀ slice ∈ slices, (reading (change slice)).result =
      (reading slice).result.mapError (Fault.movedBy distance)) :
    (Logged.all ((slices.map change).map reading)).result =
      (Logged.all (slices.map reading)).result.mapError (Fault.movedBy distance) := by
  induction slices with
  | nil => rfl
  | cons slice slices ih =>
      rcases List.forall_mem_cons.mp each with ⟨first, others⟩
      simp only [List.map_cons, Logged.all, Logged.result_bind, mapError_bind, first, ih others]
      rfl

theorem interval_read_mapError (text : Text) :
    (Interval.read text).mapError (Fault.movedBy distance) = Interval.read text := by
  cases isRead : Interval.read text with
  | ok interval? => rfl
  | error fault =>
      rcases exists_invalidRange_of_interval isRead with ⟨first, last, rfl⟩
      rfl

variable (distance)

/-- What is read does not depend on where it stands, except for the offsets of faults. -/
theorem result_read_add (base : Nat) (fresh : Bool) (chars : Text) :
    (read (base + distance) fresh chars).result =
      (read base fresh chars).result.mapError (Fault.movedBy distance) := by
  induction base, fresh, chars using read.induct with
  | case1 base fresh chars starts =>
      have moved := head_add distance base fresh chars
      rw [starts] at moved
      rw [read_of_done starts, read_of_done moved]
      rfl
  | case2 base fresh chars fault starts =>
      have moved := head_add distance base fresh chars
      rw [starts] at moved
      rw [read_of_fault starts, read_of_fault moved]
      rfl
  | case3 base fresh chars item length next starts ih =>
      have moved := head_add distance base fresh chars
      rw [starts] at moved
      rw [read_of_item starts, read_of_item moved, Logged.result_bind, Logged.result_bind,
        mapError_bind, Nat.add_right_comm, ih]
      rfl
  | case4 base fresh chars content starts ihSlices ih =>
      have moved := head_add distance base fresh chars
      rw [starts] at moved
      have readings := result_all_moved
        (fun slice => .call slice (read slice.base slice.fresh slice.chars))
        (Slice.movedBy distance) fun slice member => ihSlices ⟨slice, member⟩
      have behind : base + distance + content.length + 2 =
          base + content.length + 2 + distance := by
        omega
      rw [read_of_brace starts, read_of_brace moved, Nat.add_right_comm, slicesOf_add, behind]
      simp only [Logged.result_bind, result_ofBrace, mapError_bind, interval_read_mapError, ih,
        readings]
      congr 1
      congr 1
      funext interval?
      cases interval? with
      | some interval => rfl
      | none => rw [mapError_bind]; rfl

end Moved

end Scanner

namespace Pattern

open Scanner

theorem readPattern_of_notAnchored {source : Text} (notAnchored : source.head? ≠ some '/') :
    readPattern source = read 0 true source := by
  rw [readPattern]
  rintro body rfl
  exact notAnchored rfl

theorem itemsOf_anchored {source : Text} (notAnchored : source.head? ≠ some '/') :
    itemsOf ('/' :: source) = (itemsOf source).mapError (Fault.movedBy 1) := by
  have reading := (scanners_agree.2 source).1
  have anchored := (scanners_agree.2 ('/' :: source)).1
  rw [← reading, ← anchored, readPattern_of_notAnchored notAnchored]
  exact result_read_add 1 0 true source

/-- With a separator in front, the same is read and matched, and the faults are further on. -/
theorem compile_anchored {source : Text} (notAnchored : source.head? ≠ some '/') :
    compile ('/' :: source) =
      ((compile source).mapError (Fault.movedBy 1)).map fun pattern =>
        ⟨'/' :: source, targetOf ('/' :: source), pattern.items⟩ := by
  rw [compile, compile, itemsOf_anchored notAnchored]
  cases itemsOf source with
  | error fault => rfl
  | ok items =>
      change (if _ then _ else if _ then _ else _) =
        ((if _ then _ else if _ then _ else _ : Except Fault Pattern).mapError _).map _
      split_ifs <;> rfl

theorem pointsInto_of_itemsOf {source : Text} {fault : Fault}
    (failed : itemsOf source = .error fault) : fault.PointsInto source := by
  cases hasOffset : fault.offset? with
  | some offset =>
      rcases exists_readPattern source with ⟨front, body, rfl, isReading, -⟩
      rw [← (scanners_agree.2 _).1, isReading] at failed
      exact (foundIn_of_read failed hasOffset).pointsInto
  | none =>
      cases fault with
      | unterminatedClass | emptyClass | unterminatedBrace | misplacedGlobstar => cases hasOffset
      | trailingEscape | invalidRange | reversedSpan | tooDeep => exact trivial

theorem pointsInto_of_compile {source : Text} {fault : Fault}
    (failed : compile source = .error fault) : fault.PointsInto source := by
  rw [compile, Logged.bind_eq_error] at failed
  rcases failed with failed | ⟨items, -, failed⟩
  · exact pointsInto_of_itemsOf failed
  · split at failed
    case isTrue =>
      cases failed
      exact trivial
    case isFalse =>
      split at failed
      all_goals cases failed
      exact trivial

/-- The offset of a fault is an index of the pattern as written, and what the fault is about stands
there, at whatever depth of braces it was found. A separator in front of a pattern moves the offset
by one, and changes neither which fault is found nor what is matched. -/
theorem faults_located :
    (∀ (source : Text) (fault : Fault), compile source = .error fault →
      fault.PointsInto source ∧
        ∀ offset, fault.offset? = some offset → offset < source.length) ∧
    ∀ source : Text, source.head? ≠ some '/' →
      (∀ fault, compile ('/' :: source) = .error fault ↔
        ∃ cause, compile source = .error cause ∧ fault = cause.movedBy 1) ∧
      ∀ pattern, compile source = .ok pattern →
        ∃ anchored, compile ('/' :: source) = .ok anchored ∧
          ∀ candidate, anchored.isMatch candidate = pattern.isMatch candidate := by
  refine ⟨fun source fault failed => ?_, fun source notAnchored => ⟨fun fault => ?_, ?_⟩⟩
  · have points := pointsInto_of_compile failed
    exact ⟨points, fun offset hasOffset => points.offset_lt hasOffset⟩
  · rw [compile_anchored notAnchored]
    cases compile source with
    | ok pattern => simp [Except.mapError, Except.map]
    | error cause => simp [Except.mapError, Except.map, eq_comm]
  · intro pattern compiled
    rw [compile_anchored notAnchored, compiled]
    exact ⟨_, rfl, fun candidate => rfl⟩

/-- A pattern with a class that is never closed, in an option of an option. -/
def unterminatedInOption : Text := ['{', 'a', ',', '{', 'b', ',', '[', 'c', '}', '}']

theorem faults_located_unterminatedInOption :
    (compile unterminatedInOption = .error (.unterminatedClass 6) ∧
      compile ('/' :: unterminatedInOption) = .error (.unterminatedClass 7) ∧
      unterminatedInOption[6]? = some '[' ∧
      CharClass.closingIndex? unterminatedInOption 6 = none ∧ 6 < unterminatedInOption.length) ∧
    ∃ anchored, compile ['/', 'a', '?'] = .ok anchored ∧
      anchored.isMatch ['a', 'b'] = true ∧ anchored.isMatch ['/', 'a', 'b'] = false := by
  constructor
  · have failed : compile unterminatedInOption = .error (.unterminatedClass 6) := by rfl
    rcases faults_located.1 unterminatedInOption _ failed with ⟨⟨isBracket, unclosed⟩, bounded⟩
    have moved := (faults_located.2 unterminatedInOption (by decide)).1 (.unterminatedClass 7)
    exact ⟨failed, moved.mpr ⟨_, failed, rfl⟩, isBracket, unclosed, bounded 6 rfl⟩
  · have compiled : compile ['a', '?'] = .ok ⟨['a', '?'], .basename, [.char 'a', .anyChar]⟩ := by
      rfl
    rcases (faults_located.2 ['a', '?'] (by decide)).2 _ compiled with ⟨anchored, isAnchored, same⟩
    exact ⟨anchored, isAnchored, by rw [same]; decide, by rw [same]; decide⟩

end Pattern

end Glob

end PropertyCascade
