import PropertyCascade.Proofs.Glob.Indexing
import PropertyCascade.Proofs.Glob.Matching

/-!
# Scans by indexes

The loops that go through a text by its indexes find what the scans of a list of characters find,
and they do not trap. Where a loop stands, the rest of the text is the text behind the index, and
each round passes as many characters as the scan takes. Only behind a backslash at the end of the
text a loop gets further: it is then one character beyond the end, where nothing is left to find.

The indexes that are looked at are at most two more than the length of the text, so nothing
overflows if the type of the indexes holds these. That no brace is closed without being open is the
invariant of the search for a closing brace, and that an option starts before the index where it
ends is the invariant of the search for commas.
-/

namespace PropertyCascade

namespace Glob

namespace CharClass

/-- The last character of a span, given the text after its first one. A bracket ends no span. -/
def spanEnd : Text → Option Char
  | '-' :: last :: _ => if last = ']' then none else some last
  | _ => none

theorem closing?_escape (rest : Text) :
    closing? ('\\' :: rest) = (closing? (rest.drop 1)).map (· + 2) := by
  cases rest <;> simp [closing?]

theorem closing?_cons {c : Char} (notClosing : c ≠ ']') (notEscape : c ≠ '\\') (rest : Text) :
    closing? (c :: rest) =
      if (spanEnd rest).isSome then (closing? (rest.drop 2)).map (· + 3)
      else (closing? rest).map (· + 1) := by
  fun_cases spanEnd rest with
  | case1 later => simp_all [closing?]
  | case2 last later notLast => simp_all [closing?]
  | case3 _ noSpan =>
      rw [closing?]
      all_goals simp_all

theorem readMembers_escape (rest : Text) :
    readMembers ('\\' :: rest) =
      match rest with
      | [] => none
      | escaped :: later => (readMembers later).map fun (members, length) =>
          (.single escaped :: members, length + 2) := by
  cases rest <;> simp [readMembers]

theorem readMembers_cons {c : Char} (notClosing : c ≠ ']') (notEscape : c ≠ '\\') (rest : Text) :
    readMembers (c :: rest) =
      match spanEnd rest with
      | some last => (readMembers (rest.drop 2)).map fun (members, length) =>
          (.span c last :: members, length + 3)
      | none => (readMembers rest).map fun (members, length) =>
          (.single c :: members, length + 1) := by
  fun_cases spanEnd rest with
  | case1 later =>
      rw [readMembers]
      all_goals simp_all
  | case2 last later notLast =>
      rw [readMembers, if_neg notLast]
      all_goals simp_all
  | case3 _ noSpan =>
      rw [readMembers]
      all_goals simp_all

end CharClass

namespace Indexed

open Checked

section Classes

variable {limit index : Nat} {chars rest : Text} {c : Char}

theorem spanEnd?_eq (room : chars.length + 2 ≤ limit) (within : index < chars.length)
    (isText : chars.drop index = c :: rest) :
    spanEnd? limit chars index = .ok (CharClass.spanEnd rest) := by
  rw [spanEnd?, plus_eq (by omega), ok_bind, plus_eq (by omega), ok_bind,
    getElem?_of_drop isText 1, getElem?_of_drop isText 2]
  rcases rest with _ | ⟨first, _ | ⟨second, later⟩⟩
  · rfl
  · simp [CharClass.spanEnd]
  · unfold CharClass.spanEnd
    split <;> simp_all

/-- What is found so many characters further on. -/
theorem map_add_add (found : Option Nat) (index distance : Nat) :
    found.map (index + distance + ·) = (found.map (· + distance)).map (index + ·) := by
  rw [Option.map_map]
  congr 1
  funext length
  simp only [Function.comp_apply]
  omega

theorem advances_endRound (room : chars.length + 2 ≤ limit) (within : index < chars.length) :
    Advances (fun index _ => (CharClass.closing? (chars.drop index)).map (index + ·))
      (fun _ _ => True) index () (endRound limit chars index ()) := by
  rcases exists_drop_eq_cons within with ⟨c, rest, isText⟩
  rw [endRound, charAt_of_drop isText, ok_bind]
  by_cases isClosing : c = ']'
  case pos =>
    rw [if_pos isClosing]
    refine .done ?_
    rw [isText, isClosing]
    rfl
  case neg =>
    rw [if_neg isClosing]
    by_cases isEscape : c = '\\'
    case pos =>
      rw [if_pos isEscape, plus_eq (by omega), ok_bind]
      refine .next (by omega) trivial ?_
      rw [isText, drop_of_drop isText, isEscape, CharClass.closing?_escape, map_add_add]
      rfl
    case neg =>
      have closes := CharClass.closing?_cons isClosing isEscape rest
      rw [if_neg isEscape, spanEnd?_eq room within isText, ok_bind, plus_eq (by split <;> omega),
        ok_bind]
      refine .next (by split <;> omega) trivial ?_
      rw [isText, drop_of_drop isText, closes, map_add_add]
      cases CharClass.spanEnd rest <;> rfl

/-- The search for the end of a class finds the bracket that closes it. -/
theorem classEnd_eq (room : chars.length + 2 ≤ limit) (within : index < chars.length) :
    classEnd limit chars index = .ok (CharClass.closingIndex? chars index) := by
  have found (first : Nat) :
      loop chars.length (endRound limit chars) (fun _ => pure none) first () =
        .ok ((CharClass.closing? (chars.drop first)).map (first + ·)) := by
    refine loop_eq (fun index _ => (CharClass.closing? (chars.drop index)).map (index + ·))
      (fun index _ within _ => advances_endRound room within) (fun index _ beyond _ => ?_) trivial
    rw [List.drop_of_length_le beyond]
    rfl
  rw [classEnd, plus_eq (by omega), ok_bind, CharClass.closingIndex?]
  by_cases negated : chars[index + 1]? = some '!'
  case pos =>
    rw [if_pos negated, plus_eq (by omega), ok_bind]
    dsimp only
    rw [found]
    rw [← List.head?_drop] at negated
    rcases List.head?_eq_some_iff.mp negated with ⟨later, isText⟩
    rw [isText, drop_of_drop isText, CharClass.bodyLength?, map_add_add]
    rfl
  case neg =>
    rw [if_neg negated, pure_eq, ok_bind]
    dsimp only
    rw [found, CharClass.bodyLength?]
    intro later isText
    apply negated
    rw [← List.head?_drop, isText]
    rfl

/-! ### Reading a class -/

/-- The class of some members and those that are still to be read. -/
def classFrom (chars : Text) (offset : Nat) (negated : Bool) (index : Nat)
    (members : List ClassMember) : Except Fault (CharClass × Nat) :=
  match CharClass.readMembers (chars.drop index) with
  | none => .error (.unterminatedClass offset)
  | some (more, length) =>
      if members ++ more = [] then .error (.emptyClass offset)
      else .ok (⟨negated, members ++ more⟩, index + length + 1)

theorem classFrom_next {offset distance : Nat} {negated : Bool} {members : List ClassMember}
    {member : ClassMember}
    (reading : CharClass.readMembers (chars.drop index) =
      (CharClass.readMembers (chars.drop (index + distance))).map fun (more, length) =>
        (member :: more, length + distance)) :
    classFrom chars offset negated (index + distance) (members ++ [member]) =
      classFrom chars offset negated index members := by
  rw [classFrom, classFrom, reading]
  cases CharClass.readMembers (chars.drop (index + distance)) with
  | none => rfl
  | some found =>
      have sameIndex : index + distance + found.2 = index + (found.2 + distance) := by omega
      simp [sameIndex]

theorem advances_classRound (room : chars.length + 2 ≤ limit) (within : index < chars.length)
    (offset : Nat) (negated : Bool) (members : List ClassMember) :
    Advances (classFrom chars offset negated) (fun _ _ => True) index members
      (classRound limit chars offset negated index members) := by
  rcases exists_drop_eq_cons within with ⟨c, rest, isText⟩
  rw [classRound, charAt_of_drop isText, ok_bind]
  by_cases isClosing : c = ']'
  case pos =>
    have isNil : CharClass.readMembers (chars.drop index) = some ([], 0) := by
      rw [isText, isClosing, CharClass.readMembers]
    rw [if_pos isClosing]
    split
    case isTrue isEmpty => exact .done (by simp [classFrom, isNil, isEmpty])
    case isFalse nonempty =>
      rw [plus_eq (by omega), ok_bind]
      exact .done (by simp [classFrom, isNil, nonempty])
  case neg =>
    rw [if_neg isClosing]
    by_cases isEscape : c = '\\'
    case pos =>
      rw [if_pos isEscape, plus_eq (by omega), ok_bind, getElem?_of_drop isText]
      have reading := CharClass.readMembers_escape rest
      rw [← isEscape, ← isText] at reading
      cases rest with
      | nil => exact .done (by rw [classFrom, reading])
      | cons escaped later =>
          have isLater : chars.drop (index + 2) = later := drop_of_drop isText 2
          dsimp only [List.getElem?_cons_succ, List.getElem?_cons_zero]
          rw [plus_eq (by omega), ok_bind]
          exact .next (by omega) trivial (classFrom_next (by rw [reading, isLater]))
    case neg =>
      have reading := CharClass.readMembers_cons isClosing isEscape rest
      rw [← isText] at reading
      rw [if_neg isEscape, spanEnd?_eq room within isText, ok_bind]
      cases isSpan : CharClass.spanEnd rest with
      | some last =>
          have isLater : chars.drop (index + 3) = rest.drop 2 := drop_of_drop isText 3
          rw [isSpan] at reading
          dsimp only
          rw [plus_eq (by omega), ok_bind]
          exact .next (by omega) trivial (classFrom_next (by rw [reading, isLater]))
      | none =>
          have isLater : chars.drop (index + 1) = rest := drop_of_drop isText 1
          rw [isSpan] at reading
          dsimp only
          rw [plus_eq (by omega), ok_bind]
          exact .next (by omega) trivial (classFrom_next (by rw [reading, isLater]))

theorem classFrom_nil (chars : Text) (offset : Nat) (negated : Bool) :
    classFrom chars offset negated (if negated then 2 else 1) [] =
      CharClass.ofMembers offset negated
        (CharClass.readMembers (chars.drop (if negated then 2 else 1))) := by
  rw [classFrom]
  rcases CharClass.readMembers _ with _ | ⟨_ | ⟨member, others⟩, length⟩
  · rfl
  · rfl
  · cases negated <;> simp [CharClass.ofMembers] <;> omega

/-- A class is read as its members and its closing bracket say. -/
theorem readClass_eq (room : (c :: rest).length + 2 ≤ limit) (offset : Nat) :
    readClass limit (c :: rest) offset = .ok (CharClass.read offset (c :: rest)) := by
  have found (negated : Bool) (first : Nat) :
      loop (c :: rest).length (classRound limit (c :: rest) offset negated)
        (fun _ => pure (.error (.unterminatedClass offset))) first [] =
          .ok (classFrom (c :: rest) offset negated first []) := by
    refine loop_eq _ (fun index members within _ => advances_classRound room within offset negated
      members) (fun index members beyond _ => ?_) trivial
    rw [classFrom, List.drop_of_length_le beyond, CharClass.readMembers]
    rfl
  rw [readClass, found]
  by_cases negated : rest.head? = some '!'
  case pos =>
    rcases List.head?_eq_some_iff.mp negated with ⟨later, rfl⟩
    exact congrArg _ (classFrom_nil (c :: '!' :: later) offset true)
  case neg =>
    have isPlain : ¬(c :: rest)[1]? = some '!' := by
      rwa [List.getElem?_cons_succ, ← List.head?_eq_getElem?]
    have isRead : CharClass.read offset (c :: rest) =
        CharClass.ofMembers offset false (CharClass.readMembers rest) := by
      rw [CharClass.read]
      · rfl
      · rintro _ later same
        rw [(List.cons.inj same).2] at negated
        exact negated rfl
    rw [isRead]
    simp only [isPlain, decide_false, if_false]
    exact congrArg _ (classFrom_nil (c :: rest) offset false)

end Classes

/-! ## Braces -/

/-- An index at which a scan goes on behind a character and those that belong to it. Behind a
backslash at the end of the text, this may be one more than the length of the text. -/
structure Passes (chars : Text) (index taken later : Nat) : Prop where
  ahead : index < later
  within : later ≤ chars.length + 1
  place : later = index + 1 + taken ∨ chars.length ≤ index + 1 + taken ∧ chars.length ≤ later

section Passes

variable {limit index taken later : Nat} {chars rest : Text} {c : Char}

theorem Passes.drop_eq (passes : Passes chars index taken later)
    (isText : chars.drop index = c :: rest) : chars.drop later = rest.drop taken := by
  have isRest : rest.drop taken = chars.drop (index + 1 + taken) := by
    rw [Nat.add_assoc, drop_of_drop isText, Nat.add_comm 1, List.drop_succ_cons]
  rw [isRest]
  rcases passes.place with rfl | ⟨beyond, laterBeyond⟩
  · rfl
  · rw [List.drop_of_length_le beyond, List.drop_of_length_le laterBeyond]

theorem Passes.take_eq (passes : Passes chars index taken later) :
    chars.take later = chars.take (index + 1 + taken) := by
  rcases passes.place with rfl | ⟨beyond, laterBeyond⟩
  · rfl
  · rw [List.take_of_length_le beyond, List.take_of_length_le laterBeyond]

theorem passes_one (within : index < chars.length) : Passes chars index 0 (index + 1) :=
  ⟨by omega, by omega, .inl rfl⟩

theorem passes_escape (within : index < chars.length) (isText : chars.drop index = '\\' :: rest) :
    Passes chars index (Scanner.followers '\\' rest) (index + 1 + 1) := by
  have length := length_of_drop (Nat.le_of_lt within) isText
  have isFollowers : Scanner.followers '\\' rest = (rest.take 1).length := if_pos rfl
  rw [isFollowers]
  cases rest with
  | nil =>
      simp only [List.length_singleton] at length
      exact ⟨by omega, by omega, .inr ⟨by simp [length], by omega⟩⟩
  | cons escaped others =>
      simp only [List.length_cons] at length
      exact ⟨by omega, by omega, .inl (by simp)⟩

theorem passes_class (within : index < chars.length) (isText : chars.drop index = '[' :: rest) :
    Passes chars index (Scanner.followers '[' rest)
      ((CharClass.closingIndex? chars index).getD index + 1) := by
  have length := length_of_drop (Nat.le_of_lt within) isText
  have isRest : chars.drop (index + 1) = rest := drop_of_drop isText 1
  have bounded := Token.followers_le '[' rest
  have isFollowers : Scanner.followers '[' rest = (CharClass.bodyLength? rest).elim 0 (· + 1) := by
    rw [Scanner.followers, if_neg (by decide), if_pos rfl]
  rw [List.length_cons] at length
  rw [CharClass.closingIndex?, isRest]
  rw [isFollowers] at bounded ⊢
  cases closes : CharClass.bodyLength? rest with
  | none => exact passes_one within
  | some body =>
      simp only [closes, Option.elim_some] at bounded
      exact ⟨by simp; omega, by simp; omega, .inl (by simp; omega)⟩

theorem exists_indexAfter (room : chars.length + 2 ≤ limit) (within : index < chars.length)
    (isText : chars.drop index = c :: rest) :
    ∃ later, indexAfter limit chars index c = .ok later ∧
      Passes chars index (Scanner.followers c rest) later := by
  rw [indexAfter]
  by_cases isEscape : c = '\\'
  case pos =>
    subst isEscape
    rw [if_pos rfl, plus_eq (by omega), ok_bind, plus_eq (by omega)]
    exact ⟨_, rfl, passes_escape within isText⟩
  case neg =>
    rw [if_neg isEscape]
    by_cases isBracket : c = '['
    case pos =>
      subst isBracket
      have passes := passes_class within isText
      have fits := passes.within
      rw [if_pos rfl, classEnd_eq room within, ok_bind, plus_eq (by omega)]
      exact ⟨_, rfl, passes⟩
    case neg =>
      rw [if_neg isBracket, plus_eq (by omega),
        Token.followers_of_ordinary (by simp [isEscape, isBracket])]
      exact ⟨_, rfl, passes_one within⟩

end Passes

section Braces

variable {limit index : Nat} {chars rest : Text} {c : Char}

/-- The index of the brace that closes a number of open braces. -/
def closingFrom (chars : Text) (index depth : Nat) : Option Nat :=
  (Scanner.lengthFrom (depth - 1) 0 (chars.drop index)).map (index + ·)

/-- Behind a character and those that belong to it, the same brace is found. -/
theorem closingFrom_of_passes {depth inner later : Nat} (isText : chars.drop index = c :: rest)
    (passes : Passes chars index (Scanner.followers c rest) later)
    (found : Scanner.lengthFrom (depth - 1) 0 (c :: rest) =
      (Scanner.lengthFrom (inner - 1) (Scanner.followers c rest) rest).map (· + 1)) :
    closingFrom chars later inner = closingFrom chars index depth := by
  rw [closingFrom, closingFrom, isText, found, passes.drop_eq isText,
    Token.lengthFrom_taken (inner - 1) (Scanner.followers c rest)]
  rcases passes.place with rfl | ⟨beyond, laterBeyond⟩
  · rw [map_add_add, map_add_add]
  · have isNil := passes.drop_eq isText
    rw [List.drop_of_length_le laterBeyond] at isNil
    rw [← isNil]
    rfl

theorem advances_braceRound (room : chars.length + 2 ≤ limit) (within : index < chars.length)
    {depth : Nat} (opened : 0 < depth ∧ depth ≤ index) :
    Advances (closingFrom chars) (fun index depth => 0 < depth ∧ depth ≤ index) index depth
      (braceRound limit chars index depth) := by
  rcases exists_drop_eq_cons within with ⟨c, rest, isText⟩
  rcases exists_indexAfter room within isText with ⟨later, isLater, passes⟩
  have ahead := passes.ahead
  rw [braceRound, charAt_of_drop isText, ok_bind]
  by_cases isOpening : c = '{'
  case pos =>
    rw [if_pos isOpening, plus_eq (by omega), ok_bind, isLater, ok_bind]
    refine .next ahead (by omega) (closingFrom_of_passes isText passes ?_)
    have noFollowers : Scanner.followers '{' rest = 0 := rfl
    rw [isOpening, noFollowers, Scanner.lengthFrom]
    simp [Nat.sub_add_cancel opened.1]
  case neg =>
    rw [if_neg isOpening]
    by_cases isClosing : c = '}'
    case pos =>
      rw [if_pos isClosing, minus_eq opened.1, ok_bind]
      by_cases outermost : depth - 1 = 0
      case pos =>
        rw [if_pos outermost]
        refine .done ?_
        rw [closingFrom, isText, isClosing, outermost]
        rfl
      case neg =>
        rw [if_neg outermost, isLater, ok_bind]
        refine .next ahead (by omega) (closingFrom_of_passes isText passes ?_)
        have noFollowers : Scanner.followers '}' rest = 0 := rfl
        rw [isClosing, noFollowers, Scanner.lengthFrom]
        simp [outermost]
    case neg =>
      rw [if_neg isClosing, isLater, ok_bind]
      refine .next ahead (by omega) (closingFrom_of_passes isText passes ?_)
      rw [Scanner.lengthFrom, if_neg isOpening, if_neg isClosing]

/-- The search for the end of a brace finds the brace that closes it. -/
theorem closingBrace_eq (room : chars.length + 2 ≤ limit) (within : index < chars.length)
    (isText : chars.drop index = '{' :: rest) :
    closingBrace limit chars index = .ok (Scanner.closingBrace? chars index) := by
  have first : braceRound limit chars index 0 = .ok (.next (index + 1) 1) := by
    rw [braceRound, charAt_of_drop isText, ok_bind, if_pos rfl, plus_eq (by omega), ok_bind,
      indexAfter, if_neg (by decide), if_neg (by decide), plus_eq (by omega)]
    rfl
  have found : loop chars.length (braceRound limit chars) (fun _ => pure none) (index + 1) 1 =
      .ok (closingFrom chars (index + 1) 1) := by
    refine loop_eq (closingFrom chars)
      (fun index depth within opened => advances_braceRound room within opened)
      (fun index depth beyond _ => ?_) ⟨Nat.one_pos, by omega⟩
    rw [closingFrom, List.drop_of_length_le beyond]
    rfl
  rw [closingBrace, loop, if_pos within, first]
  dsimp only
  rw [if_pos (Nat.lt_succ_self index), found]
  rfl

end Braces

/-- At a brace that closes without being open, the search would go below no open braces. -/
example : closingBrace 9 ['}'] 0 = .error .overflow := by
  decide +kernel

/-! ## Options -/

/-- Options whose first one started earlier, at an index, with some characters in front. -/
def resume (start : Nat) (front : Text) : List (Nat × Text) → List (Nat × Text)
  | [] => []
  | (_, text) :: others => (start, front ++ text) :: others

theorem resume_resume (start inner : Nat) (front before : Text) (options : List (Nat × Text)) :
    resume start front (resume inner before options) = resume start (front ++ before) options := by
  cases options with
  | nil => rfl
  | cons option others => simp [resume]

theorem extend_resume (offset inner : Nat) (c : Char) (front : Text)
    (options : List (Nat × Text)) :
    Scanner.extend offset c (resume inner front options) = resume offset (c :: front) options := by
  cases options <;> rfl

section Options

variable {limit index : Nat} {content rest : Text} {c : Char}

theorem exists_optionsFrom (depth offset : Nat) (text : Text) :
    ∃ option others, Scanner.optionsFrom depth 0 offset text = (offset, option) :: others := by
  rcases Token.exists_cutAt depth (Token.ofText offset text) with ⟨option, options, isCut⟩
  rw [Token.optionsFrom_eq, isCut]
  exact ⟨_, _, rfl⟩

theorem optionsFrom_resume (depth offset : Nat) {taken : Nat} {text : Text}
    (bounded : taken ≤ text.length) :
    Scanner.optionsFrom depth taken offset text =
      resume offset (text.take taken)
        (Scanner.optionsFrom depth 0 (offset + taken) (text.drop taken)) := by
  have later := Token.optionsFrom_eq depth (offset + taken) (text.drop taken)
  rcases Token.exists_cutAt depth (Token.ofText (offset + taken) (text.drop taken)) with
    ⟨option, options, isCut⟩
  rw [isCut] at later
  rw [Token.optionsFrom_taken bounded later, later]
  rfl

/-- The options of the content, given those before an index and where the current one starts. -/
def optionsLeft (content : Text) (index : Nat) (cutting : Cutting) : List (Nat × Text) :=
  cutting.options ++ resume cutting.start ((content.take index).drop cutting.start)
    (Scanner.optionsFrom cutting.depth 0 index (content.drop index))

/-- The current option starts before the index, and no more braces are open than were passed. -/
structure Cutting.Fits (content : Text) (index : Nat) (cutting : Cutting) : Prop where
  start : cutting.start ≤ index
  within : cutting.start ≤ content.length
  depth : cutting.depth ≤ index

theorem drop_take_add {start : Nat} (isText : content.drop index = c :: rest)
    (within : index < content.length) (ordered : start ≤ index) (taken : Nat) :
    (content.take (index + 1 + taken)).drop start =
      (content.take index).drop start ++ c :: rest.take taken := by
  rw [Nat.add_assoc, List.take_add, isText, Nat.add_comm 1, List.take_succ_cons,
    List.drop_append_of_le_length]
  rw [List.length_take]
  omega

/-- Behind a character and those that belong to it, the same options are found. -/
theorem optionsLeft_of_passes {cutting : Cutting} {depth later : Nat}
    (isText : content.drop index = c :: rest) (fits : cutting.Fits content index)
    (within : index < content.length)
    (passes : Passes content index (Scanner.followers c rest) later)
    (found : Scanner.optionsFrom cutting.depth 0 index (c :: rest) =
      Scanner.extend index c
        (Scanner.optionsFrom depth (Scanner.followers c rest) (index + 1) rest)) :
    optionsLeft content later { cutting with depth := depth } =
      optionsLeft content index cutting := by
  rw [optionsLeft, optionsLeft, isText, found,
    optionsFrom_resume depth (index + 1) (Token.followers_le c rest), extend_resume, resume_resume,
    ← drop_take_add isText within fits.start, passes.drop_eq isText, passes.take_eq]
  rcases passes.place with rfl | ⟨beyond, laterBeyond⟩
  · rfl
  · -- The scan is behind the end of the text, which is the end of the current option.
    have isNil := passes.drop_eq isText
    rw [List.drop_of_length_le laterBeyond] at isNil
    rw [← isNil]
    rfl

/-- At a comma the current option ends, and the next one starts behind it. -/
theorem optionsLeft_of_comma {cutting : Cutting} (isText : content.drop index = ',' :: rest)
    (outside : cutting.depth = 0) :
    optionsLeft content (index + 1) ⟨0, index + 1, cutting.options ++
      [(cutting.start, (content.take index).drop cutting.start)]⟩ =
        optionsLeft content index cutting := by
  have isRest : content.drop (index + 1) = rest := drop_of_drop isText 1
  rcases exists_optionsFrom 0 (index + 1) rest with ⟨option, others, isNext⟩
  have isCut : Scanner.optionsFrom 0 0 index (',' :: rest) =
      (index, []) :: Scanner.optionsFrom 0 0 (index + 1) rest := by
    rw [Scanner.optionsFrom]
    simp
  have noFront : (content.take (index + 1)).drop (index + 1) = [] :=
    List.drop_of_length_le (List.length_take_le ..)
  simp only [optionsLeft, isRest, isText, outside, isCut, isNext, noFront, resume]
  simp

theorem advances_cutRound (room : content.length + 2 ≤ limit) (within : index < content.length)
    {cutting : Cutting} (fits : cutting.Fits content index) :
    Advances (optionsLeft content) (fun index cutting => cutting.Fits content index) index cutting
      (cutRound limit content index cutting) := by
  rcases exists_drop_eq_cons within with ⟨c, rest, isText⟩
  rcases exists_indexAfter room within isText with ⟨later, isLater, passes⟩
  have ahead := passes.ahead
  have startBefore := fits.start
  have startWithin := fits.within
  have depthBefore := fits.depth
  rw [cutRound, charAt_of_drop isText, ok_bind]
  by_cases isOpening : c = '{'
  case pos =>
    have noFollowers : Scanner.followers '{' rest = 0 := rfl
    rw [if_pos isOpening, plus_eq (by omega), ok_bind, isLater, ok_bind]
    refine .next ahead ⟨by dsimp only; omega, startWithin, by dsimp only; omega⟩
      (optionsLeft_of_passes isText fits within passes ?_)
    rw [isOpening, noFollowers, Scanner.optionsFrom]
    simp
  case neg =>
    rw [if_neg isOpening]
    by_cases isClosing : c = '}'
    case pos =>
      have noFollowers : Scanner.followers '}' rest = 0 := rfl
      rw [if_pos isClosing, isLater, ok_bind]
      refine .next ahead ⟨by dsimp only; omega, startWithin, by dsimp only; omega⟩
        (optionsLeft_of_passes isText fits within passes ?_)
      rw [isClosing, noFollowers, Scanner.optionsFrom]
      simp
    case neg =>
      rw [if_neg isClosing]
      by_cases isComma : c = ',' ∧ cutting.depth = 0
      case pos =>
        rw [if_pos isComma, slice_eq startBefore (Nat.le_of_lt within), ok_bind,
          plus_eq (by omega), ok_bind, indexAfter, if_neg (by simp [isComma]),
          if_neg (by simp [isComma]), plus_eq (by omega), ok_bind]
        refine .next (by omega) ⟨Nat.le_refl _, within, Nat.zero_le _⟩ ?_
        exact optionsLeft_of_comma (isComma.1 ▸ isText) isComma.2
      case neg =>
        rw [if_neg isComma, isLater, ok_bind]
        refine .next ahead ⟨by omega, startWithin, by omega⟩
          (optionsLeft_of_passes isText fits within passes ?_)
        rw [Scanner.optionsFrom]
        simp [isOpening, isClosing, isComma]

/-- The content of a brace is cut at its commas. -/
theorem splitOptions_eq (room : content.length + 2 ≤ limit) :
    splitOptions limit content = .ok (Scanner.optionsFrom 0 0 0 content) := by
  have left : optionsLeft content 0 ⟨0, 0, []⟩ = Scanner.optionsFrom 0 0 0 content := by
    rcases exists_optionsFrom 0 0 content with ⟨option, others, isFirst⟩
    simp [optionsLeft, isFirst, resume]
  rw [splitOptions, ← left]
  refine loop_eq (optionsLeft content)
    (fun index cutting within fits => advances_cutRound room within fits)
    (fun index cutting beyond fits => ?_) ⟨Nat.le_refl _, Nat.zero_le _, Nat.le_refl _⟩
  rw [Nat.min_eq_left fits.within, slice_eq fits.within (Nat.le_refl _), ok_bind, optionsLeft,
    List.drop_of_length_le beyond, List.take_of_length_le beyond, List.take_length]
  simp [Scanner.optionsFrom, resume]

end Options

end Indexed

end Glob

end PropertyCascade
