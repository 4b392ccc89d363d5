import PropertyCascade.Proofs.Glob.Reading
import PropertyCascade.Proofs.Glob.Scanner

/-!
# Scanning a slice alone

What a scan finds in a pattern does not depend on where the text ends, as long as no piece is cut.
The bracket that closes a class is found by looking at most two characters ahead, and never beyond
that bracket, so it is found in every slice that contains it; and a bracket that is not closed in
the pattern is not closed in a slice either. Hence the tokens of a slice that starts and ends
between tokens of the pattern are the tokens of the pattern that stand in it.
-/

namespace PropertyCascade

namespace Glob

open Source

/-! ## Classes -/

namespace CharClass

theorem append_closing_ne_dash {body rest others : Text} {last : Char}
    (noSpan : ∀ last others, body ≠ '-' :: last :: others) (notDash : body ≠ ['-']) :
    body ++ ']' :: rest ≠ '-' :: last :: others := by
  intro same
  rcases body with _ | ⟨first, _ | ⟨second, later⟩⟩ <;> simp_all

theorem closing?_append {body : Text} {members : List ClassMember}
    (lists : ClassMembers body members) (rest : Text) :
    closing? (body ++ ']' :: rest) = some body.length := by
  induction lists with
  | nil => simp [closing?]
  | escaped c _ ih => simp [closing?, ih]
  | span notEscape notFirst notLast _ ih =>
      rw [List.cons_append, List.cons_append, List.cons_append, closing?, ih]
      all_goals simp_all
  | @single later members c notEscape notClosing noSpan _ ih =>
      by_cases dash : later = ['-']
      case pos =>
        subst dash
        rw [List.cons_append, List.cons_append, List.nil_append, closing?]
        all_goals simp_all
      case neg =>
        rw [List.cons_append, closing?, ih]
        all_goals simp_all [append_closing_ne_dash noSpan dash]

theorem readMembers_append {body : Text} {members : List ClassMember}
    (lists : ClassMembers body members) (rest : Text) :
    readMembers (body ++ ']' :: rest) = some (members, body.length) := by
  induction lists with
  | nil => simp [readMembers]
  | escaped c _ ih => simp [readMembers, ih]
  | span notEscape notFirst notLast _ ih =>
      rw [List.cons_append, List.cons_append, List.cons_append, readMembers, ih]
      all_goals simp_all
  | @single later members c notEscape notClosing noSpan _ ih =>
      by_cases dash : later = ['-']
      case pos =>
        subst dash
        rw [List.cons_append, List.cons_append, List.nil_append, readMembers]
        all_goals simp_all
      case neg =>
        rw [List.cons_append, readMembers, ih]
        all_goals simp_all [append_closing_ne_dash noSpan dash]

theorem classMembers_of_readMembers {text : Text} {members : List ClassMember} {length : Nat}
    (found : readMembers text = some (members, length)) :
    ∃ body rest, text = body ++ ']' :: rest ∧ body.length = length ∧ ClassMembers body members := by
  fun_induction readMembers text generalizing members length with
  | case1 => cases found
  | case2 rest =>
      rcases Prod.mk.inj (Option.some.inj found) with ⟨rfl, rfl⟩
      exact ⟨[], rest, rfl, rfl, .nil⟩
  | case3 => cases found
  | case4 c rest ih =>
      rcases Option.map_eq_some_iff.mp found with ⟨⟨later, count⟩, laterFound, same⟩
      rcases Prod.mk.inj same with ⟨rfl, rfl⟩
      rcases ih laterFound with ⟨body, after, rfl, rfl, lists⟩
      exact ⟨'\\' :: c :: body, after, rfl, rfl, .escaped c lists⟩
  | case5 first rest notClosing notEscape ih =>
      rcases Option.map_eq_some_iff.mp found with ⟨⟨later, count⟩, laterFound, same⟩
      rcases Prod.mk.inj same with ⟨rfl, rfl⟩
      rcases ih laterFound with ⟨body, after, sameText, rfl, lists⟩
      have dash : ClassMembers ['-'] [.single '-'] :=
        .single (by decide) (by decide) (by simp) .nil
      rcases dash.unique lists sameText with ⟨rfl, rfl, rfl⟩
      exact ⟨[first, '-'], _, rfl, rfl, .single notEscape notClosing (by simp) dash⟩
  | case6 first last rest notClosing notEscape notLast ih =>
      rcases Option.map_eq_some_iff.mp found with ⟨⟨later, count⟩, laterFound, same⟩
      rcases Prod.mk.inj same with ⟨rfl, rfl⟩
      rcases ih laterFound with ⟨body, after, rfl, rfl, lists⟩
      exact ⟨first :: '-' :: last :: body, after, rfl, rfl,
        .span notEscape notClosing notLast lists⟩
  | case7 c rest notClosing notStray notEscape noSpan ih =>
      rcases Option.map_eq_some_iff.mp found with ⟨⟨later, count⟩, laterFound, same⟩
      rcases Prod.mk.inj same with ⟨rfl, rfl⟩
      rcases ih laterFound with ⟨body, after, rfl, rfl, lists⟩
      refine ⟨c :: body, after, rfl, rfl, .single ?_ notClosing ?_ lists⟩
      · intro isEscape
        have nonempty : body ++ ']' :: after ≠ [] := by simp
        rcases List.exists_cons_of_ne_nil nonempty with ⟨second, others, later⟩
        exact notEscape second others isEscape later
      · rintro last others rfl
        exact noSpan last _ rfl

/-- The members of a class are those in the body that the search for its closing bracket finds. -/
theorem readMembers_eq (text : Text) :
    readMembers text =
      (closing? text).map fun length => (membersOf (text.take length), length) := by
  cases found : closing? text with
  | some length =>
      rcases classMembers_of_closing? found with ⟨body, rest, members, rfl, rfl, lists⟩
      rw [readMembers_append lists, eq_membersOf lists]
      simp
  | none =>
      cases foundMembers : readMembers text with
      | none => rfl
      | some reading =>
          rcases classMembers_of_readMembers foundMembers with ⟨body, rest, rfl, -, lists⟩
          rw [closing?_append lists] at found
          cases found

theorem bodyLength?_append {body : Text} {charClass : CharClass}
    (isBody : ClassBody body charClass) (rest : Text) :
    bodyLength? (body ++ ']' :: rest) = some body.length := by
  cases isBody with
  | listed notNegated lists =>
      rw [bodyLength?, closing?_append lists]
      intro others
      exact append_closing_ne_negated notNegated
  | excluded lists =>
      rw [List.cons_append, bodyLength?, closing?_append lists]
      rfl

/-- Reading a class finds the closing bracket that the search for it finds. -/
theorem read_eq (offset : Nat) (rest : Text) :
    read offset ('[' :: rest) =
      match bodyLength? rest with
      | none => .error (.unterminatedClass offset)
      | some length =>
          if (ofBody (rest.take length)).members = [] then .error (.emptyClass offset)
          else .ok (ofBody (rest.take length), length + 2) := by
  -- With and without the negation, the members are read off what stands before the same bracket.
  have general (negated : Bool) (text : Text) :
      ofMembers offset negated (readMembers text) =
        match closing? text with
        | none => .error (.unterminatedClass offset)
        | some length =>
            if membersOf (text.take length) = [] then .error (.emptyClass offset)
            else .ok (⟨negated, membersOf (text.take length)⟩,
              length + (if negated then 3 else 2)) := by
    rw [readMembers_eq]
    cases closing? text with
    | none => rfl
    | some length =>
        cases members : membersOf (text.take length) with
        | nil => simp [ofMembers, members]
        | cons member others => simp [ofMembers, members]
  by_cases negated : ∃ later, rest = '!' :: later
  case pos =>
    rcases negated with ⟨later, rfl⟩
    rw [read, general true, bodyLength?]
    cases closing? later with
    | none => rfl
    | some length => simp [ofBody]
  case neg =>
    have notNegated (later : Text) : rest ≠ '!' :: later := fun same => negated ⟨later, same⟩
    have notNegatedTake (length : Nat) (later : Text) : rest.take length ≠ '!' :: later := by
      intro same
      apply notNegated (later ++ rest.drop length)
      rw [← List.cons_append, ← same, List.take_append_drop]
    rw [read, List.tail_cons, general false, bodyLength?]
    · cases closing? rest with
      | none => rfl
      | some length =>
          have plain : ofBody (rest.take length) = ⟨false, membersOf (rest.take length)⟩ := by
            unfold ofBody
            split
            case h_1 later same => exact absurd same (notNegatedTake length later)
            case h_2 => rfl
          simp [plain]
    · exact notNegated
    · intro _ _ same
      exact notNegated _ (List.cons.inj same).2

/-- Whether the reading of the class that a text starts with finds its closing bracket a number of
characters after the opening one. A class without members is a fault, but its bracket is found. -/
inductive ClosesAfter (offset : Nat) (text : Text) : Nat → Prop where
  | members {charClass : CharClass} {length : Nat}
      (isRead : read offset text = .ok (charClass, length + 1)) : ClosesAfter offset text length
  | empty {rest : Text} (isText : text = '[' :: ']' :: rest)
      (noMembers : read offset text = .error (.emptyClass offset)) : ClosesAfter offset text 1
  | emptyNegated {rest : Text} (isText : text = '[' :: '!' :: ']' :: rest)
      (noMembers : read offset text = .error (.emptyClass offset)) : ClosesAfter offset text 2

theorem membersOf_eq_nil_iff {text : Text} : membersOf text = [] ↔ text = [] := by
  unfold membersOf
  split <;> simp

theorem closesAfter_iff (offset : Nat) (rest : Text) (distance : Nat) :
    ClosesAfter offset ('[' :: rest) distance ↔
      (bodyLength? rest).map (· + 1) = some distance := by
  have isRead := read_eq offset rest
  constructor
  · intro closes
    cases closes with
    | members found =>
        rw [isRead] at found
        cases closes : bodyLength? rest with
        | none => simp [closes] at found
        | some length =>
            simp only [closes] at found
            split at found
            case isTrue => cases found
            case isFalse =>
              have sameLength := (Prod.mk.inj (Except.ok.inj found)).2
              rw [Option.map_some, Option.some.injEq]
              omega
    | empty isText =>
        obtain rfl := (List.cons.inj isText).2
        rfl
    | emptyNegated isText =>
        obtain rfl := (List.cons.inj isText).2
        rfl
  · intro found
    rcases Option.map_eq_some_iff.mp found with ⟨length, closes, rfl⟩
    simp only [closes] at isRead
    by_cases noMembers : (ofBody (rest.take length)).members = []
    case pos =>
      rw [if_pos noMembers] at isRead
      rcases classBody_of_bodyLength? closes with ⟨body, after, rfl, rfl, -⟩
      rw [List.take_left] at noMembers
      unfold ofBody at noMembers
      split at noMembers
      case h_1 listed =>
        obtain rfl := membersOf_eq_nil_iff.mp noMembers
        exact .emptyNegated rfl isRead
      case h_2 =>
        obtain rfl := membersOf_eq_nil_iff.mp noMembers
        exact .empty rfl isRead
    case neg =>
      rw [if_neg noMembers] at isRead
      exact .members isRead

/-- The search for the end of a class and the reading of the class agree. -/
theorem closingIndex?_iff {chars : Text} {opening : Nat} (isOpening : chars[opening]? = some '[')
    (offset : Nat) :
    (∀ closing, closingIndex? chars opening = some closing ↔
      opening < closing ∧ ClosesAfter offset (chars.drop opening) (closing - opening)) ∧
    (closingIndex? chars opening = none ↔
      read offset (chars.drop opening) = .error (.unterminatedClass offset)) := by
  have split : chars.drop opening = '[' :: chars.drop (opening + 1) := by
    rcases List.getElem?_eq_some_iff.mp isOpening with ⟨bounded, isBracket⟩
    rw [List.drop_eq_getElem_cons bounded, isBracket]
  rw [split, closingIndex?]
  constructor
  · intro closing
    rw [closesAfter_iff]
    cases bodyLength? (chars.drop (opening + 1)) with
    | none => simp
    | some length =>
        simp only [Option.map_some, Option.some.injEq]
        omega
  · rw [read_eq]
    cases bodyLength? (chars.drop (opening + 1)) with
    | none => simp
    | some length =>
        dsimp only
        split <;> simp

end CharClass

/-! ## Tokens -/

namespace Token

open Scanner

/-- Induction on the characters of a text, one token at a time. -/
theorem text_induction {motive : Text → Prop} (nil : motive [])
    (cons : ∀ c rest, motive (rest.drop (followers c rest)) → motive (c :: rest)) (text : Text) :
    motive text := by
  induction length : text.length using Nat.strong_induction_on generalizing text with
  | _ n ih =>
      cases text with
      | nil => exact nil
      | cons c rest =>
          refine cons c rest (ih _ ?_ _ rfl)
          rw [← length, List.length_drop, List.length_cons]
          omega

/-- The token that a text starts with. -/
def first (offset : Nat) (c : Char) (rest : Text) : Token :=
  ⟨offset,
    if c = '\\' then
      match rest with
      | [] => .strayEscape
      | escaped :: _ => .escaped escaped
    else if c = '[' then
      match CharClass.bodyLength? rest with
      | some length => .bracket (rest.take length)
      | none => .plain c
    else .plain c⟩

theorem scan_taken (offset taken : Nat) {text : Text} (bounded : taken ≤ text.length) :
    scan offset taken text = scan (offset + taken) 0 (text.drop taken) := by
  induction text generalizing offset taken with
  | nil =>
      obtain rfl : taken = 0 := by simpa using bounded
      rfl
  | cons c rest ih =>
      cases taken with
      | zero => rfl
      | succ more =>
          have restBounded : more ≤ rest.length := by simpa using bounded
          rw [scan, ih (offset + 1) more restBounded, List.drop_succ_cons, Nat.add_right_comm,
            Nat.add_assoc]

theorem followers_le (c : Char) (rest : Text) : followers c rest ≤ rest.length := by
  unfold followers
  split_ifs
  · exact List.length_take_le' ..
  · cases closes : CharClass.bodyLength? rest with
    | none => simp
    | some length =>
        rcases CharClass.classBody_of_bodyLength? closes with ⟨body, after, rfl, rfl, -⟩
        simp
  · exact Nat.zero_le _

@[simp]
theorem ofText_nil (offset : Nat) : ofText offset [] = [] :=
  rfl

theorem ofText_cons (offset : Nat) (c : Char) (rest : Text) :
    ofText offset (c :: rest) =
      first offset c rest ::
        ofText (offset + 1 + followers c rest) (rest.drop (followers c rest)) := by
  rw [ofText, ofText, ← scan_taken _ _ (followers_le c rest)]
  by_cases isEscape : c = '\\'
  · cases rest <;> simp [scan, first, followers, isEscape]
  · by_cases isBracket : c = '['
    · cases closes : CharClass.bodyLength? rest <;>
        simp [scan, first, followers, isBracket, closes]
    · simp [scan, first, followers, isEscape, isBracket]

theorem text_first (offset : Nat) (c : Char) (rest : Text) :
    (first offset c rest).text = c :: rest.take (followers c rest) := by
  by_cases isEscape : c = '\\'
  · cases rest <;> simp [first, followers, isEscape, text]
  · by_cases isBracket : c = '['
    · cases closes : CharClass.bodyLength? rest with
      | none => simp [first, followers, isBracket, closes, text]
      | some length =>
          simp only [first, followers, isBracket, closes, text]
          rcases CharClass.classBody_of_bodyLength? closes with ⟨body, after, rfl, rfl, -⟩
          simp [List.take_append]
    · simp [first, followers, isEscape, isBracket, text]

theorem followers_of_ordinary {c : Char} (ordinary : c ∉ ['\\', '[']) (rest : Text) :
    followers c rest = 0 := by
  simp only [List.mem_cons, List.not_mem_nil, or_false, not_or] at ordinary
  simp [followers, ordinary]

theorem kind_first_iff {d : Char} (ordinary : d ∉ ['\\', '[']) (offset : Nat) (c : Char)
    (rest : Text) : (first offset c rest).kind = .plain d ↔ c = d := by
  simp only [List.mem_cons, List.not_mem_nil, or_false, not_or] at ordinary
  by_cases isEscape : c = '\\'
  · cases rest <;> simp [first, isEscape, Ne.symm ordinary.1]
  · by_cases isBracket : c = '['
    · cases closes : CharClass.bodyLength? rest <;>
        simp [first, isBracket, closes, Ne.symm ordinary.2]
    · simp [first, isEscape, isBracket]

theorem ofText_cons_of_ordinary {c : Char} (ordinary : c ∉ ['\\', '[']) (offset : Nat)
    (rest : Text) : ofText offset (c :: rest) = ⟨offset, .plain c⟩ :: ofText (offset + 1) rest := by
  have kind : (first offset c rest).kind = .plain c :=
    (kind_first_iff ordinary offset c rest).mpr rfl
  have token : first offset c rest = ⟨offset, .plain c⟩ := congrArg (Token.mk offset) kind
  rw [ofText_cons, followers_of_ordinary ordinary, token]
  rfl

/-- The characters of several tokens, one after the other. -/
def textOf (tokens : List Token) : Text :=
  tokens.flatMap text

@[simp]
theorem textOf_nil : textOf [] = [] :=
  rfl

@[simp]
theorem textOf_cons (token : Token) (tokens : List Token) :
    textOf (token :: tokens) = token.text ++ textOf tokens :=
  rfl

@[simp]
theorem textOf_append (tokens others : List Token) :
    textOf (tokens ++ others) = textOf tokens ++ textOf others :=
  List.flatMap_append

@[simp]
theorem textOf_ofText (offset : Nat) (source : Text) : textOf (ofText offset source) = source :=
  flatMap_text_scan offset 0 source

theorem text_of_plain {token : Token} {c : Char} (kind : token.kind = .plain c) :
    token.text = [c] := by
  rw [text, kind]

theorem length_text_first (offset : Nat) (c : Char) (rest : Text) :
    (first offset c rest).text.length = 1 + followers c rest := by
  rw [text_first, List.length_cons, List.length_take_of_le (followers_le c rest), Nat.add_comm]

/-- The tokens after some tokens of a text are those of the text after them. -/
theorem ofText_suffix {offset : Nat} {source : Text} {before after : List Token}
    (tokens : ofText offset source = before ++ after) :
    ofText (offset + (textOf before).length) (textOf after) = after := by
  induction before generalizing offset source with
  | nil =>
      rw [List.nil_append] at tokens
      rw [← tokens, textOf_ofText, textOf_nil]
      rfl
  | cons token before ih =>
      cases source with
      | nil => simp at tokens
      | cons c rest =>
          rw [ofText_cons, List.cons_append] at tokens
          rcases List.cons.inj tokens with ⟨rfl, later⟩
          rw [textOf_cons, List.length_append, length_text_first, ← Nat.add_assoc, ← Nat.add_assoc]
          exact ih later

/-- Where a class ends is found without the characters that follow it. -/
theorem bodyLength?_append_of_le {rest more : Text}
    (within : (CharClass.bodyLength? (rest ++ more)).elim 0 (· + 1) ≤ rest.length) :
    CharClass.bodyLength? (rest ++ more) = CharClass.bodyLength? rest := by
  cases closes : CharClass.bodyLength? rest with
  | some length =>
      rcases CharClass.classBody_of_bodyLength? closes with ⟨body, after, rfl, rfl, isBody⟩
      rw [List.append_assoc, List.cons_append, CharClass.bodyLength?_append isBody]
  | none =>
      cases closesLater : CharClass.bodyLength? (rest ++ more) with
      | none => rfl
      | some length =>
          rcases CharClass.classBody_of_bodyLength? closesLater with
            ⟨body, after, same, rfl, isBody⟩
          rw [closesLater, Option.elim_some] at within
          have isPrefix : body ++ [']'] <+: rest ++ more := ⟨after, by simp [same]⟩
          have inRest : body ++ [']'] <+: rest :=
            List.prefix_of_prefix_length_le isPrefix ⟨more, rfl⟩ (by simpa using within)
          rcases inRest with ⟨later, rfl⟩
          rw [List.append_assoc, List.singleton_append, CharClass.bodyLength?_append isBody]
            at closes
          cases closes

theorem followers_append {c : Char} {rest more : Text}
    (within : followers c (rest ++ more) ≤ rest.length) :
    followers c (rest ++ more) = followers c rest := by
  unfold followers at within ⊢
  split_ifs at within ⊢
  · rw [List.length_take, List.length_append] at within ⊢
    rw [List.length_take]
    omega
  · rw [bodyLength?_append_of_le within]
  · rfl

theorem first_append (offset : Nat) {c : Char} {rest more : Text}
    (within : followers c (rest ++ more) ≤ rest.length) :
    first offset c (rest ++ more) = first offset c rest := by
  by_cases isEscape : c = '\\'
  · cases rest with
    | nil => cases more <;> simp_all [followers]
    | cons escaped later => simp [first, isEscape]
  · by_cases isBracket : c = '['
    · simp only [followers, isBracket, if_true] at within
      rw [if_neg (by decide)] at within
      have sameBody := bodyLength?_append_of_le within
      rw [sameBody] at within
      cases closes : CharClass.bodyLength? rest with
      | none => simp [first, isBracket, sameBody, closes]
      | some length =>
          rw [closes, Option.elim_some] at within
          have sameTake : (rest ++ more).take length = rest.take length :=
            List.take_append_of_le_length (by omega)
          simp [first, isBracket, sameBody, closes, sameTake]
    · simp [first, isEscape, isBracket]

/-- The first tokens of a text are the tokens of the text without what follows them. -/
theorem ofText_prefix {offset : Nat} {source : Text} {part after : List Token}
    (tokens : ofText offset source = part ++ after) : ofText offset (textOf part) = part := by
  induction part generalizing offset source with
  | nil => rfl
  | cons token part ih =>
      cases source with
      | nil => simp at tokens
      | cons c rest =>
          rw [ofText_cons, List.cons_append] at tokens
          rcases List.cons.inj tokens with ⟨rfl, later⟩
          have bounded := followers_le c rest
          generalize taken : rest.take (followers c rest) = body at *
          have bodyLength : body.length = followers c rest := by
            rw [← taken, List.length_take_of_le bounded]
          have whole : rest = (body ++ textOf part) ++ textOf after := by
            rw [List.append_assoc, ← textOf_append, ← later, textOf_ofText, ← taken,
              List.take_append_drop]
          have within : followers c ((body ++ textOf part) ++ textOf after) ≤
              (body ++ textOf part).length := by
            rw [← whole, List.length_append, bodyLength]
            exact Nat.le_add_right _ _
          have sameFollowers := followers_append within
          have sameFirst := first_append offset within
          rw [← whole] at sameFollowers sameFirst
          rw [textOf_cons, text_first, taken, List.cons_append, ofText_cons, ← sameFirst,
            ← sameFollowers, ← bodyLength, List.drop_left, bodyLength, ih later]

/-- The tokens that stand in a slice of a text are the tokens of the slice. -/
theorem ofText_slice {offset : Nat} {source : Text} {before part after : List Token}
    (tokens : ofText offset source = before ++ part ++ after) :
    ofText (offset + (textOf before).length) (textOf part) = part := by
  rw [List.append_assoc] at tokens
  exact ofText_prefix (ofText_suffix tokens)

end Token

end Glob

end PropertyCascade
