import PropertyCascade.Proofs.Glob.Slices

/-!
# Pieces stay whole

The slices that are cut out of a brace consist of whole tokens, their braces are matched, and
something follows them in the pattern: a comma or the closing brace. Such a slice does not end after
a lone backslash, and no brace in it stays open, so its reading has no fault of the end of the text.

That every call is for such a slice is shown by induction along the reader's calls: a slice of a
slice is again cut out of the pattern. Whether a brace is cut is a matter of counting. Up to any
point of the tokens of a slice no more braces are closed than were opened, and the same holds of the
content of a brace, so neither can end within the other.
-/

namespace PropertyCascade

namespace Glob

/-! ## Slices that are cut out of braces -/

namespace Token

section Places

variable {offset : Nat} {text : Text} {before after : List Token} {token : Token}

theorem exists_first_of_ofText (tokens : ofText offset text = before ++ token :: after) :
    ∃ c rest, token = first (offset + (textOf before).length) c rest ∧
      (after ≠ [] → rest ≠ []) := by
  have isSuffix := ofText_suffix tokens
  cases starts : textOf (token :: after) with
  | nil =>
      rw [starts] at isSuffix
      cases isSuffix
  | cons c rest =>
      rw [starts, ofText_cons] at isSuffix
      rcases List.cons.inj isSuffix with ⟨isFirst, isAfter⟩
      refine ⟨c, rest, isFirst.symm, ?_⟩
      rintro more rfl
      apply more
      rw [← isAfter]
      simp

/-- Tokens of a text stand where they are read. -/
theorem offset_eq_of_ofText (tokens : ofText offset text = before ++ token :: after) :
    token.offset = offset + (textOf before).length := by
  rcases exists_first_of_ofText tokens with ⟨c, rest, rfl, -⟩
  rfl

/-- Only the last token can be a backslash without a character. -/
theorem ne_strayEscape_of_ofText (tokens : ofText offset text = before ++ token :: after)
    (more : after ≠ []) : token.kind ≠ .strayEscape := by
  rcases exists_first_of_ofText tokens with ⟨c, rest, rfl, someRest⟩
  rcases List.exists_cons_of_ne_nil (someRest more) with ⟨escaped, later, rfl⟩
  by_cases isEscape : c = '\\'
  · simp [first, isEscape]
  · by_cases isBracket : c = '['
    · cases closes : CharClass.bodyLength? (escaped :: later) <;>
        simp [first, isBracket, closes]
    · simp [first, isEscape, isBracket]

end Places

/-- Tokens whose reading does not end within a piece: none is a backslash without a character, and
none is a brace that stays open. -/
structure IsClosed (tokens : List Token) : Prop where
  escapes : ∀ token ∈ tokens, token.kind ≠ .strayEscape
  braces : ∀ before after, tokens = before ++ after → balance after ≤ 0

theorem IsClosed.of_append {front tokens : List Token} (closed : IsClosed (front ++ tokens)) :
    IsClosed tokens := by
  refine ⟨fun token member => closed.escapes token (List.mem_append_right front member), ?_⟩
  rintro before after rfl
  exact closed.braces (front ++ before) after (by simp)

end Token

namespace Scanner

open Token (textOf)

/-- A slice that is cut out of tokens: it consists of some of them, has all braces matched, and is
not at the end. -/
def Slice.CutFrom (slice : Slice) (base : Nat) (tokens : List Token) : Prop :=
  ∃ before part after options, tokens = before ++ part ++ after ∧ after ≠ [] ∧
    Token.CutInto part options ∧ slice.base = base + (textOf before).length ∧
    slice.chars = textOf part

theorem Slice.CutFrom.within {slice : Slice} {inner : Nat} {tokens : List Token}
    (cut : slice.CutFrom inner tokens) {base : Nat} {front : List Token} (back : List Token)
    (stands : inner = base + (textOf front).length) :
    slice.CutFrom base (front ++ tokens ++ back) := by
  rcases cut with ⟨before, part, after, options, rfl, more, cut, isBase, isChars⟩
  refine ⟨front ++ before, part, after ++ back, options, by simp, by simp [more], cut, ?_, isChars⟩
  rw [isBase, stands, Token.textOf_append, List.length_append, Nat.add_assoc]

theorem Slice.CutFrom.isClosed {slice : Slice} {base : Nat} {chars : Text}
    (cut : slice.CutFrom base (Token.ofText base chars)) :
    Token.IsClosed (Token.ofText slice.base slice.chars) := by
  rcases cut with ⟨before, part, after, options, tokens, more, cut, isBase, isChars⟩
  rw [isBase, isChars, Token.ofText_slice tokens]
  constructor
  · intro token member
    rcases List.append_of_mem member with ⟨front, back, rfl⟩
    have split : Token.ofText base chars = (before ++ front) ++ token :: (back ++ after) := by
      rw [tokens]
      simp
    exact Token.ne_strayEscape_of_ofText split (by simp [more])
  · intro front back split
    have whole := cut.balance_eq
    rw [split, Token.balance_append] at whole
    have nonneg := cut.balance_prefix split
    omega

/-- The faults that concern the end of the text. -/
def IsAtEnd (fault : Fault) : Prop :=
  fault = .trailingEscape ∨ ∃ offset, fault = .unterminatedBrace offset

theorem not_isAtEnd_of_class {offset : Nat} {text : Text} {fault : Fault}
    (failed : CharClass.read offset text = .error fault) : ¬IsAtEnd fault := by
  have general {negated : Bool} {members : Option (List ClassMember × Nat)}
      (failed : CharClass.ofMembers offset negated members = .error fault) : ¬IsAtEnd fault := by
    unfold CharClass.ofMembers at failed
    split at failed
    all_goals
      cases failed
      try rintro (isStray | ⟨offset, isBrace⟩) <;> contradiction
  unfold CharClass.read at failed
  split at failed <;> exact general failed

theorem not_isClosed_of_head_fault {base : Nat} {fresh : Bool} {chars : Text} {fault : Fault}
    (starts : head base fresh chars = .fault fault) (atEnd : IsAtEnd fault) :
    ¬Token.IsClosed (Token.ofText base chars) := by
  unfold head at starts
  split at starts
  case h_8 =>
    intro closed
    exact closed.escapes ⟨base, .strayEscape⟩ (List.mem_cons_self ..) rfl
  case h_10 rest =>
    split at starts
    case h_1 => cases starts
    case h_2 cause failed =>
      cases starts
      exact absurd atEnd (not_isAtEnd_of_class failed)
  case h_11 rest =>
    intro closed
    have tokens := Token.ofText_cons_of_ordinary (show '{' ∉ ['\\', '['] by decide) base rest
    rcases Token.exists_cutInto (Token.ofText (base + 1) rest) with
      ⟨inner, others, options, isInner, cut, unclosed | ⟨closing, after, rfl, isClosing⟩⟩
    · have noMore := closed.braces [] _ tokens
      have nonneg := unclosed.balance_nonneg
      rw [isInner, Token.balance_opening rfl, Token.balance_append, cut.balance_eq] at noMore
      omega
    · rw [Token.contentLength?_of_cutInto isInner cut isClosing] at starts
      cases starts
  all_goals
    try split at starts
    all_goals
      cases starts
      try rcases atEnd with isStray | ⟨offset, isBrace⟩
      all_goals contradiction

/-- The only fault of a range is that its bounds make no interval. -/
theorem exists_invalidRange_of_interval {text : Text} {fault : Fault}
    (failed : Interval.read text = .error fault) :
    ∃ first last, fault = .invalidRange first last := by
  rw [Interval.read] at failed
  split at failed
  case h_1 => cases failed
  case h_2 before after cut =>
    split at failed
    case h_1 first last readFirst readLast =>
      split at failed
      case h_1 firstWord lastWord wordFirst wordLast =>
        unfold Interval.ofWords at failed
        split at failed
        case h_1 => cases failed
        case h_2 =>
          cases failed
          exact ⟨_, _, rfl⟩
      case h_2 =>
        cases failed
        exact ⟨_, _, rfl⟩
    case h_2 => cases failed

theorem not_isAtEnd_of_interval {text : Text} {fault : Fault}
    (failed : Interval.read text = .error fault) : ¬IsAtEnd fault := by
  rcases exists_invalidRange_of_interval failed with ⟨first, last, rfl⟩
  rintro (isStray | ⟨offset, isBrace⟩)
  · cases isStray
  · cases isBrace

theorem exists_mem_of_forall₂ {First Second : Type} {related : First → Second → Prop}
    {firsts : List First} {seconds : List Second} (pairs : List.Forall₂ related firsts seconds)
    {first : First} (member : first ∈ firsts) : ∃ second ∈ seconds, related first second := by
  induction pairs with
  | nil => cases member
  | cons holds _ ih =>
      rcases List.mem_cons.mp member with rfl | inRest
      · exact ⟨_, List.mem_cons_self .., holds⟩
      · rcases ih inRest with ⟨second, secondMember, holds⟩
        exact ⟨second, List.mem_cons_of_mem _ secondMember, holds⟩

section Brace

variable {base : Nat} {fresh : Bool} {chars content : Text}

theorem cutFrom_of_mem_slicesOf (starts : head base fresh chars = .brace content) {slice : Slice}
    (member : slice ∈ slicesOf (base + 1) fresh content) :
    slice.CutFrom base (Token.ofText base chars) := by
  rcases explains_of_head starts with ⟨closing, options, tokens, isClosing, cut⟩
  generalize Token.ofText (base + content.length + 2) _ = behind at tokens
  rcases exists_mem_of_forall₂ (Token.forall₂_slicesOf cut) member with
    ⟨option, isOption, -, before, after, inside, isBase, isChars⟩
  refine ⟨⟨base, .plain '{'⟩ :: before, option, after ++ closing :: behind, [option], ?_, by simp,
    cut.of_mem option isOption, ?_, isChars⟩
  · rw [tokens, inside]
    simp
  · rw [isBase, Token.textOf_cons, Token.text_of_plain rfl, List.length_append, Nat.add_assoc]
    rfl

theorem exists_append_of_brace (starts : head base fresh chars = .brace content) :
    ∃ front, Token.ofText base chars =
        front ++ Token.ofText (base + content.length + 2) (chars.drop (content.length + 2)) ∧
      (textOf front).length = content.length + 2 := by
  rcases explains_of_head starts with ⟨closing, options, tokens, isClosing, -⟩
  refine ⟨⟨base, .plain '{'⟩ :: Token.ofText (base + 1) content ++ [closing], ?_, ?_⟩
  · rw [tokens]
    simp
  · simp [Token.text, isClosing]

end Brace

/-- The reading of a text that does not end within a piece has no fault of the end of the text. -/
theorem not_isAtEnd_of_isClosed {base : Nat} {fresh : Bool} {chars : Text} {fault : Fault}
    (closed : Token.IsClosed (Token.ofText base chars))
    (failed : (read base fresh chars).result = .error fault) : ¬IsAtEnd fault := by
  induction base, fresh, chars using read.induct with
  | case1 base fresh chars starts =>
      rw [read_of_done starts] at failed
      cases failed
  | case2 base fresh chars cause starts =>
      rw [read_of_fault starts] at failed
      cases failed
      exact fun atEnd => not_isClosed_of_head_fault starts atEnd closed
  | case3 base fresh chars item length next starts ih =>
      rcases (explains_of_head starts).1 with ⟨front, tokens, -⟩
      rw [tokens] at closed
      rw [read_of_item starts, Logged.result_bind, Logged.bind_eq_error] at failed
      rcases failed with failed | ⟨items, _, failed⟩
      · exact ih closed.of_append failed
      · cases failed
  | case4 base fresh chars content starts ihSlices ih =>
      rw [read_of_brace starts, Logged.result_bind, Logged.bind_eq_error, result_ofBrace,
        Logged.bind_eq_error] at failed
      rcases failed with (failed | ⟨interval?, _, failed⟩) | ⟨here, _, failed⟩
      · exact not_isAtEnd_of_interval failed
      · cases interval? with
        | some interval => cases failed
        | none =>
            rcases Logged.bind_eq_error.mp failed with failed | ⟨choices, _, failed⟩
            · -- A slice of a brace is closed in itself, whatever stands around the brace.
              rcases Logged.exists_of_all_eq_error failed with ⟨reading, member, isError⟩
              rcases List.mem_map.mp member with ⟨slice, isSlice, rfl⟩
              exact ihSlices ⟨slice, isSlice⟩ (cutFrom_of_mem_slicesOf starts isSlice).isClosed
                isError
            · cases failed
      · rw [Logged.result_bind, Logged.bind_eq_error] at failed
        rcases failed with failed | ⟨items, _, failed⟩
        · rcases exists_append_of_brace starts with ⟨front, tokens, -⟩
          rw [tokens] at closed
          exact ih closed.of_append failed
        · cases failed

theorem exists_of_mem_calls_ofBrace {content : Text} {readings : List (Logged (List Item))}
    {made : Call} (member : made ∈ (ofBrace content readings).calls) :
    ∃ reading ∈ readings, made ∈ reading.calls := by
  rcases Logged.mem_calls_bind member with inContent | ⟨interval?, _, member⟩
  · cases inContent
  · cases interval? with
    | some interval => cases member
    | none =>
        rcases Logged.mem_calls_bind member with inOptions | ⟨choices, _, inPure⟩
        · exact Logged.exists_of_mem_calls_all inOptions
        · cases inPure

/-- Every call of the reader is for a slice that is cut out of the tokens of the text. -/
theorem cutFrom_of_mem_calls {base : Nat} {fresh : Bool} {chars : Text} {made : Call}
    (member : made ∈ (read base fresh chars).calls) :
    made.slice.CutFrom base (Token.ofText base chars) ∧
      made.result = (read made.slice.base made.slice.fresh made.slice.chars).result := by
  induction base, fresh, chars using read.induct with
  | case1 base fresh chars starts => simp [read_of_done starts] at member
  | case2 base fresh chars cause starts =>
      rw [read_of_fault starts] at member
      cases member
  | case3 base fresh chars item length next starts ih =>
      rcases (explains_of_head starts).1 with ⟨front, tokens, isLength⟩
      rw [read_of_item starts] at member
      rcases Logged.mem_calls_bind member with inRest | ⟨items, _, inPure⟩
      · rcases ih inRest with ⟨cut, same⟩
        refine ⟨?_, same⟩
        rw [tokens, ← List.append_nil (front ++ _)]
        exact cut.within [] (by rw [isLength])
      · simp at inPure
  | case4 base fresh chars content starts ihSlices ih =>
      rw [read_of_brace starts] at member
      rcases Logged.mem_calls_bind member with inBrace | ⟨here, _, member⟩
      · rcases exists_of_mem_calls_ofBrace inBrace with ⟨reading, isReading, made⟩
        rcases List.mem_map.mp isReading with ⟨slice, isSlice, rfl⟩
        have sliceCut := cutFrom_of_mem_slicesOf starts isSlice
        rcases List.mem_cons.mp made with rfl | nested
        · exact ⟨sliceCut, rfl⟩
        · rcases ihSlices ⟨slice, isSlice⟩ nested with ⟨nestedCut, same⟩
          refine ⟨?_, same⟩
          -- A slice of the slice is cut from its tokens, and these are tokens of the text.
          rcases sliceCut with ⟨before, part, after, _, tokens, _, _, isBase, isChars⟩
          rw [isChars, isBase, Token.ofText_slice tokens] at nestedCut
          rw [tokens]
          exact nestedCut.within after rfl
      · rcases Logged.mem_calls_bind member with inRest | ⟨items, _, inPure⟩
        · rcases ih inRest with ⟨cut, same⟩
          rcases exists_append_of_brace starts with ⟨front, tokens, isLength⟩
          refine ⟨?_, same⟩
          rw [tokens, ← List.append_nil (front ++ _)]
          exact cut.within [] (by rw [isLength, Nat.add_assoc])
        · simp at inPure

/-! ## Pieces -/

/-- Whether the characters from an offset on stand wholly in a slice or wholly outside of it. -/
def Slice.Keeps (slice : Slice) (start length : Nat) : Prop :=
  start + length ≤ slice.base ∨ slice.base + slice.chars.length ≤ start ∨
    slice.base ≤ start ∧ start + length ≤ slice.base + slice.chars.length

/-- Whether a slice stands inside of the characters from an offset on. -/
def Slice.StandsIn (slice : Slice) (start length : Nat) : Prop :=
  start < slice.base ∧ slice.base + slice.chars.length < start + length

theorem exists_of_append_cons {before rest front back : List Token} {token : Token}
    (same : before ++ token :: rest = front ++ back) :
    (∃ later, front = before ++ token :: later ∧ rest = later ++ back) ∨
      ∃ earlier, before = front ++ earlier ∧ back = earlier ++ token :: rest := by
  rcases List.append_eq_append_iff.mp same with ⟨later, rfl, inLater⟩ | ⟨earlier, rfl, isBack⟩
  · rcases List.cons_eq_append_iff.mp inLater with ⟨rfl, isBack⟩ | ⟨others, rfl, isRest⟩
    · exact .inr ⟨[], by simp, isBack⟩
    · exact .inl ⟨others, rfl, isRest⟩
  · exact .inr ⟨earlier, rfl, isBack⟩

section Pieces

variable {slice : Slice} {base : Nat} {chars : Text}

/-- No class and no escaped character is cut. -/
theorem Slice.CutFrom.keeps_token (cut : slice.CutFrom base (Token.ofText base chars))
    {token : Token} (member : token ∈ Token.ofText base chars) :
    slice.Keeps token.offset token.text.length := by
  rcases cut with ⟨before, part, after, options, tokens, -, -, isBase, isChars⟩
  rcases List.append_of_mem member with ⟨earlier, rest, split⟩
  rw [Slice.Keeps, Token.offset_eq_of_ofText split, isBase, isChars]
  rw [split] at tokens
  rcases exists_of_append_cons tokens with ⟨later, inFront, -⟩ | ⟨behind, rfl, -⟩
  · rcases exists_of_append_cons inFront.symm with ⟨others, rfl, -⟩ | ⟨behind, rfl, rfl⟩
    · left
      simp only [Token.textOf_append, Token.textOf_cons, List.length_append]
      omega
    · right
      right
      simp only [Token.textOf_append, Token.textOf_cons, List.length_append]
      omega
  · right
    left
    simp only [Token.textOf_append, List.length_append]
    omega

/-- A brace that closes within another one does not close within a part of its content whose own
braces are matched. -/
theorem closing_not_mem {before part inner : List Token} {closing : Token}
    {options innerOptions : List (List Token)} {later : List Token}
    (innerCut : Token.CutInto inner innerOptions) (isClosing : closing.kind = .plain '}')
    (cut : Token.CutInto (part ++ closing :: later) options) : inner ≠ before ++ part := by
  intro split
  have whole := innerCut.balance_eq
  have nonneg := innerCut.balance_prefix split
  have upToClosing : part ++ closing :: later = (part ++ [closing]) ++ later := by simp
  have partNonneg := cut.balance_prefix upToClosing
  rw [split, Token.balance_append] at whole
  rw [Token.balance_append, Token.balance_closing isClosing, Token.balance] at partNonneg
  omega

theorem ofText_after_opening {earlier rest : List Token} {token : Token}
    (split : Token.ofText base chars = earlier ++ token :: rest)
    (isOpening : token.kind = .plain '{') :
    Token.ofText (token.offset + 1) (chars.drop (token.offset + 1 - base)) = rest := by
  have stands : Token.ofText base chars = (earlier ++ [token]) ++ rest := by
    rw [split]
    simp
  have isAfter := Token.ofText_suffix stands
  have whole := congrArg textOf stands
  rw [Token.textOf_ofText, Token.textOf_append] at whole
  have length : (textOf (earlier ++ [token])).length = (textOf earlier).length + 1 := by
    simp [Token.text, isOpening]
  rw [length] at isAfter
  have index : token.offset + 1 - base = (textOf (earlier ++ [token])).length := by
    rw [length, Token.offset_eq_of_ofText split]
    omega
  rw [index, whole, List.drop_left, Token.offset_eq_of_ofText split, Nat.add_assoc]
  exact isAfter

/-- No brace is cut, but a slice can be a part of the content of a brace. -/
theorem Slice.CutFrom.keeps_brace (cut : slice.CutFrom base (Token.ofText base chars))
    {token : Token} (member : token ∈ Token.ofText base chars) (isOpening : token.kind = .plain '{')
    {length : Nat} (closes : contentLength? (chars.drop (token.offset + 1 - base)) = some length) :
    slice.Keeps token.offset (length + 2) ∨ slice.StandsIn token.offset (length + 2) := by
  rcases cut with ⟨before, part, after, options, tokens, -, cut, isBase, isChars⟩
  rcases List.append_of_mem member with ⟨earlier, rest, split⟩
  have isRest := ofText_after_opening split isOpening
  rcases Token.exists_cutInto rest with
    ⟨inner, others, innerOptions, rfl, innerCut, unclosed | ⟨closing, behind, rfl, isClosing⟩⟩
  · rw [Token.contentLength?_of_unclosed isRest innerCut unclosed] at closes
    cases closes
  · rw [Token.contentLength?_of_cutInto isRest innerCut isClosing] at closes
    obtain rfl := Option.some.inj closes
    rw [Slice.Keeps, Slice.StandsIn, Token.offset_eq_of_ofText split, isBase, isChars]
    rw [split] at tokens
    rcases exists_of_append_cons tokens with ⟨later, inFront, isLater⟩ | ⟨afterPart, rfl, -⟩
    · rcases exists_of_append_cons inFront.symm with ⟨others, rfl, rfl⟩ | ⟨inPart, rfl, rfl⟩
      · -- The brace opens before the slice.
        rw [List.append_assoc] at isLater
        rcases exists_of_append_cons isLater with ⟨last, rfl, -⟩ | ⟨last, rfl, isBehind⟩
        · left
          left
          simp only [Token.textOf_append, Token.textOf_cons, Token.text_of_plain isClosing,
            List.length_append, List.length_singleton, Token.text_of_plain isOpening]
          omega
        · rcases exists_of_append_cons isBehind.symm with ⟨_, rfl, -⟩ | ⟨beyond, rfl, -⟩
          · exact absurd rfl (closing_not_mem innerCut isClosing cut)
          · right
            simp only [Token.textOf_append, Token.textOf_cons, List.length_append,
              Token.text_of_plain isOpening, List.length_singleton]
            omega
      · -- The brace opens in the slice.
        rcases exists_of_append_cons isLater with ⟨last, rfl, -⟩ | ⟨last, rfl, -⟩
        · left
          right
          right
          simp only [Token.textOf_append, Token.textOf_cons, Token.text_of_plain isClosing,
            List.length_append, List.length_singleton, Token.text_of_plain isOpening]
          omega
        · have whole := cut.balance_eq
          have partNonneg := cut.balance_prefix rfl
          have laterNonneg := innerCut.balance_prefix rfl
          rw [Token.balance_append, Token.balance_opening isOpening] at whole
          omega
    · left
      right
      left
      simp only [Token.textOf_append, List.length_append]
      omega

theorem Slice.CutFrom.base_le (cut : slice.CutFrom base (Token.ofText base chars)) :
    base ≤ slice.base := by
  rcases cut with ⟨before, part, after, options, -, -, -, isBase, -⟩
  rw [isBase]
  exact Nat.le_add_right _ _

theorem Slice.CutFrom.chars_eq (cut : slice.CutFrom base (Token.ofText base chars)) :
    slice.chars = (chars.drop (slice.base - base)).take slice.chars.length ∧
      ∃ before after, Token.ofText base chars =
        before ++ Token.ofText slice.base slice.chars ++ after := by
  rcases cut with ⟨before, part, after, options, tokens, -, -, isBase, isChars⟩
  have whole := congrArg textOf tokens
  rw [Token.textOf_ofText, Token.textOf_append, Token.textOf_append, List.append_assoc] at whole
  constructor
  · rw [isBase, isChars, Nat.add_sub_cancel_left, whole, List.drop_left, List.take_left]
  · refine ⟨before, after, ?_⟩
    rw [isBase, isChars, Token.ofText_slice tokens, tokens]

end Pieces

theorem exists_readPattern (source : Text) :
    ∃ front body, source = front ++ body ∧ readPattern source = read front.length true body ∧
      Pattern.tokensOf source = Token.ofText front.length body := by
  by_cases anchored : ∃ body, source = '/' :: body
  case pos =>
    rcases anchored with ⟨body, rfl⟩
    exact ⟨['/'], body, rfl, rfl, rfl⟩
  case neg =>
    have notAnchored (body : Text) : source ≠ '/' :: body := fun same => anchored ⟨body, same⟩
    refine ⟨[], source, rfl, ?_, ?_⟩
    · rw [readPattern]
      · rfl
      · exact notAnchored
    · rw [Pattern.tokensOf]
      · rfl
      · exact notAnchored

/-- The scans agree at every depth. The bracket that closes a class is found by the search for it
if and only if it is found by the reading of the class. And the reading by slices gives what the
trees give, since every slice that the reader calls itself on consists of whole tokens of the
pattern: no class, no escaped character and no brace is cut, so no slice has a fault of the end of
the text. -/
theorem scanners_agree :
    (∀ (chars : Text) (opening offset : Nat), chars[opening]? = some '[' →
      (∀ closing, CharClass.closingIndex? chars opening = some closing ↔
        opening < closing ∧
          CharClass.ClosesAfter offset (chars.drop opening) (closing - opening)) ∧
      (CharClass.closingIndex? chars opening = none ↔
        CharClass.read offset (chars.drop opening) = .error (.unterminatedClass offset))) ∧
    ∀ source : Text, (readPattern source).result = Pattern.itemsOf source ∧
      ∀ made ∈ (readPattern source).calls,
        made.slice.chars = (source.drop made.slice.base).take made.slice.chars.length ∧
        (∃ before after, Pattern.tokensOf source =
          before ++ Token.ofText made.slice.base made.slice.chars ++ after) ∧
        (∀ token ∈ Pattern.tokensOf source,
          made.slice.Keeps token.offset token.text.length ∧
          (token.kind = .plain '{' → ∀ length,
            contentLength? (source.drop (token.offset + 1)) = some length →
              made.slice.Keeps token.offset (length + 2) ∨
                made.slice.StandsIn token.offset (length + 2))) ∧
        ∀ fault, made.result = .error fault → ¬IsAtEnd fault := by
  refine ⟨fun chars opening offset isOpening => CharClass.closingIndex?_iff isOpening offset, ?_⟩
  intro source
  rcases exists_readPattern source with ⟨front, body, rfl, isReading, tokens⟩
  rw [isReading, Pattern.itemsOf, tokens]
  refine ⟨result_read front.length true body, fun made member => ?_⟩
  rcases cutFrom_of_mem_calls member with ⟨cut, isResult⟩
  rcases cut.chars_eq with ⟨isChars, segments⟩
  have behindFront {index : Nat} (behind : front.length ≤ index) :
      (front ++ body).drop index = body.drop (index - front.length) := by
    rw [List.drop_append, List.drop_of_length_le behind, List.nil_append]
  refine ⟨?_, segments, fun token isToken => ⟨cut.keeps_token isToken, ?_⟩, ?_⟩
  · rw [behindFront]
    · exact isChars
    · exact cut.base_le
  · intro isOpening length closes
    rw [behindFront] at closes
    · exact cut.keeps_brace isToken isOpening closes
    · rcases List.append_of_mem isToken with ⟨before, after, split⟩
      rw [Token.offset_eq_of_ofText split]
      omega
  · intro fault failed
    rw [isResult] at failed
    exact not_isAtEnd_of_isClosed cut.isClosed failed

/-- A brace whose second option has a class with a brace in it, and a further brace. -/
def nestedBraces : Text :=
  ['{', 'a', ',', '[', 'b', '}', ']', 'c', '{', 'd', ',', 'e', '}', '}']

theorem scanners_agree_nestedBraces :
    let option := (nestedBraces.drop 3).take 10
    nestedBraces[3]? = some '[' ∧ CharClass.ClosesAfter 3 (nestedBraces.drop 3) 3 ∧
      ∃ made ∈ (readPattern nestedBraces).calls, made.slice.base = 3 ∧
        made.slice.chars = option ∧
        (made.slice.Keeps 8 5 ∨ made.slice.StandsIn 8 5) ∧
        ∀ fault, made.result = .error fault → ¬IsAtEnd fault := by
  intro option
  have isOpening : nestedBraces[3]? = some '[' := by decide
  have closes : CharClass.closingIndex? nestedBraces 3 = some 6 := by decide +kernel
  have isToken : ⟨8, .plain '{'⟩ ∈ Pattern.tokensOf nestedBraces := by decide +kernel
  have slices : (readPattern nestedBraces).calls.map (fun made =>
      (made.slice.base, made.slice.chars)) =
        [(1, ['a']), (3, option), (9, ['d']), (11, ['e'])] := by
    decide +kernel
  have listed : (3, option) ∈ (readPattern nestedBraces).calls.map (fun made =>
      (made.slice.base, made.slice.chars)) := by
    rw [slices]
    decide
  rcases List.mem_map.mp listed with ⟨made, member, same⟩
  rcases Prod.mk.inj same with ⟨isBase, isChars⟩
  rcases scanners_agree.2 nestedBraces with ⟨-, each⟩
  rcases each made member with ⟨-, -, keeps, noFault⟩
  refine ⟨isOpening, ?_, made, member, isBase, isChars, ?_, noFault⟩
  · exact (((scanners_agree.1 nestedBraces 3 3 isOpening).1 6).mp closes).2
  · exact (keeps _ isToken).2 rfl 3 (by decide +kernel)

end Scanner

end Glob

end PropertyCascade
