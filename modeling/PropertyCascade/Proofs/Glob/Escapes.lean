import PropertyCascade.Proofs.Glob.Locality

/-!
# Escapes in classes

A backslash in a class escapes the character after it, so a class should close at its first closing
bracket that is not escaped. It does, as long as no span of the class ends with a backslash. The end
of a span is taken as it stands: in `[A-\]]` the backslash is the last character of the span and
escapes nothing, and the bracket after it closes the class.

`FirstUnescaped` and `EscapedAt` say what the escapes of a text are without regard to spans, and
`ReadsTo` how its members are read. Along the reading the two part at the first span that ends with
a backslash, and nowhere else.
-/

namespace PropertyCascade

namespace Glob

open Source

namespace CharClass

/-! ## Escapes -/

/-- The number of characters before the first closing bracket that is not escaped, where every
backslash escapes the character after it. -/
inductive FirstUnescaped : Text → Nat → Prop where
  | here (rest : Text) : FirstUnescaped (']' :: rest) 0
  | escaped {rest : Text} {length : Nat} (c : Char) (later : FirstUnescaped rest length) :
      FirstUnescaped ('\\' :: c :: rest) (length + 2)
  | other {rest : Text} {length : Nat} {c : Char} (notEscape : c ≠ '\\') (notClosing : c ≠ ']')
      (later : FirstUnescaped rest length) : FirstUnescaped (c :: rest) (length + 1)

/-- A character with the backslash that escapes it, after a number of characters. -/
inductive EscapedAt (escaped : Char) : Text → Nat → Prop where
  | here (rest : Text) : EscapedAt escaped ('\\' :: escaped :: rest) 0
  | escaped {rest : Text} {length : Nat} (c : Char) (later : EscapedAt escaped rest length) :
      EscapedAt escaped ('\\' :: c :: rest) (length + 2)
  | other {rest : Text} {length : Nat} {c : Char} (notEscape : c ≠ '\\')
      (later : EscapedAt escaped rest length) : EscapedAt escaped (c :: rest) (length + 1)

section Steps

variable {rest : Text} {length : Nat}

theorem not_firstUnescaped_nil : ¬FirstUnescaped [] length := by
  intro first
  cases first

theorem not_firstUnescaped_stray : ¬FirstUnescaped ['\\'] length := by
  intro first
  cases first with
  | other notEscape => exact notEscape rfl

theorem firstUnescaped_closing : FirstUnescaped (']' :: rest) length ↔ length = 0 := by
  constructor
  · intro first
    cases first with
    | here => rfl
    | other _ notClosing => exact absurd rfl notClosing
  · rintro rfl
    exact .here rest

theorem firstUnescaped_escaped {c : Char} :
    FirstUnescaped ('\\' :: c :: rest) length ↔
      ∃ later, FirstUnescaped rest later ∧ later + 2 = length := by
  constructor
  · intro first
    cases first with
    | escaped _ later => exact ⟨_, later, rfl⟩
    | other notEscape => exact absurd rfl notEscape
  · rintro ⟨later, first, rfl⟩
    exact .escaped c first

theorem firstUnescaped_other {c : Char} (notEscape : c ≠ '\\') (notClosing : c ≠ ']') :
    FirstUnescaped (c :: rest) length ↔
      ∃ later, FirstUnescaped rest later ∧ later + 1 = length := by
  constructor
  · intro first
    cases first with
    | here => exact absurd rfl notClosing
    | escaped => exact absurd rfl notEscape
    | other _ _ later => exact ⟨_, later, rfl⟩
  · rintro ⟨later, first, rfl⟩
    exact .other notEscape notClosing first

theorem EscapedAt.of_other {escaped c : Char} (escapes : EscapedAt escaped (c :: rest) length)
    (notEscape : c ≠ '\\') : ∃ later, EscapedAt escaped rest later ∧ later + 1 = length := by
  generalize same : c :: rest = text at escapes
  cases escapes with
  | here => exact absurd (List.cons.inj same).1 notEscape
  | escaped => exact absurd (List.cons.inj same).1 notEscape
  | other _ later =>
      rcases List.cons.inj same with ⟨rfl, rfl⟩
      exact ⟨_, later, rfl⟩

end Steps

/-! ## The reading of members -/

/-- Reading the members of a class from left to right arrives at a rest of the text. -/
inductive ReadsTo (goal : Text) : Text → Prop where
  | arrived : ReadsTo goal goal
  | escaped {rest : Text} (c : Char) (later : ReadsTo goal rest) : ReadsTo goal ('\\' :: c :: rest)
  | span {rest : Text} {first last : Char} (notEscape : first ≠ '\\') (notFirst : first ≠ ']')
      (notLast : last ≠ ']') (later : ReadsTo goal rest) :
      ReadsTo goal (first :: '-' :: last :: rest)
  | single {rest : Text} {c : Char} (notEscape : c ≠ '\\') (notClosing : c ≠ ']')
      (noSpan : ∀ last others, rest = '-' :: last :: others → last = ']')
      (later : ReadsTo goal rest) : ReadsTo goal (c :: rest)

/-- Reading the members of a class comes to a span that ends with a backslash. -/
def SpansToEscape (text : Text) : Prop :=
  ∃ first rest, first ≠ '\\' ∧ first ≠ ']' ∧ ReadsTo (first :: '-' :: '\\' :: rest) text

theorem SpansToEscape.of_later {text rest : Text}
    (goesOn : ∀ goal, ReadsTo goal rest → ReadsTo goal text) (spans : SpansToEscape rest) :
    SpansToEscape text := by
  rcases spans with ⟨first, others, notEscape, notClosing, reads⟩
  exact ⟨first, others, notEscape, notClosing, goesOn _ reads⟩

/-- Without a span that ends with a backslash, a class closes at the first bracket that is not
escaped. -/
theorem closing?_eq_some_iff {text : Text} (noSpan : ¬SpansToEscape text) {length : Nat} :
    closing? text = some length ↔ FirstUnescaped text length := by
  fun_induction closing? text generalizing length with
  | case1 => simp [not_firstUnescaped_nil]
  | case2 rest =>
      rw [firstUnescaped_closing]
      simp [eq_comm]
  | case3 => simp [not_firstUnescaped_stray]
  | case4 c rest ih =>
      have restNoSpan := mt (SpansToEscape.of_later fun _ => ReadsTo.escaped c) noSpan
      simp only [firstUnescaped_escaped, Option.map_eq_some_iff, ih restNoSpan]
  | case5 first rest notClosing notEscape =>
      simp [firstUnescaped_other notEscape notClosing, firstUnescaped_other, firstUnescaped_closing,
        eq_comm]
  | case6 first last rest notClosing notEscape notLast ih =>
      have notSpanEnd : last ≠ '\\' := by
        rintro rfl
        exact noSpan ⟨first, rest, notEscape, notClosing, .arrived⟩
      have restNoSpan :=
        mt (SpansToEscape.of_later fun _ => ReadsTo.span notEscape notClosing notLast) noSpan
      simp [firstUnescaped_other notEscape notClosing, firstUnescaped_other,
        firstUnescaped_other notSpanEnd notLast, ih restNoSpan]
  | case7 c rest notClosing notStray notEscape noClosing noSpanHere ih =>
      have isOther : c ≠ '\\' := by
        intro isEscape
        cases rest with
        | nil => exact notStray isEscape rfl
        | cons second others => exact notEscape second others isEscape rfl
      have restNoSpan : ¬SpansToEscape rest := by
        refine mt (SpansToEscape.of_later fun _ => ReadsTo.single isOther notClosing ?_) noSpan
        intro last others spans
        exact absurd spans (noSpanHere last others)
      simp only [firstUnescaped_other isOther notClosing, Option.map_eq_some_iff, ih restNoSpan]

theorem closing?_single {c : Char} {rest : Text} (notEscape : c ≠ '\\') (notClosing : c ≠ ']')
    (noSpan : ∀ last others, rest = '-' :: last :: others → last = ']') :
    closing? (c :: rest) = (closing? rest).map (· + 1) := by
  by_cases closes : ∃ others, rest = '-' :: ']' :: others
  case pos =>
    rcases closes with ⟨others, rfl⟩
    simp [closing?]
  case neg =>
    rw [closing?]
    · exact notClosing
    · exact fun isEscape => absurd isEscape notEscape
    · exact fun _ _ isEscape => absurd isEscape notEscape
    · exact fun others spans => closes ⟨others, spans⟩
    · rintro last others spans
      exact closes ⟨others, noSpan last others spans ▸ spans⟩

theorem map_add_right (found : Option Nat) (length more : Nat) :
    (found.map (length + ·)).map (· + more) = found.map (length + more + ·) := by
  rw [Option.map_map]
  congr 1
  funext place
  exact Nat.add_right_comm ..

/-- Where the reading of members arrives, the class closes where the rest does. -/
theorem ReadsTo.closing?_eq {goal text : Text} (reads : ReadsTo goal text) :
    ∃ before, text = before ++ goal ∧
      closing? text = (closing? goal).map (before.length + ·) := by
  induction reads with
  | arrived => exact ⟨[], rfl, by simp⟩
  | escaped c _ ih =>
      rcases ih with ⟨before, rfl, closes⟩
      refine ⟨'\\' :: c :: before, rfl, ?_⟩
      rw [closing?, closes, map_add_right]
      rfl
  | @span rest first last notEscape notFirst notLast _ ih =>
      rcases ih with ⟨before, rfl, closes⟩
      refine ⟨first :: '-' :: last :: before, rfl, ?_⟩
      have spans : closing? (first :: '-' :: last :: (before ++ goal)) =
          (closing? (before ++ goal)).map (· + 3) := by
        rw [closing?] <;> simp_all
      rw [spans, closes, map_add_right]
      rfl
  | @single rest c notEscape notClosing noSpan _ ih =>
      rcases ih with ⟨before, rfl, closes⟩
      refine ⟨c :: before, rfl, ?_⟩
      rw [closing?_single notEscape notClosing noSpan, closes, map_add_right]
      rfl

/-- Only a backslash after a dash can end a span. -/
theorem not_spansToEscape {text : Text} (apart : ¬['-', '\\'] <:+: text) : ¬SpansToEscape text := by
  rintro ⟨first, rest, -, -, reads⟩
  rcases reads.closing?_eq with ⟨before, rfl, -⟩
  exact apart ⟨before ++ [first], rest, by simp⟩

/-- Without a span that ends with a backslash, an escaped character is a member. -/
theorem single_mem_of_escapedAt {body rest : Text} {members : List ClassMember} {c : Char}
    {place : Nat} (lists : ClassMembers body members)
    (noSpan : ¬SpansToEscape (body ++ ']' :: rest))
    (escapes : EscapedAt c (body ++ ']' :: rest) place) (within : place < body.length) :
    .single c ∈ members := by
  induction lists generalizing place with
  | nil => cases within
  | escaped d _ ih =>
      have restNoSpan := mt (SpansToEscape.of_later fun _ => ReadsTo.escaped d) noSpan
      cases escapes with
      | here => exact List.mem_cons_self ..
      | escaped _ later =>
          refine List.mem_cons_of_mem _ (ih restNoSpan later ?_)
          simpa using within
      | other notEscape => exact absurd rfl notEscape
  | @span later members first last notEscape notFirst notLast _ ih =>
      have notSpanEnd : last ≠ '\\' := by
        rintro rfl
        exact noSpan ⟨first, later ++ ']' :: rest, notEscape, notFirst, .arrived⟩
      have restNoSpan :=
        mt (SpansToEscape.of_later fun _ => ReadsTo.span notEscape notFirst notLast) noSpan
      -- None of the three characters is a backslash, so the escape stands behind them.
      rcases escapes.of_other notEscape with ⟨_, atDash, rfl⟩
      rcases atDash.of_other (by decide) with ⟨_, atLast, rfl⟩
      rcases atLast.of_other notSpanEnd with ⟨_, behind, rfl⟩
      refine List.mem_cons_of_mem _ (ih restNoSpan behind ?_)
      simpa using within
  | @single later members c notEscape notClosing noSpanHere _ ih =>
      have restNoSpan : ¬SpansToEscape (later ++ ']' :: rest) := by
        refine mt (SpansToEscape.of_later fun _ => ReadsTo.single notEscape notClosing ?_) noSpan
        intro last others spans
        by_contra notLast
        exact append_closing_ne_span noSpanHere notLast spans
      rcases escapes.of_other notEscape with ⟨_, behind, rfl⟩
      refine List.mem_cons_of_mem _ (ih restNoSpan behind ?_)
      simpa using within

/-! ## Classes in a pattern -/

/-- The sign of negation with which the text after an opening bracket starts, if it does. -/
def IsSign (sign text : Text) : Prop :=
  sign = ['!'] ∨ sign = [] ∧ text.head? ≠ some '!'

theorem IsSign.bodyLength?_eq {sign text : Text} (isSign : IsSign sign text) :
    bodyLength? (sign ++ text) = (closing? text).map (sign.length + ·) := by
  rcases isSign with rfl | ⟨rfl, notNegated⟩
  · simp [bodyLength?, Nat.add_comm]
  · rw [List.nil_append, bodyLength?]
    · simp
    · rintro rest rfl
      exact notNegated rfl

theorem IsSign.members_ofBody {sign text : Text} (isSign : IsSign sign text) (length : Nat) :
    (ofBody (sign ++ text.take length)).members = membersOf (text.take length) := by
  rcases isSign with rfl | ⟨rfl, notNegated⟩
  · rfl
  · rw [List.nil_append, ofBody]
    rintro rest same
    cases text with
    | nil => simp at same
    | cons c later =>
        cases length with
        | zero => simp at same
        | succ length => exact notNegated (congrArg some (List.cons.inj same).1)

theorem IsSign.closingIndex?_eq {sign text : Text} (isSign : IsSign sign text) (before : Text) :
    closingIndex? (before ++ '[' :: (sign ++ text)) before.length =
      (closing? text).map (before.length + 1 + sign.length + ·) := by
  have behind : (before ++ '[' :: (sign ++ text)).drop (before.length + 1) = sign ++ text := by
    simp [List.drop_append]
  rw [closingIndex?, behind, isSign.bodyLength?_eq, Option.map_map]
  congr 1
  funext length
  exact (Nat.add_assoc ..).symm

theorem IsSign.closesAfter_iff {sign text : Text} (isSign : IsSign sign text) (offset : Nat)
    (distance : Nat) :
    ClosesAfter offset ('[' :: (sign ++ text)) distance ↔
      ∃ length, closing? text = some length ∧ distance = 1 + sign.length + length := by
  rw [CharClass.closesAfter_iff, isSign.bodyLength?_eq, Option.map_map, Option.map_eq_some_iff]
  apply exists_congr
  intro length
  apply and_congr_right
  intro _
  simp only [Function.comp_apply]
  omega

/-- Where a class closes and what its escapes do. The class closes at its first closing bracket
that is not escaped, and every escaped character is a member of it, unless the reading of its
members comes to a span that ends with a backslash. There the reading goes on with the character
after the backslash as with any other. -/
theorem closes_at_firstUnescaped {sign text : Text} (isSign : IsSign sign text) (before : Text)
    (offset : Nat) :
    (¬SpansToEscape text →
      (∀ closing, closingIndex? (before ++ '[' :: (sign ++ text)) before.length = some closing ↔
        ∃ length, FirstUnescaped text length ∧
          closing = before.length + 1 + sign.length + length) ∧
      (∀ distance, ClosesAfter offset ('[' :: (sign ++ text)) distance ↔
        ∃ length, FirstUnescaped text length ∧ distance = 1 + sign.length + length) ∧
      ∀ charClass length, read offset ('[' :: (sign ++ text)) = .ok (charClass, length) →
        ∀ c place, EscapedAt c text place → sign.length + place + 2 < length →
          .single c ∈ charClass.members) ∧
    ∀ first rest, first ≠ '\\' → first ≠ ']' → ReadsTo (first :: '-' :: '\\' :: rest) text →
      ∃ skipped, text = skipped ++ rest ∧
        closingIndex? (before ++ '[' :: (sign ++ text)) before.length =
          (closing? rest).map (before.length + 1 + sign.length + skipped.length + ·) := by
  constructor
  · intro noSpan
    refine ⟨fun closing => ?_, fun distance => ?_, ?_⟩
    · rw [isSign.closingIndex?_eq, Option.map_eq_some_iff]
      simp only [closing?_eq_some_iff noSpan, eq_comm]
    · rw [isSign.closesAfter_iff]
      simp only [closing?_eq_some_iff noSpan]
    · intro charClass length isRead c place escapes within
      rw [read_eq, isSign.bodyLength?_eq] at isRead
      cases closes : closing? text with
      | none => simp [closes] at isRead
      | some found =>
          rcases classMembers_of_closing? closes with ⟨body, rest, members, rfl, rfl, lists⟩
          simp only [closes, Option.map_some] at isRead
          split at isRead
          case isTrue => cases isRead
          case isFalse =>
            rcases Prod.mk.inj (Except.ok.inj isRead) with ⟨rfl, rfl⟩
            rw [List.take_length_add_append, isSign.members_ofBody, List.take_left,
              ← eq_membersOf lists]
            exact single_mem_of_escapedAt lists noSpan escapes (by omega)
  · intro first rest notEscape notClosing reads
    rcases reads.closing?_eq with ⟨skipped, rfl, closes⟩
    have spans : closing? (first :: '-' :: '\\' :: rest) = (closing? rest).map (· + 3) := by
      rw [closing?] <;> simp_all
    refine ⟨skipped ++ [first, '-', '\\'], by simp, ?_⟩
    rw [isSign.closingIndex?_eq, closes, spans, Option.map_map, Option.map_map]
    congr 1
    funext length
    simp only [Function.comp_apply, List.length_append, List.length_cons, List.length_nil]
    omega

/-- The body of a class with an escaped bracket, and the bracket that closes the class. -/
def escapedBracket : Text := ['\\', ']', 'a', '-', 'z', ']']

theorem closes_at_firstUnescaped_escapedBracket :
    IsSign ['!'] escapedBracket ∧ ¬SpansToEscape escapedBracket ∧
      FirstUnescaped escapedBracket 5 ∧ EscapedAt ']' escapedBracket 0 ∧
      closingIndex? (['x'] ++ '[' :: (['!'] ++ escapedBracket)) 1 = some 8 ∧
      ∃ charClass, read 1 ('[' :: (['!'] ++ escapedBracket)) = .ok (charClass, 8) ∧
        .single ']' ∈ charClass.members := by
  have isSign : IsSign ['!'] escapedBracket := .inl rfl
  have noSpan : ¬SpansToEscape escapedBracket := not_spansToEscape (by decide)
  have first : FirstUnescaped escapedBracket 5 :=
    .escaped ']' (.other (by decide) (by decide) (.other (by decide) (by decide)
      (.other (by decide) (by decide) (.here []))))
  have escapes : EscapedAt ']' escapedBracket 0 := .here _
  rcases (closes_at_firstUnescaped isSign ['x'] 1).1 noSpan with ⟨closes, -, members⟩
  have isRead : read 1 ('[' :: (['!'] ++ escapedBracket)) =
      .ok (⟨true, [.single ']', .span 'a' 'z']⟩, 8) := by
    rw [read_eq]
    rfl
  exact ⟨isSign, noSpan, first, escapes, (closes 8).mpr ⟨5, first, rfl⟩, _, isRead,
    members _ 8 isRead ']' 0 escapes (by decide)⟩

/-- The body of a class with a span that ends with a backslash, and two brackets. -/
def spanToBackslash : Text := ['A', '-', '\\', ']', ']']

/-- The bracket after the span is escaped, and closes the class. -/
theorem closes_at_escaped_spanToBackslash :
    IsSign [] spanToBackslash ∧ EscapedAt ']' spanToBackslash 2 ∧
      FirstUnescaped spanToBackslash 4 ∧ closingIndex? ('[' :: spanToBackslash) 0 = some 4 ∧
      ClosesAfter 0 ('[' :: spanToBackslash) 4 := by
  have first : FirstUnescaped spanToBackslash 4 :=
    .other (by decide) (by decide) (.other (by decide) (by decide) (.escaped ']' (.here [])))
  have escapes : EscapedAt ']' spanToBackslash 2 :=
    .other (by decide) (.other (by decide) (.here _))
  exact ⟨.inr ⟨rfl, by decide⟩, escapes, first, by decide, (closesAfter_iff 0 _ 4).mpr (by decide)⟩

end CharClass

end Glob

end PropertyCascade
