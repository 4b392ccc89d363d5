import Mathlib.Data.List.Infix
import PropertyCascade.Proofs.Glob.Pieces

/-!
# Globstars as whole segments

A `**` stands for whole path segments, so it may only stand where a segment starts and has to be the
whole of it. With braces around, where it stands depends on the options that are chosen: the text
before an option and the text after it are in other slices of the pattern. `ExpandsTo` says which
sequences of tokens a pattern stands for once an option has been chosen for every alternation.

In a pattern that compiles, a `**` is at the start of a segment in every expansion. What follows it
is only examined as far as the option or the content of the brace that it stands in: there it is
followed by a separator or by the end.

The reading of trees is followed along an expansion. Where a group is read, its options are read at
the place of the group, and what comes after a group never starts a segment.
-/

namespace PropertyCascade

namespace Glob

namespace Token

/-! ## Expansions -/

/-- The tokens that are left of a pattern when an option is chosen for every alternation. The braces
around a single option are kept. -/
inductive ExpandsTo : List Token → List Token → Prop where
  | nil : ExpandsTo [] []
  | token {token : Token} {tokens expansion : List Token} (notOpening : token.kind ≠ .plain '{')
      (later : ExpandsTo tokens expansion) : ExpandsTo (token :: tokens) (token :: expansion)
  | braces {opening closing : Token} {inner kept tokens expansion : List Token}
      (isOpening : opening.kind = .plain '{') (isClosing : closing.kind = .plain '}')
      (cut : CutInto inner [inner]) (within : ExpandsTo inner kept)
      (later : ExpandsTo tokens expansion) :
      ExpandsTo (opening :: inner ++ closing :: tokens) (opening :: kept ++ closing :: expansion)
  | choice {opening closing : Token} {inner option chosen tokens expansion : List Token}
      {options : List (List Token)} (isOpening : opening.kind = .plain '{')
      (isClosing : closing.kind = .plain '}') (cut : CutInto inner options)
      (several : 2 ≤ options.length) (member : option ∈ options)
      (chooses : ExpandsTo option chosen) (later : ExpandsTo tokens expansion) :
      ExpandsTo (opening :: inner ++ closing :: tokens) (chosen ++ expansion)

theorem CutInto.infix_of_mem {tokens option : List Token} {options : List (List Token)}
    (cut : CutInto tokens options) (member : option ∈ options) : option <:+: tokens := by
  rcases Scanner.exists_mem_of_forall₂ (cut.joins.forall₂_placed 0).flip member with
    ⟨place, -, before, after, rfl, -, -⟩
  exact ⟨before, after, rfl⟩

theorem ExpandsTo.subset {tokens expansion : List Token} (expands : ExpandsTo tokens expansion) :
    expansion ⊆ tokens := by
  induction expands with
  | nil => exact List.Subset.refl _
  | token _ _ ih => exact List.cons_subset_cons _ ih
  | braces _ _ _ _ _ ihWithin ih =>
      intro token member
      simp only [List.cons_append, List.mem_cons, List.mem_append] at member ⊢
      rcases member with rfl | inKept | rfl | inLater
      · exact .inl rfl
      · exact .inr (.inl (ihWithin inKept))
      · exact .inr (.inr (.inl rfl))
      · exact .inr (.inr (.inr (ih inLater)))
  | choice _ _ cut _ isOption _ _ ihChosen ih =>
      intro token member
      simp only [List.cons_append, List.mem_cons, List.mem_append] at member ⊢
      rcases member with inChosen | inLater
      · exact .inr (.inl ((cut.infix_of_mem isOption).subset (ihChosen inChosen)))
      · exact .inr (.inr (.inr (ih inLater)))

/-- Two stars next to each other. -/
structure IsGlobstar (tokens : List Token) (first second : Token) : Prop where
  adjacent : [first, second] <:+: tokens
  first_star : first.kind = .plain '*'
  second_star : second.kind = .plain '*'

/-- Whether some tokens stand at the end of an option, or of all that is in a brace. -/
def EndsOption (tokens part : List Token) : Prop :=
  ∃ opening inner closing options option, opening :: inner ++ [closing] <:+: tokens ∧
    opening.kind = .plain '{' ∧ closing.kind = .plain '}' ∧ CutInto inner options ∧
      option ∈ options ∧ part <:+ option

theorem EndsOption.mono {tokens more part : List Token} (ends : EndsOption tokens part)
    (stands : tokens <:+: more) : EndsOption more part := by
  rcases ends with ⟨opening, inner, closing, options, option, isBrace, rest⟩
  exact ⟨opening, inner, closing, options, option, isBrace.trans stands, rest⟩

/-! ## Places -/

section Places

variable {first second : Token} {tokens others : List Token}

theorem infix_pair_cons {token : Token} (adjacent : [first, second] <:+: token :: tokens) :
    token = first ∧ (∃ later, tokens = second :: later) ∨ [first, second] <:+: tokens := by
  rcases List.infix_cons_iff.mp adjacent with starts | later
  · rcases List.cons_prefix_cons.mp starts with ⟨rfl, more⟩
    rcases more with ⟨later, rfl⟩
    exact .inl ⟨rfl, later, rfl⟩
  · exact .inr later

theorem infix_pair_append (adjacent : [first, second] <:+: tokens ++ others) :
    [first, second] <:+: tokens ∨ [first, second] <:+: others ∨
      ∃ later, others = second :: later ∧ first ∈ tokens := by
  induction tokens with
  | nil => exact .inr (.inl adjacent)
  | cons token tokens ih =>
      rcases infix_pair_cons adjacent with ⟨rfl, later, rest⟩ | adjacent
      · cases tokens with
        | nil => exact .inr (.inr ⟨later, rest, List.mem_cons_self ..⟩)
        | cons next tokens =>
            obtain rfl := (List.cons.inj rest).1
            exact .inl ⟨[], tokens, rfl⟩
      · rcases ih adjacent with inTokens | inOthers | ⟨later, rest, member⟩
        · exact .inl (List.infix_cons inTokens)
        · exact .inr (.inl inOthers)
        · exact .inr (.inr ⟨later, rest, List.mem_cons_of_mem _ member⟩)

/-- A globstar does not go over the edge of a brace. -/
theorem IsGlobstar.of_brace {opening closing : Token} {inner : List Token}
    (globstar : IsGlobstar (opening :: inner ++ closing :: tokens) first second)
    (isOpening : opening.kind = .plain '{') (isClosing : closing.kind = .plain '}') :
    IsGlobstar inner first second ∨ IsGlobstar tokens first second := by
  rcases globstar with ⟨adjacent, firstStar, secondStar⟩
  rcases infix_pair_append adjacent with inFront | inBack | ⟨later, rest, -⟩
  · rcases infix_pair_cons inFront with ⟨rfl, -⟩ | inInner
    · simp [firstStar] at isOpening
    · exact .inl ⟨inInner, firstStar, secondStar⟩
  · rcases infix_pair_cons inBack with ⟨rfl, -⟩ | inLater
    · simp [firstStar] at isClosing
    · exact .inr ⟨inLater, firstStar, secondStar⟩
  · obtain rfl := (List.cons.inj rest).1
    simp [secondStar] at isClosing

theorem IsGlobstar.mem_first (globstar : IsGlobstar tokens first second) : first ∈ tokens :=
  globstar.adjacent.subset (List.mem_cons_self ..)

theorem IsGlobstar.mem_second (globstar : IsGlobstar tokens first second) : second ∈ tokens :=
  globstar.adjacent.subset (by simp)

/-- A globstar whose stars are both in a part stands in it. -/
theorem IsGlobstar.of_infix {part : List Token} (globstar : IsGlobstar tokens first second)
    (nodup : tokens.Nodup) (stands : part <:+: tokens) (hasFirst : first ∈ part)
    (hasSecond : second ∈ part) : IsGlobstar part first second := by
  rcases stands with ⟨before, after, rfl⟩
  refine ⟨?_, globstar.first_star, globstar.second_star⟩
  rw [List.append_assoc] at nodup
  rcases List.nodup_append.mp nodup with ⟨-, partNodup, apart⟩
  rcases List.nodup_append.mp partNodup with ⟨-, -, apartAfter⟩
  have adjacent := globstar.adjacent
  rw [List.append_assoc] at adjacent
  rcases infix_pair_append adjacent with inBefore | adjacent | ⟨later, rest, inBefore⟩
  · have inFront := inBefore.subset (List.mem_cons_self ..)
    exact absurd rfl (apart first inFront first (List.mem_append_left _ hasFirst))
  · rcases infix_pair_append adjacent with inPart | inAfter | ⟨later, rest, -⟩
    · exact inPart
    · have behind := inAfter.subset (List.mem_cons_self ..)
      exact absurd rfl (apartAfter first hasFirst first behind)
    · have behind : second ∈ after := rest ▸ List.mem_cons_self ..
      exact absurd rfl (apartAfter second hasSecond second behind)
  · exact absurd rfl (apart first inBefore first (List.mem_append_left _ hasFirst))

theorem offset_le_of_mem_ofText {offset : Nat} {text : Text} {token : Token}
    (member : token ∈ ofText offset text) : offset ≤ token.offset := by
  rcases List.append_of_mem member with ⟨before, after, split⟩
  rw [offset_eq_of_ofText split]
  exact Nat.le_add_right _ _

/-- No token stands in two places. -/
theorem nodup_ofText (offset : Nat) (text : Text) : (ofText offset text).Nodup := by
  induction text using text_induction generalizing offset with
  | nil => exact List.nodup_nil
  | cons c rest ih =>
      rw [ofText_cons]
      refine List.nodup_cons.mpr ⟨fun member => ?_, ih _⟩
      have behind := offset_le_of_mem_ofText member
      simp only [first] at behind
      omega

end Places

end Token

/-! ## Reading past a tree -/

namespace Item

section Past

variable {fresh : Bool} {trees : List Tree} {items : List Item}

/-- A globstar is read at the start of a segment, in front of a separator or at the end. -/
theorem fresh_of_globstar {first second : Nat}
    (read : ofTrees fresh
      (.leaf ⟨first, .plain '*'⟩ :: .leaf ⟨second, .plain '*'⟩ :: trees) = .ok items) :
    fresh = true ∧ (trees = [] ∨ ∃ third later, trees = .leaf ⟨third, .plain '/'⟩ :: later ∧
      ∃ others, ofTrees true later = .ok others) := by
  by_cases isLast : trees = []
  case pos =>
    subst isLast
    rw [ofTrees] at read
    split at read
    case isTrue isFresh => exact ⟨isFresh, .inl rfl⟩
    case isFalse => cases read
  case neg =>
    by_cases separated : ∃ third later, trees = .leaf ⟨third, .plain '/'⟩ :: later
    case pos =>
      rcases separated with ⟨third, later, rfl⟩
      rw [ofTrees] at read
      split at read
      case isTrue isFresh =>
        rcases bind_eq_ok.mp read with ⟨others, readLater, -⟩
        exact ⟨isFresh, .inr ⟨third, later, rfl, others, readLater⟩⟩
      case isFalse => cases read
    case neg =>
      rw [ofTrees] at read
      · cases read
      · intro third later isTrees
        exact separated ⟨third, later, isTrees⟩
      · exact isLast

/-- What follows a tree is read as well, at the start of a segment only after a separator. -/
theorem exists_ofTrees_tail {tree : Tree} (read : ofTrees fresh (tree :: trees) = .ok items) :
    ∃ others, ofTrees (isSeparator tree) trees = .ok others := by
  by_cases double : IsStar tree ∧ ∃ next ∈ trees.head?, IsStar next
  case pos =>
    rcases double with ⟨⟨first, rfl⟩, next, isNext, second, rfl⟩
    rcases List.head?_eq_some_iff.mp isNext with ⟨later, rfl⟩
    have lone : ¬IsStar (.leaf ⟨second, .plain '/'⟩) := by
      rintro ⟨offset, isStar⟩
      cases isStar
    rcases (fresh_of_globstar read).2 with rfl | ⟨third, rest, rfl, others, readRest⟩
    · exact ⟨[star], rfl⟩
    · refine ⟨star :: char '/' :: others, ?_⟩
      rw [ofTrees_cons, ofTrees_cons]
      · simp [ofTree, ofToken, isSeparator, readRest, bind, Except.bind, Except.map, pure,
          Except.pure]
      · rintro ⟨offset, isStar⟩
        cases isStar
      · rintro - next isNext ⟨offset, rfl⟩
        cases isNext
  case neg =>
    have alone : IsStar tree → ∀ next ∈ trees.head?, ¬IsStar next :=
      fun isStar next isNext nextStar => double ⟨isStar, next, isNext, nextStar⟩
    rw [ofTrees_cons alone] at read
    rcases bind_eq_ok.mp read with ⟨first, -, read⟩
    rcases bind_eq_ok.mp read with ⟨others, readTrees, -⟩
    exact ⟨others, readTrees⟩

/-- A group that is no range has its options read in its place. -/
theorem exists_ofOptions_of_group {opening : Nat} {options : List (List Tree)}
    (read : ofTrees fresh (.group opening options :: trees) = .ok items) :
    (∃ interval, intervalOf options = .ok (some interval)) ∨
      ∃ choices, ofOptions (fresh && options.length != 1) options = .ok choices := by
  rw [ofTrees_cons (by rintro ⟨offset, isStar⟩; cases isStar)] at read
  rcases bind_eq_ok.mp read with ⟨group, readGroup, -⟩
  rw [ofTree, bind_eq_ok] at readGroup
  rcases readGroup with ⟨interval?, isInterval, readGroup⟩
  cases interval? with
  | some interval => exact .inl ⟨interval, isInterval⟩
  | none =>
      rcases bind_eq_ok.mp readGroup with ⟨choices, readOptions, -⟩
      exact .inr ⟨choices, readOptions⟩

theorem exists_ofTrees_of_mem {options : List (List Tree)} {choices : List (List Item)}
    (read : ofOptions fresh options = .ok choices) {option : List Tree}
    (member : option ∈ options) : ∃ items, ofTrees fresh option = .ok items := by
  induction options generalizing choices with
  | nil => cases member
  | cons first others ih =>
      rw [ofOptions, bind_eq_ok] at read
      rcases read with ⟨items, readFirst, read⟩
      rcases bind_eq_ok.mp read with ⟨rest, readOthers, -⟩
      rcases List.mem_cons.mp member with rfl | inOthers
      · exact ⟨items, readFirst⟩
      · exact ih readOthers inOthers

end Past

theorem kind_of_isSeparator {token : Token} (separates : isSeparator (.leaf token) = true) :
    token.kind = .plain '/' := by
  unfold isSeparator at separates
  split at separates
  case h_1 same => rw [Tree.leaf.inj same]
  case h_2 => cases separates

/-- A range of integers has no star. -/
theorem star_not_mem_of_interval {tokens : List Token} {interval : Interval}
    (isInterval : intervalOf [Tree.ofTokens tokens] = .ok (some interval))
    (cut : Token.CutInto tokens [tokens]) {token : Token} (member : token ∈ tokens) :
    token.kind ≠ .plain '*' := by
  intro isStar
  rcases isRange_of_intervalOf isInterval with ⟨content, same, range⟩
  obtain rfl := (List.cons.inj same).1
  rw [Tree.textOf_ofTokens cut] at range
  have starMember : '*' ∈ Token.textOf tokens := by
    rcases List.append_of_mem member with ⟨before, after, rfl⟩
    simp [Token.text_of_plain isStar]
  rcases range with ⟨before, after, split, readFirst, readLast⟩
  rw [split] at starMember
  have notNumeral : ¬(Numeral.isDigit '*' = true ∨ '*' = '-' ∨ '*' = '+') := by decide
  rcases List.mem_append.mp starMember with inBefore | inAfter
  · exact notNumeral (Numeral.isDigit_or_sign_of_int? readFirst '*' inBefore)
  · have inLast : '*' ∈ after := by simpa using inAfter
    exact notNumeral (Numeral.isDigit_or_sign_of_int? readLast '*' inLast)

/-- An option with a star in it is read in the place of its brace. -/
theorem exists_ofTrees_of_option {fresh : Bool} {opening : Nat} {inner option : List Token}
    {options : List (List Token)} {trees : List Tree} {items : List Item} {star : Token}
    (read : ofTrees fresh (.group opening (options.map Tree.ofTokens) :: trees) = .ok items)
    (cut : Token.CutInto inner options) (isOption : option ∈ options) (member : star ∈ option)
    (isStar : star.kind = .plain '*') :
    ∃ others, ofTrees (fresh && options.length != 1) (Tree.ofTokens option) = .ok others := by
  rcases exists_ofOptions_of_group read with ⟨interval, isInterval⟩ | ⟨choices, readOptions⟩
  · rcases isRange_of_intervalOf isInterval with ⟨content, single, -⟩
    rcases List.map_eq_singleton_iff.mp single with ⟨only, rfl, -⟩
    obtain rfl := List.mem_singleton.mp isOption
    obtain rfl := cut.eq_of_singleton
    exact absurd isStar (star_not_mem_of_interval isInterval cut member)
  · rw [List.length_map] at readOptions
    exact exists_ofTrees_of_mem readOptions (List.mem_map_of_mem isOption)

end Item

/-! ## Globstars in expansions -/

namespace Token

def EndsInSeparator (before : List Token) : Prop :=
  ∃ front separator, before = front ++ [separator] ∧ separator.kind = .plain '/'

def StartsWithSeparator (after : List Token) : Prop :=
  ∃ separator later, after = separator :: later ∧ separator.kind = .plain '/'

theorem EndsInSeparator.append_left {before : List Token} (ends : EndsInSeparator before)
    (front : List Token) : EndsInSeparator (front ++ before) := by
  rcases ends with ⟨others, separator, rfl, separates⟩
  exact ⟨front ++ others, separator, by simp, separates⟩

/-- What stands around a globstar in an expansion of some tokens, given whether the tokens start a
segment. -/
structure Placed (fresh : Bool) (tokens : List Token) (first second : Token)
    (before after : List Token) : Prop where
  starts : before = [] ∧ fresh = true ∨ EndsInSeparator before
  ends : StartsWithSeparator after ∨ EndsOption tokens [first, second] ∨
    after = [] ∧ [first, second] <:+ tokens

section Expansions

variable {fresh next : Bool} {first second opening closing : Token}
  {tokens inner before after : List Token}

/-- The place of a globstar, with something in front of it. -/
theorem Placed.behind (placed : Placed next tokens first second before after)
    (front chosen : List Token) (starts : next = true → EndsInSeparator chosen) :
    Placed fresh (front ++ tokens) first second (chosen ++ before) after := by
  constructor
  · rcases placed.starts with ⟨rfl, isFresh⟩ | separated
    · rw [List.append_nil]
      exact .inr (starts isFresh)
    · exact .inr (separated.append_left chosen)
  · rcases placed.ends with separated | inOption | ⟨isLast, atEnd⟩
    · exact .inl separated
    · exact .inr (.inl (inOption.mono (List.suffix_append front tokens).isInfix))
    · exact .inr (.inr ⟨isLast, atEnd.trans (List.suffix_append front tokens)⟩)

theorem Placed.behind_brace (placed : Placed false tokens first second before after)
    (chosen : List Token) :
    Placed fresh (opening :: inner ++ closing :: tokens) first second (chosen ++ before) after := by
  have whole : Placed fresh (opening :: inner ++ [closing] ++ tokens) first second
      (chosen ++ before) after :=
    placed.behind _ _ (by simp)
  simpa using whole

/-- The place of a globstar in an option, with something around the option. -/
theorem Placed.within {option : List Token} {options : List (List Token)}
    (placed : Placed next option first second before after) (isOpening : opening.kind = .plain '{')
    (isClosing : closing.kind = .plain '}') (cut : CutInto inner options)
    (member : option ∈ options) (front back : List Token)
    (starts : next = true → front = [] ∧ fresh = true) :
    Placed fresh (opening :: inner ++ closing :: tokens) first second (front ++ before)
      (after ++ back) := by
  have stands : opening :: inner ++ [closing] <:+: opening :: inner ++ closing :: tokens :=
    ⟨[], tokens, by simp⟩
  constructor
  · rcases placed.starts with ⟨rfl, isNext⟩ | separated
    · rw [List.append_nil]
      exact .inl (starts isNext)
    · exact .inr (separated.append_left front)
  · rcases placed.ends with ⟨separator, later, rfl, separates⟩ | inOption | ⟨-, atEnd⟩
    · exact .inl ⟨separator, later ++ back, rfl, separates⟩
    · refine .inr (.inl (inOption.mono ((cut.infix_of_mem member).trans ?_)))
      exact ⟨[opening], closing :: tokens, by simp⟩
    · exact .inr (.inl ⟨opening, inner, closing, options, option, stands, isOpening, isClosing, cut,
        member, atEnd⟩)

/-- Stars that start an expansion start the tokens. -/
theorem placed_of_first {items : List Item}
    (read : Item.ofTrees fresh (Tree.ofTokens (first :: second :: tokens)) = .ok items)
    (firstStar : first.kind = .plain '*') (secondStar : second.kind = .plain '*')
    (expands : ExpandsTo tokens after) :
    Placed fresh (first :: second :: tokens) first second [] after := by
  rcases first with ⟨firstOffset, firstKind⟩
  rcases second with ⟨secondOffset, secondKind⟩
  obtain rfl : firstKind = .plain '*' := firstStar
  obtain rfl : secondKind = .plain '*' := secondStar
  rw [Tree.ofTokens_leaf (by simp), Tree.ofTokens_leaf (by simp)] at read
  rcases Item.fresh_of_globstar read with ⟨isFresh, follows⟩
  refine ⟨.inl ⟨rfl, isFresh⟩, ?_⟩
  cases expands with
  | nil => exact .inr (.inr ⟨rfl, List.suffix_refl _⟩)
  | token notOpening later =>
      rw [Tree.ofTokens_leaf notOpening] at follows
      rcases follows with isEmpty | ⟨third, rest, isRest, -⟩
      · cases isEmpty
      · refine .inl ⟨_, _, rfl, ?_⟩
        rw [Tree.leaf.inj (List.cons.inj isRest).1]
  | braces isOpening isClosing cut _ _ =>
      rw [Tree.ofTokens_group isOpening isClosing cut] at follows
      rcases follows with isEmpty | ⟨third, rest, isRest, -⟩
      · cases isEmpty
      · cases isRest
  | choice isOpening isClosing cut _ _ _ _ =>
      rw [Tree.ofTokens_group isOpening isClosing cut] at follows
      rcases follows with isEmpty | ⟨third, rest, isRest, -⟩
      · cases isEmpty
      · cases isRest

theorem nodup_of_brace (nodup : (opening :: inner ++ closing :: tokens).Nodup) :
    inner.Nodup ∧ tokens.Nodup := by
  rcases List.nodup_append.mp nodup with ⟨front, back, -⟩
  exact ⟨(List.nodup_cons.mp front).2, (List.nodup_cons.mp back).2⟩

/-- The stars of a globstar stay together where a brace is expanded. -/
theorem IsGlobstar.split_of_brace {chosen others : List Token}
    (globstar : IsGlobstar (opening :: inner ++ closing :: tokens) first second)
    (nodup : (opening :: inner ++ closing :: tokens).Nodup)
    (isOpening : opening.kind = .plain '{') (isClosing : closing.kind = .plain '}')
    (chosenWithin : chosen ⊆ inner) (othersBehind : others ⊆ closing :: tokens)
    (split : before ++ first :: second :: after = chosen ++ others) :
    (IsGlobstar inner first second ∧
        ∃ later, chosen = before ++ first :: second :: later ∧ after = later ++ others) ∨
      (IsGlobstar tokens first second ∧
        ∃ earlier, before = chosen ++ earlier ∧ others = earlier ++ first :: second :: after) := by
  have apart := (List.nodup_append.mp nodup).2.2
  have distinct {token : Token} (inInner : token ∈ inner) (behind : token ∈ closing :: tokens) :
      False := apart token (List.mem_cons_of_mem _ inInner) token behind rfl
  rcases globstar.of_brace isOpening isClosing with inInner | inTokens
  · refine .inl ⟨inInner, ?_⟩
    rcases Scanner.exists_of_append_cons split with ⟨later, rfl, rest⟩ | ⟨earlier, rfl, rfl⟩
    · rcases List.cons_eq_append_iff.mp rest with ⟨rfl, rfl⟩ | ⟨others, rfl, isAfter⟩
      · exact (distinct inInner.mem_second (othersBehind (List.mem_cons_self ..))).elim
      · exact ⟨others, rfl, isAfter⟩
    · exact (distinct inInner.mem_first (othersBehind (by simp))).elim
  · refine .inr ⟨inTokens, ?_⟩
    rcases Scanner.exists_of_append_cons split with ⟨later, rfl, -⟩ | found
    · have inChosen : first ∈ inner := chosenWithin (by simp)
      exact (distinct inChosen (List.mem_cons_of_mem _ inTokens.mem_first)).elim
    · exact found

theorem ExpandsTo.of_leaf {token : Token} {expansion : List Token}
    (expands : ExpandsTo (token :: tokens) expansion) (notOpening : token.kind ≠ .plain '{') :
    ∃ later, expansion = token :: later ∧ ExpandsTo tokens later := by
  cases expands with
  | token _ later => exact ⟨_, rfl, later⟩
  | braces isOpening => exact absurd isOpening notOpening
  | choice isOpening => exact absurd isOpening notOpening

/-- In every expansion of tokens that are read, a globstar starts a segment, and it ends one unless
it is at the end of an option. -/
theorem ExpandsTo.placed {expansion : List Token} {items : List Item}
    (expands : ExpandsTo tokens expansion)
    (read : Item.ofTrees fresh (Tree.ofTokens tokens) = .ok items) (nodup : tokens.Nodup)
    (globstar : IsGlobstar tokens first second)
    (split : before ++ first :: second :: after = expansion) :
    Placed fresh tokens first second before after := by
  induction expands generalizing fresh items before after with
  | nil => simp at split
  | @token token tokens expansion notOpening later ih =>
      rcases List.nodup_cons.mp nodup with ⟨notMember, restNodup⟩
      cases before with
      | nil =>
          rcases List.cons.inj split with ⟨rfl, rfl⟩
          rcases infix_pair_cons globstar.adjacent with ⟨-, rest, rfl⟩ | inRest
          · rcases later.of_leaf (by simp [globstar.second_star]) with ⟨others, same, behind⟩
            obtain rfl := (List.cons.inj same).2
            exact placed_of_first read globstar.first_star globstar.second_star behind
          · exact absurd (inRest.subset (List.mem_cons_self ..)) notMember
      | cons other before =>
          rcases List.cons.inj split with ⟨rfl, isExpansion⟩
          have inRest : first ∈ tokens := later.subset (by simp [← isExpansion])
          rcases infix_pair_cons globstar.adjacent with ⟨rfl, -⟩ | adjacent
          · exact absurd inRest notMember
          · rw [Tree.ofTokens_leaf notOpening] at read
            rcases Item.exists_ofTrees_tail read with ⟨others, readRest⟩
            have placed := ih readRest restNodup ⟨adjacent, globstar.2, globstar.3⟩ isExpansion
            exact placed.behind [other] [other] fun separates =>
              ⟨[], other, rfl, Item.kind_of_isSeparator separates⟩
  | @braces opening closing inner kept tokens expansion isOpening isClosing cut within later
      ihWithin ih =>
      rw [Tree.ofTokens_group isOpening isClosing cut] at read
      rcases nodup_of_brace nodup with ⟨innerNodup, tokensNodup⟩
      cases before with
      | nil =>
          rcases List.cons.inj split with ⟨rfl, -⟩
          simp [globstar.first_star] at isOpening
      | cons other before =>
          rcases List.cons.inj split with ⟨rfl, isKept⟩
          rcases globstar.split_of_brace nodup isOpening isClosing within.subset
              (List.cons_subset_cons _ later.subset) isKept with
            ⟨inInner, rest, rfl, rfl⟩ | ⟨inTokens, earlier, rfl, isRest⟩
          · rcases Item.exists_ofTrees_of_option read cut (List.mem_cons_self ..)
              inInner.mem_first inInner.first_star with ⟨others, readInner⟩
            have placed := ihWithin readInner innerNodup inInner rfl
            exact placed.within isOpening isClosing cut (List.mem_cons_self ..) [_] _ (by simp)
          · rcases List.cons_eq_append_iff.mp isRest with ⟨rfl, same⟩ | ⟨earlier, rfl, isLater⟩
            · rcases List.cons.inj same with ⟨rfl, -⟩
              simp [globstar.first_star] at isClosing
            · rcases Item.exists_ofTrees_tail read with ⟨others, readRest⟩
              have placed := ih readRest tokensNodup inTokens isLater.symm
              simpa using placed.behind_brace (other :: kept ++ [closing])
  | @choice opening closing inner option chosen tokens expansion options isOpening isClosing cut
      several member chooses later ihChosen ih =>
      rw [Tree.ofTokens_group isOpening isClosing cut] at read
      rcases nodup_of_brace nodup with ⟨innerNodup, tokensNodup⟩
      have stands := cut.infix_of_mem member
      have behind : expansion ⊆ closing :: tokens :=
        List.Subset.trans later.subset (List.subset_cons_self _ _)
      rcases globstar.split_of_brace nodup isOpening isClosing
          (List.Subset.trans chooses.subset stands.subset) behind split with
        ⟨inInner, rest, rfl, rfl⟩ | ⟨inTokens, earlier, rfl, isRest⟩
      · have inOption : IsGlobstar option first second :=
          inInner.of_infix innerNodup stands (chooses.subset (by simp)) (chooses.subset (by simp))
        rcases Item.exists_ofTrees_of_option read cut member inOption.mem_first
          inOption.first_star with ⟨others, readOption⟩
        have placed := ihChosen readOption (stands.sublist.nodup innerNodup) inOption rfl
        exact placed.within isOpening isClosing cut member [] _ fun isFresh =>
          ⟨rfl, (Bool.and_eq_true_iff.mp isFresh).1⟩
      · rcases Item.exists_ofTrees_tail read with ⟨others, readRest⟩
        have placed := ih readRest tokensNodup inTokens isRest.symm
        exact placed.behind_brace chosen

end Expansions

/-! ## Expansions of written out tokens -/

section Leaves

variable {option tokens : List Token}

theorem CutInto.append_leaves {next : List Token} {options : List (List Token)}
    (cut : CutInto tokens (next :: options))
    (leaves : ∀ token ∈ option, token.kind ∉ [.plain '{', .plain '}', .plain ',']) :
    CutInto (option ++ tokens) ((option ++ next) :: options) := by
  induction option with
  | nil => exact cut
  | cons token option ih =>
      rcases List.forall_mem_cons.mp leaves with ⟨isLeaf, leaves⟩
      simp only [List.mem_cons, List.not_mem_nil, or_false, not_or] at isLeaf
      exact .leaf isLeaf.1 isLeaf.2.1 isLeaf.2.2 (ih leaves)

theorem cutInto_pair {comma : Token} {other : List Token} (isComma : comma.kind = .plain ',')
    (leaves : ∀ token ∈ option ++ other, token.kind ∉ [.plain '{', .plain '}', .plain ',']) :
    CutInto (option ++ comma :: other) [option, other] := by
  rcases List.forall_mem_append.mp leaves with ⟨optionLeaves, otherLeaves⟩
  have cutOther := CutInto.append_leaves .nil otherLeaves
  simpa using CutInto.append_leaves (.comma isComma cutOther) optionLeaves

theorem expandsTo_self (notOpening : ∀ token ∈ tokens, token.kind ≠ .plain '{') :
    ExpandsTo tokens tokens := by
  induction tokens with
  | nil => exact .nil
  | cons token tokens ih =>
      rcases List.forall_mem_cons.mp notOpening with ⟨isLeaf, others⟩
      exact .token isLeaf (ih others)

end Leaves

end Token

/-! ## Patterns with misplaced globstars -/

namespace Item

/-- Whether a tree has no fault but for misplaced globstars. -/
inductive IsSound : Tree → Prop where
  | leaf {token : Token} {item : Item} (read : ofToken token = .ok item) : IsSound (.leaf token)
  | interval {options : List (List Tree)} {interval : Interval} (opening : Nat)
      (isInterval : intervalOf options = .ok (some interval)) : IsSound (.group opening options)
  | choices {options : List (List Tree)} (opening : Nat)
      (noInterval : intervalOf options = .ok none)
      (each : ∀ option ∈ options, ∀ tree ∈ option, IsSound tree) :
      IsSound (.group opening options)

/-- Whether a reading has no fault but for a misplaced globstar. -/
def OnlyMisplaces {Value : Type} (reading : Except Fault Value) : Prop :=
  ∀ fault, reading = .error fault → ∃ offset, fault = .misplacedGlobstar offset

theorem OnlyMisplaces.bind {Value Result : Type} {reading : Except Fault Value}
    {next : Value → Except Fault Result} (first : OnlyMisplaces reading)
    (others : ∀ value, OnlyMisplaces (next value)) : OnlyMisplaces (reading >>= next) := by
  intro fault failed
  rcases Scanner.Logged.bind_eq_error.mp failed with isError | ⟨value, -, isError⟩
  · exact first fault isError
  · exact others value fault isError

theorem onlyMisplaces_ok {Value : Type} (value : Value) :
    OnlyMisplaces (Except.ok value : Except Fault Value) :=
  fun _ failed => nomatch failed

theorem onlyMisplaces_ofTrees {trees : List Tree} (sound : ∀ tree ∈ trees, IsSound tree)
    (fresh : Bool) : OnlyMisplaces (ofTrees fresh trees) := by
  refine ofTrees.induct
    (fun fresh tree => IsSound tree → OnlyMisplaces (ofTree fresh tree))
    (fun fresh options => (∀ option ∈ options, ∀ tree ∈ option, IsSound tree) →
      OnlyMisplaces (ofOptions fresh options))
    (fun fresh trees => (∀ tree ∈ trees, IsSound tree) → OnlyMisplaces (ofTrees fresh trees))
    ?leaf ?unclosed ?group ?noOptions ?options ?nil ?directories ?misplacedDirectories ?anything
    ?misplacedAnything ?misplaced ?cons fresh trees sound
  case leaf =>
    intro fresh token sound
    cases sound with
    | leaf read =>
        rw [ofTree, read]
        exact onlyMisplaces_ok _
  case unclosed =>
    intro fresh opening sound
    cases sound
  case group =>
    intro fresh opening options ih sound
    rw [ofTree]
    cases sound with
    | interval _ isInterval =>
        rw [isInterval]
        exact onlyMisplaces_ok _
    | choices _ noInterval each =>
        rw [noInterval]
        exact (ih each).bind fun choices => onlyMisplaces_ok _
  case noOptions =>
    intro fresh _
    exact onlyMisplaces_ok _
  case options =>
    intro fresh option options ihOption ihOptions sound
    rcases List.forall_mem_cons.mp sound with ⟨first, others⟩
    rw [ofOptions]
    exact (ihOption first).bind fun items => (ihOptions others).bind fun _ => onlyMisplaces_ok _
  case nil =>
    intro fresh _
    exact onlyMisplaces_ok _
  case directories =>
    intro first second third rest ih sound
    rw [ofTrees, if_pos rfl]
    have rest := fun tree member => sound tree (List.mem_append_right [_, _, _] member)
    exact (ih rest).bind fun items => onlyMisplaces_ok _
  case misplacedDirectories =>
    intro fresh first second third rest notFresh _
    rw [ofTrees, if_neg notFresh]
    rintro fault ⟨⟩
    exact ⟨first, rfl⟩
  case anything =>
    intro first second _
    rw [ofTrees, if_pos rfl]
    exact onlyMisplaces_ok _
  case misplacedAnything =>
    intro fresh first second notFresh _
    rw [ofTrees, if_neg notFresh]
    rintro fault ⟨⟩
    exact ⟨first, rfl⟩
  case misplaced =>
    intro fresh first second rest notDirectories notLast _
    rw [ofTrees]
    · rintro fault ⟨⟩
      exact ⟨first, rfl⟩
    · exact notDirectories
    · exact notLast
  case cons =>
    intro fresh tree rest notDirectories notLast notDouble ihTree ihRest sound
    rcases List.forall_mem_cons.mp sound with ⟨first, others⟩
    rw [ofTrees]
    · exact (ihTree first).bind fun items => (ihRest others).bind fun _ => onlyMisplaces_ok _
    · exact notDirectories
    · exact notLast
    · exact notDouble

end Item

namespace Pattern

open Token Item

/-- Whether a globstar in an expansion of some tokens is a whole segment, as far as its option
shows. -/
structure FillsSegment (tokens : List Token) (first second : Token) (before after : List Token) :
    Prop where
  starts : before = [] ∨ EndsInSeparator before
  ends : after = [] ∨ StartsWithSeparator after ∨ EndsOption tokens [first, second]

theorem fillsSegment_of_itemsOf {source : Text} {first second : Token} {before after : List Token}
    {items : List Item} (read : itemsOf source = .ok items)
    (globstar : IsGlobstar (tokensOf source) first second)
    (expands : ExpandsTo (tokensOf source) (before ++ first :: second :: after)) :
    FillsSegment (tokensOf source) first second before after := by
  have nodup : (tokensOf source).Nodup := by
    rcases exists_tokensOf source with ⟨offset, tokens⟩
    rw [tokens]
    exact nodup_ofText offset _
  rcases expands.placed read nodup globstar rfl with ⟨starts, ends⟩
  refine ⟨starts.imp_left And.left, ?_⟩
  rcases ends with separated | inOption | ⟨isLast, -⟩
  · exact .inr (.inl separated)
  · exact .inr (.inr inOption)
  · exact .inl isLast

/-- A globstar starts a segment in every expansion of a pattern that compiles, and it ends one
unless it is at the end of an option. A pattern with any other globstar has a fault: that the
globstar is misplaced, if no token, brace or range of the pattern is at fault. -/
theorem fillsSegment_of_compile (source : Text) {first second : Token} {before after : List Token}
    (globstar : IsGlobstar (tokensOf source) first second)
    (expands : ExpandsTo (tokensOf source) (before ++ first :: second :: after)) :
    (∀ pattern, compile source = .ok pattern →
      FillsSegment (tokensOf source) first second before after) ∧
    (¬FillsSegment (tokensOf source) first second before after →
      ∃ fault, compile source = .error fault ∧
        ((∀ tree ∈ Tree.ofTokens (tokensOf source), IsSound tree) →
          ∃ offset, fault = .misplacedGlobstar offset)) := by
  constructor
  · intro pattern compiled
    exact fillsSegment_of_itemsOf (itemsOf_of_compile compiled) globstar expands
  · intro misplaced
    cases read : itemsOf source with
    | ok items => exact absurd (fillsSegment_of_itemsOf read globstar expands) misplaced
    | error fault =>
        refine ⟨fault, ?_, fun sound => onlyMisplaces_ofTrees sound true fault read⟩
        rw [compile, read]
        rfl

theorem exists_of_compiles {source : Text} (compiles : (compile source).toOption.isSome = true) :
    ∃ pattern, compile source = .ok pattern := by
  cases compiled : compile source with
  | ok pattern => exact ⟨pattern, rfl⟩
  | error fault =>
      rw [compiled] at compiles
      cases compiles

/-- A pattern with a globstar at the end of an option, in front of a separator. -/
def globstarInOption : Text := "/{a/**,b}/c".toList

/-- A pattern with a globstar behind a letter that stands before its brace. -/
def globstarBehindLetter : Text := "x{a,**}".toList

theorem fillsSegment_of_compile_option :
    FillsSegment (tokensOf globstarInOption) ⟨4, .plain '*'⟩ ⟨5, .plain '*'⟩
        [⟨2, .plain 'a'⟩, ⟨3, .plain '/'⟩] [⟨9, .plain '/'⟩, ⟨10, .plain 'c'⟩] ∧
      ∃ offset, compile globstarBehindLetter = .error (.misplacedGlobstar offset) := by
  constructor
  · have globstar : IsGlobstar (tokensOf globstarInOption) ⟨4, .plain '*'⟩ ⟨5, .plain '*'⟩ :=
      ⟨by decide +kernel, rfl, rfl⟩
    have cut : CutInto ([⟨2, .plain 'a'⟩, ⟨3, .plain '/'⟩, ⟨4, .plain '*'⟩, ⟨5, .plain '*'⟩] ++
        ⟨6, .plain ','⟩ :: [⟨7, .plain 'b'⟩]) [_, _] := cutInto_pair rfl (by decide)
    have behind : ExpandsTo [⟨9, .plain '/'⟩, ⟨10, .plain 'c'⟩] _ := expandsTo_self (by decide)
    have expands : ExpandsTo (tokensOf globstarInOption) _ :=
      .choice (show TokenKind.plain '{' = _ from rfl) (show TokenKind.plain '}' = _ from rfl)
        cut (by decide) (List.mem_cons_self ..) (expandsTo_self (by decide)) behind
    have compiles : (compile globstarInOption).toOption.isSome = true := by decide +kernel
    rcases exists_of_compiles compiles with ⟨pattern, compiled⟩
    exact (fillsSegment_of_compile globstarInOption globstar expands).1 pattern compiled
  · have globstar : IsGlobstar (tokensOf globstarBehindLetter) ⟨4, .plain '*'⟩ ⟨5, .plain '*'⟩ :=
      ⟨by decide +kernel, rfl, rfl⟩
    have cut : CutInto ([⟨2, .plain 'a'⟩] ++ ⟨3, .plain ','⟩ ::
        [⟨4, .plain '*'⟩, ⟨5, .plain '*'⟩]) [_, _] := cutInto_pair rfl (by decide)
    have expands : ExpandsTo (tokensOf globstarBehindLetter) _ :=
      .token (show TokenKind.plain 'x' ≠ _ by decide)
        (.choice (show TokenKind.plain '{' = _ from rfl) (show TokenKind.plain '}' = _ from rfl)
          cut (by decide) (List.mem_cons_of_mem _ (List.mem_cons_self ..))
          (expandsTo_self (by decide)) .nil)
    have misplaced : ¬FillsSegment (tokensOf globstarBehindLetter) ⟨4, .plain '*'⟩ ⟨5, .plain '*'⟩
        [⟨0, .plain 'x'⟩] [] := by
      rintro ⟨isEmpty | ⟨front, separator, split, separates⟩, -⟩
      · cases isEmpty
      · rcases List.append_inj' (show [] ++ [_] = front ++ [separator] from split) rfl with
          ⟨rfl, same⟩
        rw [← (List.cons.inj same).1] at separates
        cases separates
    have sound : ∀ tree ∈ Tree.ofTokens (tokensOf globstarBehindLetter), IsSound tree := by
      have trees : Tree.ofTokens (tokensOf globstarBehindLetter) = [.leaf ⟨0, .plain 'x'⟩,
          .group 1 [[.leaf ⟨2, .plain 'a'⟩], [.leaf ⟨4, .plain '*'⟩, .leaf ⟨5, .plain '*'⟩]]] :=
        rfl
      have letter (offset : Nat) : IsSound (.leaf ⟨offset, .plain 'x'⟩) ∧
          IsSound (.leaf ⟨offset, .plain 'a'⟩) ∧ IsSound (.leaf ⟨offset, .plain '*'⟩) :=
        ⟨.leaf rfl, .leaf rfl, .leaf rfl⟩
      rw [trees]
      simp only [List.forall_mem_cons]
      refine ⟨(letter 0).1, .choices 1 rfl ?_, by simp⟩
      simp [letter]
    rcases (fillsSegment_of_compile globstarBehindLetter globstar expands).2 misplaced with
      ⟨fault, failed, cause⟩
    rcases cause sound with ⟨offset, rfl⟩
    exact ⟨offset, failed⟩

/-- A pattern with a globstar at the end of an option, in front of a letter. -/
def globstarBeforeLetter : Text := "{**,b}c".toList

/-- The letter behind the brace follows the globstar, which is accepted. -/
theorem compile_globstarBeforeLetter :
    (∃ pattern, compile globstarBeforeLetter = .ok pattern) ∧
      IsGlobstar (tokensOf globstarBeforeLetter) ⟨1, .plain '*'⟩ ⟨2, .plain '*'⟩ ∧
      ExpandsTo (tokensOf globstarBeforeLetter)
        ([] ++ ⟨1, .plain '*'⟩ :: ⟨2, .plain '*'⟩ :: [⟨6, .plain 'c'⟩]) ∧
      ¬([⟨6, .plain 'c'⟩] = ([] : List Token) ∨ StartsWithSeparator [⟨6, .plain 'c'⟩]) := by
  have compiles : (compile globstarBeforeLetter).toOption.isSome = true := by decide +kernel
  have cut : CutInto ([⟨1, .plain '*'⟩, ⟨2, .plain '*'⟩] ++ ⟨3, .plain ','⟩ ::
      [⟨4, .plain 'b'⟩]) [_, _] := cutInto_pair rfl (by decide)
  have chosen : ExpandsTo [⟨1, .plain '*'⟩, ⟨2, .plain '*'⟩] _ := expandsTo_self (by decide)
  have behind : ExpandsTo [⟨6, .plain 'c'⟩] _ := expandsTo_self (by decide)
  have expands : ExpandsTo (tokensOf globstarBeforeLetter) _ :=
    .choice (show TokenKind.plain '{' = _ from rfl) (show TokenKind.plain '}' = _ from rfl)
      cut (by decide) (List.mem_cons_self ..) chosen behind
  refine ⟨exists_of_compiles compiles, ⟨by decide +kernel, rfl, rfl⟩, expands, ?_⟩
  · rintro (isEmpty | ⟨separator, later, same, separates⟩)
    · cases isEmpty
    · rw [← (List.cons.inj same).1] at separates
      cases separates

end Pattern

end Glob

end PropertyCascade
