import PropertyCascade.Proofs.Glob.Pieces
import PropertyCascade.Proofs.Number.Literal

/-!
# Range syntax

A text is read as an interval exactly if it has the form of one, two numerals with two dots between
them. Whether it is one is then a matter of the integers that the numerals denote, whatever zeros
and signs they are written with.

A brace with such a content is always taken for an interval. Digits, signs and dots are plain tokens
and no commas, so the content is a single option. The machine that matches the braces makes a group
of it where it stands, and no token after it takes the group apart: at the end it is still among the
trees, at whatever depth, unless a brace before it is never closed. How a group is read depends on
its options alone, and where a pattern is read without a fault each of its groups is.
-/

namespace PropertyCascade

namespace Glob

open Source Numeral

/-! ## Reading a range -/

namespace Interval

/-- Two numerals with two dots between them, with the integers that they denote. -/
def IsBounds (text : Text) (first last : Int) : Prop :=
  ∃ before after, text = before ++ '.' :: '.' :: after ∧
    IsNumeral before first ∧ IsNumeral after last

/-- Integers of 64 bits in order, of which the first one has a magnitude that fits as well. -/
def MakeInterval (first last : Int) : Prop :=
  (least ≤ first ∧ first ≤ greatest) ∧ (least ≤ last ∧ last ≤ greatest) ∧
    first ≤ last ∧ first ≠ least

instance (first last : Int) : Decidable (MakeInterval first last) :=
  inferInstanceAs (Decidable (_ ∧ _))

variable {text : Text} {first last : Int}

theorem isBounds_iff_isRange : IsBounds text first last ↔ IsRange text first last := by
  simp only [IsBounds, IsRange, int?_eq_some_iff]

theorem makeInterval_iff : MakeInterval first last ↔
    (least ≤ first ∧ first ≤ greatest) ∧ (least ≤ last ∧ last ≤ greatest) ∧
      first ≤ last ∧ least < first ∧ last ≤ greatest := by
  rw [MakeInterval]
  omega

theorem read_append {before after : Text} (readFirst : int? before = some first)
    (readLast : int? after = some last) :
    read (before ++ '.' :: '.' :: after) =
      match word? first, word? last with
      | some firstWord, some lastWord => (ofWords firstWord lastWord).map some
      | _, _ => .error (.invalidRange before after) := by
  rw [read, cutDots_append (dot_not_mem_of_int? readFirst)]
  cases firstWord : word? first <;> cases lastWord : word? last <;>
    simp only [readFirst, readLast, firstWord, lastWord]

/-- What has the form of a range is read as the interval between its bounds, or as the fault that
quotes them. -/
theorem read_of_isBounds (bounds : IsBounds text first last) :
    (MakeInterval first last ∧ ∃ interval, read text = .ok (some interval) ∧
      interval.first = first ∧ interval.last = last) ∨
    (¬MakeInterval first last ∧ ∃ start stop, read text = .error (.invalidRange start stop) ∧
      IsNumeral start first ∧ IsNumeral stop last) := by
  rcases bounds with ⟨before, after, rfl, isFirst, isLast⟩
  rw [read_append (int?_eq_some_iff.mpr isFirst) (int?_eq_some_iff.mpr isLast), makeInterval_iff]
  by_cases firstFits : least ≤ first ∧ first ≤ greatest
  case neg =>
    have noWord : word? first = none := if_neg firstFits
    exact .inr ⟨fun fits => firstFits fits.1, before, after, by rw [noWord], isFirst, isLast⟩
  case pos =>
    by_cases lastFits : least ≤ last ∧ last ≤ greatest
    case neg =>
      have noWord : word? last = none := if_neg lastFits
      refine .inr ⟨fun fits => lastFits fits.2.1, before, after, ?_, isFirst, isLast⟩
      rw [noWord]
      cases word? first <;> rfl
    case pos =>
      have firstWord : word? first = some (.ofInt first) := if_pos firstFits
      have lastWord : word? last = some (.ofInt last) := if_pos lastFits
      simp only [firstWord, lastWord, ofWords, toInt_of_word? firstWord, toInt_of_word? lastWord]
      by_cases inOrder : first ≤ last ∧ least < first ∧ last ≤ greatest
      case pos =>
        refine .inl ⟨⟨firstFits, lastFits, inOrder⟩, ⟨first, last, inOrder.1, inOrder.2⟩, ?_⟩
        rw [ofBounds?, dif_pos inOrder]
        exact ⟨rfl, rfl, rfl⟩
      case neg =>
        refine .inr ⟨fun fits => inOrder fits.2.2, ofInt first, ofInt last, ?_,
          int?_eq_some_iff.mp (int?_ofInt first), int?_eq_some_iff.mp (int?_ofInt last)⟩
        rw [ofBounds?, dif_neg inOrder]
        rfl

theorem read_eq_none_iff : read text = .ok none ↔ ¬∃ first last, IsBounds text first last := by
  simp only [isBounds_iff_isRange]
  exact ⟨not_isRange_of_read, read_of_not_isRange⟩

section Bounds

variable (bounds : IsBounds text first last)

include bounds

theorem exists_read_eq_some_iff :
    (∃ interval, read text = .ok (some interval) ∧ interval.first = first ∧
      interval.last = last) ↔ MakeInterval first last := by
  rcases read_of_isBounds bounds with ⟨fits, isRead⟩ | ⟨noFit, start, stop, failed, -⟩
  · exact iff_of_true isRead fits
  · refine iff_of_false ?_ noFit
    rintro ⟨interval, isRead, -⟩
    rw [failed] at isRead
    cases isRead

theorem exists_read_eq_error_iff :
    (∃ start stop, read text = .error (.invalidRange start stop) ∧ IsNumeral start first ∧
      IsNumeral stop last) ↔ ¬MakeInterval first last := by
  rcases read_of_isBounds bounds with ⟨fits, interval, isRead, -⟩ | ⟨noFit, failed⟩
  · refine iff_of_false ?_ (not_not.mpr fits)
    rintro ⟨start, stop, failed, -⟩
    rw [isRead] at failed
    cases failed
  · exact iff_of_true failed noFit

end Bounds

end Interval

/-! ## Parts of trees -/

namespace Tree

/-- A tree is part of another one: it is this tree, or it is part of a tree in one of the options of
the group that this is. -/
inductive IsPartOf (part : Tree) : Tree → Prop where
  | self : IsPartOf part part
  | within {opening : Nat} {options : List (List Tree)} {option : List Tree} {tree : Tree}
      (isOption : option ∈ options) (member : tree ∈ option) (isPart : IsPartOf part tree) :
      IsPartOf part (.group opening options)

/-- A tree is part of one of several trees. -/
def IsPartOfSome (part : Tree) (trees : List Tree) : Prop :=
  ∃ tree ∈ trees, part.IsPartOf tree

variable {part : Tree}

@[simp]
theorem not_isPartOfSome_nil : ¬part.IsPartOfSome [] := by
  simp [IsPartOfSome]

@[simp]
theorem isPartOfSome_cons {tree : Tree} {trees : List Tree} :
    part.IsPartOfSome (tree :: trees) ↔ part.IsPartOf tree ∨ part.IsPartOfSome trees := by
  simp [IsPartOfSome]

@[simp]
theorem isPartOfSome_reverse {trees : List Tree} :
    part.IsPartOfSome trees.reverse ↔ part.IsPartOfSome trees := by
  simp [IsPartOfSome]

theorem IsPartOfSome.group {option : List Tree} (isPart : part.IsPartOfSome option)
    {options : List (List Tree)} (isOption : option ∈ options) (opening : Nat) :
    part.IsPartOf (.group opening options) := by
  rcases isPart with ⟨tree, member, isPart⟩
  exact .within isOption member isPart

theorem isPartOf_leaf_iff {token : Token} : part.IsPartOf (.leaf token) ↔ part = .leaf token := by
  constructor
  · intro isPart
    cases isPart
    rfl
  · rintro rfl
    exact .self

/-! ## Groups stay together -/

/-- A tree is part of what a group that is not closed yet consists of. -/
def Frame.Holds (frame : Frame) (part : Tree) : Prop :=
  ∃ option ∈ frame.options, part.IsPartOfSome option

theorem Frame.holds_iff {frame : Frame} : frame.Holds part ↔
    part.IsPartOfSome frame.current ∨ ∃ option ∈ frame.finished, part.IsPartOfSome option := by
  simp [Frame.Holds, Frame.options, or_comm]

namespace Nesting

/-- A tree is part of what has been read. -/
def Holds (nesting : Nesting) (part : Tree) : Prop :=
  part.IsPartOfSome nesting.outer ∨ ∃ frame ∈ nesting.frames, frame.Holds part

theorem holds_add_iff {nesting : Nesting} {tree : Tree} :
    (nesting.add tree).Holds part ↔ part.IsPartOf tree ∨ nesting.Holds part := by
  rcases nesting with ⟨outer, frames⟩
  cases frames with
  | nil => simp [add, Holds]
  | cons frame others =>
      simp only [add, Holds, List.exists_mem_cons_iff, Frame.holds_iff, isPartOfSome_cons, or_assoc]
      exact or_left_comm

/-- One token more takes no tree apart. -/
theorem Holds.step {nesting : Nesting} (holds : nesting.Holds part) (token : Token) :
    (nesting.step token).Holds part := by
  rcases nesting with ⟨outer, frames⟩
  by_cases isOpening : token.kind = .plain '{'
  case pos =>
    rw [step_opening isOpening]
    exact holds.imp_right fun ⟨frame, member, held⟩ =>
      ⟨frame, List.mem_cons_of_mem _ member, held⟩
  case neg =>
    cases frames with
    | nil =>
        rw [step_leaf isOpening (.inl rfl), holds_add_iff]
        exact .inr holds
    | cons frame others =>
        simp only [Holds, List.exists_mem_cons_iff] at holds
        by_cases isClosing : token.kind = .plain '}'
        case pos =>
          rw [step_closing isClosing, holds_add_iff]
          rcases holds with inOuter | ⟨option, isOption, isPart⟩ | inOthers
          · exact .inr (.inl inOuter)
          · exact .inl (isPart.group isOption frame.opening)
          · exact .inr (.inr inOthers)
        case neg =>
          by_cases isComma : token.kind = .plain ','
          case pos =>
            rw [step_comma isComma]
            simp only [Holds, List.exists_mem_cons_iff]
            refine holds.imp_right (Or.imp_left ?_)
            simp [Frame.holds_iff]
          case neg =>
            rw [step_leaf isOpening (.inr ⟨isClosing, isComma⟩), holds_add_iff]
            exact .inr (by simpa only [Holds, List.exists_mem_cons_iff] using holds)

theorem Holds.foldl_step {nesting : Nesting} (holds : nesting.Holds part) (tokens : List Token) :
    (tokens.foldl Nesting.step nesting).Holds part := by
  induction tokens generalizing nesting with
  | nil => exact holds
  | cons token tokens ih => exact ih (holds.step token)

theorem Holds.trees {nesting : Nesting} (holds : nesting.Holds part) :
    (∃ opening, .unclosed opening ∈ nesting.trees) ∨ part.IsPartOfSome nesting.trees := by
  rcases nesting with ⟨outer, frames⟩
  rw [Nesting.trees]
  split
  case h_1 closed =>
    obtain rfl : frames = [] := List.getLast?_eq_none_iff.mp closed
    simp only [Holds, List.not_mem_nil, false_and, exists_false, or_false] at holds
    exact .inr (isPartOfSome_reverse.mpr holds)
  case h_2 frame _ => exact .inl ⟨frame.opening, by simp⟩

end Nesting

/-- The group that matched tokens between braces make is part of the trees, wherever it stands, if
every brace is closed. -/
theorem isPartOfSome_ofTokens {opening closing : Token} {inner : List Token}
    {options : List (List Token)} (isOpening : opening.kind = .plain '{')
    (isClosing : closing.kind = .plain '}') (cut : Token.CutInto inner options)
    (before after : List Token) :
    (∃ first, unclosed first ∈ ofTokens (before ++ opening :: inner ++ closing :: after)) ∨
    (group opening.offset (options.map ofTokens)).IsPartOfSome
      (ofTokens (before ++ opening :: inner ++ closing :: after)) := by
  rcases isRead : before.foldl Nesting.step ⟨[], []⟩ with ⟨outer, frames⟩
  have made : (before ++ opening :: inner ++ [closing]).foldl Nesting.step ⟨[], []⟩ =
      Nesting.add ⟨outer, frames⟩ (.group opening.offset (options.map ofTokens)) := by
    rcases exists_foldl_step cut outer ⟨opening.offset, [], []⟩ frames with
      ⟨last, readInner, sameOpening, sameOptions⟩
    rw [List.foldl_append, List.foldl_append, isRead, List.foldl_cons, List.foldl_nil,
      List.foldl_cons, Nesting.step_opening isOpening, readInner,
      Nesting.step_closing isClosing, sameOpening, sameOptions]
    rcases cut.exists_cons with ⟨option, others, rfl⟩
    simp
  have held : Nesting.Holds
      (Nesting.add ⟨outer, frames⟩ (.group opening.offset (options.map ofTokens)))
      (.group opening.offset (options.map ofTokens)) :=
    Nesting.holds_add_iff.mpr (.inl .self)
  have whole := (held.foldl_step after).trees
  rw [← made, ← List.foldl_append] at whole
  have regroup : before ++ opening :: inner ++ [closing] ++ after =
      before ++ opening :: inner ++ closing :: after := by simp
  rw [regroup] at whole
  exact whole

end Tree

/-! ## Groups that are read -/

namespace Item

theorem isLeaf_of_plainText? {trees : List Tree} {text : Text}
    (plain : plainText? trees = some text) : ∀ tree ∈ trees, ∃ token, tree = .leaf token := by
  fun_induction plainText? trees generalizing text with
  | case1 => simp
  | case2 offset c rest ih =>
      rcases Option.map_eq_some_iff.mp plain with ⟨later, laterPlain, -⟩
      exact List.forall_mem_cons.mpr ⟨⟨_, rfl⟩, ih laterPlain⟩
  | case3 => cases plain

/-- There is no group in the content of an interval. -/
theorem isLeaf_of_intervalOf {options : List (List Tree)} {interval : Interval}
    (isInterval : intervalOf options = .ok (some interval)) {option : List Tree}
    (isOption : option ∈ options) {tree : Tree} (member : tree ∈ option) :
    ∃ token, tree = .leaf token := by
  unfold intervalOf at isInterval
  split at isInterval
  case h_1 content =>
    split at isInterval
    case h_1 text plain =>
      rw [List.mem_singleton.mp isOption] at member
      exact isLeaf_of_plainText? plain tree member
    case h_2 => cases isInterval
  case h_2 => cases isInterval

/-- Where trees are read without a fault, it has been decided of each group in them whether it is an
interval. -/
theorem Reads.exists_intervalOf {trees : List Tree} {items : List Item} (reads : Reads trees items)
    {opening : Nat} {options : List (List Tree)}
    (isPart : (Tree.group opening options).IsPartOfSome trees) :
    ∃ interval?, intervalOf options = .ok interval? := by
  induction reads with
  | nil => simp at isPart
  | directories _ _ _ _ ih =>
      simp only [Tree.isPartOfSome_cons, Tree.isPartOf_leaf_iff, reduceCtorEq, false_or] at isPart
      exact ih isPart
  | anything => simp [Tree.isPartOf_leaf_iff] at isPart
  | token _ _ _ ih =>
      simp only [Tree.isPartOfSome_cons, Tree.isPartOf_leaf_iff, reduceCtorEq, false_or] at isPart
      exact ih isPart
  | interval _ isInterval _ ih =>
      rcases Tree.isPartOfSome_cons.mp isPart with inGroup | inRest
      case inr => exact ih inRest
      cases inGroup with
      | self => exact ⟨_, isInterval⟩
      | within isOption member isPart =>
          rcases isLeaf_of_intervalOf isInterval isOption member with ⟨token, rfl⟩
          cases isPart
  | choices _ noInterval lengths _ _ ihEach ih =>
      rcases Tree.isPartOfSome_cons.mp isPart with inGroup | inRest
      case inr => exact ih inRest
      cases inGroup with
      | self => exact ⟨_, noInterval⟩
      | within isOption member isPart =>
          rcases exists_pair_of_mem lengths isOption with ⟨pair, inZip, rfl⟩
          exact ihEach pair inZip ⟨_, member, isPart⟩

end Item

/-! ## Braces with a range -/

namespace Token

theorem ofText_append_of_ordinary {front : Text} (ordinary : ∀ c ∈ front, c ∉ ['\\', '['])
    (offset : Nat) (back : Text) :
    ofText offset (front ++ back) = ofText offset front ++ ofText (offset + front.length) back := by
  induction front generalizing offset with
  | nil => rfl
  | cons c front ih =>
      rcases List.forall_mem_cons.mp ordinary with ⟨first, later⟩
      rw [List.cons_append, ofText_cons_of_ordinary first, ofText_cons_of_ordinary first, ih later,
        List.cons_append, List.length_cons, Nat.add_assoc, Nat.add_comm 1]

theorem cutInto_of_ordinary {content : Text}
    (ordinary : ∀ c ∈ content, c ∉ ['\\', '[', '{', '}', ',']) (offset : Nat) :
    CutInto (ofText offset content) [ofText offset content] := by
  induction content generalizing offset with
  | nil => exact .nil
  | cons c content ih =>
      rcases List.forall_mem_cons.mp ordinary with ⟨first, later⟩
      simp only [List.mem_cons, List.not_mem_nil, or_false, not_or] at first
      rw [ofText_cons_of_ordinary (by simp [first])]
      exact .leaf (by simp [first]) (by simp [first]) (by simp [first]) (ih later (offset + 1))

end Token

namespace Interval

variable {content : Text} {first last : Int}

/-- What has the form of a range has no character with a meaning for braces. -/
theorem IsBounds.ordinary (bounds : IsBounds content first last) :
    ∀ c ∈ content, c ∉ ['\\', '[', '{', '}', ','] := by
  rcases bounds with ⟨before, after, rfl, isFirst, isLast⟩
  have ofNumeral {text : Text} {number : Int} (isNumeral : IsNumeral text number) :
      ∀ c ∈ text, c ∉ ['\\', '[', '{', '}', ','] := by
    intro c member
    have digitOrSign := isDigit_or_sign_of_int? (int?_eq_some_iff.mpr isNumeral) c member
    simp only [List.mem_cons, List.not_mem_nil, or_false]
    rintro (rfl | rfl | rfl | rfl | rfl)
    all_goals
      revert digitOrSign
      decide
  refine List.forall_mem_append.mpr ⟨ofNumeral isFirst, ?_⟩
  exact List.forall_mem_cons.mpr ⟨by decide,
    List.forall_mem_cons.mpr ⟨by decide, ofNumeral isLast⟩⟩

/-- A brace is read as the interval between two integers, or as a fault if they make none. -/
def IsReadBetween (brace : Tree) (first last : Int) : Prop :=
  (MakeInterval first last ∧ ∃ interval : Interval, interval.first = first ∧
    interval.last = last ∧ ∀ fresh, Item.ofTree fresh brace = .ok [.numerals interval]) ∨
  (¬MakeInterval first last ∧ ∃ start stop, ∀ fresh,
    Item.ofTree fresh brace = .error (.invalidRange start stop))

/-- The group between braces around a text. -/
def braceAround (offset : Nat) (content : Text) : Tree :=
  .group offset [Tree.ofText (offset + 1) content]

theorem intervalOf_braceContent (bounds : IsBounds content first last) (offset : Nat) :
    Item.intervalOf [Tree.ofText offset content] = read content := by
  have cut := Token.cutInto_of_ordinary bounds.ordinary offset
  have whole := Item.intervalOf_ofTokens cut
  rwa [Token.textOf_ofText] at whole

theorem isReadBetween_braceAround (bounds : IsBounds content first last) (offset : Nat) :
    IsReadBetween (braceAround offset content) first last := by
  have isInterval := intervalOf_braceContent bounds (offset + 1)
  rcases read_of_isBounds bounds with
    ⟨fits, interval, isRead, isFirst, isLast⟩ | ⟨noFit, start, stop, failed, -⟩
  · refine .inl ⟨fits, interval, isFirst, isLast, fun fresh => ?_⟩
    rw [braceAround, Item.ofTree, isInterval, isRead]
    rfl
  · refine .inr ⟨noFit, start, stop, fun fresh => ?_⟩
    rw [braceAround, Item.ofTree, isInterval, failed]
    rfl

section Pattern

variable {source more : Text} {before rest : List Token} {offset : Nat}

/-- A brace around the form of a range is a group of the pattern, if every brace is closed. -/
theorem isPartOfSome_braceAround
    (tokens : Pattern.tokensOf source = before ++ ⟨offset, .plain '{'⟩ :: rest)
    (behind : Token.textOf rest = content ++ '}' :: more)
    (bounds : IsBounds content first last) :
    (∃ opening, .unclosed opening ∈ Tree.ofTokens (Pattern.tokensOf source)) ∨
      (braceAround offset content).IsPartOfSome (Tree.ofTokens (Pattern.tokensOf source)) := by
  have isRest : Token.ofText (offset + 1) (content ++ '}' :: more) = rest := by
    rcases Pattern.exists_tokensOf source with ⟨base, isBody⟩
    rw [isBody] at tokens
    have place : offset = base + (Token.textOf before).length := Token.offset_eq_of_ofText tokens
    have split : Token.ofText base (withoutAnchor source) =
        (before ++ [⟨offset, .plain '{'⟩]) ++ rest := by
      simp [tokens]
    have suffix := Token.ofText_suffix split
    rw [behind, Token.textOf_append, List.length_append, ← Nat.add_assoc, ← place] at suffix
    exact suffix
  have plain : ∀ c ∈ content, c ∉ ['\\', '['] := by
    intro c member isHead
    exact bounds.ordinary c member (List.mem_append_left ['{', '}', ','] isHead)
  rw [Token.ofText_append_of_ordinary plain, Token.ofText_cons_of_ordinary (by decide)] at isRest
  have cut := Token.cutInto_of_ordinary bounds.ordinary (offset + 1)
  rw [tokens, ← isRest, ← List.cons_append, ← List.append_assoc]
  exact Tree.isPartOfSome_ofTokens rfl rfl cut before _

theorem fault_or_isPartOfSome
    (tokens : Pattern.tokensOf source = before ++ ⟨offset, .plain '{'⟩ :: rest)
    (behind : Token.textOf rest = content ++ '}' :: more)
    (bounds : IsBounds content first last) :
    (∃ fault, Pattern.compile source = .error fault) ∨
      MakeInterval first last ∧
        (braceAround offset content).IsPartOfSome (Tree.ofTokens (Pattern.tokensOf source)) := by
  cases isRead : Pattern.itemsOf source with
  | error fault => exact .inl ⟨fault, by rw [Pattern.compile, isRead]; rfl⟩
  | ok items =>
      have reads := Item.reads_of_ofTrees isRead
      rcases isPartOfSome_braceAround tokens behind bounds with ⟨opening, unclosed⟩ | isPart
      · exact absurd unclosed (reads.unclosed_not_mem opening)
      · rcases reads.exists_intervalOf isPart with ⟨interval?, isInterval⟩
        rw [intervalOf_braceContent bounds] at isInterval
        rcases read_of_isBounds bounds with ⟨fits, -⟩ | ⟨-, start, stop, failed, -⟩
        · exact .inr ⟨fits, isPart⟩
        · rw [failed] at isInterval
          cases isInterval

end Pattern

/-- Range syntax is recognised exactly. A text that has not the form of a range is none, and one
that has is the interval between its bounds if these make one, and a fault that quotes them
otherwise. So a brace around a range, at whatever depth of a pattern, is a group that is read as an
interval, and not as characters or as a choice; if its bounds make none, the pattern has a fault. -/
theorem reads_exactly_ranges :
    (∀ text, read text = .ok none ↔ ¬∃ first last, IsBounds text first last) ∧
    (∀ text first last, IsBounds text first last →
      ((∃ interval, read text = .ok (some interval) ∧ interval.first = first ∧
        interval.last = last) ↔ MakeInterval first last) ∧
      ((∃ start stop, read text = .error (.invalidRange start stop) ∧ IsNumeral start first ∧
        IsNumeral stop last) ↔ ¬MakeInterval first last)) ∧
    ∀ source before offset rest content more first last,
      Pattern.tokensOf source = before ++ ⟨offset, .plain '{'⟩ :: rest →
      Token.textOf rest = content ++ '}' :: more → IsBounds content first last →
      IsReadBetween (braceAround offset content) first last ∧
      ((∃ fault, Pattern.compile source = .error fault) ∨ MakeInterval first last ∧
        (braceAround offset content).IsPartOfSome
          (Tree.ofTokens (Pattern.tokensOf source))) := by
  refine ⟨fun _ => read_eq_none_iff, fun _ _ _ bounds => ?_, ?_⟩
  · exact ⟨exists_read_eq_some_iff bounds, exists_read_eq_error_iff bounds⟩
  · intro source before offset rest content more first last tokens behind bounds
    exact ⟨isReadBetween_braceAround bounds offset, fault_or_isPartOfSome tokens behind bounds⟩

/-- A range with zeros and signs, in an option of a brace. -/
theorem reads_exactly_ranges_inOption :
    let source := "\x7bb,x\x7b-007..+12\x7d\x7d".toList
    let content := "-007..+12".toList
    IsBounds content (-7) 12 ∧
      (∃ interval, read content = .ok (some interval) ∧ interval.first = -7 ∧
        interval.last = 12) ∧
      Pattern.tokensOf source = Token.ofText 0 "\x7bb,x".toList ++ ⟨4, .plain '{'⟩ ::
        Token.ofText 5 (content ++ "\x7d\x7d".toList) ∧
      (braceAround 4 content).IsPartOfSome (Tree.ofTokens (Pattern.tokensOf source)) ∧
      ∃ interval : Interval, interval.first = -7 ∧ interval.last = 12 ∧
        ∀ fresh, Item.ofTree fresh (braceAround 4 content) = .ok [.numerals interval] := by
  intro source content
  have bounds : IsBounds content (-7) 12 :=
    ⟨"-007".toList, "+12".toList, by decide, int?_eq_some_iff.mp (by decide),
      int?_eq_some_iff.mp (by decide)⟩
  have fits : MakeInterval (-7) 12 := by decide
  have tokens : Pattern.tokensOf source = Token.ofText 0 "\x7bb,x".toList ++ ⟨4, .plain '{'⟩ ::
      Token.ofText 5 (content ++ "\x7d\x7d".toList) := by
    decide +kernel
  have compiles : (Pattern.compile source).toOption.isSome = true := by decide +kernel
  rcases reads_exactly_ranges with ⟨-, ranges, braces⟩
  rcases braces source _ _ _ content _ (-7) 12 tokens (Token.textOf_ofText _ _) bounds with
    ⟨isRead, ⟨fault, failed⟩ | ⟨-, isPart⟩⟩
  · rw [failed] at compiles
    cases compiles
  · rcases isRead with ⟨-, isRead⟩ | ⟨noFit, -⟩
    · exact ⟨bounds, (ranges content (-7) 12 bounds).1.mpr fits, tokens, isPart, isRead⟩
    · exact absurd fits noFit

/-- A third dot, a sign too many or a digit of another script make no range, and the least integer
is no bound. -/
example :
    ["1...2", "1..+-2", "..2", "1..٢"].all (fun text => read text.toList == .ok none) = true ∧
      read "-9223372036854775808..-0".toList =
        .error (.invalidRange "-9223372036854775808".toList ['0']) := by
  decide +kernel

end Interval

end Glob

end PropertyCascade
