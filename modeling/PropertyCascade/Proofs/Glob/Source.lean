import Mathlib.Data.List.Basic
import PropertyCascade.Glob.Item
import PropertyCascade.Proofs.Number.Numeral
import PropertyCascade.Proofs.Text.Bracketing

/-!
# The language of a pattern

What a section header means, said about its own characters and not about a reading of it. A text
is in the language of a pattern if the pattern can be taken apart from the left, one item after
the other, and the text along with it.

The parts of a pattern that need more than a character are the body of a class and the content of
a brace. `ClassMembers` and `IsOption` say which texts these are. Both are prefix codes: no body of
a class is a proper prefix of another one before its bracket, and no option one of another before
its comma or brace, so there is one way to take a pattern apart.
-/

namespace PropertyCascade

namespace Glob

namespace Source

/-! ## Classes -/

/-- The body of a class after the sign of negation, with the members that it lists. -/
inductive ClassMembers : Text → List ClassMember → Prop where
  | nil : ClassMembers [] []
  | escaped {rest : Text} {members : List ClassMember} (c : Char)
      (later : ClassMembers rest members) : ClassMembers ('\\' :: c :: rest) (.single c :: members)
  | span {rest : Text} {members : List ClassMember} {first last : Char}
      (notEscape : first ≠ '\\') (notFirst : first ≠ ']') (notLast : last ≠ ']')
      (later : ClassMembers rest members) :
      ClassMembers (first :: '-' :: last :: rest) (.span first last :: members)
  | single {rest : Text} {members : List ClassMember} {c : Char}
      (notEscape : c ≠ '\\') (notClosing : c ≠ ']')
      (noSpan : ∀ last others, rest ≠ '-' :: last :: others)
      (later : ClassMembers rest members) : ClassMembers (c :: rest) (.single c :: members)

/-- The body of a class. -/
inductive ClassBody : Text → CharClass → Prop where
  | listed {body : Text} {members : List ClassMember} (notNegated : body.head? ≠ some '!')
      (lists : ClassMembers body members) : ClassBody body ⟨false, members⟩
  | excluded {body : Text} {members : List ClassMember} (lists : ClassMembers body members) :
      ClassBody ('!' :: body) ⟨true, members⟩

theorem append_closing_ne_span {body rest others : Text} {last : Char}
    (noSpan : ∀ last others, body ≠ '-' :: last :: others) (notLast : last ≠ ']') :
    body ++ ']' :: rest ≠ '-' :: last :: others := by
  intro same
  match body with
  | [] => simp at same
  | [_] =>
      simp only [List.cons_append, List.nil_append, List.cons.injEq] at same
      exact notLast same.2.1.symm
  | first :: second :: later =>
      simp only [List.cons_append, List.cons.injEq] at same
      exact noSpan second later (by rw [same.1])

theorem ClassMembers.unique {body other rest otherRest : Text} {members others : List ClassMember}
    (lists : ClassMembers body members) (otherLists : ClassMembers other others)
    (same : body ++ ']' :: rest = other ++ ']' :: otherRest) :
    body = other ∧ members = others ∧ rest = otherRest := by
  induction lists generalizing other others with
  | nil =>
      cases otherLists with
      | nil => simpa using same
      | escaped => simp at same
      | span _ notFirst => simp [notFirst.symm] at same
      | single _ notClosing => simp [notClosing.symm] at same
  | escaped c _ ih =>
      cases otherLists with
      | nil => simp at same
      | escaped otherC otherLater =>
          simp only [List.cons_append, List.cons.injEq, true_and] at same
          rcases same with ⟨rfl, same⟩
          rcases ih otherLater same with ⟨rfl, rfl, restSame⟩
          exact ⟨rfl, rfl, restSame⟩
      | span notEscape => simp [notEscape.symm] at same
      | single notEscape => simp [notEscape.symm] at same
  | span notEscape notFirst notLast _ ih =>
      cases otherLists with
      | nil => simp [notFirst] at same
      | escaped => simp [notEscape] at same
      | span _ _ _ otherLater =>
          simp only [List.cons_append, List.cons.injEq, true_and] at same
          rcases same with ⟨rfl, rfl, same⟩
          rcases ih otherLater same with ⟨rfl, rfl, restSame⟩
          exact ⟨rfl, rfl, restSame⟩
      | single _ _ noSpan otherLater =>
          simp only [List.cons_append, List.cons.injEq] at same
          exact absurd same.2.symm (append_closing_ne_span noSpan notLast)
  | single notEscape notClosing noSpan _ ih =>
      cases otherLists with
      | nil => simp [notClosing] at same
      | escaped => simp [notEscape] at same
      | span _ _ notLast =>
          simp only [List.cons_append, List.cons.injEq] at same
          exact absurd same.2 (append_closing_ne_span noSpan notLast)
      | single _ _ _ otherLater =>
          simp only [List.cons_append, List.cons.injEq] at same
          rcases same with ⟨rfl, same⟩
          rcases ih otherLater same with ⟨rfl, rfl, restSame⟩
          exact ⟨rfl, rfl, restSame⟩

theorem append_closing_ne_negated {body rest others : Text} (notNegated : body.head? ≠ some '!') :
    body ++ ']' :: rest ≠ '!' :: others := by
  intro same
  cases body with
  | nil => simp at same
  | cons c later =>
      simp only [List.cons_append, List.cons.injEq] at same
      exact notNegated (by rw [same.1, List.head?_cons])

theorem ClassBody.unique {body other rest otherRest : Text} {charClass otherClass : CharClass}
    (isBody : ClassBody body charClass) (otherIsBody : ClassBody other otherClass)
    (same : body ++ ']' :: rest = other ++ ']' :: otherRest) :
    body = other ∧ charClass = otherClass ∧ rest = otherRest := by
  cases isBody with
  | listed notNegated lists =>
      cases otherIsBody with
      | listed _ otherLists =>
          rcases lists.unique otherLists same with ⟨rfl, rfl, restSame⟩
          exact ⟨rfl, rfl, restSame⟩
      | excluded => exact absurd same (append_closing_ne_negated notNegated)
  | excluded lists =>
      cases otherIsBody with
      | listed notNegated => exact absurd same.symm (append_closing_ne_negated notNegated)
      | excluded otherLists =>
          simp only [List.cons_append, List.cons.injEq, true_and] at same
          rcases lists.unique otherLists same with ⟨rfl, rfl, restSame⟩
          exact ⟨rfl, rfl, restSame⟩

/-! ## Braces -/

/-- The pieces of a pattern whose characters do not count as braces or commas. -/
inductive IsWhole : Text → Prop where
  | escaped (c : Char) : IsWhole ['\\', c]
  | bracket {body : Text} {charClass : CharClass} (isBody : ClassBody body charClass) :
      IsWhole ('[' :: body ++ [']'])

theorem IsWhole.starts {piece : Text} (isWhole : IsWhole piece) :
    ∃ c ∈ ['\\', '['], ∃ later, piece = c :: later := by
  cases isWhole with
  | escaped c => exact ⟨'\\', by simp, [c], rfl⟩
  | bracket => exact ⟨'[', by simp, _, rfl⟩

theorem IsWhole.unique {piece other rest otherRest : Text} (isWhole : IsWhole piece)
    (otherIsWhole : IsWhole other) (same : piece ++ rest = other ++ otherRest) :
    piece = other ∧ rest = otherRest := by
  cases isWhole with
  | escaped c =>
      cases otherIsWhole with
      | escaped => simpa using same
      | bracket => simp at same
  | bracket isBody =>
      cases otherIsWhole with
      | escaped => simp at same
      | bracket otherIsBody =>
          simp only [List.cons_append, List.append_assoc, List.nil_append, List.cons.injEq,
            true_and] at same
          rcases isBody.unique otherIsBody same with ⟨rfl, -, restSame⟩
          exact ⟨rfl, restSame⟩

/-- The braces of a pattern, with commas between options. -/
def braces : Bracketing where
  opening := '{'
  closing := '}'
  separator := ','
  distinct := by decide
  IsWhole := IsWhole
  heads := ['\\', '[']
  apart := by decide
  startsWithHead := fun _ => IsWhole.starts
  wholeUnique := IsWhole.unique

/-- An option of a brace: its braces balance, and its commas stand within them. -/
def IsOption (text : Text) : Prop :=
  braces.IsPart text

/-- The syntax of a range of integers. -/
def IsRange (content : Text) (first last : Int) : Prop :=
  ∃ before after, content = before ++ '.' :: '.' :: after ∧
    Numeral.int? before = some first ∧ Numeral.int? after = some last

/-- The content of a brace with several options. -/
def joined (options : List Text) : Text :=
  [','].intercalate options

/-- The characters that do not stand for themselves in every place. -/
def special : List Char := ['*', '?', '\\', '[', '{']

/-- The texts that a pattern denotes. -/
inductive Denotes : Text → Text → Prop where
  | nil : Denotes [] []
  | plain {rest text : Text} {c : Char} (ordinary : c ∉ special) (later : Denotes rest text) :
      Denotes (c :: rest) (c :: text)
  | escaped {rest text : Text} (c : Char) (later : Denotes rest text) :
      Denotes ('\\' :: c :: rest) (c :: text)
  | anyChar {rest text : Text} (c : Char) (later : Denotes rest text) :
      Denotes ('?' :: rest) (c :: text)
  | star {rest before text : Text} (alone : rest.head? ≠ some '*') (within : '/' ∉ before)
      (later : Denotes rest text) : Denotes ('*' :: rest) (before ++ text)
  | directories {rest before text : Text}
      (ends : before = [] ∨ ∃ front, before = front ++ ['/']) (later : Denotes rest text) :
      Denotes ('*' :: '*' :: '/' :: rest) (before ++ text)
  | anything (text : Text) : Denotes ['*', '*'] text
  | oneOf {body rest text : Text} {charClass : CharClass} {c : Char}
      (isBody : ClassBody body charClass) (accepted : charClass.accepts c = true)
      (later : Denotes rest text) : Denotes ('[' :: body ++ ']' :: rest) (c :: text)
  | numeral {content rest before text : Text} {first last number : Int}
      (range : IsRange content first last) (above : first ≤ number) (below : number ≤ last)
      (canonical : Numeral.IsCanonical before number) (later : Denotes rest text) :
      Denotes ('{' :: content ++ '}' :: rest) (before ++ text)
  | choice {options : List Text} {option rest before text : Text} (several : 2 ≤ options.length)
      (areOptions : ∀ option ∈ options, IsOption option) (member : option ∈ options)
      (chosen : Denotes option before) (later : Denotes rest text) :
      Denotes ('{' :: joined options ++ '}' :: rest) (before ++ text)
  | braces {content rest inside text : Text} (isOption : IsOption content)
      (noRange : ¬∃ first last, IsRange content first last)
      (kept : Denotes content inside) (later : Denotes rest text) :
      Denotes ('{' :: content ++ '}' :: rest) ('{' :: inside ++ '}' :: text)

/-- A header without the separator at its start, if it has one. -/
def withoutAnchor : Text → Text
  | '/' :: body => body
  | body => body

/-! ## Options -/

@[simp]
theorem joined_singleton (only : Text) : joined [only] = only :=
  List.intercalate_singleton

theorem joined_cons_cons (option second : Text) (others : List Text) :
    joined (option :: second :: others) = option ++ ',' :: joined (second :: others) := by
  simp [joined]

theorem joined_unique {options others : List Text} {rest otherRest : Text} (nonempty : options ≠ [])
    (otherNonempty : others ≠ []) (areOptions : ∀ option ∈ options, IsOption option)
    (otherAreOptions : ∀ option ∈ others, IsOption option)
    (same : joined options ++ '}' :: rest = joined others ++ '}' :: otherRest) :
    options = others ∧ rest = otherRest :=
  Bracketing.parts_unique nonempty otherNonempty areOptions otherAreOptions same

theorem isOption_whole {piece : Text} (isWhole : IsWhole piece) : IsOption piece :=
  Bracketing.isPart_whole isWhole

/-- A brace of options can stand in an option again. -/
theorem isOption_brace {options : List Text} (areOptions : ∀ option ∈ options, IsOption option) :
    IsOption ('{' :: joined options ++ ['}']) :=
  .char (Bracketing.depthAfter_opening 0) (Bracketing.closes_intercalate areOptions)

theorem depthAfter_of_not_mem {c : Char} (ordinary : c ∉ ['\\', '[', '{', '}', ',']) :
    braces.depthAfter 0 c = some 0 := by
  simp only [List.mem_cons, List.not_mem_nil, or_false, not_or] at ordinary
  rcases ordinary with ⟨notEscape, notBracket, notOpening, notClosing, notComma⟩
  refine Bracketing.depthAfter_ordinary 0 ?_ notOpening notClosing notComma
  rw [braces, List.mem_pair]
  rintro (rfl | rfl)
  · exact notEscape rfl
  · exact notBracket rfl

/-! ## Ranges -/

theorem depthAfter_of_numeral {c : Char} (numeral : Numeral.isDigit c = true ∨ c = '-' ∨ c = '+') :
    braces.depthAfter 0 c = some 0 := by
  have ordinary : c ∉ ['\\', '[', '{', '}', ','] := by
    simp only [List.mem_cons, List.not_mem_nil, or_false]
    rintro (rfl | rfl | rfl | rfl | rfl)
    all_goals
      revert numeral
      decide
  exact depthAfter_of_not_mem ordinary

theorem dot_not_mem_of_int? {text : Text} {number : Int} (read : Numeral.int? text = some number) :
    '.' ∉ text := by
  intro member
  have numeral := Numeral.isDigit_or_sign_of_int? read '.' member
  revert numeral
  decide

theorem cutDots_append {before : Text} (noDot : '.' ∉ before) (after : Text) :
    Interval.cutDots (before ++ '.' :: '.' :: after) = some (before, after) := by
  induction before with
  | nil => rfl
  | cons c rest ih =>
      rcases not_or.mp (mt List.mem_cons.mpr noDot) with ⟨notDot, restNoDot⟩
      rw [List.cons_append, Interval.cutDots, ih restNoDot]
      · rfl
      · intro _ same
        exact absurd same.symm notDot

theorem IsRange.unique {content : Text} {first last otherFirst otherLast : Int}
    (range : IsRange content first last) (otherRange : IsRange content otherFirst otherLast) :
    first = otherFirst ∧ last = otherLast := by
  rcases range with ⟨before, after, rfl, readFirst, readLast⟩
  rcases otherRange with ⟨otherBefore, otherAfter, same, otherReadFirst, otherReadLast⟩
  have cut := cutDots_append (dot_not_mem_of_int? readFirst) after
  rw [same, cutDots_append (dot_not_mem_of_int? otherReadFirst)] at cut
  rcases Prod.mk.inj (Option.some.inj cut) with ⟨rfl, rfl⟩
  exact ⟨Option.some.inj (readFirst.symm.trans otherReadFirst),
    Option.some.inj (readLast.symm.trans otherReadLast)⟩

theorem IsRange.depthAfter {content : Text} {first last : Int}
    (range : IsRange content first last) : ∀ c ∈ content, braces.depthAfter 0 c = some 0 := by
  rcases range with ⟨before, after, rfl, readFirst, readLast⟩
  intro c member
  rcases List.mem_append.mp member with inBefore | inAfter
  · exact depthAfter_of_numeral (Numeral.isDigit_or_sign_of_int? readFirst c inBefore)
  · rcases List.mem_cons.mp inAfter with rfl | inAfter
    · rfl
    · rcases List.mem_cons.mp inAfter with rfl | inAfter
      · rfl
      · exact depthAfter_of_numeral (Numeral.isDigit_or_sign_of_int? readLast c inAfter)

theorem IsRange.isOption {content : Text} {first last : Int} (range : IsRange content first last) :
    IsOption content :=
  Bracketing.isPart_of_ordinary range.depthAfter

/-! ## Taking the first item off a pattern -/

theorem denotes_nil {text : Text} : Denotes [] text ↔ text = [] := by
  constructor
  · intro denotes
    cases denotes
    rfl
  · rintro rfl
    exact .nil

section Items

variable {rest text : Text}

theorem denotes_plain {c : Char} (ordinary : c ∉ special) :
    Denotes (c :: rest) text ↔ Splits (· = [c]) (Denotes rest) text := by
  constructor
  · intro denotes
    cases denotes with
    | plain _ later => exact ⟨[c], _, rfl, rfl, later⟩
    | _ => simp [special] at ordinary
  · intro splits
    rcases splits with ⟨_, after, rfl, rfl, later⟩
    exact .plain ordinary later

theorem denotes_escaped {c : Char} :
    Denotes ('\\' :: c :: rest) text ↔ Splits (· = [c]) (Denotes rest) text := by
  constructor
  · intro denotes
    cases denotes with
    | escaped _ later => exact ⟨[c], _, rfl, rfl, later⟩
    | plain ordinary => simp [special] at ordinary
  · intro splits
    rcases splits with ⟨_, after, rfl, rfl, later⟩
    exact .escaped c later

theorem denotes_anyChar :
    Denotes ('?' :: rest) text ↔ Splits (fun before => ∃ c, before = [c]) (Denotes rest) text := by
  constructor
  · intro denotes
    cases denotes with
    | anyChar c later => exact ⟨[c], _, rfl, ⟨c, rfl⟩, later⟩
    | plain ordinary => simp [special] at ordinary
  · intro splits
    rcases splits with ⟨_, after, rfl, ⟨c, rfl⟩, later⟩
    exact .anyChar c later

theorem denotes_star (alone : rest.head? ≠ some '*') :
    Denotes ('*' :: rest) text ↔ Splits ('/' ∉ ·) (Denotes rest) text := by
  constructor
  · intro denotes
    cases denotes with
    | star _ within later => exact ⟨_, _, rfl, within, later⟩
    | plain ordinary => simp [special] at ordinary
    | _ => simp at alone
  · intro splits
    rcases splits with ⟨before, after, rfl, within, later⟩
    exact .star alone within later

theorem denotes_directories :
    Denotes ('*' :: '*' :: '/' :: rest) text ↔
      Splits (fun before => before = [] ∨ ∃ front, before = front ++ ['/'])
        (Denotes rest) text := by
  constructor
  · intro denotes
    cases denotes with
    | directories ends later => exact ⟨_, _, rfl, ends, later⟩
    | plain ordinary => simp [special] at ordinary
    | star alone => simp at alone
  · intro splits
    rcases splits with ⟨before, after, rfl, ends, later⟩
    exact .directories ends later

theorem denotes_oneOf {body : Text} {charClass : CharClass} (isBody : ClassBody body charClass) :
    Denotes ('[' :: body ++ ']' :: rest) text ↔
      Splits (fun before => ∃ c, before = [c] ∧ charClass.accepts c = true)
        (Denotes rest) text := by
  constructor
  · intro denotes
    generalize same : '[' :: body ++ ']' :: rest = pattern at denotes
    cases denotes with
    | oneOf otherIsBody accepted later =>
        rcases isBody.unique otherIsBody (List.cons.inj same).2 with ⟨rfl, rfl, rfl⟩
        exact ⟨[_], _, rfl, ⟨_, rfl, accepted⟩, later⟩
    | plain ordinary => simp [special, ← (List.cons.inj same).1] at ordinary
    | _ => simp at same
  · intro splits
    rcases splits with ⟨_, after, rfl, ⟨c, rfl, accepted⟩, later⟩
    exact .oneOf isBody accepted later

/-- What a brace with given options denotes. -/
inductive BraceDenotes : List Text → Text → Prop where
  | numeral {content before : Text} {first last number : Int} (range : IsRange content first last)
      (above : first ≤ number) (below : number ≤ last)
      (canonical : Numeral.IsCanonical before number) : BraceDenotes [content] before
  | choice {options : List Text} {option before : Text} (several : 2 ≤ options.length)
      (member : option ∈ options) (chosen : Denotes option before) : BraceDenotes options before
  | braces {content inside : Text} (noRange : ¬∃ first last, IsRange content first last)
      (kept : Denotes content inside) : BraceDenotes [content] ('{' :: inside ++ ['}'])

theorem denotes_brace {options : List Text} (nonempty : options ≠ [])
    (areOptions : ∀ option ∈ options, IsOption option) :
    Denotes ('{' :: joined options ++ '}' :: rest) text ↔
      Splits (BraceDenotes options) (Denotes rest) text := by
  have only {content otherRest : Text} (isOption : IsOption content)
      (same : '{' :: joined options ++ '}' :: rest = '{' :: content ++ '}' :: otherRest) :
      options = [content] ∧ rest = otherRest := by
    refine joined_unique nonempty (List.cons_ne_nil _ _) areOptions
      (List.forall_mem_singleton.mpr isOption) ?_
    rw [joined_singleton]
    exact (List.cons.inj same).2
  constructor
  · intro denotes
    generalize same : '{' :: joined options ++ '}' :: rest = pattern at denotes
    cases denotes with
    | numeral range above below canonical later =>
        rcases only range.isOption same with ⟨rfl, rfl⟩
        exact ⟨_, _, rfl, .numeral range above below canonical, later⟩
    | choice several otherAreOptions member chosen later =>
        have otherNonempty := List.ne_nil_of_mem member
        rcases joined_unique nonempty otherNonempty areOptions otherAreOptions
            (List.cons.inj same).2 with ⟨rfl, rfl⟩
        exact ⟨_, _, rfl, .choice several member chosen, later⟩
    | braces isOption noRange kept later =>
        rcases only isOption same with ⟨rfl, rfl⟩
        exact ⟨_, _, by simp, .braces noRange kept, later⟩
    | plain ordinary => simp [special, ← (List.cons.inj same).1] at ordinary
    | _ => simp at same
  · intro splits
    rcases splits with ⟨before, after, rfl, denotes, later⟩
    cases denotes with
    | numeral range above below canonical =>
        rw [joined_singleton]
        exact .numeral range above below canonical later
    | choice several member chosen => exact .choice several areOptions member chosen later
    | braces noRange kept =>
        rw [joined_singleton]
        have isOption := List.forall_mem_singleton.mp areOptions
        simpa using Denotes.braces isOption noRange kept later

end Items

theorem denotes_anything {text : Text} : Denotes ['*', '*'] text :=
  .anything text

theorem braceDenotes_numeral {content before : Text} {first last : Int}
    (range : IsRange content first last) :
    BraceDenotes [content] before ↔
      ∃ number, first ≤ number ∧ number ≤ last ∧ Numeral.IsCanonical before number := by
  constructor
  · intro denotes
    cases denotes with
    | numeral otherRange above below canonical =>
        rcases range.unique otherRange with ⟨rfl, rfl⟩
        exact ⟨_, above, below, canonical⟩
    | choice several => simp at several
    | braces noRange => exact absurd ⟨first, last, range⟩ noRange
  · intro someNumber
    rcases someNumber with ⟨number, above, below, canonical⟩
    exact .numeral range above below canonical

theorem braceDenotes_choice {options : List Text} {before : Text} (several : 2 ≤ options.length) :
    BraceDenotes options before ↔ ∃ option ∈ options, Denotes option before := by
  constructor
  · intro denotes
    cases denotes with
    | numeral => simp at several
    | choice _ member chosen => exact ⟨_, member, chosen⟩
    | braces => simp at several
  · intro someOption
    rcases someOption with ⟨option, member, chosen⟩
    exact .choice several member chosen

theorem braceDenotes_braces {content before : Text}
    (noRange : ¬∃ first last, IsRange content first last) :
    BraceDenotes [content] before ↔
      ∃ inside, before = '{' :: inside ++ ['}'] ∧ Denotes content inside := by
  constructor
  · intro denotes
    cases denotes with
    | numeral range => exact absurd ⟨_, _, range⟩ noRange
    | choice several => simp at several
    | braces _ kept => exact ⟨_, rfl, kept⟩
  · intro inBraces
    rcases inBraces with ⟨inside, rfl, kept⟩
    exact .braces noRange kept

end Source

end Glob

end PropertyCascade
