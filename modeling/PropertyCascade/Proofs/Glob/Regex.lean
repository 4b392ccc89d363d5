import Mathlib.Data.List.Basic
import PropertyCascade.Glob.CharClass
import PropertyCascade.Proofs.Number.Numeral
import PropertyCascade.Proofs.Text.Bracketing

/-!
# Regular expressions

The part of the notation of regular expressions in which patterns and the numerals of intervals are
written: pieces for one character, which may be repeated, and alternatives in parentheses, which may
be left out. What an expression denotes is said about its characters, taken off from the left
together with those of the text.

A repetition belongs to what stands before it, so an expression cannot be read without looking at
what follows it. `Expresses` says what can be said nevertheless: in front of every text that does
not start with a repetition, the expression denotes the texts of a language and then those of the
rest. Pieces, sequences and alternatives have this property, and what is built from them has it
without another look at the characters.
-/

namespace PropertyCascade

namespace Glob

namespace Regex

/-- The characters that do not stand for themselves. -/
def special : List Char :=
  ['\\', '.', '+', '*', '?', '(', ')', '|', '[', ']', '{', '}', '^', '$']

/-- The parentheses of an expression, with bars between alternatives. -/
def parentheses : Bracketing where
  opening := '('
  closing := ')'
  separator := '|'
  distinct := by decide
  IsWhole := fun piece => ∃ c, piece = ['\\', c]
  heads := ['\\']
  apart := by decide
  startsWithHead := by
    rintro _ ⟨c, rfl⟩
    exact ⟨'\\', List.mem_singleton_self _, [c], rfl⟩
  wholeUnique := by
    rintro _ _ rest otherRest ⟨c, rfl⟩ ⟨other, rfl⟩ same
    simpa using same

/-- Alternatives in parentheses. -/
def inParentheses (alternatives : List Text) : Text :=
  '(' :: '?' :: ':' :: ['|'].intercalate alternatives ++ [')']

/-- What stands for a character in a class. -/
inductive ClassChar : Text → Char → Prop where
  | plain {c : Char} (ordinary : c ∉ escapable) : ClassChar [c] c
  | escaped {c : Char} (isEscapable : c ∈ escapable) : ClassChar ['\\', c] c

/-- The members that are listed in a class. -/
inductive ClassMembers : Text → List ClassMember → Prop where
  | nil : ClassMembers [] []
  | single {letter rest : Text} {c : Char} {members : List ClassMember}
      (stands : ClassChar letter c) (later : ClassMembers rest members) :
      ClassMembers (letter ++ rest) (.single c :: members)
  | span {letter other rest : Text} {first last : Char} {members : List ClassMember}
      (firstStands : ClassChar letter first) (lastStands : ClassChar other last)
      (ordered : first ≤ last) (later : ClassMembers rest members) :
      ClassMembers (letter ++ '-' :: (other ++ rest)) (.span first last :: members)

/-- What stands between the brackets of a class, with the characters that the class stands for. -/
inductive ClassBody : Text → (Char → Prop) → Prop where
  | listed {body : Text} {members : List ClassMember} (nonempty : members ≠ [])
      (lists : ClassMembers body members) :
      ClassBody body fun c => ∃ member ∈ members, member.covers c = true
  | excluded {body : Text} {members : List ClassMember} (nonempty : members ≠ [])
      (lists : ClassMembers body members) :
      ClassBody ('^' :: body) fun c => ∀ member ∈ members, member.covers c = false

/-- The pieces for one character, with the characters that they stand for. -/
inductive IsPiece : Text → (Char → Prop) → Prop where
  | char {c : Char} (ordinary : c ∉ special) : IsPiece [c] (· = c)
  | escaped {c : Char} (isEscapable : c ∈ escapable) : IsPiece ['\\', c] (· = c)
  | any : IsPiece ['.'] fun _ => True
  | oneOf {body : Text} {holds : Char → Prop} (isBody : ClassBody body holds) :
      IsPiece ('[' :: body ++ [']']) holds

/-- What may stand behind a piece, with the numbers of characters that it asks for. -/
inductive IsRepetition : Text → (Nat → Prop) → Prop where
  | once : IsRepetition [] (· = 1)
  | many : IsRepetition ['*'] fun _ => True
  | times (count : Nat) : IsRepetition ('{' :: Numeral.ofNat count ++ ['}']) (· = count)

/-- The texts that an expression denotes. -/
inductive Denotes : Text → Text → Prop where
  | nil : Denotes [] []
  | piece {piece repetition rest before text : Text} {holds : Char → Prop} {counts : Nat → Prop}
      (isPiece : IsPiece piece holds) (isRepetition : IsRepetition repetition counts)
      (held : ∀ c ∈ before, holds c) (counted : counts before.length) (later : Denotes rest text) :
      Denotes (piece ++ (repetition ++ rest)) (before ++ text)
  | group {alternatives : List Text} {alternative rest before text : Text}
      (areParts : ∀ alternative ∈ alternatives, parentheses.IsPart alternative)
      (member : alternative ∈ alternatives) (chosen : Denotes alternative before)
      (later : Denotes rest text) :
      Denotes (inParentheses alternatives ++ rest) (before ++ text)
  | optional {alternatives : List Text} {alternative rest before text : Text}
      (areParts : ∀ alternative ∈ alternatives, parentheses.IsPart alternative)
      (member : alternative ∈ alternatives) (chosen : Denotes alternative before)
      (later : Denotes rest text) :
      Denotes (inParentheses alternatives ++ '?' :: rest) (before ++ text)
  | leftOut {alternatives : List Text} {rest text : Text} (nonempty : alternatives ≠ [])
      (areParts : ∀ alternative ∈ alternatives, parentheses.IsPart alternative)
      (later : Denotes rest text) : Denotes (inParentheses alternatives ++ '?' :: rest) text

/-! ## Classes -/

theorem classChar_escape (c : Char) : ClassChar (escape c) c := by
  unfold escape
  split
  case isTrue isEscapable => exact .escaped isEscapable
  case isFalse ordinary => exact .plain ordinary

theorem ClassChar.unique {letter other rest otherRest : Text} {c otherChar : Char}
    (stands : ClassChar letter c) (otherStands : ClassChar other otherChar)
    (same : letter ++ rest = other ++ otherRest) :
    letter = other ∧ c = otherChar ∧ rest = otherRest := by
  have isEscapable : '\\' ∈ escapable := by decide
  cases stands with
  | plain ordinary =>
      cases otherStands with
      | plain =>
          rcases List.cons.inj same with ⟨rfl, rfl⟩
          exact ⟨rfl, rfl, rfl⟩
      | escaped =>
          rw [(List.cons.inj same).1] at ordinary
          exact absurd isEscapable ordinary
  | escaped =>
      cases otherStands with
      | plain ordinary =>
          rw [← (List.cons.inj same).1] at ordinary
          exact absurd isEscapable ordinary
      | escaped =>
          rcases List.cons.inj (List.cons.inj same).2 with ⟨rfl, rfl⟩
          exact ⟨rfl, rfl, rfl⟩

/-- What stands for a character starts with no other escapable character than the backslash. -/
theorem ClassChar.ne_cons {letter rest others : Text} {c other : Char} (stands : ClassChar letter c)
    (isEscapable : other ∈ escapable) (notEscape : other ≠ '\\') :
    letter ++ rest ≠ other :: others := by
  intro same
  cases stands with
  | plain ordinary =>
      rw [(List.cons.inj same).1] at ordinary
      exact ordinary isEscapable
  | escaped => exact notEscape (List.cons.inj same).1.symm

theorem ClassMembers.ne_cons {body rest others : Text} {members : List ClassMember} {other : Char}
    (lists : ClassMembers body members) (isEscapable : other ∈ escapable)
    (notEscape : other ≠ '\\') (notClosing : other ≠ ']') :
    body ++ ']' :: rest ≠ other :: others := by
  cases lists with
  | nil =>
      intro same
      exact notClosing (List.cons.inj same).1.symm
  | single stands =>
      rw [List.append_assoc]
      exact stands.ne_cons isEscapable notEscape
  | span firstStands =>
      rw [List.append_assoc]
      exact firstStands.ne_cons isEscapable notEscape

theorem ClassMembers.unique {body other rest otherRest : Text} {members others : List ClassMember}
    (lists : ClassMembers body members) (otherLists : ClassMembers other others)
    (same : body ++ ']' :: rest = other ++ ']' :: otherRest) :
    body = other ∧ members = others ∧ rest = otherRest := by
  have noDash {body rest others : Text} {members : List ClassMember}
      (lists : ClassMembers body members) : body ++ ']' :: rest ≠ '-' :: others :=
    lists.ne_cons (by decide) (by decide) (by decide)
  have noClosing {letter rest others : Text} {c : Char} (stands : ClassChar letter c) :
      letter ++ rest ≠ ']' :: others :=
    stands.ne_cons (by decide) (by decide)
  induction lists generalizing other others with
  | nil =>
      cases otherLists with
      | nil => exact ⟨rfl, rfl, (List.cons.inj same).2⟩
      | single stands =>
          rw [List.append_assoc] at same
          exact absurd same.symm (noClosing stands)
      | span firstStands =>
          rw [List.append_assoc] at same
          exact absurd same.symm (noClosing firstStands)
  | single stands later ih =>
      rw [List.append_assoc] at same
      cases otherLists with
      | nil => exact absurd same (noClosing stands)
      | single otherStands otherLater =>
          rw [List.append_assoc] at same
          rcases stands.unique otherStands same with ⟨rfl, rfl, same⟩
          rcases ih otherLater same with ⟨rfl, rfl, rfl⟩
          exact ⟨rfl, rfl, rfl⟩
      | span otherStands =>
          rw [List.append_assoc] at same
          exact absurd (stands.unique otherStands same).2.2 (noDash later)
  | span firstStands lastStands _ _ ih =>
      rw [List.append_assoc, List.cons_append, List.append_assoc] at same
      cases otherLists with
      | nil => exact absurd same (noClosing firstStands)
      | single otherStands otherLater =>
          rw [List.append_assoc] at same
          exact absurd (firstStands.unique otherStands same).2.2.symm (noDash otherLater)
      | span otherFirstStands otherLastStands _ otherLater =>
          rw [List.append_assoc, List.cons_append, List.append_assoc] at same
          rcases firstStands.unique otherFirstStands same with ⟨rfl, rfl, same⟩
          rcases lastStands.unique otherLastStands (List.cons.inj same).2 with ⟨rfl, rfl, same⟩
          rcases ih otherLater same with ⟨rfl, rfl, rfl⟩
          exact ⟨rfl, rfl, rfl⟩

theorem ClassBody.unique {body other rest otherRest : Text} {holds otherHolds : Char → Prop}
    (isBody : ClassBody body holds) (otherIsBody : ClassBody other otherHolds)
    (same : body ++ ']' :: rest = other ++ ']' :: otherRest) :
    body = other ∧ holds = otherHolds ∧ rest = otherRest := by
  have noSign {body rest others : Text} {members : List ClassMember}
      (lists : ClassMembers body members) : body ++ ']' :: rest ≠ '^' :: others :=
    lists.ne_cons (by decide) (by decide) (by decide)
  cases isBody with
  | listed _ lists =>
      cases otherIsBody with
      | listed _ otherLists =>
          rcases lists.unique otherLists same with ⟨rfl, rfl, rfl⟩
          exact ⟨rfl, rfl, rfl⟩
      | excluded => exact absurd same (noSign lists)
  | excluded _ lists =>
      cases otherIsBody with
      | listed _ otherLists => exact absurd same.symm (noSign otherLists)
      | excluded _ otherLists =>
          rcases lists.unique otherLists (List.cons.inj same).2 with ⟨rfl, rfl, rfl⟩
          exact ⟨rfl, rfl, rfl⟩

/-! ## Pieces and repetitions -/

theorem IsPiece.congr {piece : Text} {holds other : Char → Prop} (isPiece : IsPiece piece holds)
    (same : ∀ c, holds c ↔ other c) : IsPiece piece other := by
  rcases funext fun c => propext (same c) with rfl
  exact isPiece

theorem special_subset_escapable : special ⊆ escapable := by
  simp [special, escapable]

theorem isPiece_escape (c : Char) : IsPiece (escape c) (· = c) := by
  unfold escape
  split
  case isTrue isEscapable => exact .escaped isEscapable
  case isFalse ordinary =>
    exact .char fun isSpecial => ordinary (special_subset_escapable isSpecial)

theorem IsPiece.unique {piece other rest otherRest : Text} {holds otherHolds : Char → Prop}
    (isPiece : IsPiece piece holds) (otherIsPiece : IsPiece other otherHolds)
    (same : piece ++ rest = other ++ otherRest) :
    piece = other ∧ holds = otherHolds ∧ rest = otherRest := by
  cases isPiece with
  | char ordinary =>
      cases otherIsPiece with
      | char =>
          rcases List.cons.inj same with ⟨rfl, rfl⟩
          exact ⟨rfl, rfl, rfl⟩
      | _ => simp [special, (List.cons.inj same).1] at ordinary
  | escaped =>
      cases otherIsPiece with
      | char ordinary => simp [special, ← (List.cons.inj same).1] at ordinary
      | escaped =>
          rcases List.cons.inj (List.cons.inj same).2 with ⟨rfl, rfl⟩
          exact ⟨rfl, rfl, rfl⟩
      | _ => simp at same
  | any =>
      cases otherIsPiece with
      | char ordinary => simp [special, ← (List.cons.inj same).1] at ordinary
      | any => exact ⟨rfl, rfl, (List.cons.inj same).2⟩
      | _ => simp at same
  | oneOf isBody =>
      cases otherIsPiece with
      | char ordinary => simp [special, ← (List.cons.inj same).1] at ordinary
      | oneOf otherIsBody =>
          simp only [List.cons_append, List.append_assoc, List.nil_append, List.cons.injEq,
            true_and] at same
          rcases isBody.unique otherIsBody same with ⟨rfl, rfl, rfl⟩
          exact ⟨rfl, rfl, rfl⟩
      | _ => simp at same

/-- The characters with which a repetition starts. -/
def repetitions : List Char :=
  ['*', '+', '?', '{']

/-- Whether a text can follow a piece without repeating it. -/
def IsDetached (rest : Text) : Prop :=
  ∀ c ∈ rest.head?, c ∉ repetitions

theorem isDetached_nil : IsDetached [] := by
  simp [IsDetached]

theorem isDetached_inParentheses (alternatives : List Text) (rest : Text) :
    IsDetached (inParentheses alternatives ++ rest) := by
  simp [IsDetached, inParentheses, repetitions]

theorem not_isDetached_cons {c : Char} {rest : Text} (repeats : c ∈ repetitions) :
    ¬IsDetached (c :: rest) :=
  fun detached => detached c rfl repeats

/-- A piece starts neither with a repetition nor with a parenthesis. -/
theorem IsPiece.exists_cons {piece : Text} {holds : Char → Prop} (isPiece : IsPiece piece holds) :
    ∃ c rest, piece = c :: rest ∧ c ∉ repetitions ∧ c ≠ '(' := by
  cases isPiece with
  | @char c ordinary =>
      refine ⟨c, [], rfl, fun repeats => ?_, ?_⟩
      · have covered : repetitions ⊆ special := by simp [repetitions, special]
        exact ordinary (covered repeats)
      · rintro rfl
        simp [special] at ordinary
  | escaped => exact ⟨'\\', _, rfl, by decide, by decide⟩
  | any => exact ⟨'.', _, rfl, by decide, by decide⟩
  | oneOf => exact ⟨'[', _, rfl, by decide, by decide⟩

theorem IsPiece.isDetached {piece : Text} {holds : Char → Prop} (isPiece : IsPiece piece holds)
    (rest : Text) : IsDetached (piece ++ rest) := by
  rcases isPiece.exists_cons with ⟨c, later, rfl, notRepetition, -⟩
  simpa [IsDetached] using notRepetition

theorem IsPiece.ne_inParentheses {piece rest otherRest : Text} {holds : Char → Prop}
    (isPiece : IsPiece piece holds) (alternatives : List Text) :
    piece ++ rest ≠ inParentheses alternatives ++ otherRest := by
  rcases isPiece.exists_cons with ⟨c, later, rfl, -, notOpening⟩
  intro same
  exact notOpening (List.cons.inj same).1

theorem ofNat_closing_unique {number other : Nat} {rest otherRest : Text}
    (same : Numeral.ofNat number ++ '}' :: rest = Numeral.ofNat other ++ '}' :: otherRest) :
    number = other ∧ rest = otherRest := by
  have noClosing (number : Nat) : '}' ∉ Numeral.ofNat number := by
    intro member
    have isDigit := Numeral.isDigit_of_mem_ofNat member
    revert isDigit
    decide
  have atEnd : '}' ∈ ['}'] := List.mem_singleton_self _
  rcases isPrefixCode_not_mem '}' (noClosing number) (noClosing other) atEnd atEnd same with
    ⟨numerals, -, restSame⟩
  refine ⟨?_, restSame⟩
  rw [← Numeral.value_ofNat number, numerals, Numeral.value_ofNat]

theorem IsRepetition.unique {repetition other rest otherRest : Text}
    {counts otherCounts : Nat → Prop} (isRepetition : IsRepetition repetition counts)
    (otherIs : IsRepetition other otherCounts)
    (detached : IsDetached rest) (otherDetached : IsDetached otherRest)
    (same : repetition ++ rest = other ++ otherRest) :
    counts = otherCounts ∧ rest = otherRest := by
  have star : '*' ∈ repetitions := by decide
  have brace : '{' ∈ repetitions := by decide
  -- A repetition and none at all would differ in the first character of what follows.
  cases isRepetition with
  | once =>
      rw [List.nil_append] at same
      subst same
      cases otherIs with
      | once => exact ⟨rfl, rfl⟩
      | many => exact absurd detached (not_isDetached_cons star)
      | times => exact absurd detached (not_isDetached_cons brace)
  | many =>
      cases otherIs with
      | once =>
          rw [List.nil_append] at same
          subst same
          exact absurd otherDetached (not_isDetached_cons star)
      | many => exact ⟨rfl, (List.cons.inj same).2⟩
      | times => simp at same
  | times count =>
      cases otherIs with
      | once =>
          rw [List.nil_append] at same
          subst same
          exact absurd otherDetached (not_isDetached_cons brace)
      | many => simp at same
      | times otherCount =>
          simp only [List.cons_append, List.append_assoc, List.nil_append, List.cons.injEq,
            true_and] at same
          rcases ofNat_closing_unique same with ⟨rfl, rfl⟩
          exact ⟨rfl, rfl⟩

/-! ## Taking the first piece off an expression -/

theorem Denotes.isDetached {expression text : Text} (denotes : Denotes expression text) :
    IsDetached expression := by
  cases denotes with
  | nil => exact isDetached_nil
  | piece isPiece => exact isPiece.isDetached _
  | group => exact isDetached_inParentheses _ _
  | optional => exact isDetached_inParentheses _ _
  | leftOut => exact isDetached_inParentheses _ _

theorem denotes_nil {text : Text} : Denotes [] text ↔ text = [] := by
  constructor
  · intro denotes
    generalize same : [] = expression at denotes
    cases denotes with
    | nil => rfl
    | piece isPiece =>
        rcases isPiece.exists_cons with ⟨c, later, rfl, -⟩
        cases same
    | _ => simp [inParentheses] at same
  · rintro rfl
    exact .nil

section Pieces

variable {rest text : Text}

theorem denotes_piece {piece repetition : Text} {holds : Char → Prop} {counts : Nat → Prop}
    (isPiece : IsPiece piece holds) (isRepetition : IsRepetition repetition counts)
    (detached : IsDetached rest) :
    Denotes (piece ++ (repetition ++ rest)) text ↔
      Splits (fun before => (∀ c ∈ before, holds c) ∧ counts before.length)
        (Denotes rest) text := by
  constructor
  · intro denotes
    generalize same : piece ++ (repetition ++ rest) = expression at denotes
    cases denotes with
    | nil =>
        rcases isPiece.exists_cons with ⟨c, later, rfl, -⟩
        cases same
    | piece otherIsPiece otherIsRepetition held counted later =>
        rcases isPiece.unique otherIsPiece same with ⟨rfl, rfl, same⟩
        rcases isRepetition.unique otherIsRepetition detached later.isDetached same with
          ⟨rfl, rfl⟩
        exact ⟨_, _, rfl, ⟨held, counted⟩, later⟩
    | _ => exact absurd same (isPiece.ne_inParentheses _)
  · intro splits
    rcases splits with ⟨before, after, rfl, ⟨held, counted⟩, later⟩
    exact .piece isPiece isRepetition held counted later

variable {alternatives : List Text} (nonempty : alternatives ≠ [])
  (areParts : ∀ alternative ∈ alternatives, parentheses.IsPart alternative)

include nonempty areParts

theorem inParentheses_unique {others : List Text} {otherRest : Text} (otherNonempty : others ≠ [])
    (otherAreParts : ∀ alternative ∈ others, parentheses.IsPart alternative)
    (same : inParentheses alternatives ++ rest = inParentheses others ++ otherRest) :
    alternatives = others ∧ rest = otherRest := by
  simp only [inParentheses, List.cons_append, List.append_assoc, List.cons.injEq, true_and] at same
  exact Bracketing.parts_unique nonempty otherNonempty areParts otherAreParts same

theorem denotes_group (detached : IsDetached rest) :
    Denotes (inParentheses alternatives ++ rest) text ↔
      Splits (fun before => ∃ alternative ∈ alternatives, Denotes alternative before)
        (Denotes rest) text := by
  -- Only a question mark behind the parentheses lets them be left out.
  have notRepeated {others : List Text} {otherRest : Text} (otherNonempty : others ≠ [])
      (otherAreParts : ∀ alternative ∈ others, parentheses.IsPart alternative) :
      inParentheses alternatives ++ rest ≠ inParentheses others ++ '?' :: otherRest := by
    intro same
    rcases inParentheses_unique nonempty areParts otherNonempty otherAreParts same with ⟨-, rfl⟩
    exact not_isDetached_cons (by decide) detached
  constructor
  · intro denotes
    generalize same : inParentheses alternatives ++ rest = expression at denotes
    cases denotes with
    | nil => simp [inParentheses] at same
    | piece isPiece => exact absurd same.symm (isPiece.ne_inParentheses _)
    | group otherAreParts member chosen later =>
        rcases inParentheses_unique nonempty areParts (List.ne_nil_of_mem member) otherAreParts
          same with ⟨rfl, rfl⟩
        exact ⟨_, _, rfl, ⟨_, member, chosen⟩, later⟩
    | optional otherAreParts member =>
        exact absurd same (notRepeated (List.ne_nil_of_mem member) otherAreParts)
    | leftOut otherNonempty otherAreParts =>
        exact absurd same (notRepeated otherNonempty otherAreParts)
  · intro splits
    rcases splits with ⟨before, after, rfl, ⟨alternative, member, chosen⟩, later⟩
    exact .group areParts member chosen later

theorem denotes_optional :
    Denotes (inParentheses alternatives ++ '?' :: rest) text ↔
      Splits (fun before =>
        before = [] ∨ ∃ alternative ∈ alternatives, Denotes alternative before)
        (Denotes rest) text := by
  constructor
  · intro denotes
    generalize same : inParentheses alternatives ++ '?' :: rest = expression at denotes
    cases denotes with
    | nil => simp [inParentheses] at same
    | piece isPiece => exact absurd same.symm (isPiece.ne_inParentheses _)
    | group otherAreParts member chosen later =>
        rcases inParentheses_unique nonempty areParts (List.ne_nil_of_mem member) otherAreParts
          same with ⟨-, rfl⟩
        exact absurd later.isDetached (not_isDetached_cons (by decide))
    | optional otherAreParts member chosen later =>
        rcases inParentheses_unique nonempty areParts (List.ne_nil_of_mem member) otherAreParts
          same with ⟨rfl, restSame⟩
        rcases (List.cons.inj restSame).2 with rfl
        exact ⟨_, _, rfl, Or.inr ⟨_, member, chosen⟩, later⟩
    | leftOut otherNonempty otherAreParts later =>
        rcases inParentheses_unique nonempty areParts otherNonempty otherAreParts same with
          ⟨rfl, restSame⟩
        rcases (List.cons.inj restSame).2 with rfl
        exact ⟨[], _, rfl, Or.inl rfl, later⟩
  · intro splits
    rcases splits with ⟨_, after, rfl, rfl | ⟨alternative, member, chosen⟩, later⟩
    · exact .leftOut nonempty areParts later
    · exact .optional areParts member chosen later

end Pieces

/-! ## Expressions in front of others -/

/-- An expression denotes the texts of a language wherever it stands, if only it is not repeated. -/
structure Expresses (expression : Text) (language : Text → Prop) : Prop where
  isPart : parentheses.IsPart expression
  isDetached : ∀ {rest}, IsDetached rest → IsDetached (expression ++ rest)
  denotes_append : ∀ {rest}, IsDetached rest → ∀ text,
    Denotes (expression ++ rest) text ↔ Splits language (Denotes rest) text

section Languages

variable {expression : Text} {language other : Text → Prop}

theorem Expresses.congr (expresses : Expresses expression language)
    (same : ∀ text, language text ↔ other text) : Expresses expression other := by
  rcases funext fun text => propext (same text) with rfl
  exact expresses

theorem Expresses.denotes_iff (expresses : Expresses expression language) (text : Text) :
    Denotes expression text ↔ language text := by
  have atEnd := expresses.denotes_append isDetached_nil text
  simpa [Splits, denotes_nil] using atEnd

theorem expresses_nil : Expresses [] (· = []) where
  isPart := .nil
  isDetached := id
  denotes_append := by simp [Splits]

theorem Expresses.append {otherExpression : Text} (first : Expresses expression language)
    (second : Expresses otherExpression other) :
    Expresses (expression ++ otherExpression) (Splits language other) where
  isPart := first.isPart.append second.isPart
  isDetached := by
    intro rest detached
    rw [List.append_assoc]
    exact first.isDetached (second.isDetached detached)
  denotes_append := by
    intro rest detached text
    rw [List.append_assoc, first.denotes_append (second.isDetached detached), ← splits_assoc]
    simp only [Splits, second.denotes_append detached]

end Languages

/-! ## Building expressions -/

theorem depthAfter_ordinary {c : Char} (ordinary : c ∉ ['\\', '(', ')', '|']) :
    parentheses.depthAfter 0 c = some 0 := by
  simp only [List.mem_cons, List.not_mem_nil, or_false, not_or] at ordinary
  rcases ordinary with ⟨notEscape, notOpening, notClosing, notBar⟩
  exact Bracketing.depthAfter_ordinary 0 (by simpa [parentheses] using notEscape) notOpening
    notClosing notBar

theorem isPart_escaped (c : Char) : parentheses.IsPart ['\\', c] :=
  Bracketing.isPart_whole ⟨c, rfl⟩

theorem isPart_char {c : Char} (ordinary : c ∉ special) : parentheses.IsPart [c] := by
  have covered : ['\\', '(', ')', '|'] ⊆ special := by simp [special]
  exact .char (depthAfter_ordinary fun member => ordinary (covered member)) .nil

theorem ClassChar.isPart {letter : Text} {c : Char} (stands : ClassChar letter c) :
    parentheses.IsPart letter := by
  cases stands with
  | plain ordinary =>
      exact isPart_char fun isSpecial => ordinary (special_subset_escapable isSpecial)
  | escaped => exact isPart_escaped c

theorem ClassMembers.isPart {body : Text} {members : List ClassMember}
    (lists : ClassMembers body members) : parentheses.IsPart body := by
  induction lists with
  | nil => exact .nil
  | single stands _ ih => exact stands.isPart.append ih
  | span firstStands lastStands _ _ ih =>
      exact firstStands.isPart.append (.char rfl (lastStands.isPart.append ih))

theorem IsPiece.isPart {piece : Text} {holds : Char → Prop} (isPiece : IsPiece piece holds) :
    parentheses.IsPart piece := by
  cases isPiece with
  | char ordinary => exact isPart_char ordinary
  | escaped => exact isPart_escaped _
  | any => exact .char rfl .nil
  | oneOf isBody =>
      have closing : parentheses.IsPart [']'] := .char rfl .nil
      cases isBody with
      | listed _ lists => exact .char rfl (lists.isPart.append closing)
      | excluded _ lists => exact .char rfl (.char rfl (lists.isPart.append closing))

theorem IsRepetition.isPart {repetition : Text} {counts : Nat → Prop}
    (isRepetition : IsRepetition repetition counts) : parentheses.IsPart repetition := by
  cases isRepetition with
  | once => exact .nil
  | many => exact .char rfl .nil
  | times count =>
      have digits : parentheses.IsPart (Numeral.ofNat count) := by
        apply Bracketing.isPart_of_ordinary
        intro c member
        apply depthAfter_ordinary
        intro isSpecial
        have isDigit := Numeral.isDigit_of_mem_ofNat member
        have noDigit : ['\\', '(', ')', '|'].all (fun c => !Numeral.isDigit c) = true := by decide
        have notDigit := List.all_eq_true.mp noDigit c isSpecial
        simp [isDigit] at notDigit
      exact .char rfl (digits.append (.char rfl .nil))

theorem expresses_piece {piece repetition : Text} {holds : Char → Prop} {counts : Nat → Prop}
    (isPiece : IsPiece piece holds) (isRepetition : IsRepetition repetition counts) :
    Expresses (piece ++ repetition) fun text =>
      (∀ c ∈ text, holds c) ∧ counts text.length where
  isPart := isPiece.isPart.append isRepetition.isPart
  isDetached := by
    intro rest _
    rw [List.append_assoc]
    exact isPiece.isDetached _
  denotes_append := by
    intro rest detached text
    rw [List.append_assoc]
    exact denotes_piece isPiece isRepetition detached

theorem expresses_once {piece : Text} {holds : Char → Prop} (isPiece : IsPiece piece holds) :
    Expresses piece fun text => ∃ c, text = [c] ∧ holds c := by
  have once := expresses_piece isPiece .once
  rw [List.append_nil] at once
  apply once.congr
  intro text
  constructor
  · intro one
    rcases one with ⟨held, counted⟩
    rcases List.length_eq_one_iff.mp counted with ⟨c, rfl⟩
    exact ⟨c, rfl, held c (List.mem_singleton_self c)⟩
  · rintro ⟨c, rfl, held⟩
    exact ⟨List.forall_mem_singleton.mpr held, rfl⟩

theorem expresses_many {piece : Text} {holds : Char → Prop} (isPiece : IsPiece piece holds) :
    Expresses (piece ++ ['*']) fun text => ∀ c ∈ text, holds c :=
  (expresses_piece isPiece .many).congr fun _ => and_iff_left trivial

section Choices

variable {Choice : Type} {choices : List Choice} {write : Choice → Text}
  {means : Choice → Text → Prop} (nonempty : choices ≠ [])
  (each : ∀ choice ∈ choices, Expresses (write choice) (means choice))

include each

theorem exists_denotes_iff (text : Text) :
    (∃ alternative ∈ choices.map write, Denotes alternative text) ↔
      ∃ choice ∈ choices, means choice text := by
  simp only [List.mem_map, exists_exists_and_eq_and]
  exact exists_congr fun choice => and_congr_right fun member =>
    (each choice member).denotes_iff text

theorem forall_isPart : ∀ alternative ∈ choices.map write, parentheses.IsPart alternative :=
  List.forall_mem_map.mpr fun choice member => (each choice member).isPart

theorem isPart_inParentheses : parentheses.IsPart (inParentheses (choices.map write)) :=
  .char rfl (.char rfl (.char rfl (Bracketing.closes_intercalate (forall_isPart each))))

include nonempty

/-- Alternatives in parentheses denote what one of them denotes. -/
theorem expresses_group :
    Expresses (inParentheses (choices.map write)) fun text =>
      ∃ choice ∈ choices, means choice text where
  isPart := isPart_inParentheses each
  isDetached := fun _ => isDetached_inParentheses _ _
  denotes_append := by
    intro rest detached text
    rw [denotes_group (by simpa using nonempty) (forall_isPart each) detached]
    exact Splits.congr (exists_denotes_iff each)

/-- Alternatives that may be left out also denote the empty text. -/
theorem expresses_optional :
    Expresses (inParentheses (choices.map write) ++ ['?']) fun text =>
      text = [] ∨ ∃ choice ∈ choices, means choice text where
  isPart := (isPart_inParentheses each).append (.char rfl .nil)
  isDetached := by
    intro rest _
    rw [List.append_assoc]
    exact isDetached_inParentheses _ _
  denotes_append := by
    intro rest _ text
    rw [List.append_assoc, List.singleton_append,
      denotes_optional (by simpa using nonempty) (forall_isPart each)]
    exact Splits.congr fun before => or_congr_right (exists_denotes_iff each before)

end Choices

/-! ## Digits -/

theorem digitChar_not_mem_escapable {digit : Nat} (small : digit ≤ 9) :
    Nat.digitChar digit ∉ escapable := by
  intro member
  have isDigit := Numeral.isDigit_digitChar small
  have noDigit : escapable.all (fun c => !Numeral.isDigit c) = true := by decide
  have notDigit := List.all_eq_true.mp noDigit _ member
  simp [isDigit] at notDigit

theorem digitChar_not_mem_special {digit : Nat} (small : digit ≤ 9) :
    Nat.digitChar digit ∉ special :=
  fun isSpecial => digitChar_not_mem_escapable small (special_subset_escapable isSpecial)

/-- A span of digits stands for the digits in it. -/
theorem isPiece_digits {first last : Nat} (ordered : first ≤ last) (decimal : last ≤ 9) :
    IsPiece ['[', Nat.digitChar first, '-', Nat.digitChar last, ']'] fun c =>
      ∃ digit, first ≤ digit ∧ digit ≤ last ∧ c = Nat.digitChar digit := by
  have firstSmall : first ≤ 9 := le_trans ordered decimal
  have firstValue := Nat.toNat_digitChar_of_lt_ten (show first < 10 by omega)
  have lastValue := Nat.toNat_digitChar_of_lt_ten (show last < 10 by omega)
  have charOrdered : Nat.digitChar first ≤ Nat.digitChar last := by
    simp only [Char.le_def, UInt32.le_iff_toNat_le, ← Char.toNat.eq_1]
    omega
  have lists : ClassMembers [Nat.digitChar first, '-', Nat.digitChar last]
      [.span (Nat.digitChar first) (Nat.digitChar last)] :=
    .span (.plain (digitChar_not_mem_escapable firstSmall))
      (.plain (digitChar_not_mem_escapable decimal)) charOrdered .nil
  refine (IsPiece.oneOf (.listed (List.cons_ne_nil _ _) lists)).congr fun c => ?_
  simp only [List.mem_singleton, exists_eq_left, ClassMember.covers, Bool.and_eq_true,
    decide_eq_true_eq, Char.le_def, UInt32.le_iff_toNat_le, ← Char.toNat.eq_1]
  constructor
  · intro inside
    have isDigit : Numeral.isDigit c = true := Numeral.isDigit_iff.mpr (by omega)
    refine ⟨Numeral.digitValue c, ?_, ?_, (Numeral.digitChar_digitValue isDigit).symm⟩
    · simp only [Numeral.digitValue]
      omega
    · simp only [Numeral.digitValue]
      omega
  · rintro ⟨digit, above, below, rfl⟩
    have value := Nat.toNat_digitChar_of_lt_ten (show digit < 10 by omega)
    omega

theorem isPiece_anyDigit : IsPiece ['[', '0', '-', '9', ']'] (Numeral.isDigit · = true) := by
  refine (isPiece_digits (Nat.zero_le 9) (le_refl 9)).congr fun c => ?_
  constructor
  · rintro ⟨digit, -, small, rfl⟩
    exact Numeral.isDigit_digitChar small
  · intro isDigit
    exact ⟨Numeral.digitValue c, Nat.zero_le _, Numeral.digitValue_le isDigit,
      (Numeral.digitChar_digitValue isDigit).symm⟩

end Regex

end Glob

end PropertyCascade
