import PropertyCascade.Proofs.Glob.Exactness

/-!
# The expressions of patterns

Every pattern has a regular expression, and what the expression denotes, read character by
character, is what the pattern denotes. Each item is written so that it denotes its texts wherever
it stands, if its classes and its choices can be written down at all: a class without members or
with a reversed span and a choice without options cannot. A header that compiles has no such item.
-/

namespace PropertyCascade

namespace Glob

open Source

/-! ## Classes -/

namespace CharClass

variable {members : List ClassMember}

theorem classMembers_text (ordered : ∀ member ∈ members, member.isReversed = false) :
    Regex.ClassMembers (members.flatMap ClassMember.text) members := by
  induction members with
  | nil => exact .nil
  | cons member members ih =>
      rcases List.forall_mem_cons.mp ordered with ⟨memberOrdered, restOrdered⟩
      rw [List.flatMap_cons]
      cases member with
      | single c => exact .single (Regex.classChar_escape c) (ih restOrdered)
      | span first last =>
          have spanOrdered : first ≤ last := by
            simpa [ClassMember.isReversed] using memberOrdered
          rw [ClassMember.text, List.append_assoc, List.cons_append]
          exact .span (Regex.classChar_escape first) (Regex.classChar_escape last) spanOrdered
            (ih restOrdered)

/-- A class that excludes its members also excludes the separator, so it need not have members. -/
theorem isPiece_excluded (ordered : ∀ member ∈ members, member.isReversed = false) :
    Regex.IsPiece (text ⟨true, members⟩) (accepts ⟨true, members⟩ · = true) := by
  have separator : Regex.ClassChar ['/'] '/' := .plain (by decide)
  have lists := Regex.ClassMembers.single separator (classMembers_text ordered)
  refine (Regex.IsPiece.oneOf (.excluded (List.cons_ne_nil _ _) lists)).congr fun c => ?_
  simp [accepts, ClassMember.covers, and_comm]

theorem isPiece_text {charClass : CharClass} (nonempty : charClass.members ≠ [])
    (ordered : charClass.hasReversedSpan = false) :
    Regex.IsPiece charClass.text (charClass.accepts · = true) := by
  rcases charClass with ⟨negated, members⟩
  have membersOrdered : ∀ member ∈ members, member.isReversed = false := by
    simpa [hasReversedSpan] using ordered
  cases negated with
  | false =>
      have lists := classMembers_text membersOrdered
      refine (Regex.IsPiece.oneOf (.listed nonempty lists)).congr fun c => ?_
      simp [accepts]
  | true => exact isPiece_excluded membersOrdered

end CharClass

/-! ## Items -/

namespace Item

/-- An item whose text is read the way it is built. -/
inductive IsWritten : Item → Prop where
  | char (c : Char) : IsWritten (char c)
  | anyChar : IsWritten anyChar
  | star : IsWritten star
  | anything : IsWritten anything
  | directories : IsWritten directories
  | oneOf {charClass : CharClass} (nonempty : charClass.members ≠ [])
      (ordered : charClass.hasReversedSpan = false) : IsWritten (oneOf charClass)
  | numerals (interval : Interval) : IsWritten (numerals interval)
  | choice {options : List (List Item)} (nonempty : options ≠ [])
      (eachWritten : ∀ option ∈ options, ∀ item ∈ option, IsWritten item) :
      IsWritten (choice options)

theorem optionTexts_eq_map (options : List (List Item)) :
    optionTexts options = options.map textOf := by
  induction options with
  | nil => rfl
  | cons option options ih => rw [optionTexts, ih, List.map_cons]

theorem expresses_star : Regex.Expresses star.text star.Denotes := by
  have notSeparator := CharClass.isPiece_excluded (List.forall_mem_nil _)
  refine (Regex.expresses_many notSeparator).congr fun text => ?_
  simp [CharClass.accepts, Denotes, List.forall_mem_ne']

/-- The directories in front of a name are arbitrary characters up to a separator, or none. -/
theorem expresses_directories : Regex.Expresses directories.text directories.Denotes := by
  have separator : Regex.IsPiece ['/'] (· = '/') := .char (by decide)
  have endsWithSeparator :=
    (Regex.expresses_many .any).append (Regex.expresses_once separator)
  have each := List.forall_mem_singleton.mpr endsWithSeparator
  refine (Regex.expresses_optional (List.cons_ne_nil _ _) each).congr fun text => ?_
  simp [Splits, Denotes]

theorem expresses_textOf {items : List Item}
    (each : ∀ item ∈ items, Regex.Expresses item.text item.Denotes) :
    Regex.Expresses (textOf items) (DenotedBy items) := by
  induction items with
  | nil => exact Regex.expresses_nil.congr fun text => denotedBy_nil.symm
  | cons item items ih =>
      rcases List.forall_mem_cons.mp each with ⟨first, later⟩
      exact (first.append (ih later)).congr fun text => denotedBy_cons.symm

theorem expresses_choice {options : List (List Item)} (nonempty : options ≠ [])
    (each : ∀ option ∈ options, Regex.Expresses (textOf option) (DenotedBy option)) :
    Regex.Expresses (choice options).text (choice options).Denotes := by
  have expresses := Regex.expresses_group nonempty each
  rw [← optionTexts_eq_map] at expresses
  exact expresses.congr fun text => denotedBySome_iff.symm

/-- The text of an item denotes, wherever it stands, what the item denotes. -/
theorem IsWritten.expresses_text {item : Item} (written : item.IsWritten) :
    Regex.Expresses item.text item.Denotes := by
  induction written with
  | char c =>
      refine (Regex.expresses_once (Regex.isPiece_escape c)).congr fun text => ?_
      simp [Denotes]
  | anyChar =>
      refine (Regex.expresses_once .any).congr fun text => ?_
      simp [Denotes]
  | star => exact expresses_star
  | anything =>
      refine (Regex.expresses_many .any).congr fun text => ?_
      simp [Denotes]
  | directories => exact expresses_directories
  | oneOf nonempty ordered =>
      exact Regex.expresses_once (CharClass.isPiece_text nonempty ordered)
  | numerals interval =>
      exact interval.isWritten_expression.expresses_text.congr interval.denotes_expression
  | choice nonempty _ ih =>
      exact expresses_choice nonempty fun option member => expresses_textOf (ih option member)

/-! ## Items that are read -/

theorem anyReversedSpan_eq_false_iff {items : List Item} :
    anyReversedSpan items = false ↔ ∀ item ∈ items, item.hasReversedSpan = false := by
  induction items with
  | nil => simp [anyReversedSpan]
  | cons item items ih => simp [anyReversedSpan, ih]

theorem someReversedSpan_eq_false_iff {options : List (List Item)} :
    someReversedSpan options = false ↔ ∀ option ∈ options, anyReversedSpan option = false := by
  induction options with
  | nil => simp [someReversedSpan]
  | cons option options ih => simp [someReversedSpan, ih]

theorem isWritten_of_ofToken {token : Token} {item : Item} (read : ofToken token = .ok item)
    (ordered : item.hasReversedSpan = false) : item.IsWritten := by
  rcases token with ⟨offset, kind⟩
  have reads := tokenReads read
  dsimp only at reads
  cases reads with
  | star => exact .star
  | anyChar => exact .anyChar
  | char => exact .char _
  | escaped c => exact .char c
  | oneOf body =>
      simp only [ofToken] at read
      split at read
      case isTrue => cases read
      case isFalse nonempty => exact .oneOf nonempty ordered

theorem isWritten_ofChoices {choices : List (List Item)} (nonempty : choices ≠ [])
    (eachWritten : ∀ items ∈ choices, ∀ item ∈ items, item.IsWritten) :
    ∀ item ∈ ofChoices choices, item.IsWritten := by
  unfold ofChoices
  split
  case h_1 items =>
    have inside := eachWritten items (List.mem_singleton_self items)
    have closing := List.forall_mem_singleton.mpr (IsWritten.char '}')
    exact List.forall_mem_cons.mpr ⟨.char '{', List.forall_mem_append.mpr ⟨inside, closing⟩⟩
  case h_2 => exact List.forall_mem_singleton.mpr (.choice nonempty eachWritten)

theorem hasReversedSpan_of_ofChoices {choices : List (List Item)}
    (ordered : ∀ item ∈ ofChoices choices, item.hasReversedSpan = false) :
    ∀ items ∈ choices, ∀ item ∈ items, item.hasReversedSpan = false := by
  unfold ofChoices at ordered
  split at ordered
  case h_1 items =>
    simp only [List.forall_mem_singleton]
    exact fun item member => ordered item (by simp [member])
  case h_2 =>
    have none := ordered _ (List.mem_singleton_self _)
    rw [hasReversedSpan, someReversedSpan_eq_false_iff] at none
    exact fun items member => anyReversedSpan_eq_false_iff.mp (none items member)

/-- What is read without a fault can be written down if no span is reversed. -/
theorem Reads.isWritten {inside : Bool} {trees : List Tree} {items : List Item}
    (reads : Reads trees items) (areRead : ∀ tree ∈ trees, Tree.IsRead inside tree)
    (ordered : ∀ item ∈ items, item.hasReversedSpan = false) :
    ∀ item ∈ items, item.IsWritten := by
  induction reads generalizing inside with
  | nil => exact List.forall_mem_nil _
  | directories first second third _ ih =>
      rcases List.forall_mem_cons.mp ordered with ⟨-, laterOrdered⟩
      have restRead := fun tree member => areRead tree (List.mem_append_right [_, _, _] member)
      exact List.forall_mem_cons.mpr ⟨.directories, ih restRead laterOrdered⟩
  | anything => exact List.forall_mem_singleton.mpr .anything
  | token read _ _ ih =>
      rcases List.forall_mem_cons.mp ordered with ⟨itemOrdered, laterOrdered⟩
      rcases List.forall_mem_cons.mp areRead with ⟨-, restRead⟩
      exact List.forall_mem_cons.mpr
        ⟨isWritten_of_ofToken read itemOrdered, ih restRead laterOrdered⟩
  | interval _ _ _ ih =>
      rcases List.forall_mem_cons.mp ordered with ⟨-, laterOrdered⟩
      rcases List.forall_mem_cons.mp areRead with ⟨-, restRead⟩
      exact List.forall_mem_cons.mpr ⟨.numerals _, ih restRead laterOrdered⟩
  | @choices options choices rest others _ _ lengths _ _ ihEach ih =>
      rcases List.forall_mem_append.mp ordered with ⟨groupOrdered, laterOrdered⟩
      rcases List.forall_mem_cons.mp areRead with ⟨isRead, restRead⟩
      cases isRead with
      | group _ nonempty optionsRead =>
          have choicesNonempty : choices ≠ [] := by
            rintro rfl
            exact nonempty (List.length_eq_zero_iff.mp lengths)
          refine List.forall_mem_append.mpr ⟨?_, ih restRead laterOrdered⟩
          apply isWritten_ofChoices choicesNonempty
          intro items member
          rcases exists_pair_of_mem_right lengths member with ⟨pair, inZip, rfl⟩
          exact ihEach pair inZip (optionsRead _ (List.of_mem_zip inZip).1)
            (hasReversedSpan_of_ofChoices groupOrdered _ member)

end Item

/-! ## Patterns -/

namespace Regex

/-- Whether an expression that is anchored at both ends, and whose dot stands for every character,
accepts a text. -/
def Matches (expression text : Text) : Prop :=
  ∃ body, expression = ['(', '?', 's', ')', '^'] ++ body ++ ['$'] ∧ Denotes body text

theorem matches_anchored {body text : Text} :
    Matches (['(', '?', 's', ')', '^'] ++ body ++ ['$']) text ↔ Denotes body text := by
  constructor
  · intro accepted
    rcases accepted with ⟨other, same, denotes⟩
    rw [List.append_left_inj, List.append_right_inj] at same
    rwa [same]
  · intro denotes
    exact ⟨body, rfl, denotes⟩

end Regex

namespace Pattern

theorem isWritten_of_compile {source : Text} {pattern : Pattern}
    (compiled : compile source = .ok pattern) : ∀ item ∈ pattern.items, item.IsWritten := by
  rcases reads_of_itemsOf (itemsOf_of_compile compiled) with ⟨reads, -, areRead⟩
  apply reads.isWritten areRead
  rw [← Item.anyReversedSpan_eq_false_iff]
  rw [compile, Item.bind_eq_ok] at compiled
  rcases compiled with ⟨items, -, compiled⟩
  split at compiled
  case isTrue => cases compiled
  case isFalse ordered =>
    split at compiled
    case isTrue => cases compiled
    case isFalse =>
      cases compiled
      exact Bool.eq_false_iff.mpr ordered

section Compiled

variable {source : Text} {pattern : Pattern} (compiled : compile source = .ok pattern)
  (candidate : Text)

include compiled

/-- The expression of a pattern accepts the texts that the pattern denotes. -/
theorem matches_expression_iff :
    Regex.Matches pattern.expression candidate ↔ pattern.Denotes candidate := by
  have each := fun item member => (isWritten_of_compile compiled item member).expresses_text
  have inside : ∀ items ∈ [pattern.items],
      Regex.Expresses (Item.textOf items) (Item.DenotedBy items) :=
    List.forall_mem_singleton.mpr (Item.expresses_textOf each)
  have group := Regex.expresses_group (List.cons_ne_nil _ _) inside
  have anchored : pattern.expression = ['(', '?', 's', ')', '^'] ++
      Regex.inParentheses ([pattern.items].map Item.textOf) ++ ['$'] := by
    simp [expression, Regex.inParentheses]
  rw [anchored, Regex.matches_anchored, group.denotes_iff]
  simp [Denotes]

/-- A compiled pattern matches the texts that its expression accepts. -/
theorem isMatch_iff_matches :
    pattern.isMatch candidate = true ↔ Regex.Matches pattern.expression candidate := by
  rw [matches_expression_iff compiled, isMatch, Item.matchesAll_iff_denotedBy, Denotes]

/-- The expression of a pattern accepts the texts in the language of its header. -/
theorem matches_expression_iff_source :
    Regex.Matches pattern.expression candidate ↔
      Source.Denotes (withoutAnchor source) candidate := by
  rw [matches_expression_iff compiled, Denotes]
  exact denotedBy_itemsOf (itemsOf_of_compile compiled) candidate

end Compiled

/-- A separator at the start is not written, and the one before a name takes its directories with
it. -/
example : (compile "/{lib,src}/**/[!_]*.rs".toList).toOption.map (fun pattern =>
    String.ofList pattern.expression) =
      some "(?s)^(?:(?:lib|src)/(?:.*/)?[^/_][^/]*\\.rs)$" := by
  decide +kernel

end Pattern

end Glob

end PropertyCascade
