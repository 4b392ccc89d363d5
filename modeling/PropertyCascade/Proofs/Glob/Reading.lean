import PropertyCascade.Glob.Tree
import PropertyCascade.Proofs.Glob.Source

/-!
# Reading tokens and trees

Nothing of a pattern is lost when it is cut into tokens and its braces are matched: the tokens and
the trees have the pattern as their text. What is read has the form that its place asks for. The
body of a class is the body of a class in the pattern, and inside of a group no leaf is a comma or
a brace, since there these characters are taken for the group.

The braces are matched by one pass over the tokens, so this is shown of every state of that pass.
-/

namespace PropertyCascade

namespace Glob

open Source

namespace CharClass

theorem eq_membersOf {body : Text} {members : List ClassMember}
    (lists : ClassMembers body members) : members = membersOf body := by
  induction lists with
  | nil => rfl
  | escaped c _ ih => rw [ih, membersOf]
  | span notEscape _ _ _ ih =>
      rw [ih, membersOf]
      exact notEscape
  | single notEscape _ noSpan _ ih =>
      rw [ih, membersOf]
      · intro _ _ same
        exact absurd same notEscape
      · exact noSpan

theorem eq_ofBody {body : Text} {charClass : CharClass} (isBody : ClassBody body charClass) :
    charClass = ofBody body := by
  cases isBody with
  | listed notNegated lists =>
      rw [eq_membersOf lists, ofBody]
      rintro rest rfl
      exact notNegated rfl
  | excluded lists => rw [eq_membersOf lists, ofBody]

theorem classMembers_of_closing? {text : Text} {length : Nat}
    (closes : closing? text = some length) :
    ∃ body rest members, text = body ++ ']' :: rest ∧ body.length = length ∧
      ClassMembers body members := by
  fun_induction closing? text generalizing length with
  | case1 => cases closes
  | case2 rest =>
      rcases Option.some.inj closes with rfl
      exact ⟨[], rest, [], rfl, rfl, .nil⟩
  | case3 => cases closes
  | case4 c rest ih =>
      rcases Option.map_eq_some_iff.mp closes with ⟨later, laterCloses, rfl⟩
      rcases ih laterCloses with ⟨body, after, members, rfl, rfl, lists⟩
      exact ⟨'\\' :: c :: body, after, _, rfl, rfl, .escaped c lists⟩
  | case5 first rest notClosing notEscape =>
      rcases Option.some.inj closes with rfl
      have dash : ClassMembers ['-'] [.single '-'] :=
        .single (by decide) (by decide) (by simp) .nil
      exact ⟨[first, '-'], rest, _, rfl, rfl, .single notEscape notClosing (by simp) dash⟩
  | case6 first last rest notClosing notEscape notLast ih =>
      rcases Option.map_eq_some_iff.mp closes with ⟨later, laterCloses, rfl⟩
      rcases ih laterCloses with ⟨body, after, members, rfl, rfl, lists⟩
      exact ⟨first :: '-' :: last :: body, after, _, rfl, rfl,
        .span notEscape notClosing notLast lists⟩
  | case7 c rest notClosing notStray notEscape _ noSpan ih =>
      rcases Option.map_eq_some_iff.mp closes with ⟨later, laterCloses, rfl⟩
      rcases ih laterCloses with ⟨body, after, members, rfl, rfl, lists⟩
      refine ⟨c :: body, after, _, rfl, rfl, .single ?_ notClosing ?_ lists⟩
      · intro isEscape
        have nonempty : body ++ ']' :: after ≠ [] := by simp
        rcases List.exists_cons_of_ne_nil nonempty with ⟨second, others, later⟩
        exact notEscape second others isEscape later
      · rintro last others rfl
        exact noSpan last _ rfl

/-- The length found for the body of a class is that of the body of a class. -/
theorem classBody_of_bodyLength? {text : Text} {length : Nat}
    (closes : bodyLength? text = some length) :
    ∃ body rest, text = body ++ ']' :: rest ∧ body.length = length ∧
      ClassBody body (ofBody body) := by
  have bodyOf {body : Text} {charClass : CharClass} (isBody : ClassBody body charClass) :
      ClassBody body (ofBody body) := eq_ofBody isBody ▸ isBody
  unfold bodyLength? at closes
  split at closes
  case h_1 rest =>
    rcases Option.map_eq_some_iff.mp closes with ⟨later, laterCloses, rfl⟩
    rcases classMembers_of_closing? laterCloses with ⟨body, after, members, rfl, rfl, lists⟩
    exact ⟨'!' :: body, after, rfl, rfl, bodyOf (.excluded lists)⟩
  case h_2 notNegated =>
    rcases classMembers_of_closing? closes with ⟨body, after, members, rfl, rfl, lists⟩
    refine ⟨body, after, rfl, rfl, bodyOf (.listed ?_ lists)⟩
    intro starts
    rcases List.head?_eq_some_iff.mp starts with ⟨later, rfl⟩
    exact notNegated _ rfl

end CharClass

/-! ## Tokens -/

namespace Token

/-- What every token of a pattern satisfies. -/
def IsScanned (token : Token) : Prop :=
  match token.kind with
  | .plain c => c ≠ '\\'
  | .bracket body => ClassBody body (CharClass.ofBody body)
  | _ => True

theorem flatMap_text_scan (offset taken : Nat) (source : Text) :
    (scan offset taken source).flatMap text = source.drop taken := by
  induction source generalizing offset taken with
  | nil => simp [scan]
  | cons c rest ih =>
      unfold scan
      cases taken with
      | succ more => exact ih (offset + 1) more
      | zero =>
          dsimp only
          split
          case isTrue isEscape =>
            cases rest with
            | nil => simp [text, isEscape]
            | cons escaped later => simp [text, ih, isEscape]
          case isFalse =>
            split
            case isTrue isBracket =>
              split
              case h_1 length closes =>
                rcases CharClass.classBody_of_bodyLength? closes with ⟨body, after, rfl, rfl, -⟩
                simp [text, ih, isBracket]
              case h_2 => simp [text, ih]
            case isFalse => simp [text, ih]

theorem isScanned_of_mem_scan {offset taken : Nat} {source : Text} {token : Token}
    (member : token ∈ scan offset taken source) : token.IsScanned := by
  induction source generalizing offset taken with
  | nil => simp [scan] at member
  | cons c rest ih =>
      unfold scan at member
      cases taken with
      | succ more => exact ih member
      | zero =>
          dsimp only at member
          split at member
          case isTrue =>
            cases rest with
            | nil =>
                rw [List.mem_singleton.mp member]
                trivial
            | cons escaped later =>
                rcases List.mem_cons.mp member with rfl | inRest
                · trivial
                · exact ih inRest
          case isFalse notEscape =>
            split at member
            case isTrue =>
              split at member
              case h_1 length closes =>
                rcases List.mem_cons.mp member with rfl | inRest
                · rcases CharClass.classBody_of_bodyLength? closes with
                    ⟨body, after, rfl, rfl, isBody⟩
                  simpa [IsScanned] using isBody
                · exact ih inRest
              case h_2 =>
                rcases List.mem_cons.mp member with rfl | inRest
                · exact notEscape
                · exact ih inRest
            case isFalse =>
              rcases List.mem_cons.mp member with rfl | inRest
              · exact notEscape
              · exact ih inRest

end Token

/-! ## Trees -/

namespace Tree

mutual

/-- The characters of a tree. -/
def text : Tree → Text
  | leaf token => token.text
  | group _ options => '{' :: joined (optionTexts options) ++ ['}']
  | unclosed _ => ['{']

/-- The characters of several trees, one after the other. -/
def textOf : List Tree → Text
  | [] => []
  | tree :: trees => tree.text ++ textOf trees

/-- The characters of each of several options. -/
def optionTexts : List (List Tree) → List Text
  | [] => []
  | option :: options => textOf option :: optionTexts options

end

@[simp]
theorem textOf_nil : textOf [] = [] :=
  rfl

@[simp]
theorem textOf_cons (tree : Tree) (trees : List Tree) :
    textOf (tree :: trees) = tree.text ++ textOf trees :=
  rfl

@[simp]
theorem textOf_append (trees others : List Tree) :
    textOf (trees ++ others) = textOf trees ++ textOf others := by
  induction trees with
  | nil => rfl
  | cons tree trees ih => simp [ih]

theorem optionTexts_eq_map (options : List (List Tree)) :
    optionTexts options = options.map textOf := by
  induction options with
  | nil => rfl
  | cons option options ih => rw [optionTexts, ih, List.map_cons]

/-- What every tree satisfies that is read outside or inside of a group. -/
inductive IsRead : Bool → Tree → Prop where
  | leaf {inside : Bool} {token : Token} (scanned : token.IsScanned)
      (notOpening : token.kind ≠ .plain '{')
      (notStop : inside = true → token.kind ≠ .plain '}' ∧ token.kind ≠ .plain ',') :
      IsRead inside (.leaf token)
  | group {inside : Bool} {options : List (List Tree)} (opening : Nat) (nonempty : options ≠ [])
      (areRead : ∀ option ∈ options, ∀ tree ∈ option, IsRead true tree) :
      IsRead inside (.group opening options)

/-! ## Matching braces -/

namespace Frame

/-- The characters of a group that is not closed yet. -/
def text (frame : Frame) : Text :=
  '{' :: frame.finished.reverse.flatMap (fun option => textOf option ++ [',']) ++
    textOf frame.current.reverse

/-- The trees of a group that is not closed yet are read inside of it. -/
structure AreRead (frame : Frame) : Prop where
  finished : ∀ option ∈ frame.finished, ∀ tree ∈ option, IsRead true tree
  current : ∀ tree ∈ frame.current, IsRead true tree

theorem joined_concat (options : List (List Tree)) (last : List Tree) :
    joined (optionTexts (options ++ [last])) =
      options.flatMap (fun option => textOf option ++ [',']) ++ textOf last := by
  rw [optionTexts_eq_map]
  induction options with
  | nil => simp
  | cons option options ih =>
      rw [List.cons_append, List.map_cons, List.flatMap_cons, List.append_assoc, ← ih]
      cases options with
      | nil => simp [joined_cons_cons]
      | cons second options => simp [joined_cons_cons]

end Frame

namespace Nesting

/-- The characters read so far. -/
def text (nesting : Nesting) : Text :=
  textOf nesting.outer.reverse ++ nesting.frames.reverse.flatMap Frame.text

/-- Every tree read so far satisfies what its place asks for. -/
structure AreRead (nesting : Nesting) : Prop where
  outer : ∀ tree ∈ nesting.outer, IsRead false tree
  frames : ∀ frame ∈ nesting.frames, frame.AreRead

/-- Whether the next tree stands inside of a group. -/
def isInside (nesting : Nesting) : Bool :=
  !nesting.frames.isEmpty

theorem text_add (nesting : Nesting) (tree : Tree) :
    (nesting.add tree).text = nesting.text ++ tree.text := by
  rcases nesting with ⟨outer, frames⟩
  cases frames with
  | nil => simp [add, text]
  | cons frame others => simp [add, text, Frame.text]

theorem AreRead.add {nesting : Nesting} {tree : Tree} (areRead : nesting.AreRead)
    (isRead : IsRead nesting.isInside tree) : (nesting.add tree).AreRead := by
  rcases nesting with ⟨outer, frames⟩
  cases frames with
  | nil => exact ⟨List.forall_mem_cons.mpr ⟨isRead, areRead.outer⟩, areRead.frames⟩
  | cons frame others =>
      rcases List.forall_mem_cons.mp areRead.frames with ⟨frameRead, othersRead⟩
      refine ⟨areRead.outer, List.forall_mem_cons.mpr ⟨⟨frameRead.finished, ?_⟩, othersRead⟩⟩
      exact List.forall_mem_cons.mpr ⟨isRead, frameRead.current⟩

/-- One token more: it is added to what was read, and every tree keeps to its place. -/
theorem AreRead.step {nesting : Nesting} {token : Token} (areRead : nesting.AreRead)
    (scanned : token.IsScanned) :
    (nesting.step token).AreRead ∧ (nesting.step token).text = nesting.text ++ token.text := by
  rcases nesting with ⟨outer, frames⟩
  unfold Nesting.step
  split
  case h_1 kind =>
    refine ⟨⟨areRead.outer, List.forall_mem_cons.mpr ⟨⟨by simp, by simp⟩, areRead.frames⟩⟩, ?_⟩
    simp [text, Frame.text, Token.text, kind]
  case h_2 frame others kind isFrames =>
    obtain rfl : frames = frame :: others := isFrames
    rcases List.forall_mem_cons.mp areRead.frames with ⟨frameRead, othersRead⟩
    have closed : (⟨outer, others⟩ : Nesting).AreRead := ⟨areRead.outer, othersRead⟩
    have optionsRead : ∀ option ∈ (frame.current.reverse :: frame.finished).reverse,
        ∀ tree ∈ option, IsRead true tree := by
      simp only [List.mem_reverse, List.forall_mem_cons]
      exact ⟨frameRead.current, frameRead.finished⟩
    refine ⟨closed.add (.group frame.opening (by simp) optionsRead), ?_⟩
    rw [text_add]
    simp [text, Tree.text, Frame.text, Token.text, kind, Frame.joined_concat]
  case h_3 frame others kind isFrames =>
    obtain rfl : frames = frame :: others := isFrames
    rcases List.forall_mem_cons.mp areRead.frames with ⟨frameRead, othersRead⟩
    have optionsRead := List.forall_mem_cons.mpr ⟨frameRead.current, frameRead.finished⟩
    refine ⟨⟨areRead.outer, List.forall_mem_cons.mpr ⟨⟨?_, by simp⟩, othersRead⟩⟩, ?_⟩
    · simpa using optionsRead
    · simp [text, Frame.text, Token.text, kind]
  case h_4 notOpening notClosing notComma =>
    have isRead : IsRead (isInside ⟨outer, frames⟩) (.leaf token) := by
      apply IsRead.leaf scanned notOpening
      intro inside
      cases frames with
      | nil => simp [isInside] at inside
      | cons frame others =>
          exact ⟨fun kind => notClosing frame others kind rfl,
            fun kind => notComma frame others kind rfl⟩
    exact ⟨areRead.add isRead, text_add _ _⟩

theorem AreRead.foldl_step {nesting : Nesting} {tokens : List Token} (areRead : nesting.AreRead)
    (scanned : ∀ token ∈ tokens, token.IsScanned) :
    (tokens.foldl Nesting.step nesting).AreRead ∧
      (tokens.foldl Nesting.step nesting).text = nesting.text ++ tokens.flatMap Token.text := by
  induction tokens generalizing nesting with
  | nil => exact ⟨areRead, by simp⟩
  | cons token rest ih =>
      rcases List.forall_mem_cons.mp scanned with ⟨tokenScanned, restScanned⟩
      rcases areRead.step tokenScanned with ⟨stepRead, stepText⟩
      rcases ih stepRead restScanned with ⟨restRead, restText⟩
      refine ⟨restRead, ?_⟩
      rw [List.foldl_cons, restText, stepText, List.flatMap_cons, List.append_assoc]

end Nesting

/-- Where every brace is closed, the trees of a pattern have its text. -/
theorem ofTokens_scan (offset : Nat) (source : Text) :
    (∃ opening, unclosed opening ∈ ofTokens (Token.ofText offset source)) ∨
      textOf (ofTokens (Token.ofText offset source)) = source ∧
        ∀ tree ∈ ofTokens (Token.ofText offset source), IsRead false tree := by
  have start : (⟨[], []⟩ : Nesting).AreRead := ⟨by simp, by simp⟩
  have scanned : ∀ token ∈ Token.scan offset 0 source, token.IsScanned :=
    fun token member => Token.isScanned_of_mem_scan member
  rcases start.foldl_step scanned with ⟨areRead, sameText⟩
  rw [Token.flatMap_text_scan] at sameText
  rw [ofTokens, Token.ofText]
  split
  case h_1 closed =>
    have noFrames := List.getLast?_eq_none_iff.mp closed
    refine Or.inr ⟨?_, fun tree member => areRead.outer tree (List.mem_reverse.mp member)⟩
    simpa [Nesting.text, noFrames] using sameText
  case h_2 frame _ => exact Or.inl ⟨frame.opening, by simp⟩

end Tree

end Glob

end PropertyCascade
