import PropertyCascade.Proofs.Glob.Exactness
import PropertyCascade.Proofs.Glob.Matching

/-!
# Reading by slices and reading by trees

The reader that goes through the characters and calls itself on slices gives the items that are
read off the trees of the tokens. Each of its scans finds what the tokens say: the search for a
closing brace finds the end of the matched tokens, the search for commas finds their options, and
the search for a range finds the texts of plain tokens only. What a text starts with is therefore
what its first trees are read as, and since a slice of whole tokens has these tokens, the readings
agree by induction along the reader's calls.
-/

namespace PropertyCascade

namespace Glob

open Source

/-! ## The scans of a pattern -/

namespace Token

theorem contentLength?_of_cutInto {base : Nat} {text : Text} {inner after : List Token}
    {closing : Token} {options : List (List Token)}
    (tokens : ofText base text = inner ++ closing :: after) (cut : CutInto inner options)
    (isClosing : closing.kind = .plain '}') :
    Scanner.contentLength? text = some (textOf inner).length := by
  rw [Scanner.contentLength?, lengthFrom_eq 0 base, tokens, cut.lengthIn_append, lengthIn]
  simp [isClosing]

theorem contentLength?_of_unclosed {base : Nat} {text : Text} {part rest : List Token}
    {options : List (List Token)} (tokens : ofText base text = part ++ rest)
    (cut : CutInto part options) (unclosed : Unclosed rest) :
    Scanner.contentLength? text = none := by
  rw [Scanner.contentLength?, lengthFrom_eq 0 base, tokens, cut.lengthIn_append,
    unclosed.lengthIn_eq, Option.map_none]

/-- The search for commas finds the options. -/
theorem optionsFrom_of_cutInto {base : Nat} {content : Text} {options : List (List Token)}
    (cut : CutInto (ofText base content) options) :
    Scanner.optionsFrom 0 0 base content = placed base options := by
  rw [optionsFrom_eq, cut.cutAt_zero]

@[simp]
theorem length_placed (offset : Nat) (options : List (List Token)) :
    (placed offset options).length = options.length := by
  induction options generalizing offset with
  | nil => rfl
  | cons option options ih => rw [placed, List.length_cons, ih, List.length_cons]

/-- Every slice of the content of a brace is an option, and stands in the content. -/
theorem forall₂_slicesOf {base : Nat} {fresh : Bool} {content : Text}
    {options : List (List Token)} (cut : CutInto (ofText base content) options) :
    List.Forall₂ (fun slice option => slice.fresh = (fresh && options.length != 1) ∧
      ∃ before after, ofText base content = before ++ option ++ after ∧
        slice.base = base + (textOf before).length ∧ slice.chars = textOf option)
      (Scanner.slicesOf base fresh content) options := by
  have stands := cut.joins.forall₂_placed base
  rw [Scanner.slicesOf]
  dsimp only
  rw [optionsFrom_of_cutInto cut, length_placed]
  rcases cut.exists_cons with ⟨option, others, rfl⟩
  cases others with
  | nil =>
      refine .cons ⟨by simp, [], [], ?_, rfl, ?_⟩ .nil
      · simpa using cut.eq_of_singleton
      · rw [← cut.eq_of_singleton, textOf_ofText]
  | cons second others =>
      rw [if_neg (by simp), List.forall₂_map_left_iff]
      refine stands.imp fun place option stands => ⟨by simp, stands⟩

end Token

namespace Tree

theorem joined_append (front first : Text) (others : List Text) :
    joined ((front ++ first) :: others) = front ++ joined (first :: others) := by
  cases others with
  | nil => simp
  | cons second others => simp [joined_cons_cons]

/-- Tokens whose braces are matched have the text of the trees of their options. -/
theorem joined_ofTokens {tokens : List Token} {options : List (List Token)}
    (cut : Token.CutInto tokens options) :
    joined (options.map fun option => textOf (ofTokens option)) = Token.textOf tokens := by
  induction cut with
  | nil => rfl
  | @comma comma tokens options isComma later ih =>
      rcases later.exists_cons with ⟨option, others, rfl⟩
      rw [List.map_cons] at ih
      rw [List.map_cons, List.map_cons, joined_cons_cons, ih]
      simp [Token.text, isComma]
  | leaf notOpening _ _ _ ih =>
      rw [List.map_cons, ofTokens_leaf notOpening, textOf_cons, joined_append, Token.textOf_cons,
        ← ih]
      rfl
  | brace isOpening isClosing within _ ihWithin ih =>
      rw [List.map_cons, ofTokens_group isOpening isClosing within, textOf_cons, joined_append,
        ← List.map_cons (f := fun option => textOf (ofTokens option)), ih]
      simp [Tree.text, optionTexts_eq_map, ihWithin, Token.text, isOpening, isClosing,
        Function.comp_def]

theorem textOf_ofTokens {tokens : List Token} (cut : Token.CutInto tokens [tokens]) :
    textOf (ofTokens tokens) = Token.textOf tokens := by
  simpa using joined_ofTokens cut

end Tree

namespace Interval

theorem read_of_not_isRange {text : Text} (noRange : ¬∃ first last, IsRange text first last) :
    Interval.read text = .ok none := by
  rw [Interval.read]
  split
  case h_1 => rfl
  case h_2 before after cut =>
    split
    case h_1 first last readFirst readLast =>
      apply absurd _ noRange
      exact ⟨first, last, before, after, eq_append_of_cutDots cut, readFirst, readLast⟩
    case h_2 => rfl

end Interval

namespace Item

/-- A range is looked for in the text of a group, and found only where a single option is plain. -/
theorem intervalOf_ofTokens {tokens : List Token} {options : List (List Token)}
    (cut : Token.CutInto tokens options) :
    intervalOf (options.map Tree.ofTokens) = Interval.read (Token.textOf tokens) := by
  rcases cut.exists_cons with ⟨option, others, rfl⟩
  cases others with
  | nil =>
      obtain rfl := cut.eq_of_singleton
      cases plain : plainText? (Tree.ofTokens tokens) with
      | some text =>
          rw [List.map_singleton, intervalOf, plain, ← Tree.textOf_ofTokens cut,
            textOf_of_plainText? plain]
      | none =>
          have noInterval : intervalOf [Tree.ofTokens tokens] = .ok none := by
            rw [intervalOf, plain]
          have noRange := not_isRange_of_intervalOf noInterval
          rw [Tree.textOf_ofTokens cut] at noRange
          rw [List.map_singleton, noInterval, Interval.read_of_not_isRange noRange]
  | cons second others =>
      have noRange : ¬∃ first last, IsRange (Token.textOf tokens) first last := by
        rintro ⟨first, last, range⟩
        have member : ',' ∈ Token.textOf tokens := by
          cases cut.joins with
          | comma _ isComma _ => simp [Token.text, isComma]
        cases range.depthAfter ',' member
      rw [Interval.read_of_not_isRange noRange]
      rfl

/-- A tree that is no part of a globstar is read by itself. -/
theorem ofTrees_cons {fresh : Bool} {tree : Tree} {rest : List Tree}
    (alone : IsStar tree → ∀ next ∈ rest.head?, ¬IsStar next) :
    ofTrees fresh (tree :: rest) =
      ofTree fresh tree >>= fun items =>
        ofTrees (isSeparator tree) rest >>= fun others => pure (items ++ others) := by
  have apart (first second : Nat) (later : List Tree) :
      tree = .leaf ⟨first, .plain '*'⟩ → rest = .leaf ⟨second, .plain '*'⟩ :: later → False := by
    rintro rfl rfl
    exact alone ⟨first, rfl⟩ _ rfl ⟨second, rfl⟩
  rw [ofTrees]
  · intro first second third later isTree isRest
    exact apart first second _ isTree isRest
  · intro first second isTree isRest
    exact apart first second _ isTree isRest
  · intro first second later isTree isRest
    exact apart first second _ isTree isRest

end Item

namespace Tree

/-- The trees of a text whose first character has a given offset. -/
def ofText (base : Nat) (text : Text) : List Tree :=
  ofTokens (Token.ofText base text)

@[simp]
theorem ofText_nil (base : Nat) : ofText base [] = [] :=
  rfl

theorem ofText_cons_of_ordinary {c : Char} (ordinary : c ∉ ['\\', '[', '{']) (base : Nat)
    (rest : Text) : ofText base (c :: rest) = .leaf ⟨base, .plain c⟩ :: ofText (base + 1) rest := by
  simp only [List.mem_cons, List.not_mem_nil, or_false, not_or] at ordinary
  rw [ofText, Token.ofText_cons_of_ordinary (by simp [ordinary]),
    ofTokens_leaf (by simp [ordinary])]
  rfl

/-- Where a text goes on, so do its trees, and a plain character among them stands for itself. -/
theorem exists_ofText_cons (base : Nat) (c : Char) (rest : Text) :
    ∃ tree trees, ofText base (c :: rest) = tree :: trees ∧
      ∀ offset d, d ∉ ['\\', '['] → tree = .leaf ⟨offset, .plain d⟩ → c = d := by
  rw [ofText, Token.ofText_cons]
  generalize Token.ofText (base + 1 + _) _ = later
  by_cases isOpening : (Token.first base c rest).kind = .plain '{'
  case pos =>
    rcases Token.exists_cutInto later with ⟨part, others, options, rfl, cut, stop⟩
    rcases stop with unclosed | ⟨closing, after, rfl, isClosing⟩
    · rw [← List.cons_append, ofTokens_unclosed isOpening cut unclosed]
      exact ⟨_, _, rfl, by simp⟩
    · rw [← List.cons_append, ofTokens_group isOpening isClosing cut]
      exact ⟨_, _, rfl, by simp⟩
  case neg =>
    refine ⟨_, _, ofTokens_leaf isOpening later, ?_⟩
    intro offset d ordinary isPlain
    apply (Token.kind_first_iff ordinary base c rest).mp
    rw [Tree.leaf.inj isPlain]

theorem head?_ofText {base offset : Nat} {d : Char} {text : Text} (ordinary : d ∉ ['\\', '['])
    (starts : (ofText base text).head? = some (.leaf ⟨offset, .plain d⟩)) :
    text.head? = some d := by
  cases text with
  | nil => simp at starts
  | cons c rest =>
      rcases exists_ofText_cons base c rest with ⟨tree, trees, isTrees, isPlain⟩
      rw [isTrees] at starts
      rw [isPlain offset d ordinary (Option.some.inj starts)]
      rfl

end Tree

namespace Scanner

open Item

/-- What the head of a text says of its tokens and of the items of its trees. -/
def Head.Explains (base : Nat) (fresh : Bool) (chars : Text) : Head → Prop
  | .done => chars = []
  | .fault cause => ofTrees fresh (Tree.ofText base chars) = .error cause
  | .item first length next =>
      (∃ front, Token.ofText base chars =
          front ++ Token.ofText (base + length) (chars.drop length) ∧
        (Token.textOf front).length = length) ∧
      ofTrees fresh (Tree.ofText base chars) =
        ofTrees next (Tree.ofText (base + length) (chars.drop length)) >>= fun items =>
          pure (first :: items)
  | .brace content => ∃ closing options,
      Token.ofText base chars = ⟨base, .plain '{'⟩ :: Token.ofText (base + 1) content ++
        closing :: Token.ofText (base + content.length + 2) (chars.drop (content.length + 2)) ∧
      closing.kind = .plain '}' ∧ Token.CutInto (Token.ofText (base + 1) content) options

section Explains

variable {base : Nat} {fresh : Bool} {chars : Text} {token : Token} {later : List Token}

theorem ofTrees_of_token (tokens : Token.ofText base chars = token :: later)
    (notOpening : token.kind ≠ .plain '{')
    (alone : token.kind = .plain '*' → ∀ next ∈ (Tree.ofTokens later).head?, ¬IsStar next) :
    ofTrees fresh (Tree.ofText base chars) =
      ofToken token >>= fun item =>
        ofTrees (isSeparator (.leaf token)) (Tree.ofTokens later) >>= fun items =>
          pure (item :: items) := by
  rw [Tree.ofText, tokens, Tree.ofTokens_leaf notOpening, ofTrees_cons, ofTree]
  · cases ofToken token <;> rfl
  · rintro ⟨offset, isStar⟩
    exact alone (by rw [Tree.leaf.inj isStar])

theorem Head.explains_item {item : Item} {length : Nat} {next : Bool}
    (tokens : Token.ofText base chars =
      token :: Token.ofText (base + length) (chars.drop length))
    (textLength : token.text.length = length) (isItem : ofToken token = .ok item)
    (notOpening : token.kind ≠ .plain '{')
    (alone : token.kind = .plain '*' → (chars.drop length).head? ≠ some '*')
    (separates : isSeparator (.leaf token) = next) :
    (Head.item item length next).Explains base fresh chars := by
  refine ⟨⟨[token], tokens, by simp [textLength]⟩, ?_⟩
  rw [ofTrees_of_token tokens notOpening, isItem, separates]
  · rfl
  · rintro isStar next starts ⟨offset, rfl⟩
    exact alone isStar (Tree.head?_ofText (by decide) starts)

theorem Head.explains_fault {cause : Fault} (tokens : Token.ofText base chars = token :: later)
    (isFault : ofToken token = .error cause) (notOpening : token.kind ≠ .plain '{') :
    (Head.fault cause).Explains base fresh chars := by
  change ofTrees fresh (Tree.ofText base chars) = _
  rw [ofTrees_of_token tokens notOpening, isFault]
  · rfl
  · intro isStar
    rw [ofToken, isStar] at isFault
    cases isFault

theorem Head.explains_directories (base : Nat) (fresh : Bool) (rest : Text) :
    (if fresh then Head.item .directories 3 true
      else .fault (.misplacedGlobstar base)).Explains base fresh ('*' :: '*' :: '/' :: rest) := by
  have tokens : Token.ofText base ('*' :: '*' :: '/' :: rest) = [⟨base, .plain '*'⟩,
      ⟨base + 1, .plain '*'⟩, ⟨base + 2, .plain '/'⟩] ++ Token.ofText (base + 3) rest := by
    rw [Token.ofText_cons_of_ordinary (by decide), Token.ofText_cons_of_ordinary (by decide),
      Token.ofText_cons_of_ordinary (by decide)]
    rfl
  have trees : Tree.ofText base ('*' :: '*' :: '/' :: rest) = .leaf ⟨base, .plain '*'⟩ ::
      .leaf ⟨base + 1, .plain '*'⟩ :: .leaf ⟨base + 2, .plain '/'⟩ ::
        Tree.ofText (base + 3) rest := by
    rw [Tree.ofText_cons_of_ordinary (by decide), Tree.ofText_cons_of_ordinary (by decide),
      Tree.ofText_cons_of_ordinary (by decide)]
  split
  case isTrue isFresh =>
    refine ⟨⟨_, tokens, rfl⟩, ?_⟩
    rw [trees, ofTrees, if_pos isFresh]
    rfl
  case isFalse notFresh =>
    change ofTrees fresh _ = _
    rw [trees, ofTrees, if_neg notFresh]

theorem Head.explains_anything (base : Nat) (fresh : Bool) :
    (if fresh then Head.item .anything 2 false
      else .fault (.misplacedGlobstar base)).Explains base fresh ['*', '*'] := by
  have trees : Tree.ofText base ['*', '*'] =
      [.leaf ⟨base, .plain '*'⟩, .leaf ⟨base + 1, .plain '*'⟩] := rfl
  split
  case isTrue isFresh =>
    refine ⟨⟨Token.ofText base ['*', '*'], by simp, rfl⟩, ?_⟩
    rw [trees, ofTrees, if_pos isFresh]
    rfl
  case isFalse notFresh =>
    change ofTrees fresh _ = _
    rw [trees, ofTrees, if_neg notFresh]

theorem Head.explains_misplaced (base : Nat) (fresh : Bool) {rest : Text} (nonempty : rest ≠ [])
    (noSeparator : rest.head? ≠ some '/') :
    (Head.fault (.misplacedGlobstar base)).Explains base fresh ('*' :: '*' :: rest) := by
  rcases List.exists_cons_of_ne_nil nonempty with ⟨c, later, rfl⟩
  rcases Tree.exists_ofText_cons (base + 1 + 1) c later with ⟨tree, trees, isTrees, isPlain⟩
  change ofTrees fresh _ = _
  rw [Tree.ofText_cons_of_ordinary (by decide), Tree.ofText_cons_of_ordinary (by decide), isTrees,
    ofTrees]
  · intro offset others isSeparator
    rcases List.cons.inj isSeparator with ⟨isLeaf, -⟩
    exact noSeparator (by rw [isPlain offset '/' (by decide) isLeaf, List.head?_cons])
  · intro isEmpty
    cases isEmpty

theorem Head.explains_class (base : Nat) (fresh : Bool) (rest : Text) :
    (match CharClass.read base ('[' :: rest) with
      | .ok (charClass, length) => Head.item (.oneOf charClass) length false
      | .error cause => .fault cause).Explains base fresh ('[' :: rest) := by
  have tokens := Token.ofText_cons base '[' rest
  rw [CharClass.read_eq]
  cases closes : CharClass.bodyLength? rest with
  | none =>
      exact explains_fault tokens (by simp [Token.first, closes, ofToken])
        (by simp [Token.first, closes])
  | some length =>
      have token : Token.first base '[' rest = ⟨base, .bracket (rest.take length)⟩ := by
        simp [Token.first, closes]
      have more : followers '[' rest = length + 1 := by simp [followers, closes]
      have next : base + 1 + (length + 1) = base + (length + 2) := by omega
      rw [token, more, next] at tokens
      have textLength : (⟨base, .bracket (rest.take length)⟩ : Token).text.length =
          length + 2 := by
        rw [← token, Token.length_text_first, more, Nat.add_comm]
      dsimp only
      by_cases noMembers : (CharClass.ofBody (rest.take length)).members = []
      case pos =>
        rw [if_pos noMembers]
        exact explains_fault tokens (by simp [ofToken, noMembers]) (by simp)
      case neg =>
        rw [if_neg noMembers]
        exact explains_item tokens textLength (by simp [ofToken, noMembers]) (by simp)
          (by simp) rfl

theorem Head.explains_brace (base : Nat) (fresh : Bool) (rest : Text) :
    (match contentLength? rest with
      | some length => Head.brace (rest.take length)
      | none => .fault (.unterminatedBrace base)).Explains base fresh ('{' :: rest) := by
  have tokens := Token.ofText_cons_of_ordinary (show '{' ∉ ['\\', '['] by decide) base rest
  rcases Token.exists_cutInto (Token.ofText (base + 1) rest) with
    ⟨inner, others, options, isInner, cut, unclosed | ⟨closing, after, rfl, isClosing⟩⟩
  · rw [Token.contentLength?_of_unclosed isInner cut unclosed]
    change ofTrees fresh _ = _
    rw [Tree.ofText, tokens, isInner, ← List.cons_append, Tree.ofTokens_unclosed rfl cut unclosed]
    rfl
  · have whole := congrArg Token.textOf isInner
    rw [Token.textOf_ofText, Token.textOf_append] at whole
    have content : rest.take (Token.textOf inner).length = Token.textOf inner := by
      rw [whole, List.take_left]
    have behind : Token.ofText base ('{' :: rest) =
        (⟨base, .plain '{'⟩ :: inner ++ [closing]) ++ after := by
      rw [tokens, isInner]
      simp
    have isAfter := Token.ofText_suffix behind
    have dropped : ('{' :: rest).drop ((Token.textOf inner).length + 2) = Token.textOf after := by
      rw [whole]
      simp [Token.text, isClosing]
    have length : (Token.textOf (⟨base, .plain '{'⟩ :: inner ++ [closing])).length =
        (Token.textOf inner).length + 2 := by
      simp [Token.text, isClosing]
    rw [length, ← dropped, ← Nat.add_assoc] at isAfter
    rw [Token.contentLength?_of_cutInto isInner cut isClosing]
    dsimp only
    rw [content]
    refine ⟨closing, options, ?_, isClosing, ?_⟩
    · rw [Token.ofText_prefix isInner, isAfter, behind]
      simp
    · rwa [Token.ofText_prefix isInner]

theorem Head.explains_plain (base : Nat) (fresh : Bool) {c : Char} (rest : Text)
    (ordinary : c ∉ ['\\', '[', '{', '*', '?', '/']) :
    (Head.item (.char c) 1 false).Explains base fresh (c :: rest) := by
  simp only [List.mem_cons, List.not_mem_nil, or_false, not_or] at ordinary
  refine explains_item (Token.ofText_cons_of_ordinary (by simp [ordinary]) ..) rfl ?_ ?_ ?_ ?_
  · unfold ofToken
    split <;> simp_all
  · simp [ordinary]
  · simp [ordinary]
  · unfold isSeparator
    split <;> simp_all

end Explains

/-- The head of a text is what its first trees are read as. -/
theorem explains_of_head {base : Nat} {fresh : Bool} {chars : Text} {start : Head}
    (starts : head base fresh chars = start) : start.Explains base fresh chars := by
  rw [← starts]
  unfold head
  split
  case h_1 => exact rfl
  case h_2 rest => exact Head.explains_directories base fresh rest
  case h_3 => exact Head.explains_anything base fresh
  case h_4 rest notDirectories notLast =>
    refine Head.explains_misplaced base fresh notLast fun starts => ?_
    rcases List.head?_eq_some_iff.mp starts with ⟨later, same⟩
    exact notDirectories later same
  case h_5 rest notDouble =>
    refine Head.explains_item (Token.ofText_cons_of_ordinary (by decide) ..) rfl rfl (by simp) ?_
      rfl
    intro _ starts
    rcases List.head?_eq_some_iff.mp starts with ⟨later, same⟩
    exact notDouble later same
  case h_6 rest =>
    exact Head.explains_item (Token.ofText_cons_of_ordinary (by decide) ..) rfl rfl (by simp)
      (by simp) rfl
  case h_7 rest =>
    exact Head.explains_item (Token.ofText_cons_of_ordinary (by decide) ..) rfl rfl (by simp)
      (by simp) rfl
  case h_8 => exact Head.explains_fault rfl rfl (by simp)
  case h_9 escaped rest =>
    exact Head.explains_item (Token.ofText_cons ..) rfl rfl (by simp [Token.first])
      (by simp [Token.first]) rfl
  case h_10 rest => exact Head.explains_class base fresh rest
  case h_11 rest => exact Head.explains_brace base fresh rest
  case h_12 c rest _ _ _ notStar notAny notSeparator notStray notEscape notBracket notOpening =>
    have notBackslash : c ≠ '\\' := by
      intro isEscape
      cases rest with
      | nil => exact notStray isEscape rfl
      | cons escaped later => exact notEscape escaped later isEscape rfl
    apply Head.explains_plain
    simpa using ⟨notBackslash, notBracket, notOpening, notStar, notAny, notSeparator⟩

/-! ## The items -/

theorem result_all {fresh : Bool} {slices : List Slice} {options : List (List Token)}
    (stand : List.Forall₂ (fun slice option => slice.fresh = fresh ∧
      Token.ofText slice.base slice.chars = option) slices options)
    (each : ∀ slice ∈ slices, (read slice.base slice.fresh slice.chars).result =
      ofTrees slice.fresh (Tree.ofText slice.base slice.chars)) :
    (Logged.all (slices.map fun slice =>
      .call slice (read slice.base slice.fresh slice.chars))).result =
        ofOptions fresh (options.map Tree.ofTokens) := by
  induction stand with
  | nil => rfl
  | @cons slice option slices options stands _ ih =>
      rcases stands with ⟨rfl, rfl⟩
      rcases List.forall_mem_cons.mp each with ⟨first, others⟩
      rw [List.map_cons, List.map_cons, ofOptions, ← ih others, ← Tree.ofText, ← first, Logged.all,
        Logged.result_bind]
      simp only [Logged.result_bind]
      rfl

theorem result_ofBrace (content : Text) (readings : List (Logged (List Item))) :
    (ofBrace content readings).result =
      Interval.read content >>= fun interval? =>
        match interval? with
        | some interval => .ok [.numerals interval]
        | none => (Logged.all readings).result >>= fun choices => .ok (ofChoices choices) := by
  rw [ofBrace, Logged.result_bind]
  change Interval.read content >>= _ = _
  congr 1
  funext interval?
  cases interval? with
  | some interval => rfl
  | none => rw [Logged.result_bind]; rfl

/-- Reading by slices gives the items of the trees, or the same fault. -/
theorem result_read (base : Nat) (fresh : Bool) (chars : Text) :
    (read base fresh chars).result = ofTrees fresh (Tree.ofText base chars) := by
  induction base, fresh, chars using read.induct with
  | case1 base fresh chars starts =>
      obtain rfl : chars = [] := explains_of_head starts
      rw [read_of_done starts]
      rfl
  | case2 base fresh chars fault starts =>
      rw [read_of_fault starts]
      exact (explains_of_head starts).symm
  | case3 base fresh chars item length next starts ih =>
      rw [read_of_item starts, Logged.result_bind, ih, (explains_of_head starts).2]
      rfl
  | case4 base fresh chars content starts ihSlices ih =>
      rcases explains_of_head starts with ⟨closing, options, tokens, isClosing, cut⟩
      have trees : Tree.ofText base chars = .group base (options.map Tree.ofTokens) ::
          Tree.ofText (base + content.length + 2) (chars.drop (content.length + 2)) := by
        rw [Tree.ofText, tokens, Tree.ofTokens_group rfl isClosing cut]
        rfl
      have readings : (Logged.all ((slicesOf (base + 1) fresh content).map fun slice =>
          .call slice (read slice.base slice.fresh slice.chars))).result =
            ofOptions (fresh && options.length != 1) (options.map Tree.ofTokens) := by
        refine result_all ((Token.forall₂_slicesOf cut).imp ?_) fun slice member =>
          ihSlices ⟨slice, member⟩
        rintro slice option ⟨isFresh, before, after, split, isBase, isChars⟩
        exact ⟨isFresh, by rw [isBase, isChars, Token.ofText_slice split]⟩
      rw [read_of_brace starts, Logged.result_bind, trees, ofTrees_cons, ofTree, List.length_map,
        intervalOf_ofTokens cut, ← readings, Token.textOf_ofText]
      · rw [result_ofBrace]
        simp only [Logged.result_bind, ih]
        cases Interval.read content with
        | error fault => rfl
        | ok interval? => 
          cases interval? with
          | some interval => rfl
          | none => rfl
      · rintro ⟨offset, isLeaf⟩
        cases isLeaf

end Scanner

end Glob

end PropertyCascade
