import PropertyCascade.Glob.Pattern
import PropertyCascade.Proofs.Glob.Item
import PropertyCascade.Proofs.Glob.Reading

/-!
# Exactness of patterns

A header that compiles matches exactly the texts in its language. The items that are read off the
trees of the header denote what the text of the trees denotes; this is shown by induction along the
reading, which takes the first item off the trees where the language takes it off the text. Items
match what they denote, so nothing but the header decides what is matched.
-/

namespace PropertyCascade

namespace Glob

open Source

/-! ## Ranges -/

namespace Interval

theorem eq_append_of_cutDots {text before after : Text}
    (cut : cutDots text = some (before, after)) : text = before ++ '.' :: '.' :: after := by
  fun_induction cutDots text generalizing before with
  | case1 => cases cut
  | case2 after =>
      rcases Prod.mk.inj (Option.some.inj cut) with ⟨rfl, rfl⟩
      rfl
  | case3 c rest _ ih =>
      rcases Option.map_eq_some_iff.mp cut with ⟨⟨later, _⟩, laterCut, same⟩
      rcases Prod.mk.inj same with ⟨rfl, rfl⟩
      rw [ih laterCut]
      rfl

theorem bounds_of_ofWords {first last : Int64} {interval : Interval}
    (made : ofWords first last = .ok interval) :
    interval.first = first.toInt ∧ interval.last = last.toInt := by
  rw [ofWords, ofBounds?] at made
  split at made
  case h_1 other found =>
    cases made
    split at found
    case isTrue =>
      cases found
      exact ⟨rfl, rfl⟩
    case isFalse => cases found
  case h_2 => cases made

theorem isRange_of_read {text : Text} {interval : Interval}
    (isRead : Interval.read text = .ok (some interval)) :
    IsRange text interval.first interval.last := by
  rw [Interval.read] at isRead
  split at isRead
  case h_1 => cases isRead
  case h_2 before after cut =>
    split at isRead
    case h_1 first last readFirst readLast =>
      split at isRead
      case h_1 firstWord lastWord wordFirst wordLast =>
        cases made : ofWords firstWord lastWord with
        | error fault =>
            rw [made] at isRead
            cases isRead
        | ok other =>
            rw [made] at isRead
            cases isRead
            rcases bounds_of_ofWords made with ⟨firstEq, lastEq⟩
            rw [firstEq, lastEq, Numeral.toInt_of_word? wordFirst, Numeral.toInt_of_word? wordLast]
            exact ⟨before, after, eq_append_of_cutDots cut, readFirst, readLast⟩
      case h_2 => cases isRead
    case h_2 => cases isRead

theorem not_isRange_of_read {text : Text} (isRead : Interval.read text = .ok none) :
    ¬∃ first last, IsRange text first last := by
  intro isRange
  rcases isRange with ⟨first, last, before, after, rfl, readFirst, readLast⟩
  rw [Interval.read, cutDots_append (dot_not_mem_of_int? readFirst)] at isRead
  dsimp only at isRead
  rw [readFirst, readLast] at isRead
  dsimp only at isRead
  split at isRead
  case h_1 firstWord lastWord _ _ =>
    cases made : ofWords firstWord lastWord with
    | error fault =>
        rw [made] at isRead
        cases isRead
    | ok other =>
        rw [made] at isRead
        cases isRead
  case h_2 => cases isRead

end Interval

namespace Item

theorem textOf_of_plainText? {trees : List Tree} {text : Text}
    (plain : plainText? trees = some text) : Tree.textOf trees = text := by
  fun_induction plainText? trees generalizing text with
  | case1 =>
      cases plain
      rfl
  | case2 offset c rest ih =>
      rcases Option.map_eq_some_iff.mp plain with ⟨later, laterPlain, rfl⟩
      rw [Tree.textOf_cons, ih laterPlain]
      rfl
  | case3 => cases plain

/-- Trees whose text has no escape, no bracket and no brace are plain tokens. -/
theorem plainText?_eq {trees : List Tree}
    (ordinary : ∀ c ∈ Tree.textOf trees, c ≠ '\\' ∧ c ≠ '[' ∧ c ≠ '{') :
    plainText? trees = some (Tree.textOf trees) := by
  fun_induction plainText? trees with
  | case1 => rfl
  | case2 offset c rest ih =>
      rw [ih fun later member => ordinary later (List.mem_append_right [c] member)]
      rfl
  | case3 tree rest notPlain =>
      have first (c : Char) (member : c ∈ tree.text) := ordinary c (List.mem_append_left _ member)
      cases tree with
      | leaf token =>
          rcases token with ⟨offset, kind⟩
          cases kind with
          | plain c => exact absurd rfl (notPlain offset c)
          | escaped c => exact absurd rfl (first '\\' (by simp [Tree.text, Token.text])).1
          | bracket body => exact absurd rfl (first '[' (by simp [Tree.text, Token.text])).2.1
          | strayEscape => exact absurd rfl (first '\\' (by simp [Tree.text, Token.text])).1
      | group opening options => exact absurd rfl (first '{' (by simp [Tree.text])).2.2
      | unclosed opening => exact absurd rfl (first '{' (by simp [Tree.text])).2.2

theorem isRange_of_intervalOf {options : List (List Tree)} {interval : Interval}
    (isInterval : intervalOf options = .ok (some interval)) :
    ∃ content, options = [content] ∧
      IsRange (Tree.textOf content) interval.first interval.last := by
  unfold intervalOf at isInterval
  split at isInterval
  case h_1 content =>
    split at isInterval
    case h_1 text plain =>
      rw [← textOf_of_plainText? plain] at isInterval
      exact ⟨content, rfl, Interval.isRange_of_read isInterval⟩
    case h_2 => cases isInterval
  case h_2 => cases isInterval

theorem not_isRange_of_intervalOf {content : List Tree}
    (noInterval : intervalOf [content] = .ok none) :
    ¬∃ first last, IsRange (Tree.textOf content) first last := by
  intro isRange
  rcases isRange with ⟨first, last, range⟩
  have ordinary : ∀ c ∈ Tree.textOf content, c ≠ '\\' ∧ c ≠ '[' ∧ c ≠ '{' := by
    intro c member
    have unmoved := range.depthAfter c member
    have notHead := Bracketing.not_mem_heads unmoved
    refine ⟨?_, ?_, ?_⟩
    · rintro rfl
      exact notHead (List.mem_cons_self ..)
    · rintro rfl
      exact notHead (List.mem_cons_of_mem _ (List.mem_cons_self ..))
    · rintro rfl
      cases unmoved
  rw [intervalOf, plainText?_eq ordinary] at noInterval
  exact Interval.not_isRange_of_read noInterval ⟨first, last, range⟩

/-! ## Tokens -/

/-- The tokens that are items, with these. -/
inductive TokenReads : TokenKind → Item → Prop where
  | star : TokenReads (.plain '*') star
  | anyChar : TokenReads (.plain '?') anyChar
  | char {c : Char} (ordinary : c ∉ ['*', '?', '[']) : TokenReads (.plain c) (char c)
  | escaped (c : Char) : TokenReads (.escaped c) (char c)
  | oneOf (body : Text) : TokenReads (.bracket body) (oneOf (CharClass.ofBody body))

theorem tokenReads {token : Token} {item : Item} (read : ofToken token = .ok item) :
    TokenReads token.kind item := by
  rcases token with ⟨offset, kind⟩
  unfold ofToken at read
  dsimp only at read ⊢
  split at read
  case h_1 =>
    cases read
    exact .star
  case h_2 =>
    cases read
    exact .anyChar
  case h_3 => cases read
  case h_4 c notStar notAny notBracket =>
    cases read
    apply TokenReads.char
    simp only [List.mem_cons, List.not_mem_nil, or_false]
    rintro (rfl | rfl | rfl)
    · exact notStar rfl
    · exact notAny rfl
    · exact notBracket rfl
  case h_5 c =>
    cases read
    exact .escaped c
  case h_6 => cases read
  case h_7 body =>
    split at read
    case isTrue => cases read
    case isFalse =>
      cases read
      exact .oneOf body

theorem isOption_token {token : Token} {item : Item} (read : ofToken token = .ok item)
    (isRead : Tree.IsRead true (.leaf token)) : IsOption token.text := by
  cases isRead with
  | leaf scanned notOpening notStop =>
      rcases token with ⟨offset, kind⟩
      rcases notStop rfl with ⟨notClosing, notComma⟩
      have reads := tokenReads read
      dsimp only at reads notOpening notClosing notComma
      cases reads with
      | star => exact .char rfl .nil
      | anyChar => exact .char rfl .nil
      | char ordinary =>
          refine .char (depthAfter_of_not_mem ?_) .nil
          simp_all [Token.IsScanned]
      | escaped c => exact isOption_whole (.escaped c)
      | oneOf body => exact isOption_whole (.bracket scanned)

theorem denotes_token {token : Token} {item : Item} {inside : Bool} {rest text : Text}
    (read : ofToken token = .ok item) (isRead : Tree.IsRead inside (.leaf token))
    (alone : token.kind = .plain '*' → rest.head? ≠ some '*') :
    Source.Denotes (token.text ++ rest) text ↔ Splits item.Denotes (Source.Denotes rest) text := by
  cases isRead with
  | leaf scanned notOpening _ =>
      rcases token with ⟨offset, kind⟩
      have reads := tokenReads read
      dsimp only at reads notOpening alone
      cases reads with
      | star => exact denotes_star (alone rfl)
      | anyChar => exact denotes_anyChar
      | char ordinary =>
          apply denotes_plain
          simp_all [special, Token.IsScanned]
      | escaped c => exact denotes_escaped
      | oneOf body =>
          rw [Token.text, List.append_assoc]
          exact denotes_oneOf scanned

/-! ## Reading without a fault -/

theorem bind_eq_ok {Failure Value Result : Type} {first : Except Failure Value}
    {next : Value → Except Failure Result} {result : Result} :
    first >>= next = .ok result ↔ ∃ value, first = .ok value ∧ next value = .ok result := by
  cases first with
  | error fault => simp [bind, Except.bind]
  | ok value => simp [bind, Except.bind]

/-- Whether a tree is a star. -/
def IsStar (tree : Tree) : Prop :=
  ∃ offset, tree = .leaf ⟨offset, .plain '*'⟩

theorem isStar_leaf {token : Token} (kind : token.kind = .plain '*') : IsStar (.leaf token) :=
  ⟨token.offset, by rw [← kind]⟩

/-- How trees are read without a fault, the first item first. Where items start a path segment does
not matter any more: it only decides which trees have a fault. -/
inductive Reads : List Tree → List Item → Prop where
  | nil : Reads [] []
  | directories {rest : List Tree} {others : List Item} (first second third : Nat)
      (later : Reads rest others) :
      Reads (.leaf ⟨first, .plain '*'⟩ :: .leaf ⟨second, .plain '*'⟩ ::
        .leaf ⟨third, .plain '/'⟩ :: rest) (directories :: others)
  | anything (first second : Nat) :
      Reads [.leaf ⟨first, .plain '*'⟩, .leaf ⟨second, .plain '*'⟩] [anything]
  | token {token : Token} {item : Item} {rest : List Tree} {others : List Item}
      (read : ofToken token = .ok item)
      (alone : IsStar (.leaf token) → ∀ next ∈ rest.head?, ¬IsStar next)
      (later : Reads rest others) : Reads (.leaf token :: rest) (item :: others)
  | interval {options : List (List Tree)} {interval : Interval} {rest : List Tree}
      {others : List Item} (opening : Nat) (isInterval : intervalOf options = .ok (some interval))
      (later : Reads rest others) :
      Reads (.group opening options :: rest) (numerals interval :: others)
  | choices {options : List (List Tree)} {choices : List (List Item)} {rest : List Tree}
      {others : List Item} (opening : Nat) (noInterval : intervalOf options = .ok none)
      (lengths : options.length = choices.length)
      (each : ∀ pair ∈ options.zip choices, Reads pair.1 pair.2) (later : Reads rest others) :
      Reads (.group opening options :: rest) (ofChoices choices ++ others)

theorem reads_of_ofTrees {fresh : Bool} {trees : List Tree} {items : List Item}
    (read : ofTrees fresh trees = .ok items) : Reads trees items := by
  refine ofTrees.induct
    (fun fresh tree => ∀ items, ofTree fresh tree = .ok items → ∀ rest others,
      (IsStar tree → ∀ next ∈ rest.head?, ¬IsStar next) → Reads rest others →
        Reads (tree :: rest) (items ++ others))
    (fun fresh options => ∀ choices, ofOptions fresh options = .ok choices →
      options.length = choices.length ∧ ∀ pair ∈ options.zip choices, Reads pair.1 pair.2)
    (fun fresh trees => ∀ items, ofTrees fresh trees = .ok items → Reads trees items)
    ?leaf ?unclosed ?group ?noOptions ?options ?nil ?directories ?misplacedDirectories ?anything
    ?misplacedAnything ?misplaced ?cons fresh trees items read
  case leaf =>
    intro fresh token items read rest others alone later
    rw [ofTree] at read
    cases isItem : ofToken token with
    | error fault =>
        rw [isItem] at read
        cases read
    | ok item =>
        rw [isItem] at read
        cases read
        exact .token isItem alone later
  case unclosed =>
    intro fresh opening items read
    cases read
  case group =>
    intro fresh opening options ih items read rest others _ later
    rw [ofTree, bind_eq_ok] at read
    rcases read with ⟨interval?, isInterval, read⟩
    cases interval? with
    | none =>
        rcases bind_eq_ok.mp read with ⟨choices, readOptions, read⟩
        cases read
        rcases ih choices readOptions with ⟨lengths, each⟩
        exact .choices opening isInterval lengths each later
    | some interval =>
        cases read
        exact .interval opening isInterval later
  case noOptions =>
    intro fresh choices read
    cases read
    exact ⟨rfl, by simp⟩
  case options =>
    intro fresh option options ihOption ihOptions choices read
    rw [ofOptions, bind_eq_ok] at read
    rcases read with ⟨items, readFirst, read⟩
    rcases bind_eq_ok.mp read with ⟨others, readOthers, read⟩
    cases read
    rcases ihOptions others readOthers with ⟨lengths, each⟩
    refine ⟨by simp [lengths], ?_⟩
    rw [List.zip_cons_cons]
    exact List.forall_mem_cons.mpr ⟨ihOption items readFirst, each⟩
  case nil =>
    intro fresh items read
    cases read
    exact .nil
  case directories =>
    intro first second third rest ih items read
    rw [ofTrees, if_pos rfl, bind_eq_ok] at read
    rcases read with ⟨others, later, read⟩
    cases read
    exact .directories first second third (ih others later)
  case misplacedDirectories =>
    intro fresh first second third rest notFresh items read
    rw [ofTrees, if_neg notFresh] at read
    cases read
  case anything =>
    intro first second items read
    rw [ofTrees, if_pos rfl] at read
    cases read
    exact .anything first second
  case misplacedAnything =>
    intro fresh first second notFresh items read
    rw [ofTrees, if_neg notFresh] at read
    cases read
  case misplaced =>
    intro fresh first second rest notDirectories notLast items read
    rw [ofTrees] at read
    · cases read
    · exact notDirectories
    · exact notLast
  case cons =>
    intro fresh tree rest notDirectories notLast notDouble ihTree ihRest items read
    rw [ofTrees, bind_eq_ok] at read
    · rcases read with ⟨first, readFirst, read⟩
      rcases bind_eq_ok.mp read with ⟨others, readOthers, read⟩
      cases read
      refine ihTree first readFirst rest others ?_ (ihRest others readOthers)
      rintro ⟨offset, rfl⟩ next isNext ⟨nextOffset, rfl⟩
      rcases List.head?_eq_some_iff.mp isNext with ⟨tail, rfl⟩
      exact notDouble offset nextOffset tail rfl rfl
    · exact notDirectories
    · exact notLast
    · exact notDouble

/-- Every opening brace is closed where no fault is found. -/
theorem Reads.unclosed_not_mem {trees : List Tree} {items : List Item} (reads : Reads trees items)
    (opening : Nat) : .unclosed opening ∉ trees := by
  induction reads with
  | nil => simp
  | directories _ _ _ _ ih => simpa using ih
  | anything => simp
  | token _ _ _ ih => simpa using ih
  | interval _ _ _ ih => simpa using ih
  | choices _ _ _ _ _ _ ih => simpa using ih

/-! ## Options of a brace -/

section Zip

variable {First Second : Type} {firsts : List First} {seconds : List Second}

theorem exists_pair_of_mem {first : First} (lengths : firsts.length = seconds.length)
    (member : first ∈ firsts) : ∃ pair ∈ firsts.zip seconds, pair.1 = first := by
  rw [← List.map_fst_zip lengths.le] at member
  exact List.mem_map.mp member

theorem exists_pair_of_mem_right {second : Second} (lengths : firsts.length = seconds.length)
    (member : second ∈ seconds) : ∃ pair ∈ firsts.zip seconds, pair.2 = second := by
  rw [← List.map_snd_zip lengths.ge] at member
  exact List.mem_map.mp member

theorem exists_iff_of_zip (holds : First → Prop) (otherHolds : Second → Prop)
    (lengths : firsts.length = seconds.length)
    (each : ∀ pair ∈ firsts.zip seconds, holds pair.1 ↔ otherHolds pair.2) :
    (∃ first ∈ firsts, holds first) ↔ ∃ second ∈ seconds, otherHolds second := by
  constructor
  · intro someFirst
    rcases someFirst with ⟨first, member, firstHolds⟩
    rcases exists_pair_of_mem lengths member with ⟨pair, inZip, rfl⟩
    exact ⟨pair.2, (List.of_mem_zip inZip).2, (each pair inZip).mp firstHolds⟩
  · intro someSecond
    rcases someSecond with ⟨second, member, secondHolds⟩
    rcases exists_pair_of_mem_right lengths member with ⟨pair, inZip, rfl⟩
    exact ⟨pair.1, (List.of_mem_zip inZip).1, (each pair inZip).mpr secondHolds⟩

end Zip

/-- Trees that are read inside of a group make up an option. -/
theorem Reads.isOption {trees : List Tree} {items : List Item} (reads : Reads trees items)
    (areRead : ∀ tree ∈ trees, Tree.IsRead true tree) : IsOption (Tree.textOf trees) := by
  induction reads with
  | nil => exact .nil
  | directories first second third later ih =>
      have restRead := fun tree member => areRead tree (List.mem_append_right [_, _, _] member)
      exact .char rfl (.char rfl (.char rfl (ih restRead)))
  | anything => exact .char rfl (.char rfl .nil)
  | token read _ _ ih =>
      rcases List.forall_mem_cons.mp areRead with ⟨isRead, areRead⟩
      exact Bracketing.IsPart.append (isOption_token read isRead) (ih areRead)
  | interval opening isInterval _ ih =>
      rcases List.forall_mem_cons.mp areRead with ⟨-, restRead⟩
      rcases isRange_of_intervalOf isInterval with ⟨content, rfl, range⟩
      refine Bracketing.IsPart.append (isOption_brace ?_) (ih restRead)
      exact List.forall_mem_singleton.mpr range.isOption
  | choices opening _ lengths _ _ ihEach ih =>
      rcases List.forall_mem_cons.mp areRead with ⟨isRead, areRead⟩
      cases isRead with
      | group _ _ optionsRead =>
          refine Bracketing.IsPart.append (isOption_brace ?_) (ih areRead)
          rw [Tree.optionTexts_eq_map, List.forall_mem_map]
          intro option member
          rcases exists_pair_of_mem lengths member with ⟨pair, inZip, rfl⟩
          exact ihEach pair inZip (optionsRead _ member)

theorem head?_textOf {trees : List Tree} (starts : (Tree.textOf trees).head? = some '*') :
    ∃ first ∈ trees.head?, IsStar first := by
  cases trees with
  | nil => simp at starts
  | cons tree rest =>
      refine ⟨tree, rfl, ?_⟩
      cases tree with
      | leaf token =>
          rcases token with ⟨offset, kind⟩
          cases kind with
          | plain c =>
              simp [Tree.text, Token.text] at starts
              exact ⟨offset, by rw [starts]⟩
          | escaped c => simp [Tree.text, Token.text] at starts
          | bracket body => simp [Tree.text, Token.text] at starts
          | strayEscape => simp [Tree.text, Token.text] at starts
      | group opening options => simp [Tree.text] at starts
      | unclosed opening => simp [Tree.text] at starts

theorem denotes_group {opening : Nat} {options : List (List Tree)} {rest text : Text}
    (nonempty : options ≠ [])
    (areOptions : ∀ option ∈ options, IsOption (Tree.textOf option)) :
    Source.Denotes ((Tree.group opening options).text ++ rest) text ↔
      Splits (BraceDenotes (options.map Tree.textOf)) (Source.Denotes rest) text := by
  rw [Tree.text, List.append_assoc, Tree.optionTexts_eq_map]
  exact denotes_brace (by simpa using nonempty) (List.forall_mem_map.mpr areOptions)

/-- The items of a group denote what its brace denotes. -/
theorem braceDenotes_ofChoices {options : List (List Tree)} {choices : List (List Item)}
    (nonempty : options ≠ []) (noInterval : intervalOf options = .ok none)
    (lengths : options.length = choices.length)
    (each : ∀ pair ∈ options.zip choices, ∀ text,
      Source.Denotes (Tree.textOf pair.1) text ↔ DenotedBy pair.2 text) (before : Text) :
    BraceDenotes (options.map Tree.textOf) before ↔ DenotedBy (ofChoices choices) before := by
  match options, choices, lengths with
  | [], _, _ => exact absurd rfl nonempty
  | [content], [items], _ =>
      have same := each (content, items) (by simp)
      rw [List.map_singleton, braceDenotes_braces (not_isRange_of_intervalOf noInterval), ofChoices,
        List.cons_append, denotedBy_cons]
      simp only [denotedBy_append, denotedBy_singleton, Item.Denotes, ← same]
      constructor
      · intro inBraces
        rcases inBraces with ⟨inside, rfl, kept⟩
        exact ⟨['{'], _, rfl, rfl, inside, ['}'], rfl, kept, rfl⟩
      · intro splits
        rcases splits with ⟨_, _, rfl, rfl, inside, _, rfl, kept, rfl⟩
        exact ⟨inside, rfl, kept⟩
  | first :: second :: rest, firstItems :: secondItems :: others, lengths =>
      have chosen := exists_iff_of_zip (fun option => Source.Denotes (Tree.textOf option) before)
        (DenotedBy · before) lengths fun pair inZip => each pair inZip before
      rw [braceDenotes_choice (by simp), ofChoices]
      · rw [denotedBy_singleton, Item.Denotes, denotedBySome_iff, ← chosen]
        simp
      · simp

theorem splits_denotedBy_cons {item : Item} {items : List Item} {holdsLater : Text → Prop}
    {text : Text} :
    Splits (DenotedBy (item :: items)) holdsLater text ↔
      Splits item.Denotes (Splits (DenotedBy items) holdsLater) text := by
  rw [splits_assoc]
  exact Splits.congr fun _ => denotedBy_cons

theorem splits_denotedBy_append {items others : List Item} {holdsLater : Text → Prop}
    {text : Text} :
    Splits (DenotedBy (items ++ others)) holdsLater text ↔
      Splits (DenotedBy items) (Splits (DenotedBy others) holdsLater) text := by
  rw [splits_assoc]
  exact Splits.congr fun _ => denotedBy_append

theorem textOf_ne_nil {tree : Tree} {trees : List Tree} : Tree.textOf (tree :: trees) ≠ [] := by
  rw [Tree.textOf_cons]
  apply List.append_ne_nil_of_left_ne_nil
  cases tree with
  | leaf token =>
      rcases token with ⟨offset, kind⟩
      cases kind <;> simp [Tree.text, Token.text]
  | group opening options => simp [Tree.text]
  | unclosed opening => simp [Tree.text]

/-- Whether a text does not change the reading of items when it follows them. -/
structure MayFollow (after : Text) (items : List Item) : Prop where
  apart : items.getLast? = some Item.star → after.head? ≠ some '*'
  atEnd : items.getLast? = some Item.anything → after = []

theorem mayFollow_nil (items : List Item) : MayFollow [] items where
  apart := by simp
  atEnd := fun _ => rfl

theorem MayFollow.of_append {after : Text} (front : List Item) {items : List Item}
    (follows : MayFollow after (front ++ items)) : MayFollow after items := by
  constructor
  · intro isLast
    apply follows.apart
    rw [List.getLast?_append, isLast, Option.some_or]
  · intro isLast
    apply follows.atEnd
    rw [List.getLast?_append, isLast, Option.some_or]

/-- Trees denote what their text denotes, whatever text follows them, as long as no star comes to
stand next to another one and nothing follows a globstar. -/
theorem Reads.denotes_append {inside : Bool} {trees : List Tree} {items : List Item} {after : Text}
    (reads : Reads trees items) (areRead : ∀ tree ∈ trees, Tree.IsRead inside tree)
    (follows : MayFollow after items) (text : Text) :
    Source.Denotes (Tree.textOf trees ++ after) text ↔
      Splits (DenotedBy items) (Source.Denotes after) text := by
  induction reads generalizing inside after text with
  | nil => simp [Splits]
  | directories first second third later ih =>
      have restRead := fun tree member => areRead tree (List.mem_append_right [_, _, _] member)
      have following := ih restRead (follows.of_append [_])
      show Source.Denotes ('*' :: '*' :: '/' :: (Tree.textOf _ ++ after)) text ↔ _
      rw [denotes_directories, splits_denotedBy_cons]
      simp only [Splits, Item.Denotes, following]
  | anything first second =>
      obtain rfl := follows.atEnd rfl
      show Source.Denotes ['*', '*'] text ↔ _
      simp [Splits, Item.Denotes, denotes_anything, denotes_nil]
  | @token token item rest others read alone later ih =>
      rcases List.forall_mem_cons.mp areRead with ⟨isRead, restRead⟩
      have following := ih restRead (follows.of_append [_])
      rw [Tree.textOf_cons, Tree.text, List.append_assoc, denotes_token read isRead,
        splits_denotedBy_cons]
      · simp only [Splits, following]
      · intro kind starts
        cases later with
        | nil =>
            have isStar := tokenReads read
            rw [kind] at isStar
            cases isStar with
            | star => exact follows.apart rfl starts
            | char ordinary => simp at ordinary
        | _ =>
            rw [List.head?_append_of_ne_nil _ textOf_ne_nil] at starts
            rcases head?_textOf starts with ⟨next, isNext, nextStar⟩
            exact alone (isStar_leaf kind) next isNext nextStar
  | interval opening isInterval _ ih =>
      rcases List.forall_mem_cons.mp areRead with ⟨-, restRead⟩
      have following := ih restRead (follows.of_append [_])
      rcases isRange_of_intervalOf isInterval with ⟨content, rfl, range⟩
      rw [Tree.textOf_cons, List.append_assoc,
        denotes_group (by simp) (by simpa using range.isOption), splits_denotedBy_cons]
      simp only [List.map_singleton, Splits, braceDenotes_numeral range, following, Item.Denotes,
        Interval.Denotes, Numeral.isCanonical_iff]
  | @choices options choices rest others opening noInterval lengths each _ ihEach ih =>
      rcases List.forall_mem_cons.mp areRead with ⟨isRead, restRead⟩
      have following := ih restRead (follows.of_append (ofChoices choices))
      cases isRead with
      | group _ nonempty optionsRead =>
          have areOptions : ∀ option ∈ options, IsOption (Tree.textOf option) := by
            intro option member
            rcases exists_pair_of_mem lengths member with ⟨pair, inZip, rfl⟩
            exact (each pair inZip).isOption (optionsRead _ member)
          have denoteAlike := braceDenotes_ofChoices nonempty noInterval lengths
            fun pair inZip text => by
              have alone := ihEach pair inZip (optionsRead _ (List.of_mem_zip inZip).1)
                (mayFollow_nil _) text
              simpa [Splits, denotes_nil] using alone
          rw [Tree.textOf_cons, List.append_assoc, denotes_group nonempty areOptions,
            splits_denotedBy_append]
          simp only [Splits, denoteAlike, following]

/-- Trees denote what their text denotes. -/
theorem Reads.denotes_iff {inside : Bool} {trees : List Tree} {items : List Item}
    (reads : Reads trees items) (areRead : ∀ tree ∈ trees, Tree.IsRead inside tree) (text : Text) :
    Source.Denotes (Tree.textOf trees) text ↔ DenotedBy items text := by
  have alone := reads.denotes_append areRead (mayFollow_nil items) text
  simpa [Splits, denotes_nil] using alone

end Item

/-! ## Headers -/

namespace Pattern

theorem exists_tokensOf (source : Text) :
    ∃ offset, tokensOf source = Token.ofText offset (withoutAnchor source) := by
  unfold tokensOf
  split
  case h_1 => exact ⟨1, rfl⟩
  case h_2 notAnchored =>
    refine ⟨0, ?_⟩
    rw [withoutAnchor]
    exact notAnchored

theorem itemsOf_of_compile {source : Text} {pattern : Pattern}
    (compiled : compile source = .ok pattern) : itemsOf source = .ok pattern.items := by
  rw [compile, Item.bind_eq_ok] at compiled
  rcases compiled with ⟨items, read, compiled⟩
  split at compiled
  case isTrue => cases compiled
  case isFalse =>
    split at compiled
    case isTrue => cases compiled
    case isFalse =>
      cases compiled
      exact read

theorem reads_of_itemsOf {source : Text} {items : List Item} (read : itemsOf source = .ok items) :
    Item.Reads (Tree.ofTokens (tokensOf source)) items ∧
      Tree.textOf (Tree.ofTokens (tokensOf source)) = withoutAnchor source ∧
      ∀ tree ∈ Tree.ofTokens (tokensOf source), Tree.IsRead false tree := by
  rcases exists_tokensOf source with ⟨offset, tokens⟩
  have reads := Item.reads_of_ofTrees read
  rw [tokens] at reads ⊢
  rcases Tree.ofTokens_scan offset (withoutAnchor source) with ⟨opening, unclosed⟩ | scanned
  · exact absurd unclosed (reads.unclosed_not_mem opening)
  · exact ⟨reads, scanned⟩

theorem denotedBy_itemsOf {source : Text} {items : List Item}
    (read : itemsOf source = .ok items) (candidate : Text) :
    Item.DenotedBy items candidate ↔ Source.Denotes (withoutAnchor source) candidate := by
  rcases reads_of_itemsOf read with ⟨reads, sameText, areRead⟩
  rw [← reads.denotes_iff areRead, sameText]

/-- A header that compiles matches exactly the texts in the language of the header, without the
separator at its start. -/
theorem isMatch_iff_denotes {source : Text} {pattern : Pattern}
    (compiled : compile source = .ok pattern) (candidate : Text) :
    pattern.isMatch candidate = true ↔ Source.Denotes (withoutAnchor source) candidate := by
  rw [isMatch, Item.matchesAll_iff_denotedBy]
  exact denotedBy_itemsOf (itemsOf_of_compile compiled) candidate

theorem isMatch_iff_denotes_sources :
    ∃ pattern, compile "/{lib,src}/**/[!_]*.rs".toList = .ok pattern ∧
      Source.Denotes "{lib,src}/**/[!_]*.rs".toList "src/glob/range.rs".toList ∧
      ¬Source.Denotes "{lib,src}/**/[!_]*.rs".toList "src/_range.rs".toList := by
  have computed : (compile "/{lib,src}/**/[!_]*.rs".toList).toOption.map (fun pattern =>
      (pattern.isMatch "src/glob/range.rs".toList, pattern.isMatch "src/_range.rs".toList)) =
        some (true, false) := by
    decide +kernel
  cases compiled : compile "/{lib,src}/**/[!_]*.rs".toList with
  | error fault =>
      rw [compiled] at computed
      cases computed
  | ok pattern =>
      rw [compiled] at computed
      rcases Prod.mk.inj (Option.some.inj computed) with ⟨accepted, refused⟩
      refine ⟨pattern, rfl, (isMatch_iff_denotes compiled _).mp accepted, fun denotes => ?_⟩
      have contrary := (isMatch_iff_denotes compiled _).mpr denotes
      rw [refused] at contrary
      cases contrary

end Pattern

end Glob

end PropertyCascade
