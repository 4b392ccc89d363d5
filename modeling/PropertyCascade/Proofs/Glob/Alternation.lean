import PropertyCascade.Proofs.Glob.Globstar

/-!
# Alternations and their expansions

A brace at the top level of a pattern can be replaced by one of its options, which gives as many
patterns without this brace as it has options. This file compares what the pattern matches with what
these expansions match.

The options of a brace are read in its place, and trees denote what their text denotes whatever text
follows them. So the pattern and an expansion denote the same, unless the expansion is read in
another way. An expansion is read in another way at its start, where a separator is dropped that is
none of the pattern's own start, and behind an option that ends with a globstar: together with the
separator that follows, this globstar stands for no directories as well. Apart from their text,
nothing is known of the trees of an expansion, so these are taken apart by it.
-/

namespace PropertyCascade

namespace Glob

open Source

/-! ## Taking trees apart -/

/-- The texts of trees that are read without a fault. -/
inductive IsPiece : Text → Prop where
  | char {c : Char} (ordinary : c ∉ ['\\', '[', '{']) : IsPiece [c]
  | whole {piece : Text} (isWhole : IsWhole piece) : IsPiece piece
  | brace {options : List Text} (nonempty : options ≠ [])
      (areOptions : ∀ option ∈ options, IsOption option) : IsPiece ('{' :: joined options ++ ['}'])

theorem Source.IsWhole.ne_cons {piece rest otherRest : Text} {c : Char} (isWhole : IsWhole piece)
    (ordinary : c ∉ ['\\', '[']) : piece ++ rest ≠ c :: otherRest := by
  rcases isWhole.starts with ⟨head, isHead, later, rfl⟩
  intro same
  rw [← (List.cons.inj same).1] at ordinary
  exact ordinary isHead

/-- A text starts with one piece only. -/
theorem IsPiece.unique {piece other rest otherRest : Text} (isPiece : IsPiece piece)
    (otherIsPiece : IsPiece other) (same : piece ++ rest = other ++ otherRest) :
    piece = other ∧ rest = otherRest := by
  cases isPiece with
  | char ordinary =>
      cases otherIsPiece with
      | char =>
          rcases List.cons.inj same with ⟨rfl, rfl⟩
          exact ⟨rfl, rfl⟩
      | whole isWhole => exact absurd same.symm (isWhole.ne_cons (by simp_all))
      | brace => simp [(List.cons.inj same).1] at ordinary
  | whole isWhole =>
      cases otherIsPiece with
      | char ordinary => exact absurd same (isWhole.ne_cons (by simp_all))
      | whole otherIsWhole => exact isWhole.unique otherIsWhole same
      | brace => exact absurd same (isWhole.ne_cons (by decide))
  | @brace options nonempty areOptions =>
      cases otherIsPiece with
      | char ordinary => simp [← (List.cons.inj same).1] at ordinary
      | whole isWhole => exact absurd same.symm (isWhole.ne_cons (by decide))
      | @brace others otherNonempty otherAreOptions =>
          have sameInner : joined options ++ '}' :: rest = joined others ++ '}' :: otherRest := by
            simpa using same
          rcases joined_unique nonempty otherNonempty areOptions otherAreOptions sameInner with
            ⟨rfl, rfl⟩
          exact ⟨rfl, rfl⟩

namespace Item

section Apart

variable {trees front : List Tree} {items : List Item}

/-- What follows a tree is read as well. -/
theorem Reads.tail {tree : Tree} (reads : Reads (tree :: trees) items) :
    ∃ others, Reads trees others := by
  cases reads with
  | @directories rest others first second third later =>
      have separator : Reads (.leaf ⟨third, .plain '/'⟩ :: rest) (char '/' :: others) := by
        refine .token rfl ?_ later
        rintro ⟨offset, isStar⟩
        cases isStar
      refine ⟨_, .token rfl ?_ separator⟩
      rintro - next isNext ⟨offset, rfl⟩
      cases isNext
  | anything first second => exact ⟨_, .token rfl (by simp) .nil⟩
  | token _ _ later => exact ⟨_, later⟩
  | interval _ _ later => exact ⟨_, later⟩
  | choices _ _ _ _ later => exact ⟨_, later⟩

theorem Reads.drop (reads : Reads (front ++ trees) items) : ∃ others, Reads trees others := by
  induction front generalizing items with
  | nil => exact ⟨items, reads⟩
  | cons tree front ih =>
      rcases reads.tail with ⟨others, later⟩
      exact ih later

theorem isPiece_token {token : Token} {item : Item} {inside : Bool}
    (read : ofToken token = .ok item) (isRead : Tree.IsRead inside (.leaf token)) :
    IsPiece token.text := by
  cases isRead with
  | leaf scanned notOpening _ =>
      rcases token with ⟨offset, kind⟩
      have reads := tokenReads read
      dsimp only at reads notOpening
      cases reads with
      | star => exact .char (by decide)
      | anyChar => exact .char (by decide)
      | char ordinary =>
          apply IsPiece.char
          simp_all [Token.IsScanned]
      | escaped c => exact .whole (.escaped c)
      | oneOf body => exact .whole (.bracket scanned)

theorem Reads.isPiece {inside : Bool} (reads : Reads trees items)
    (areRead : ∀ tree ∈ trees, Tree.IsRead inside tree) : ∀ tree ∈ trees, IsPiece tree.text := by
  induction reads with
  | nil => simp
  | directories first second third later ih =>
      have restPieces := ih fun tree member => areRead tree (List.mem_append_right [_, _, _] member)
      have star : IsPiece ['*'] := .char (by decide)
      simp only [List.forall_mem_cons]
      exact ⟨star, star, .char (by decide), restPieces⟩
  | anything first second =>
      have star : IsPiece ['*'] := .char (by decide)
      simp only [List.forall_mem_cons]
      exact ⟨star, star, by simp⟩
  | token read _ _ ih =>
      rcases List.forall_mem_cons.mp areRead with ⟨isRead, restRead⟩
      exact List.forall_mem_cons.mpr ⟨isPiece_token read isRead, ih restRead⟩
  | interval opening isInterval _ ih =>
      rcases List.forall_mem_cons.mp areRead with ⟨-, restRead⟩
      rcases isRange_of_intervalOf isInterval with ⟨content, rfl, range⟩
      refine List.forall_mem_cons.mpr ⟨.brace (List.cons_ne_nil _ _) ?_, ih restRead⟩
      exact List.forall_mem_singleton.mpr range.isOption
  | choices opening _ lengths each _ _ ih =>
      rcases List.forall_mem_cons.mp areRead with ⟨isRead, restRead⟩
      refine List.forall_mem_cons.mpr ⟨?_, ih restRead⟩
      cases isRead with
      | group _ nonempty optionsRead =>
          rw [Tree.text, Tree.optionTexts_eq_map]
          refine .brace (by simpa using nonempty) (List.forall_mem_map.mpr ?_)
          intro option member
          rcases exists_pair_of_mem lengths member with ⟨pair, inZip, rfl⟩
          exact (each pair inZip).isOption (optionsRead _ member)

/-- Trees can be taken apart where their text can. -/
theorem exists_reads_of_textOf {rest : Text} (reads : Reads trees items)
    (pieces : ∀ tree ∈ trees, IsPiece tree.text) (frontPieces : ∀ tree ∈ front, IsPiece tree.text)
    (same : Tree.textOf trees = Tree.textOf front ++ rest) :
    ∃ later others, Reads later others ∧ Tree.textOf later = rest := by
  induction front generalizing trees items with
  | nil => exact ⟨trees, items, reads, same⟩
  | cons first front ih =>
      rcases List.forall_mem_cons.mp frontPieces with ⟨firstPiece, frontPieces⟩
      cases trees with
      | nil =>
          rw [Tree.textOf_nil] at same
          exact absurd (List.append_eq_nil_iff.mp same.symm).1 textOf_ne_nil
      | cons tree trees =>
          rcases List.forall_mem_cons.mp pieces with ⟨treePiece, pieces⟩
          rw [Tree.textOf_cons, Tree.textOf_cons, List.append_assoc] at same
          rcases reads.tail with ⟨others, later⟩
          exact ih later pieces frontPieces (treePiece.unique firstPiece same).2

theorem Reads.of_globstar {rest : Text} (reads : Reads trees items)
    (starts : Tree.textOf trees = '*' :: '*' :: rest) : rest = [] ∨ rest.head? = some '/' := by
  rcases head?_textOf (congrArg List.head? starts) with ⟨first, isFirst, offset, rfl⟩
  rcases List.head?_eq_some_iff.mp isFirst with ⟨later, rfl⟩
  have second : Tree.textOf later = '*' :: rest := (List.cons.inj starts).2
  rcases head?_textOf (congrArg List.head? second) with ⟨next, isNext, nextStar⟩
  cases reads with
  | directories first second third later =>
      rw [← (List.cons.inj second).2]
      exact .inr rfl
  | anything first second =>
      rw [← (List.cons.inj second).2]
      exact .inl rfl
  | token _ alone _ => exact absurd nextStar (alone ⟨offset, rfl⟩ next isNext)

/-! ## The last of some trees -/

def EndsInStar (trees : List Tree) : Prop :=
  ∃ offset, [.leaf ⟨offset, .plain '*'⟩] <:+ trees

def EndsInGlobstar (trees : List Tree) : Prop :=
  ∃ first second, [.leaf ⟨first, .plain '*'⟩, .leaf ⟨second, .plain '*'⟩] <:+ trees

/-- What the last item tells of the trees that it is read from. -/
structure EndsAlike (trees : List Tree) (items : List Item) : Prop where
  star : items.getLast? = some Item.star → EndsInStar trees
  globstar : items.getLast? = some Item.anything → EndsInGlobstar trees

theorem Reads.eq_nil (reads : Reads trees []) : trees = [] := by
  generalize isEmpty : ([] : List Item) = items at reads
  cases reads with
  | nil => rfl
  | choices _ _ _ _ _ =>
      unfold ofChoices at isEmpty
      split at isEmpty <;> simp at isEmpty
  | _ => cases isEmpty

theorem EndsAlike.append {rest : List Tree} {others : List Item} (alike : EndsAlike rest others)
    (later : Reads rest others) (front : List Tree) (first : List Item)
    (here : EndsAlike front first) : EndsAlike (front ++ rest) (first ++ others) := by
  rcases List.eq_nil_or_concat' others with rfl | ⟨others, last, rfl⟩
  · obtain rfl := later.eq_nil
    simpa using here
  · rw [← List.append_assoc]
    constructor
    · intro isLast
      rcases alike.star (by simpa using isLast) with ⟨offset, atEnd⟩
      exact ⟨offset, atEnd.trans (List.suffix_append front rest)⟩
    · intro isLast
      rcases alike.globstar (by simpa using isLast) with ⟨first, second, atEnd⟩
      exact ⟨first, second, atEnd.trans (List.suffix_append front rest)⟩

theorem endsAlike_of_ne {first : List Item} (noStar : first.getLast? ≠ some Item.star)
    (noGlobstar : first.getLast? ≠ some Item.anything) : EndsAlike front first :=
  ⟨fun isLast => absurd isLast noStar, fun isLast => absurd isLast noGlobstar⟩

theorem endsAlike_token {token : Token} {item : Item} (read : ofToken token = .ok item) :
    EndsAlike [.leaf token] [item] := by
  rcases token with ⟨offset, kind⟩
  have reads := tokenReads read
  dsimp only at reads
  cases reads with
  | star => exact ⟨fun _ => ⟨offset, List.suffix_refl _⟩, by simp⟩
  | _ => exact endsAlike_of_ne (by simp) (by simp)

theorem endsAlike_ofChoices (choices : List (List Item)) : EndsAlike front (ofChoices choices) := by
  unfold ofChoices
  split
  case h_1 items =>
      apply endsAlike_of_ne
      · simp [List.getLast?_cons]
      · simp [List.getLast?_cons]
  case h_2 => exact endsAlike_of_ne (by simp) (by simp)

theorem Reads.endsAlike (reads : Reads trees items) : EndsAlike trees items := by
  induction reads with
  | nil => exact endsAlike_of_ne (by simp) (by simp)
  | directories first second third later ih =>
      exact ih.append later [_, _, _] [Item.directories] (endsAlike_of_ne (by simp) (by simp))
  | anything first second => exact ⟨by simp, fun _ => ⟨first, second, List.suffix_refl _⟩⟩
  | token read _ later ih => exact ih.append later [_] [_] (endsAlike_token read)
  | @interval _ interval _ _ opening _ later ih =>
      exact ih.append later [_] [.numerals interval] (endsAlike_of_ne (by simp) (by simp))
  | choices opening _ _ _ later _ ih => exact ih.append later [_] _ (endsAlike_ofChoices _)

/-! ## A group among trees -/

theorem Reads.split_group {opening : Nat} {options : List (List Tree)} {after : List Tree}
    (reads : Reads (front ++ .group opening options :: after) items) :
    ∃ frontItems others, items = frontItems ++ others ∧ Reads front frontItems ∧
      Reads (.group opening options :: after) others := by
  generalize isTrees : front ++ .group opening options :: after = trees at reads
  induction reads generalizing front with
  | nil => simp at isTrees
  | directories first second third later ih =>
      rcases front with _ | ⟨_, _ | ⟨_, _ | ⟨_, front⟩⟩⟩
      case cons.cons.cons =>
        simp only [List.cons_append, List.cons.injEq] at isTrees
        rcases isTrees with ⟨rfl, rfl, rfl, isRest⟩
        rcases ih isRest with ⟨frontItems, others, rfl, readFront, readGroup⟩
        exact ⟨_, others, rfl, .directories first second third readFront, readGroup⟩
      all_goals simp at isTrees
  | anything first second => rcases front with _ | ⟨_, _ | ⟨_, _⟩⟩ <;> simp at isTrees
  | token read alone later ih =>
      cases front with
      | nil => simp at isTrees
      | cons tree front =>
          rcases List.cons.inj isTrees with ⟨rfl, isRest⟩
          rcases ih isRest with ⟨frontItems, others, rfl, readFront, readGroup⟩
          refine ⟨_, others, rfl, .token read (fun isStar next isNext => ?_) readFront, readGroup⟩
          apply alone isStar next
          rw [← isRest]
          rcases List.head?_eq_some_iff.mp isNext with ⟨others, rfl⟩
          rfl
  | interval innerOpening isInterval later ih =>
      cases front with
      | nil =>
          rcases List.cons.inj isTrees with ⟨same, rfl⟩
          rw [same]
          exact ⟨[], _, rfl, .nil, .interval innerOpening isInterval later⟩
      | cons tree front =>
          rcases List.cons.inj isTrees with ⟨rfl, isRest⟩
          rcases ih isRest with ⟨frontItems, others, rfl, readFront, readGroup⟩
          exact ⟨_, others, rfl, .interval innerOpening isInterval readFront, readGroup⟩
  | choices innerOpening noInterval lengths each later _ ih =>
      cases front with
      | nil =>
          rcases List.cons.inj isTrees with ⟨same, rfl⟩
          rw [same]
          exact ⟨[], _, rfl, .nil, .choices innerOpening noInterval lengths each later⟩
      | cons tree front =>
          rcases List.cons.inj isTrees with ⟨rfl, isRest⟩
          rcases ih isRest with ⟨frontItems, others, rfl, readFront, readGroup⟩
          refine ⟨_, others, ?_, .choices innerOpening noInterval lengths each readFront, readGroup⟩
          rw [List.append_assoc]

theorem denotedBy_cons_mono {item : Item} {others longer : List Item} {text : Text}
    (denotes : ∀ text, DenotedBy others text → DenotedBy longer text)
    (holds : DenotedBy (item :: others) text) : DenotedBy (item :: longer) text := by
  rw [denotedBy_cons] at holds ⊢
  rcases holds with ⟨first, later, rfl, holdsFirst, holdsLater⟩
  exact ⟨first, later, rfl, holdsFirst, denotes later holdsLater⟩

/-- A globstar becomes one in front of directories where a separator comes to stand behind it. -/
theorem Reads.concat_separator (reads : Reads trees items) (offset : Nat) :
    ∃ others, Reads (trees ++ [.leaf ⟨offset, .plain '/'⟩]) others ∧
      ∀ text, DenotedBy (items ++ [char '/']) text → DenotedBy others text := by
  induction reads with
  | nil => exact ⟨[char '/'], .token rfl (by simp) .nil, by simp⟩
  | directories first second third _ ih =>
      rcases ih with ⟨longer, readLonger, denotes⟩
      exact ⟨_, .directories first second third readLonger,
        fun _ holds => denotedBy_cons_mono denotes holds⟩
  | anything first second =>
      refine ⟨[.directories], .directories first second offset .nil, fun text holds => ?_⟩
      rcases denotedBy_append.mp holds with ⟨before, _, rfl, -, separator⟩
      simp only [denotedBy_singleton, Item.Denotes] at separator ⊢
      exact .inr ⟨before, by rw [separator]⟩
  | @token token item rest others read alone later ih =>
      rcases ih with ⟨longer, readLonger, denotes⟩
      refine ⟨_, .token read (fun isStar next isNext => ?_) readLonger,
        fun _ holds => denotedBy_cons_mono denotes holds⟩
      cases later with
      | nil =>
          obtain rfl := Option.some.inj isNext
          rintro ⟨place, same⟩
          cases same
      | _ => exact alone isStar next isNext
  | interval opening isInterval _ ih =>
      rcases ih with ⟨longer, readLonger, denotes⟩
      exact ⟨_, .interval opening isInterval readLonger,
        fun _ holds => denotedBy_cons_mono denotes holds⟩
  | choices opening noInterval lengths each _ _ ih =>
      rcases ih with ⟨longer, readLonger, denotes⟩
      refine ⟨_, .choices opening noInterval lengths each readLonger, fun text holds => ?_⟩
      rw [List.append_assoc, denotedBy_append] at holds
      rcases holds with ⟨first, later, rfl, holdsFirst, holdsLater⟩
      exact denotedBy_append.mpr ⟨first, later, rfl, holdsFirst, denotes later holdsLater⟩

end Apart

/-! ## An option in the place of its group -/

theorem Reads.not_endsInGlobstar {front after : List Tree} {items : List Item} {opening : Nat}
    {options : List (List Tree)} (reads : Reads (front ++ .group opening options :: after) items) :
    ¬EndsInGlobstar front := by
  rintro ⟨first, second, before, rfl⟩
  rw [List.append_assoc] at reads
  rcases reads.drop with ⟨others, stars⟩
  cases stars with
  | token _ alone _ => exact alone ⟨first, rfl⟩ _ rfl ⟨second, rfl⟩

section Expansion

variable {front option after : List Tree} {frontItems choice afterItems : List Item} {text : Text}

/-- An option in the place of its group, with the items that are read. No stars come to stand next
to each other there. -/
structure InPlace (front option after : List Tree)
    (frontItems choice afterItems : List Item) : Prop where
  readFront : Reads front frontItems
  readOption : Reads option choice
  readAfter : Reads after afterItems
  frontRead : ∀ tree ∈ front, Tree.IsRead false tree
  optionRead : ∀ tree ∈ option, Tree.IsRead true tree
  afterRead : ∀ tree ∈ after, Tree.IsRead false tree
  frontEnds : ¬EndsInGlobstar front
  frontApart : EndsInStar front → (Tree.textOf option ++ Tree.textOf after).head? ≠ some '*'
  optionApart : EndsInStar option → (Tree.textOf after).head? ≠ some '*'

/-- The text of an expansion denotes what the items denote, unless something follows a globstar at
the end of the option. -/
theorem InPlace.denotes_iff
    (inPlace : InPlace front option after frontItems choice afterItems)
    (optionEnds : EndsInGlobstar option → Tree.textOf after = []) :
    Source.Denotes (Tree.textOf front ++ (Tree.textOf option ++ Tree.textOf after)) text ↔
      DenotedBy (frontItems ++ (choice ++ afterItems)) text := by
  have frontFollowed : MayFollow (Tree.textOf option ++ Tree.textOf after) frontItems := by
    constructor
    · intro isLast
      exact inPlace.frontApart (inPlace.readFront.endsAlike.star isLast)
    · intro isLast
      exact absurd (inPlace.readFront.endsAlike.globstar isLast) inPlace.frontEnds
  have optionFollowed : MayFollow (Tree.textOf after) choice := by
    constructor
    · intro isLast
      exact inPlace.optionApart (inPlace.readOption.endsAlike.star isLast)
    · intro isLast
      exact optionEnds (inPlace.readOption.endsAlike.globstar isLast)
  rw [inPlace.readFront.denotes_append inPlace.frontRead frontFollowed, denotedBy_append]
  apply exists₂_congr
  intro before behind
  rw [inPlace.readOption.denotes_append inPlace.optionRead optionFollowed, denotedBy_append]
  simp only [Splits, inPlace.readAfter.denotes_iff inPlace.afterRead]

/-- A text that starts with a separator starts with a tree that is one. -/
theorem exists_of_separator {trees : List Tree} (starts : (Tree.textOf trees).head? = some '/') :
    ∃ offset later, trees = .leaf ⟨offset, .plain '/'⟩ :: later := by
  cases trees with
  | nil => simp at starts
  | cons tree rest =>
      cases tree with
      | leaf token =>
          rcases token with ⟨offset, kind⟩
          cases kind with
          | plain c =>
              simp [Tree.text, Token.text] at starts
              exact ⟨offset, rest, by rw [starts]⟩
          | escaped c => simp [Tree.text, Token.text] at starts
          | bracket body => simp [Tree.text, Token.text] at starts
          | strayEscape => simp [Tree.text, Token.text] at starts
      | group opening options => simp [Tree.text] at starts
      | unclosed opening => simp [Tree.text] at starts

/-- In an expansion that is read, a separator follows a globstar at the end of the option. -/
theorem InPlace.exists_separator
    (inPlace : InPlace front option after frontItems choice afterItems)
    {trees : List Tree} {items : List Item} (reads : Reads trees items)
    (areRead : ∀ tree ∈ trees, Tree.IsRead false tree)
    (same : Tree.textOf trees = Tree.textOf front ++ (Tree.textOf option ++ Tree.textOf after))
    (optionEnds : EndsInGlobstar option) (nonempty : Tree.textOf after ≠ []) :
    ∃ offset later, after = .leaf ⟨offset, .plain '/'⟩ :: later := by
  rcases optionEnds with ⟨first, second, before, rfl⟩
  have frontPieces : ∀ tree ∈ front ++ before, IsPiece tree.text := by
    have optionPieces := inPlace.readOption.isPiece inPlace.optionRead
    refine List.forall_mem_append.mpr ⟨inPlace.readFront.isPiece inPlace.frontRead, ?_⟩
    exact (List.forall_mem_append.mp optionPieces).1
  have split : Tree.textOf trees =
      Tree.textOf (front ++ before) ++ '*' :: '*' :: Tree.textOf after := by
    rw [same]
    simp [Tree.text, Token.text]
  rcases exists_reads_of_textOf reads (reads.isPiece areRead) frontPieces split with
    ⟨later, others, readLater, starts⟩
  rcases readLater.of_globstar starts with isEmpty | separated
  · exact absurd isEmpty nonempty
  · exact exists_of_separator separated

theorem not_endsIn_concat (trees : List Tree) (offset : Nat) :
    ¬EndsInStar (trees ++ [.leaf ⟨offset, .plain '/'⟩]) ∧
      ¬EndsInGlobstar (trees ++ [.leaf ⟨offset, .plain '/'⟩]) := by
  constructor
  · rintro ⟨place, before, same⟩
    have last := congrArg List.getLast? same
    simp at last
  · rintro ⟨first, second, before, same⟩
    have last := congrArg List.getLast? same
    simp at last

/-- What the items denote, an expansion that is read denotes as well: where its option ends with a
globstar and more follows, the directories of the expansion include those of the option. -/
theorem InPlace.denotes_of_denotedBy
    (inPlace : InPlace front option after frontItems choice afterItems)
    {trees : List Tree} {items : List Item} (reads : Reads trees items)
    (areRead : ∀ tree ∈ trees, Tree.IsRead false tree)
    (same : Tree.textOf trees = Tree.textOf front ++ (Tree.textOf option ++ Tree.textOf after))
    (denotes : DenotedBy (frontItems ++ (choice ++ afterItems)) text) :
    Source.Denotes (Tree.textOf trees) text := by
  by_cases optionEnds : EndsInGlobstar option → Tree.textOf after = []
  case pos =>
    rw [same]
    exact (inPlace.denotes_iff optionEnds).mpr denotes
  case neg =>
    rcases Classical.not_imp.mp optionEnds with ⟨endsInGlobstar, nonempty⟩
    rcases inPlace.exists_separator reads areRead same endsInGlobstar nonempty with
      ⟨offset, later, rfl⟩
    rcases inPlace.readOption.concat_separator offset with ⟨longer, readLonger, includes⟩
    rcases not_endsIn_concat option offset with ⟨noStar, noGlobstar⟩
    rcases List.forall_mem_cons.mp inPlace.afterRead with ⟨-, laterRead⟩
    have readAfter := inPlace.readAfter
    cases readAfter with
    | @token _ item _ others read _ readLater =>
        cases read
        have longerRead : ∀ tree ∈ option ++ [.leaf ⟨offset, .plain '/'⟩],
            Tree.IsRead true tree := by
          have separatorRead : Tree.IsRead true (.leaf ⟨offset, .plain '/'⟩) :=
            .leaf (show '/' ≠ '\\' by decide) (by simp) (by simp)
          exact List.forall_mem_append.mpr
            ⟨inPlace.optionRead, List.forall_mem_singleton.mpr separatorRead⟩
        have longerInPlace : InPlace front (option ++ [.leaf ⟨offset, .plain '/'⟩]) later
            frontItems longer others :=
          { readFront := inPlace.readFront
            readOption := readLonger
            readAfter := readLater
            frontRead := inPlace.frontRead
            optionRead := longerRead
            afterRead := laterRead
            frontEnds := inPlace.frontEnds
            frontApart := fun endsInStar => by simpa using inPlace.frontApart endsInStar
            optionApart := fun endsInStar => absurd endsInStar noStar }
        have isDenoted : DenotedBy (frontItems ++ (longer ++ others)) text := by
          rw [← List.singleton_append, ← List.append_assoc choice, denotedBy_append] at denotes
          rcases denotes with ⟨first, behind, rfl, holdsFirst, holdsBehind⟩
          rcases denotedBy_append.mp holdsBehind with ⟨middle, last, rfl, holdsMiddle, holdsLast⟩
          refine denotedBy_append.mpr ⟨first, _, rfl, holdsFirst, ?_⟩
          exact denotedBy_append.mpr ⟨middle, last, rfl, includes middle holdsMiddle, holdsLast⟩
        rw [same]
        simpa using (longerInPlace.denotes_iff fun ends => absurd ends noGlobstar).mpr isDenoted

end Expansion

/-- A group of options denotes what its options denote in its place. -/
theorem Reads.exists_choices {front after : List Tree} {items : List Item} {opening : Nat}
    {options : List (List Tree)} (reads : Reads (front ++ .group opening options :: after) items)
    (several : 2 ≤ options.length) :
    ∃ frontItems choices afterItems, Reads front frontItems ∧ Reads after afterItems ∧
      options.length = choices.length ∧ (∀ pair ∈ options.zip choices, Reads pair.1 pair.2) ∧
      ∀ text, DenotedBy items text ↔
        ∃ choice ∈ choices, DenotedBy (frontItems ++ (choice ++ afterItems)) text := by
  rcases reads.split_group with ⟨frontItems, others, rfl, readFront, readGroup⟩
  cases readGroup with
  | interval _ isInterval _ =>
      rcases isRange_of_intervalOf isInterval with ⟨content, rfl, -⟩
      simp at several
  | @choices _ choices _ afterItems _ _ lengths each readAfter =>
      refine ⟨frontItems, choices, afterItems, readFront, readAfter, lengths, each, fun text => ?_⟩
      have isChoice : ofChoices choices = [.choice choices] := by
        unfold ofChoices
        split
        case h_1 => simp [lengths] at several
        case h_2 => rfl
      rw [isChoice, denotedBy_append]
      simp only [denotedBy_append, denotedBy_singleton, Item.Denotes, denotedBySome_iff]
      constructor
      · intro splits
        rcases splits with
          ⟨before, _, rfl, holdsFront, middle, last, rfl, ⟨choice, member, chosen⟩, holdsAfter⟩
        exact ⟨choice, member, before, _, rfl, holdsFront, middle, last, rfl, chosen, holdsAfter⟩
      · intro splits
        rcases splits with
          ⟨choice, member, before, _, rfl, holdsFront, middle, last, rfl, chosen, holdsAfter⟩
        exact ⟨before, _, rfl, holdsFront, middle, last, rfl, ⟨choice, member, chosen⟩, holdsAfter⟩

end Item

/-! ## A brace among tokens -/

namespace Token

/-- Tokens in which every opening brace is closed. -/
inductive BracesClose : List Token → Prop where
  | nil : BracesClose []
  | token {token : Token} {tokens : List Token} (notOpening : token.kind ≠ .plain '{')
      (later : BracesClose tokens) : BracesClose (token :: tokens)
  | brace {opening closing : Token} {inner tokens : List Token} {options : List (List Token)}
      (isOpening : opening.kind = .plain '{') (isClosing : closing.kind = .plain '}')
      (cut : CutInto inner options) (later : BracesClose tokens) :
      BracesClose (opening :: inner ++ closing :: tokens)

theorem CutInto.bracesClose {tokens : List Token} {options : List (List Token)}
    (cut : CutInto tokens options) : BracesClose tokens := by
  induction cut with
  | nil => exact .nil
  | comma isComma _ ih => exact .token (by simp [isComma]) ih
  | leaf notOpening _ _ _ ih => exact .token notOpening ih
  | brace isOpening isClosing within _ _ ih => exact .brace isOpening isClosing within ih

theorem BracesClose.ofTokens_append {front : List Token} (close : BracesClose front)
    (tokens : List Token) :
    Tree.ofTokens (front ++ tokens) = Tree.ofTokens front ++ Tree.ofTokens tokens := by
  induction close with
  | nil => rfl
  | token notOpening _ ih =>
      rw [List.cons_append, Tree.ofTokens_leaf notOpening, Tree.ofTokens_leaf notOpening, ih]
      rfl
  | @brace opening closing inner rest options isOpening isClosing cut _ ih =>
      have whole := Tree.ofTokens_group isOpening isClosing cut (rest ++ tokens)
      rw [ih] at whole
      rw [Tree.ofTokens_group isOpening isClosing cut]
      simpa using whole

theorem CutInto.text_group {inner : List Token} {options : List (List Token)}
    (cut : CutInto inner options) (opening : Nat) :
    (Tree.group opening (options.map Tree.ofTokens)).text = '{' :: textOf inner ++ ['}'] := by
  simp [Tree.text, Tree.optionTexts_eq_map, Function.comp_def, Tree.joined_ofTokens cut]

theorem BracesClose.textOf_ofTokens {tokens : List Token} (close : BracesClose tokens) :
    Tree.textOf (Tree.ofTokens tokens) = textOf tokens := by
  induction close with
  | nil => rfl
  | token notOpening _ ih =>
      rw [Tree.ofTokens_leaf notOpening, Tree.textOf_cons, ih]
      rfl
  | brace isOpening isClosing cut _ ih =>
      rw [Tree.ofTokens_group isOpening isClosing cut, Tree.textOf_cons, cut.text_group, ih]
      simp [text, isOpening, isClosing]

theorem BracesClose.eq_of_ofTokens {tokens leaves : List Token} (close : BracesClose tokens)
    (same : leaves.map Tree.leaf = Tree.ofTokens tokens) : leaves = tokens := by
  induction close generalizing leaves with
  | nil => simpa using same
  | token notOpening _ ih =>
      rw [Tree.ofTokens_leaf notOpening] at same
      rcases List.map_eq_cons_iff.mp same with ⟨first, others, rfl, isFirst, later⟩
      rw [Tree.leaf.inj isFirst, ih later]
  | brace isOpening isClosing cut _ _ =>
      rw [Tree.ofTokens_group isOpening isClosing cut] at same
      rcases List.map_eq_cons_iff.mp same with ⟨first, others, -, isFirst, -⟩
      cases isFirst

/-- Leaves at the end of the trees are the last tokens. -/
theorem BracesClose.suffix_of_ofTokens {tokens leaves : List Token} (close : BracesClose tokens)
    (atEnd : leaves.map Tree.leaf <:+ Tree.ofTokens tokens) : leaves <:+ tokens := by
  induction close with
  | nil => simpa using atEnd
  | token notOpening later ih =>
      rw [Tree.ofTokens_leaf notOpening] at atEnd
      rcases List.suffix_cons_iff.mp atEnd with whole | atEnd
      · rw [← Tree.ofTokens_leaf notOpening] at whole
        rw [(BracesClose.token notOpening later).eq_of_ofTokens whole]
      · exact (ih atEnd).trans (List.suffix_cons ..)
  | @brace opening closing inner tokens options isOpening isClosing cut later ih =>
      rw [Tree.ofTokens_group isOpening isClosing cut] at atEnd
      rcases List.suffix_cons_iff.mp atEnd with whole | atEnd
      · rw [← Tree.ofTokens_group isOpening isClosing cut] at whole
        rw [(BracesClose.brace isOpening isClosing cut later).eq_of_ofTokens whole]
      · refine (ih atEnd).trans ⟨opening :: inner ++ [closing], by simp⟩

/-- Whether no star at the end of some tokens meets a star at the start of others. -/
def StarsApart (front back : List Token) : Prop :=
  ∀ last ∈ front.getLast?, last.kind = .plain '*' →
    ∀ next ∈ back.head?, next.kind ≠ .plain '*'

/-- Whether the last two tokens are stars. -/
def EndsInGlobstar (tokens : List Token) : Prop :=
  ∃ first second, [first, second] <:+ tokens ∧ first.kind = .plain '*' ∧ second.kind = .plain '*'

instance (front back : List Token) : Decidable (StarsApart front back) :=
  inferInstanceAs (Decidable (∀ last ∈ front.getLast?, last.kind = .plain '*' →
    ∀ next ∈ back.head?, next.kind ≠ .plain '*'))

theorem EndsInGlobstar.exists_last {tokens : List Token} (ends : EndsInGlobstar tokens) :
    ∃ last ∈ tokens.getLast?, last.kind = .plain '*' := by
  rcases ends with ⟨first, second, ⟨before, rfl⟩, -, isStar⟩
  exact ⟨second, by simp, isStar⟩

theorem BracesClose.getLast?_of_endsInStar {tokens : List Token} (close : BracesClose tokens)
    (endsInStar : Item.EndsInStar (Tree.ofTokens tokens)) :
    ∃ last ∈ tokens.getLast?, last.kind = .plain '*' := by
  rcases endsInStar with ⟨offset, atEnd⟩
  have last : [⟨offset, .plain '*'⟩] <:+ tokens := close.suffix_of_ofTokens atEnd
  rcases last with ⟨before, rfl⟩
  exact ⟨⟨offset, .plain '*'⟩, by simp, rfl⟩

theorem BracesClose.endsInGlobstar {tokens : List Token} (close : BracesClose tokens)
    (endsInGlobstar : Item.EndsInGlobstar (Tree.ofTokens tokens)) : EndsInGlobstar tokens := by
  rcases endsInGlobstar with ⟨first, second, atEnd⟩
  exact ⟨⟨first, .plain '*'⟩, ⟨second, .plain '*'⟩, close.suffix_of_ofTokens atEnd, rfl, rfl⟩

theorem text_ne_nil (token : Token) : token.text ≠ [] := by
  rcases token with ⟨offset, kind⟩
  cases kind <;> simp [text]

theorem head?_of_textOf {tokens : List Token} (starts : (textOf tokens).head? = some '*') :
    ∃ next ∈ tokens.head?, next.kind = .plain '*' := by
  cases tokens with
  | nil => simp at starts
  | cons token tokens =>
      rcases token with ⟨offset, kind⟩
      cases kind with
      | plain c =>
          obtain rfl : c = '*' := by simpa [text] using starts
          exact ⟨_, rfl, rfl⟩
      | escaped c => simp [text] at starts
      | bracket body => simp [text] at starts
      | strayEscape => simp [text] at starts

theorem StarsApart.head?_ne {front back : List Token} (apart : StarsApart front back)
    (close : BracesClose front) (endsInStar : Item.EndsInStar (Tree.ofTokens front)) :
    (textOf back).head? ≠ some '*' := by
  intro starts
  rcases close.getLast?_of_endsInStar endsInStar with ⟨last, isLast, lastStar⟩
  rcases head?_of_textOf starts with ⟨next, isNext, nextStar⟩
  exact apart last isLast lastStar next isNext nextStar

end Token

/-! ## Expansions of a pattern -/

namespace Pattern

open Token

/-- A brace with several options that is not inside of another brace. -/
structure TopBrace (source : Text) where
  before : List Token
  opening : Token
  inner : List Token
  closing : Token
  after : List Token
  /-- The tokens between the commas. -/
  options : List (List Token)
  tokens : Token.ofText 0 source = before ++ (opening :: inner ++ closing :: after)
  isTop : BracesClose before
  isOpening : opening.kind = .plain '{'
  isClosing : closing.kind = .plain '}'
  cut : CutInto inner options
  several : 2 ≤ options.length

namespace TopBrace

variable {source : Text} (brace : TopBrace source)

/-- The pattern with an option in the place of the brace. -/
def expansion (option : List Token) : Text :=
  textOf (brace.before ++ (option ++ brace.after))

/-- The separator at the start of an expansion, where the pattern starts with the brace. -/
def anchor (option : List Token) : Text :=
  if brace.before = [] ∧ (brace.expansion option).head? = some '/' then ['/'] else []

/-- Whether an expansion matches a text. A separator that the pattern does not start with has to
stand in the text, although it is dropped from the expansion. -/
def MatchedBy (option : List Token) (candidate : Text) : Prop :=
  ∃ other rest, compile (brace.expansion option) = .ok other ∧
    candidate = brace.anchor option ++ rest ∧ other.isMatch rest = true

theorem head?_expansion (nonempty : brace.before ≠ []) (option : List Token) :
    (brace.expansion option).head? = source.head? := by
  rcases List.exists_cons_of_ne_nil nonempty with ⟨first, front, isBefore⟩
  have starts : source.head? = first.text.head? := by
    have whole := congrArg textOf brace.tokens
    rw [textOf_ofText, isBefore, List.cons_append, textOf_cons] at whole
    rw [congrArg List.head? whole, List.head?_append_of_ne_nil _ first.text_ne_nil]
  rw [starts, expansion, isBefore, List.cons_append, textOf_cons,
    List.head?_append_of_ne_nil _ first.text_ne_nil]

/-- The tokens in front of the brace, without the separator that anchors the pattern. -/
theorem exists_front :
    ∃ front, tokensOf source =
        front ++ (brace.opening :: brace.inner ++ brace.closing :: brace.after) ∧
      BracesClose front ∧ (∀ back, StarsApart brace.before back → StarsApart front back) ∧
      ∀ option, textOf front ++ (textOf option ++ textOf brace.after) =
        brace.anchor option ++ withoutAnchor (brace.expansion option) := by
  have tokens := brace.tokens
  by_cases anchored : ∃ body, source = '/' :: body
  case pos =>
    rcases anchored with ⟨body, rfl⟩
    rw [ofText_cons_of_ordinary (by decide)] at tokens
    rcases List.cons_eq_append_iff.mp tokens with ⟨-, same⟩ | ⟨front, isBefore, isBody⟩
    · have isOpening := brace.isOpening
      rw [(List.cons.inj same).1] at isOpening
      cases isOpening
    · have isTop := brace.isTop
      rw [isBefore] at isTop
      refine ⟨front, isBody, ?_, fun back apart last isLast => ?_, fun option => ?_⟩
      · cases isTop with
        | token _ later => exact later
        | brace isOpening => cases isOpening
      · apply apart last
        simp [isBefore, List.getLast?_cons, Option.mem_def.mp isLast]
      · rw [anchor, if_neg (by simp [isBefore]), expansion, isBefore]
        simp [text, withoutAnchor]
  case neg =>
    have notAnchored (body : Text) : source ≠ '/' :: body := fun same => anchored ⟨body, same⟩
    refine ⟨brace.before, ?_, brace.isTop, fun _ apart => apart, fun option => ?_⟩
    · rw [tokensOf]
      · exact tokens
      · exact notAnchored
    · rw [← textOf_append, ← textOf_append]
      change brace.expansion option = _
      by_cases starts : (brace.expansion option).head? = some '/'
      case pos =>
        have isFirst : brace.before = [] := by
          by_contra nonempty
          rw [brace.head?_expansion nonempty] at starts
          rcases List.head?_eq_some_iff.mp starts with ⟨body, same⟩
          exact notAnchored body same
        rcases List.head?_eq_some_iff.mp starts with ⟨rest, same⟩
        rw [anchor, if_pos ⟨isFirst, starts⟩, same]
        rfl
      case neg =>
        rw [anchor, if_neg fun anchored => starts anchored.2, withoutAnchor]
        · rfl
        · intro body same
          exact starts (by rw [same, List.head?_cons])

theorem denotes_iff_exists_rest (option : List Token) (text candidate : Text) :
    Source.Denotes (brace.anchor option ++ text) candidate ↔
      ∃ rest, candidate = brace.anchor option ++ rest ∧ Source.Denotes text rest := by
  unfold anchor
  split
  case isTrue =>
    rw [List.singleton_append, denotes_plain (by decide)]
    constructor
    · intro splits
      rcases splits with ⟨_, rest, rfl, rfl, later⟩
      exact ⟨rest, rfl, later⟩
    · intro later
      rcases later with ⟨rest, rfl, later⟩
      exact ⟨['/'], rest, rfl, rfl, later⟩
  case isFalse => simp

section Options

variable {option : List Token} {other : Pattern}

theorem matchedBy_iff (compiled : compile (brace.expansion option) = .ok other)
    (candidate : Text) : brace.MatchedBy option candidate ↔
      Source.Denotes (brace.anchor option ++ withoutAnchor (brace.expansion option)) candidate := by
  have isMatch_iff (rest : Text) : other.isMatch rest = true ↔
      Source.Denotes (withoutAnchor (brace.expansion option)) rest := by
    rw [isMatch, Item.matchesAll_iff_denotedBy]
    exact denotedBy_itemsOf (itemsOf_of_compile compiled) rest
  rw [denotes_iff_exists_rest]
  constructor
  · intro isMatched
    rcases isMatched with ⟨again, rest, recompiled, rfl, isMatch⟩
    rw [compiled] at recompiled
    obtain rfl := Except.ok.inj recompiled
    exact ⟨rest, rfl, (isMatch_iff rest).mp isMatch⟩
  · intro denotes
    rcases denotes with ⟨rest, rfl, denotes⟩
    exact ⟨other, rest, compiled, rfl, (isMatch_iff rest).mpr denotes⟩

theorem exists_reads (compiled : compile (brace.expansion option) = .ok other) :
    ∃ trees items, Item.Reads trees items ∧ (∀ tree ∈ trees, Tree.IsRead false tree) ∧
      Tree.textOf trees = brace.anchor option ++ withoutAnchor (brace.expansion option) := by
  rcases reads_of_itemsOf (itemsOf_of_compile compiled) with ⟨reads, sameText, areRead⟩
  unfold anchor
  split
  case isTrue =>
    have separatorRead : Tree.IsRead false (.leaf ⟨0, .plain '/'⟩) :=
      .leaf (show '/' ≠ '\\' by decide) (by simp) (by simp)
    refine ⟨.leaf ⟨0, .plain '/'⟩ :: _, _, .token rfl ?_ reads,
      List.forall_mem_cons.mpr ⟨separatorRead, areRead⟩, ?_⟩
    · rintro ⟨offset, isStar⟩
      cases isStar
    · rw [Tree.textOf_cons, sameText]
      rfl
  case isFalse => exact ⟨_, _, reads, areRead, sameText⟩

end Options

section Front

variable {front : List Token}
  (tokens : tokensOf source =
    front ++ (brace.opening :: brace.inner ++ brace.closing :: brace.after))
  (close : BracesClose front)

include tokens close

theorem ofTokens_tokensOf : Tree.ofTokens (tokensOf source) = Tree.ofTokens front ++
    .group brace.opening.offset (brace.options.map Tree.ofTokens) ::
      Tree.ofTokens brace.after := by
  rw [tokens, close.ofTokens_append, Tree.ofTokens_group brace.isOpening brace.isClosing brace.cut]

theorem textOf_ofTokens_after
    (whole : Tree.textOf (Tree.ofTokens (tokensOf source)) = withoutAnchor source) :
    Tree.textOf (Tree.ofTokens brace.after) = textOf brace.after := by
  have sameWhole : Tree.textOf (Tree.ofTokens (tokensOf source)) = textOf (tokensOf source) := by
    rcases exists_tokensOf source with ⟨offset, same⟩
    rw [whole, same, textOf_ofText]
  rw [brace.ofTokens_tokensOf tokens close, tokens, Tree.textOf_append, Tree.textOf_cons,
    close.textOf_ofTokens, brace.cut.text_group, textOf_append] at sameWhole
  simpa [text, brace.isOpening, brace.isClosing] using sameWhole

end Front

/-- The items of the pattern and what they have to do with its expansions. -/
theorem exists_choices {pattern : Pattern} (compiled : compile source = .ok pattern)
    (apart : ∀ option ∈ brace.options,
      StarsApart brace.before (option ++ brace.after) ∧ StarsApart option brace.after) :
    ∃ front after frontItems choices afterItems,
      brace.options.length = choices.length ∧ Tree.textOf after = textOf brace.after ∧
      (∀ pair ∈ brace.options.zip choices,
        Item.InPlace front (Tree.ofTokens pair.1) after frontItems pair.2 afterItems ∧
          Tree.textOf front ++ (Tree.textOf (Tree.ofTokens pair.1) ++ Tree.textOf after) =
            brace.anchor pair.1 ++ withoutAnchor (brace.expansion pair.1)) ∧
      ∀ text, pattern.isMatch text = true ↔
        ∃ choice ∈ choices, Item.DenotedBy (frontItems ++ (choice ++ afterItems)) text := by
  rcases brace.exists_front with ⟨front, tokens, close, frontApart, sameText⟩
  rcases reads_of_itemsOf (itemsOf_of_compile compiled) with ⟨reads, whole, areRead⟩
  have sameAfter := brace.textOf_ofTokens_after tokens close whole
  rw [brace.ofTokens_tokensOf tokens close] at reads areRead
  rcases List.forall_mem_append.mp areRead with ⟨frontRead, areRead⟩
  rcases List.forall_mem_cons.mp areRead with ⟨groupRead, afterRead⟩
  rcases reads.exists_choices (by simpa using brace.several) with
    ⟨frontItems, choices, afterItems, readFront, readAfter, lengths, each, isDenoted⟩
  refine ⟨Tree.ofTokens front, Tree.ofTokens brace.after, frontItems, choices, afterItems,
    by simpa using lengths, sameAfter, fun pair inZip => ?_, fun text => ?_⟩
  · have isOption := (List.of_mem_zip inZip).1
    have optionClose := (brace.cut.of_mem pair.1 isOption).bracesClose
    rcases apart pair.1 isOption with ⟨beforeApart, afterApart⟩
    rw [optionClose.textOf_ofTokens, close.textOf_ofTokens, sameAfter]
    refine ⟨?_, sameText pair.1⟩
    exact
      { readFront := readFront
        readOption := by
          apply each (Tree.ofTokens pair.1, pair.2)
          rw [List.zip_map_left]
          exact List.mem_map_of_mem inZip
        readAfter := readAfter
        frontRead := frontRead
        optionRead := by
          cases groupRead with
          | group _ _ optionsRead => exact optionsRead _ (List.mem_map_of_mem isOption)
        afterRead := afterRead
        frontEnds := reads.not_endsInGlobstar
        frontApart := fun endsInStar => by
          rw [optionClose.textOf_ofTokens, sameAfter, ← textOf_append]
          exact (frontApart _ beforeApart).head?_ne close endsInStar
        optionApart := fun endsInStar => by
          rw [sameAfter]
          exact afterApart.head?_ne optionClose endsInStar }
  · rw [isMatch, Item.matchesAll_iff_denotedBy]
    exact isDenoted text

section Matching

variable {pattern : Pattern} {candidate : Text}

theorem exists_matchedBy (compiled : compile source = .ok pattern)
    (expansions : ∀ option ∈ brace.options,
      ∃ other, compile (brace.expansion option) = .ok other)
    (apart : ∀ option ∈ brace.options,
      StarsApart brace.before (option ++ brace.after) ∧ StarsApart option brace.after)
    (isMatch : pattern.isMatch candidate = true) :
    ∃ option ∈ brace.options, brace.MatchedBy option candidate := by
  rcases brace.exists_choices compiled apart with
    ⟨front, after, frontItems, choices, afterItems, lengths, -, each, isMatch_iff⟩
  rcases (isMatch_iff candidate).mp isMatch with ⟨choice, member, denotes⟩
  rcases Item.exists_pair_of_mem_right lengths member with ⟨⟨option, _⟩, inZip, rfl⟩
  have isOption := (List.of_mem_zip inZip).1
  rcases expansions option isOption with ⟨other, expanded⟩
  rcases brace.exists_reads expanded with ⟨trees, items, reads, areRead, sameTrees⟩
  rcases each _ inZip with ⟨inPlace, sameText⟩
  refine ⟨option, isOption, (brace.matchedBy_iff expanded candidate).mpr ?_⟩
  rw [← sameTrees]
  exact inPlace.denotes_of_denotedBy reads areRead (sameTrees.trans sameText.symm) denotes

theorem isMatch_of_matchedBy {option : List Token} (compiled : compile source = .ok pattern)
    (apart : ∀ option ∈ brace.options,
      StarsApart brace.before (option ++ brace.after) ∧ StarsApart option brace.after)
    (isOption : option ∈ brace.options) (atEnd : EndsInGlobstar option → brace.after = [])
    (isMatched : brace.MatchedBy option candidate) : pattern.isMatch candidate = true := by
  rcases brace.exists_choices compiled apart with
    ⟨front, after, frontItems, choices, afterItems, lengths, sameAfter, each, isMatch_iff⟩
  rcases Item.exists_pair_of_mem lengths isOption with ⟨⟨_, choice⟩, inZip, rfl⟩
  rcases each _ inZip with ⟨inPlace, sameText⟩
  have ⟨other, _, expanded, _⟩ := isMatched
  have denotes := (brace.matchedBy_iff expanded candidate).mp isMatched
  rw [← sameText] at denotes
  refine (isMatch_iff candidate).mpr ⟨choice, (List.of_mem_zip inZip).2, ?_⟩
  refine (inPlace.denotes_iff fun endsInGlobstar => ?_).mp denotes
  have close := (brace.cut.of_mem _ isOption).bracesClose
  rw [sameAfter, atEnd (close.endsInGlobstar endsInGlobstar)]
  rfl

/-- Where no separator is dropped, an expansion matches what its pattern matches. -/
theorem matchedBy_iff_isMatch {option : List Token}
    (noSeparator : brace.before = [] → (brace.expansion option).head? ≠ some '/') :
    brace.MatchedBy option candidate ↔
      ∃ other, compile (brace.expansion option) = .ok other ∧ other.isMatch candidate = true := by
  have noAnchor : brace.anchor option = [] := by
    apply if_neg
    rintro ⟨isFirst, starts⟩
    exact noSeparator isFirst starts
  rw [MatchedBy, noAnchor]
  constructor
  · intro isMatched
    rcases isMatched with ⟨other, rest, expanded, rfl, matched⟩
    exact ⟨other, expanded, matched⟩
  · intro isMatched
    rcases isMatched with ⟨other, expanded, matched⟩
    exact ⟨other, candidate, expanded, rfl, matched⟩

end Matching

end TopBrace

/-- What a pattern with a brace matches, an expansion matches, and the other way round if the option
does not end with a globstar in front of more. A separator that is dropped from the start of an
expansion alone has to be there in what is matched. -/
theorem isMatch_iff_expansions {source : Text} {pattern : Pattern} (brace : TopBrace source)
    (compiled : compile source = .ok pattern)
    (expansions : ∀ option ∈ brace.options,
      ∃ other, compile (brace.expansion option) = .ok other)
    (apart : ∀ option ∈ brace.options,
      StarsApart brace.before (option ++ brace.after) ∧ StarsApart option brace.after)
    (candidate : Text) :
    (pattern.isMatch candidate = true →
      ∃ option ∈ brace.options, brace.MatchedBy option candidate) ∧
    (∀ option ∈ brace.options, (EndsInGlobstar option → brace.after = []) →
      brace.MatchedBy option candidate → pattern.isMatch candidate = true) ∧
    ((∀ option ∈ brace.options, EndsInGlobstar option → brace.after = []) →
      (brace.before = [] → ∀ option ∈ brace.options,
        (brace.expansion option).head? ≠ some '/') →
      (pattern.isMatch candidate = true ↔ ∃ option ∈ brace.options, ∃ other,
        compile (brace.expansion option) = .ok other ∧ other.isMatch candidate = true)) := by
  refine ⟨brace.exists_matchedBy compiled expansions apart, ?_, ?_⟩
  · intro option isOption
    exact brace.isMatch_of_matchedBy compiled apart isOption
  · intro atEnd noSeparator
    constructor
    · intro isMatch
      rcases brace.exists_matchedBy compiled expansions apart isMatch with
        ⟨option, isOption, isMatched⟩
      refine ⟨option, isOption, (brace.matchedBy_iff_isMatch ?_).mp isMatched⟩
      exact fun isFirst => noSeparator isFirst option isOption
    · intro someOption
      rcases someOption with ⟨option, isOption, isMatched⟩
      apply brace.isMatch_of_matchedBy compiled apart isOption (atEnd option isOption)
      apply (brace.matchedBy_iff_isMatch fun isFirst => ?_).mpr isMatched
      exact noSeparator isFirst option isOption

/-- A pattern with a brace in an option of its brace. -/
def nestedChoice : Text := "/{a,b{c,d}}/**".toList

/-- The outer brace of the pattern. -/
def nestedBrace : TopBrace nestedChoice where
  before := [⟨0, .plain '/'⟩]
  opening := ⟨1, .plain '{'⟩
  inner := [⟨2, .plain 'a'⟩, ⟨3, .plain ','⟩, ⟨4, .plain 'b'⟩, ⟨5, .plain '{'⟩, ⟨6, .plain 'c'⟩,
    ⟨7, .plain ','⟩, ⟨8, .plain 'd'⟩, ⟨9, .plain '}'⟩]
  closing := ⟨10, .plain '}'⟩
  after := [⟨11, .plain '/'⟩, ⟨12, .plain '*'⟩, ⟨13, .plain '*'⟩]
  options := [[⟨2, .plain 'a'⟩], [⟨4, .plain 'b'⟩, ⟨5, .plain '{'⟩, ⟨6, .plain 'c'⟩,
    ⟨7, .plain ','⟩, ⟨8, .plain 'd'⟩, ⟨9, .plain '}'⟩]]
  tokens := by decide +kernel
  isTop := .token (by simp) .nil
  isOpening := rfl
  isClosing := rfl
  cut := by
    have within : CutInto ([⟨6, .plain 'c'⟩] ++ ⟨7, .plain ','⟩ :: [⟨8, .plain 'd'⟩]) [_, _] :=
      cutInto_pair rfl (by decide)
    have option : CutInto ([⟨4, .plain 'b'⟩] ++ (⟨5, .plain '{'⟩ :: _ ++ [⟨9, .plain '}'⟩])) [_] :=
      CutInto.append_leaves (.brace rfl rfl within .nil) (by decide)
    exact .leaf (by decide) (by decide) (by decide) (.comma rfl option)
  several := by decide

theorem exists_of_computed {source candidate : Text} {matched : Bool}
    (computed : (compile source).toOption.map (·.isMatch candidate) = some matched) :
    ∃ pattern, compile source = .ok pattern ∧ pattern.isMatch candidate = matched := by
  cases compiled : compile source with
  | ok pattern =>
      rw [compiled] at computed
      exact ⟨pattern, rfl, Option.some.inj computed⟩
  | error fault =>
      rw [compiled] at computed
      cases computed

theorem isMatch_iff_expansions_nestedChoice :
    ∃ pattern, compile nestedChoice = .ok pattern ∧ pattern.isMatch "bd/x".toList = true ∧
      (pattern.isMatch "bd/x".toList = true ↔
        ∃ option ∈ nestedBrace.options, ∃ other,
          compile (nestedBrace.expansion option) = .ok other ∧
            other.isMatch "bd/x".toList = true) := by
  have computed : (compile nestedChoice).toOption.map (·.isMatch "bd/x".toList) = some true := by
    decide +kernel
  have expansionsCompile : ∀ option ∈ nestedBrace.options,
      (compile (nestedBrace.expansion option)).toOption.isSome = true := by decide +kernel
  have apart : ∀ option ∈ nestedBrace.options,
      StarsApart nestedBrace.before (option ++ nestedBrace.after) ∧
        StarsApart option nestedBrace.after := by
    decide
  have noGlobstar : ∀ option ∈ nestedBrace.options, ¬∃ last ∈ option.getLast?,
      last.kind = .plain '*' := by
    decide
  have atEnd : ∀ option ∈ nestedBrace.options, EndsInGlobstar option → nestedBrace.after = [] :=
    fun option isOption ends => absurd ends.exists_last (noGlobstar option isOption)
  rcases exists_of_computed computed with ⟨pattern, compiled, isMatch⟩
  refine ⟨pattern, compiled, isMatch, ?_⟩
  apply (isMatch_iff_expansions nestedBrace compiled ?_ apart _).2.2 atEnd
  · intro isEmpty
    cases isEmpty
  · intro option isOption
    exact exists_of_compiles (expansionsCompile option isOption)

/-- A pattern with an option that starts with a separator. -/
def anchoredOption : Text := "{/a,b}".toList

def anchoredBrace : TopBrace anchoredOption where
  before := []
  opening := ⟨0, .plain '{'⟩
  inner := [⟨1, .plain '/'⟩, ⟨2, .plain 'a'⟩] ++ ⟨3, .plain ','⟩ :: [⟨4, .plain 'b'⟩]
  closing := ⟨5, .plain '}'⟩
  after := []
  options := [[⟨1, .plain '/'⟩, ⟨2, .plain 'a'⟩], [⟨4, .plain 'b'⟩]]
  tokens := by decide +kernel
  isTop := .nil
  isOpening := rfl
  isClosing := rfl
  cut := cutInto_pair rfl (by decide)
  several := by decide

/-- A pattern with an option that is a globstar, in front of a separator. -/
def globstarOption : Text := "{**,b}/c".toList

def globstarBrace : TopBrace globstarOption where
  before := []
  opening := ⟨0, .plain '{'⟩
  inner := [⟨1, .plain '*'⟩, ⟨2, .plain '*'⟩] ++ ⟨3, .plain ','⟩ :: [⟨4, .plain 'b'⟩]
  closing := ⟨5, .plain '}'⟩
  after := [⟨6, .plain '/'⟩, ⟨7, .plain 'c'⟩]
  options := [[⟨1, .plain '*'⟩, ⟨2, .plain '*'⟩], [⟨4, .plain 'b'⟩]]
  tokens := by decide +kernel
  isTop := .nil
  isOpening := rfl
  isClosing := rfl
  cut := cutInto_pair rfl (by decide)
  several := by decide

/-- Whether an expansion matches a text that the pattern does not match, although the pattern and
all of its expansions compile and no stars come to stand next to each other. -/
def MatchesMore {source : Text} (brace : TopBrace source) (option : List Token)
    (candidate : Text) : Prop :=
  (∃ pattern, compile source = .ok pattern ∧ pattern.isMatch candidate = false) ∧
    (∀ option ∈ brace.options, ∃ other, compile (brace.expansion option) = .ok other) ∧
    (∀ option ∈ brace.options,
      StarsApart brace.before (option ++ brace.after) ∧ StarsApart option brace.after) ∧
    option ∈ brace.options ∧
    ∃ other, compile (brace.expansion option) = .ok other ∧ other.isMatch candidate = true

theorem matchesMore_of_computed {source : Text} (brace : TopBrace source) {option : List Token}
    {candidate : Text}
    (computed : (compile source).toOption.map (·.isMatch candidate) = some false)
    (expansionsCompile : ∀ option ∈ brace.options,
      (compile (brace.expansion option)).toOption.isSome = true)
    (apart : ∀ option ∈ brace.options,
      StarsApart brace.before (option ++ brace.after) ∧ StarsApart option brace.after)
    (isOption : option ∈ brace.options)
    (matched : (compile (brace.expansion option)).toOption.map (·.isMatch candidate) =
      some true) : MatchesMore brace option candidate :=
  ⟨exists_of_computed computed,
    fun option isOption => exists_of_compiles (expansionsCompile option isOption), apart, isOption,
    exists_of_computed matched⟩

/-- The expansions drop a separator at their start, and their globstars stand for no directories as
well. -/
theorem matchesMore_anchored_and_globstar :
    MatchesMore anchoredBrace [⟨1, .plain '/'⟩, ⟨2, .plain 'a'⟩] "a".toList ∧
      MatchesMore globstarBrace [⟨1, .plain '*'⟩, ⟨2, .plain '*'⟩] "c".toList := by
  constructor
  · apply matchesMore_of_computed
    all_goals decide +kernel
  · apply matchesMore_of_computed
    all_goals decide +kernel

end Pattern

end Glob

end PropertyCascade
