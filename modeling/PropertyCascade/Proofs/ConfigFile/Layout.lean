import Mathlib.Data.List.Forall2
import PropertyCascade.OrderedMap.Lemmas
import PropertyCascade.Proofs.ConfigFile.Lines

/-!
# Layouts of config files

What a config file says can be written in many ways: with blanks around lines, keys and values, with
either kind of line end, with comments and other lines that say nothing, and with or without a byte
order mark. Whatever the layout, reading the text gives back what was written.

A layout puts the entries of an outline on lines of their own, in their order, and may put lines
that say nothing between them. Each line is read without regard to the others, so reading the lines
gives the statements of the entries, and these are gathered as the outline has them.
-/

namespace PropertyCascade

open Text

/-- What a config file is to say: the assignments before the first header, and each header with the
assignments under it. Values are not typed yet. -/
structure Outline where
  preamble : List (Text × Text)
  sections : List (Text × List (Text × Text))

namespace Outline

/-- What one line of a config file is to say. -/
inductive Entry where
  | assignment (key raw : Text)
  | header (pattern : Text)

/-- Assignments, one after the other. -/
def assignments (pairs : List (Text × Text)) : List Entry :=
  pairs.map fun (key, raw) => .assignment key raw

/-- The entries of sections in the order of the file. -/
def sectionEntries (sections : List (Text × List (Text × Text))) : List Entry :=
  sections.flatMap fun (pattern, pairs) => .header pattern :: assignments pairs

/-- The entries of a file in their order. -/
def entries (outline : Outline) : List Entry :=
  assignments outline.preamble ++ sectionEntries outline.sections

/-- The value that the last of several assignments to a key gives it. -/
def lastValue (key : Text) (pairs : List (Text × Text)) : Option Value :=
  (OrderedMap.lastUnder key pairs).map Value.ofText

namespace Entry

/-- Keys do not look like comments and have no `=`. An assignment does not look like a header. -/
def IsWritable : Entry → Prop
  | assignment key raw =>
      key ≠ [] ∧ IsTrimmed key ∧ '=' ∉ key ∧ Statement.isComment key = false ∧ IsTrimmed raw ∧
        ¬(key.head? = some '[' ∧ raw.getLast? = some ']')
  | header _ => True

instance (entry : Entry) : Decidable entry.IsWritable :=
  match entry with
  | assignment _ _ => inferInstanceAs (Decidable (_ ∧ _))
  | header _ => .isTrue trivial

/-- The lines on which an entry can be written. -/
inductive IsLine : Entry → Text → Prop where
  | assignment {key raw before afterKey beforeValue after : Text} (beforeBlank : IsBlank before)
      (afterKeyBlank : IsBlank afterKey) (beforeValueBlank : IsBlank beforeValue)
      (afterBlank : IsBlank after) :
      IsLine (.assignment key raw)
        (before ++ key ++ afterKey ++ '=' :: beforeValue ++ raw ++ after)
  | header {pattern line : Text} (isHeader : Statement.IsHeaderLine pattern line) :
      IsLine (.header pattern) line

/-- What an entry says. -/
def statement : Entry → Statement
  | assignment key raw => .assignment key (Value.ofText raw)
  | header pattern => .header pattern

end Entry

/-- Lines that say nothing: blank lines, comments, and lines that are no headers and have no `=` or
no key before it. -/
inductive IsIgnored : Text → Prop where
  | blank {line : Text} (blank : IsBlank line) : IsIgnored line
  | comment {before rest : Text} {mark : Char} (beforeBlank : IsBlank before)
      (isMark : mark = '#' ∨ mark = ';') : IsIgnored (before ++ mark :: rest)
  | noSign {line : Text} (noSign : '=' ∉ line)
      (notHeader : ∀ pattern, ¬Statement.IsHeaderLine pattern line) : IsIgnored line
  | noKey {before rest : Text} (beforeBlank : IsBlank before) : IsIgnored (before ++ '=' :: rest)

/-- Lines that have entries in their order, and between them lines that say nothing. -/
inductive LiesOn : List Entry → List Text → Prop where
  | nil : LiesOn [] []
  | entry {entry : Entry} {entries : List Entry} {line : Text} {lines : List Text}
      (isLine : entry.IsLine line) (oneLine : '\n' ∉ line) (rest : LiesOn entries lines) :
      LiesOn (entry :: entries) (line :: lines)
  | ignored {entries : List Entry} {line : Text} {lines : List Text} (isIgnored : IsIgnored line)
      (oneLine : '\n' ∉ line) (rest : LiesOn entries lines) : LiesOn entries (line :: lines)

/-- Lines put together, each with a line end, which the last one need not have. -/
inductive IsJoined : List Text → Text → Prop where
  | nil : IsJoined [] []
  | unended (line : Text) : IsJoined [line] line
  | ended {lines : List Text} {text lineEnd : Text} (line : Text)
      (isLineEnd : lineEnd = ['\n'] ∨ lineEnd = ['\r', '\n']) (rest : IsJoined lines text) :
      IsJoined (line :: lines) (line ++ lineEnd ++ text)

/-- A text with a byte order mark or without. It must have one if it would otherwise seem to have
one. -/
def IsMarked (content text : Text) : Prop :=
  text = '\uFEFF' :: content ∨ text = content ∧ content.head? ≠ some '\uFEFF'

/-- The texts by which an outline can be written. -/
def IsLayout (outline : Outline) (text : Text) : Prop :=
  ∃ lines content, LiesOn outline.entries lines ∧ IsJoined lines content ∧ IsMarked content text

/-! ## Reading a line -/

section Assignment

variable {key raw before afterKey beforeValue after : Text}

theorem trim_assignment (keyNonempty : key ≠ []) (keyTrimmed : IsTrimmed key)
    (beforeBlank : IsBlank before) (afterBlank : IsBlank after) :
    trim (before ++ key ++ afterKey ++ '=' :: beforeValue ++ raw ++ after) =
      key ++ afterKey ++ '=' :: trimEnd (beforeValue ++ raw) := by
  rcases List.exists_cons_of_ne_nil keyNonempty with ⟨first, rest, rfl⟩
  have firstLoud : isBlank first = false := keyTrimmed.head rfl
  have regroup : before ++ first :: rest ++ afterKey ++ '=' :: beforeValue ++ raw ++ after =
      before ++ (first :: (rest ++ afterKey ++ '=' :: (beforeValue ++ raw ++ after))) := by
    simp
  rw [regroup, trim_append_left beforeBlank, trim, trimStart_cons firstLoud, ← List.cons_append,
    ← List.cons_append, trimEnd_append_cons (by decide), trimEnd_append afterBlank]

/-- The last character of an assignment is its `=` or the last one of its value. -/
theorem getLast?_sign_trimEnd (rawTrimmed : IsTrimmed raw)
    (beforeValueBlank : IsBlank beforeValue) :
    ('=' :: trimEnd (beforeValue ++ raw)).getLast? = raw.getLast?.or (some '=') := by
  rcases List.eq_nil_or_concat raw with rfl | ⟨front, last, rfl⟩
  · rw [List.append_nil, trimEnd_of_isBlank beforeValueBlank]
    rfl
  · have lastLoud : isBlank last = false := rawTrimmed.last (by simp)
    rw [List.concat_eq_append, ← List.append_assoc, trimEnd_append_cons lastLoud,
      trimEnd_of_isBlank (by simp [IsBlank]), ← List.cons_append, List.getLast?_concat,
      List.getLast?_concat, Option.some_or]

theorem pattern?_assignment (rawTrimmed : IsTrimmed raw) (beforeValueBlank : IsBlank beforeValue)
    (keyNonempty : key ≠ []) (notHeader : ¬(key.head? = some '[' ∧ raw.getLast? = some ']')) :
    Statement.pattern? (key ++ afterKey ++ '=' :: trimEnd (beforeValue ++ raw)) = none := by
  rcases List.exists_cons_of_ne_nil keyNonempty with ⟨first, rest, rfl⟩
  by_contra isHeader
  rcases Option.ne_none_iff_exists'.mp isHeader with ⟨pattern, found⟩
  have whole := Statement.pattern?_eq_some_iff.mp found
  apply notHeader
  constructor
  · have heads := congrArg List.head? whole
    simpa using heads
  · have lasts := congrArg List.getLast? whole
    rw [List.getLast?_append, getLast?_sign_trimEnd rawTrimmed beforeValueBlank,
      List.getLast?_concat] at lasts
    cases last : raw.getLast? with
    | none => simp [last] at lasts
    | some c => simpa [last] using lasts

theorem ofLine?_assignment (writable : (Entry.assignment key raw).IsWritable)
    (beforeBlank : IsBlank before) (afterKeyBlank : IsBlank afterKey)
    (beforeValueBlank : IsBlank beforeValue) (afterBlank : IsBlank after) :
    Statement.ofLine? (before ++ key ++ afterKey ++ '=' :: beforeValue ++ raw ++ after) =
      some (.assignment key (Value.ofText raw)) := by
  rcases writable with ⟨nonempty, trimmed, noSign, notComment, rawTrimmed, notHeader⟩
  have signNotBefore : '=' ∉ key ++ afterKey := by
    intro member
    rcases List.mem_append.mp member with inKey | inBlanks
    · exact noSign inKey
    · exact absurd (afterKeyBlank _ inBlanks) (by decide)
  have stays : Statement.isComment (key ++ afterKey ++ '=' :: trimEnd (beforeValue ++ raw)) =
      false := by
    rcases List.exists_cons_of_ne_nil nonempty with ⟨first, rest, rfl⟩
    unfold Statement.isComment at notComment ⊢
    split at notComment <;> simp_all
  rw [Statement.ofLine?, trim_assignment nonempty trimmed beforeBlank afterBlank,
    Statement.ofTrimmed?, if_neg (by rw [stays]; simp),
    pattern?_assignment rawTrimmed beforeValueBlank nonempty notHeader]
  simp only [Statement.assignment?, cutFirst_append signNotBefore, trim_append_right afterKeyBlank,
    trimmed.trim_eq, nonempty, if_false, trim_trimEnd, trim_append_left beforeValueBlank,
    rawTrimmed.trim_eq]

end Assignment

theorem Entry.IsLine.ofLine? {entry : Entry} {line : Text} (isLine : entry.IsLine line)
    (writable : entry.IsWritable) : Statement.ofLine? line = some entry.statement := by
  cases isLine with
  | assignment beforeBlank afterKeyBlank beforeValueBlank afterBlank =>
      exact ofLine?_assignment writable beforeBlank afterKeyBlank beforeValueBlank afterBlank
  | header isHeader => exact Statement.ofLine?_eq_header_iff.mpr isHeader

theorem IsIgnored.ofLine? {line : Text} (isIgnored : IsIgnored line) :
    Statement.ofLine? line = none := by
  cases isIgnored with
  | blank blank => simp [Statement.ofLine?, Statement.ofTrimmed?, trim_of_isBlank blank]
  | @comment before rest mark beforeBlank isMark =>
      have loud : isBlank mark = false := by rcases isMark with rfl | rfl <;> decide
      have comment : Statement.isComment (trimEnd (mark :: rest)) = true := by
        rw [← List.nil_append (mark :: rest), trimEnd_append_cons loud]
        rcases isMark with rfl | rfl <;> rfl
      rw [Statement.ofLine?, trim_append_left beforeBlank, trim, trimStart_cons loud,
        Statement.ofTrimmed?, if_pos (Or.inr comment)]
  | noSign noSign notHeader =>
      have noSignLeft : '=' ∉ trim line := by
        intro member
        rcases exists_blanks_around line with ⟨before, after, -, -, whole⟩
        apply noSign
        rw [whole]
        simp [member]
      have notPattern : Statement.pattern? (trim line) = none := by
        by_contra isHeader
        rcases Option.ne_none_iff_exists'.mp isHeader with ⟨pattern, found⟩
        apply notHeader pattern
        rw [← Statement.ofLine?_eq_header_iff, Statement.ofLine?,
          Statement.ofTrimmed?_eq_header_iff]
        exact Statement.pattern?_eq_some_iff.mp found
      simp [Statement.ofLine?, Statement.ofTrimmed?, notPattern, Statement.assignment?,
        cutFirst_eq_none noSignLeft]
  | @noKey before rest beforeBlank =>
      have left : trim (before ++ '=' :: rest) = '=' :: trimEnd rest := by
        rw [trim_append_left beforeBlank, trim, trimStart_cons (by decide),
          ← List.nil_append ('=' :: rest), trimEnd_append_cons (by decide), List.nil_append]
      rw [Statement.ofLine?, left]
      rfl

/-! ## Reading a text -/

theorem LiesOn.statements {entries : List Entry} {lines : List Text} (liesOn : LiesOn entries lines)
    (writable : ∀ entry ∈ entries, entry.IsWritable) :
    lines.filterMap Statement.ofLine? = entries.map Entry.statement := by
  induction liesOn with
  | nil => rfl
  | entry isLine oneLine rest ih =>
      rcases List.forall_mem_cons.mp writable with ⟨entryWritable, restWritable⟩
      rw [List.filterMap_cons, isLine.ofLine? entryWritable, ih restWritable, List.map_cons]
  | ignored isIgnored oneLine rest ih =>
      rw [List.filterMap_cons, isIgnored.ofLine?, ih writable]

theorem LiesOn.oneLine {entries : List Entry} {lines : List Text} (liesOn : LiesOn entries lines) :
    ∀ line ∈ lines, '\n' ∉ line := by
  induction liesOn with
  | nil => simp
  | entry isLine oneLine rest ih => exact List.forall_mem_cons.mpr ⟨oneLine, ih⟩
  | ignored isIgnored oneLine rest ih => exact List.forall_mem_cons.mpr ⟨oneLine, ih⟩

/-- The carriage return of a line end is a blank at the end of the line. -/
theorem IsJoined.ofUnmarked {lines : List Text} {text : Text} (joined : IsJoined lines text)
    (oneLine : ∀ line ∈ lines, '\n' ∉ line) :
    Statement.ofUnmarked text = lines.filterMap Statement.ofLine? := by
  induction joined with
  | nil => rfl
  | unended line =>
      rw [Statement.ofUnmarked_line (oneLine line List.mem_cons_self)]
      cases said : Statement.ofLine? line <;> simp [said]
  | @ended lines text lineEnd line isLineEnd rest ih =>
      rcases List.forall_mem_cons.mp oneLine with ⟨lineIsOne, restAreOne⟩
      have ended : ∃ blanks, IsBlank blanks ∧ '\n' ∉ line ++ blanks ∧
          line ++ lineEnd ++ text = line ++ blanks ++ '\n' :: text := by
        rcases isLineEnd with rfl | rfl
        · exact ⟨[], by simp [IsBlank], by simpa using lineIsOne, by simp⟩
        · refine ⟨['\r'], ?_, by simpa using lineIsOne, by simp⟩
          intro c member
          rw [List.mem_singleton.mp member]
          decide
      rcases ended with ⟨blanks, blank, withBlanks, regroup⟩
      rw [regroup, Statement.ofUnmarked_append, Statement.ofUnmarked_line withBlanks,
        Statement.ofLine?_append blank, ih restAreOne]
      cases said : Statement.ofLine? line <;> simp [said]

theorem IsMarked.withoutMark {content text : Text} (marked : IsMarked content text) :
    withoutMark text = content := by
  rcases marked with rfl | ⟨rfl, noMark⟩
  · rfl
  · exact withoutMark_eq_self noMark

/-! ## Gathering the statements -/

/-- Assignments with typed values. -/
def typed (pairs : List (Text × Text)) : List (Text × Value) :=
  pairs.map fun (key, raw) => (key, Value.ofText raw)

theorem get?_ofList_typed (pairs : List (Text × Text)) (key : Text) :
    (OrderedMap.ofList (typed pairs)).get? key = lastValue key pairs := by
  rw [OrderedMap.get?_ofList, lastValue, OrderedMap.lastUnder, OrderedMap.lastUnder, typed,
    List.filter_map, List.getLast?_map, Option.map_map, Option.map_map]
  rfl

theorem leading_assignments (pairs : List (Text × Text)) :
    Statement.leading ((assignments pairs).map Entry.statement) = typed pairs := by
  induction pairs with
  | nil => rfl
  | cons pair rest ih => exact congrArg _ ih

theorem sections_assignments (pairs : List (Text × Text)) :
    Section.ofStatements ((assignments pairs).map Entry.statement) = [] := by
  induction pairs with
  | nil => rfl
  | cons pair rest ih => exact ih

theorem leading_sectionEntries (sections : List (Text × List (Text × Text))) :
    Statement.leading ((sectionEntries sections).map Entry.statement) = [] := by
  cases sections <;> rfl

theorem sections_sectionEntries (sections : List (Text × List (Text × Text))) :
    Section.ofStatements ((sectionEntries sections).map Entry.statement) =
      sections.map fun (pattern, pairs) => ⟨pattern, OrderedMap.ofList (typed pairs)⟩ := by
  induction sections with
  | nil => rfl
  | cons first rest ih =>
      rcases first with ⟨pattern, pairs⟩
      have separate := leading_sectionEntries rest
      have entries : (sectionEntries ((pattern, pairs) :: rest)).map Entry.statement =
          .header pattern :: ((assignments pairs).map Entry.statement ++
            (sectionEntries rest).map Entry.statement) := by
        simp [sectionEntries, Entry.statement]
      rw [entries, Section.ofStatements, Statement.leading_append separate, leading_assignments,
        Statement.sections_append separate, sections_assignments, List.nil_append, ih,
        List.map_cons]

theorem read_eq {outline : Outline} {text : Text}
    (writable : ∀ entry ∈ outline.entries, entry.IsWritable) (layout : outline.IsLayout text) :
    ConfigFile.read text = ⟨OrderedMap.ofList (typed outline.preamble),
      outline.sections.map fun (pattern, pairs) =>
        ⟨pattern, OrderedMap.ofList (typed pairs)⟩⟩ := by
  rcases layout with ⟨lines, content, liesOn, joined, marked⟩
  have statements : Statement.ofText text = outline.entries.map Entry.statement := by
    rw [Statement.ofText, marked.withoutMark, ← Statement.ofUnmarked,
      joined.ofUnmarked liesOn.oneLine, liesOn.statements writable]
  have separate := leading_sectionEntries outline.sections
  rw [ConfigFile.read, statements, entries, List.map_append, ConfigFile.ofStatements,
    Statement.leading_append separate, leading_assignments, Statement.sections_append separate,
    sections_assignments, List.nil_append, sections_sectionEntries]

/-- Whatever the layout, a text is read as what the outline says: the preamble gives every key the
value of its last assignment there, and the sections are those of the outline in their order, each
of which gives every key the value of its last assignment under the header. -/
theorem read_of_isLayout {outline : Outline} {text : Text}
    (writable : ∀ entry ∈ outline.entries, entry.IsWritable) (layout : outline.IsLayout text) :
    (∀ key, (ConfigFile.read text).preamble.get? key = lastValue key outline.preamble) ∧
      List.Forall₂ (fun (fileSection : Section) (pattern, pairs) =>
          fileSection.pattern = pattern ∧
            ∀ key, fileSection.properties.get? key = lastValue key pairs)
        (ConfigFile.read text).sections outline.sections := by
  rw [read_eq writable layout]
  refine ⟨get?_ofList_typed outline.preamble, ?_⟩
  rw [List.forall₂_map_left_iff, List.forall₂_same]
  intro pair _
  exact ⟨rfl, get?_ofList_typed pair.2⟩

/-- A key with a bracket, a value with an `=` and a bracket, a pattern with blanks, both kinds of
line end and lines that say nothing, after a byte order mark. -/
theorem read_of_isLayout_mixedLines :
    let outline : Outline :=
      ⟨[(['k'], ['0']), (['['], []), (['k'], ['1'])], [([' ', '*'], [(['k'], ['=', ']'])])]⟩
    let text := "\uFEFF;x=1\r\nk=0\n [ =\t\r\n\n=2\nk = 1\n[ *]\r\nw\nk==]".toList
    (∀ entry ∈ outline.entries, entry.IsWritable) ∧ outline.IsLayout text ∧
      (ConfigFile.read text).preamble.get? ['k'] = some (.integer 1) ∧
      (ConfigFile.read text).sections.length = 1 := by
  intro outline text
  have writable : ∀ entry ∈ outline.entries, entry.IsWritable := by decide
  have none : IsBlank [] := by decide
  have space : IsBlank [' '] := by decide
  have notHeader (pattern : Text) : ¬Statement.IsHeaderLine pattern ['w'] := by
    intro isHeader
    have said : Statement.ofLine? ['w'] = Option.none := by decide
    rw [Statement.ofLine?_eq_header_iff.mpr isHeader] at said
    cases said
  let lines : List Text :=
    [";x=1", "k=0", " [ =\t", "", "=2", "k = 1", "[ *]", "w", "k==]"].map String.toList
  have liesOn : LiesOn outline.entries lines :=
    .ignored (@IsIgnored.comment [] _ _ none (Or.inr rfl)) (by decide) <|
    .entry (@Entry.IsLine.assignment ['k'] ['0'] [] [] [] [] none none none none) (by decide) <|
    .entry (@Entry.IsLine.assignment ['['] [] [' '] [' '] ['\t'] [] space space (by decide) none)
      (by decide) <|
    .ignored (.blank none) (by decide) <|
    .ignored (@IsIgnored.noKey [] _ none) (by decide) <|
    .entry (@Entry.IsLine.assignment ['k'] ['1'] [] [' '] [' '] [] none space space none)
      (by decide) <|
    .entry (.header ⟨[], [], none, none, rfl⟩) (by decide) <|
    .ignored (.noSign (by decide) notHeader) (by decide) <|
    .entry (@Entry.IsLine.assignment ['k'] ['=', ']'] [] [] [] [] none none none none) (by decide)
      .nil
  have joined : IsJoined lines (text.drop 1) :=
    .ended _ (Or.inr rfl) <| .ended _ (Or.inl rfl) <| .ended _ (Or.inr rfl) <|
    .ended _ (Or.inl rfl) <| .ended _ (Or.inl rfl) <| .ended _ (Or.inl rfl) <|
    .ended _ (Or.inr rfl) <| .ended _ (Or.inl rfl) <| .unended _
  have layout : outline.IsLayout text := ⟨_, _, liesOn, joined, Or.inl rfl⟩
  rcases read_of_isLayout writable layout with ⟨preamble, sections⟩
  refine ⟨writable, layout, ?_, sections.length_eq⟩
  rw [preamble]
  decide +kernel

end Outline

end PropertyCascade
