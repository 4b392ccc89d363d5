import PropertyCascade.Level
import PropertyCascade.OrderedMap.Lemmas

/-!
# What a level says about a key

A config file is a sequence of assignments, each of which belongs to the last header before it or,
before the first header, to the preamble. This file reads a level off that sequence alone: its
preamble gives a key the value of the last assignment in the preamble, its sections give a key the
value of the last assignment under a header that covers the file, and it is a root if the last
assignment in the preamble to some spelling of the root directive says so. The maps that are built
for the sections and overlaid in the order of the file do not occur in these statements.
-/

namespace PropertyCascade

/-- An assignment and the header that it stands under, if it is not in the preamble. -/
structure Assignment where
  header? : Option Text
  entry : Text × Value

namespace Assignment

/-- The assignments in a list of statements that stands under a header. -/
def ofStatements (header? : Option Text) : List Statement → List Assignment
  | [] => []
  | .header pattern :: rest => ofStatements (some pattern) rest
  | .assignment key value :: rest => ⟨header?, (key, value)⟩ :: ofStatements header? rest

/-- The assignments in a config file. -/
def ofText (text : Text) : List Assignment :=
  ofStatements none (Statement.ofText text)

/-- Whether an assignment stands in the preamble. -/
def inPreamble (assignment : Assignment) : Bool :=
  assignment.header?.isNone

/-- Whether an assignment stands under a header that is a pattern and covers a file. -/
def covers (basename relativePath : Text) (assignment : Assignment) : Bool :=
  match assignment.header?.map Glob.Pattern.compile with
  | some (.ok pattern) => pattern.covers basename relativePath
  | _ => false

/-- The value that the last assignment to a key gives it, among those that satisfy a condition. -/
def last (applies : Assignment → Bool) (key : Text) (assignments : List Assignment) :
    Option Value :=
  OrderedMap.lastUnder key ((assignments.filter applies).map entry)

theorem last_append (applies : Assignment → Bool) (key : Text) (left right : List Assignment) :
    last applies key (left ++ right) =
      (last applies key right).or (last applies key left) := by
  rw [last, List.filter_append, List.map_append, OrderedMap.lastUnder_append, last, last]

theorem exists_mem_of_last {applies : Assignment → Bool} {key : Text}
    {assignments : List Assignment} {value : Value}
    (found : last applies key assignments = some value) :
    ∃ assignment ∈ assignments, assignment.entry = (key, value) := by
  rcases Option.map_eq_some_iff.mp found with ⟨entry, isLast, sameValue⟩
  rcases List.mem_filter.mp (List.mem_of_getLast? isLast) with ⟨member, sameKey⟩
  rcases List.mem_map.mp member with ⟨assignment, applied, rfl⟩
  refine ⟨assignment, (List.mem_filter.mp applied).1, ?_⟩
  exact Prod.ext (by simpa using sameKey) sameValue

/-- Assignments that stand under one header. -/
def allUnder (header? : Option Text) (entries : List (Text × Value)) : List Assignment :=
  entries.map fun entry => ⟨header?, entry⟩

theorem last_allUnder (applies : Assignment → Bool) (key : Text) (header? : Option Text)
    (entries : List (Text × Value)) (condition : Bool)
    (uniform : ∀ entry, applies ⟨header?, entry⟩ = condition) :
    last applies key (allUnder header? entries) =
      if condition then OrderedMap.lastUnder key entries else none := by
  have filtered : (allUnder header? entries).filter applies =
      if condition then allUnder header? entries else [] := by
    cases condition
    · apply List.filter_eq_nil_iff.mpr
      intro assignment member
      rcases List.mem_map.mp member with ⟨entry, -, rfl⟩
      simp [uniform]
    · apply List.filter_eq_self.mpr
      intro assignment member
      rcases List.mem_map.mp member with ⟨entry, -, rfl⟩
      exact uniform entry
  rw [last, filtered]
  cases condition
  · rfl
  · simp [allUnder, Function.comp_def]

/-- The assignments after the next header. -/
def afterHeader : List Statement → List Assignment
  | [] => []
  | .header pattern :: rest => ofStatements (some pattern) rest
  | .assignment _ _ :: rest => afterHeader rest

theorem ofStatements_eq (header? : Option Text) (statements : List Statement) :
    ofStatements header? statements =
      allUnder header? (Statement.leading statements) ++ afterHeader statements := by
  induction statements with
  | nil => rfl
  | cons statement rest ih =>
      cases statement with
      | header pattern => rfl
      | assignment key value =>
          rw [ofStatements, ih]
          rfl

theorem header?_ne_none_of_mem_afterHeader {statements : List Statement} {assignment : Assignment}
    (member : assignment ∈ afterHeader statements) : assignment.header?.isSome = true := by
  have under (header? : Option Text) (given : header?.isSome = true) (rest : List Statement) :
      ∀ assignment ∈ ofStatements header? rest, assignment.header?.isSome = true := by
    induction rest generalizing header? with
    | nil => simp [ofStatements]
    | cons statement rest ih =>
        cases statement with
        | header pattern => exact ih (some pattern) rfl
        | assignment key value => simpa [ofStatements, given] using ih header? given
  induction statements with
  | nil => simp [afterHeader] at member
  | cons statement rest ih =>
      cases statement with
      | header pattern => exact under (some pattern) rfl rest assignment member
      | assignment key value => exact ih member

theorem last_inPreamble_ofStatements (key : Text) (statements : List Statement) :
    last inPreamble key (ofStatements none statements) =
      OrderedMap.lastUnder key (Statement.leading statements) := by
  have later : last inPreamble key (afterHeader statements) = none := by
    have noPreamble : (afterHeader statements).filter inPreamble = [] := by
      apply List.filter_eq_nil_iff.mpr
      intro assignment member
      have given := header?_ne_none_of_mem_afterHeader member
      simp [inPreamble, ← Option.not_isSome, given]
    rw [last, noPreamble]
    rfl
  rw [ofStatements_eq, last_append, later, Option.none_or,
    last_allUnder inPreamble key none _ true fun _ => rfl, if_pos rfl]

end Assignment

namespace ConfigText

/-- The value that the preamble of a config file gives a key. The root directive is no property. -/
def preambleValue (text key : Text) : Option Value :=
  if isRootKey key then none
  else Assignment.last Assignment.inPreamble key (Assignment.ofText text)

/-- The value that the sections of a config file which cover a file give a key. -/
def sectionValue (basename relativePath text key : Text) : Option Value :=
  Assignment.last (Assignment.covers basename relativePath) key (Assignment.ofText text)

/-- Whether the preamble of a config file gives some spelling of the root directive the value
`true`. -/
def isRoot (text : Text) : Bool :=
  (Assignment.ofText text).any fun assignment =>
    isRootKey assignment.entry.1 &&
      Assignment.last Assignment.inPreamble assignment.entry.1 (Assignment.ofText text) ==
        some (.flag true)

end ConfigText

namespace Level

theorem get?_preamble_ofConfigFile (text key : Text) :
    (ConfigFile.read text).preamble.get? key =
      Assignment.last Assignment.inPreamble key (Assignment.ofText text) := by
  rw [Assignment.ofText, Assignment.last_inPreamble_ofStatements, ConfigFile.read,
    ConfigFile.ofStatements, OrderedMap.get?_ofList]

theorem get?_preamble_ofText (text key : Text) :
    (ofText text).preamble.get? key = ConfigText.preambleValue text key := by
  rw [ofText, ofConfigFile, OrderedMap.get?_filterKeys, get?_preamble_ofConfigFile,
    ConfigText.preambleValue]
  cases isRootKey key <;> rfl

/-- Overlaying the sections in the order of the file leaves the last assignment that covers. -/
theorem get?_foldl_overlay (basename relativePath key : Text) (statements : List Statement)
    (found : Properties) :
    ((((Section.ofStatements statements).map CompiledSection.ofSection).filter
        fun compiled => compiled.covers basename relativePath).foldl
          (fun found compiled => found.overlay compiled.properties) found).get? key =
      (Assignment.last (Assignment.covers basename relativePath) key
        (Assignment.afterHeader statements)).or (found.get? key) := by
  induction statements generalizing found with
  | nil => rfl
  | cons statement rest ih =>
      cases statement with
      | assignment other value => exact ih found
      | header pattern =>
          have condition (entry : Text × Value) :
              Assignment.covers basename relativePath ⟨some pattern, entry⟩ =
                (CompiledSection.ofSection
                  ⟨pattern, OrderedMap.ofList (Statement.leading rest)⟩).covers
                    basename relativePath := by
            simp only [Assignment.covers, CompiledSection.ofSection, CompiledSection.covers,
              Option.map_some]
            cases Glob.Pattern.compile pattern <;> rfl
          rw [Section.ofStatements, Assignment.afterHeader, Assignment.ofStatements_eq,
            Assignment.last_append, Assignment.last_allUnder _ _ _ _ _ condition,
            List.map_cons, List.filter_cons]
          split
          case isTrue covered =>
            have sectionEntry : (CompiledSection.ofSection ⟨pattern, OrderedMap.ofList
                (Statement.leading rest)⟩).properties.get? key =
                  OrderedMap.lastUnder key (Statement.leading rest) :=
              OrderedMap.get?_ofList _ _
            rw [List.foldl_cons, ih, OrderedMap.get?_overlay, sectionEntry, Option.or_assoc]
          case isFalse uncovered =>
            rw [ih, Option.or_none]

theorem get?_matching_ofText (basename relativePath text key : Text) :
    ((ofText text).matching basename relativePath).get? key =
      ConfigText.sectionValue basename relativePath text key := by
  have preamble : Assignment.last (Assignment.covers basename relativePath) key
      (Assignment.allUnder none (Statement.leading (Statement.ofText text))) = none :=
    Assignment.last_allUnder _ _ _ _ false fun _ => rfl
  rw [ConfigText.sectionValue, Assignment.ofText, Assignment.ofStatements_eq,
    Assignment.last_append, preamble]
  exact get?_foldl_overlay basename relativePath key (Statement.ofText text) OrderedMap.empty

theorem isRoot_ofText (text : Text) : (ofText text).isRoot = ConfigText.isRoot text := by
  have valueOf (key : Text) := get?_preamble_ofConfigFile text key
  rw [Bool.eq_iff_iff, ofText, ofConfigFile, ConfigText.isRoot, List.any_eq_true,
    List.any_eq_true]
  constructor
  · intro someKey
    rcases someKey with ⟨⟨key, value⟩, member, declared⟩
    simp only [declaresRoot, Bool.and_eq_true, beq_iff_eq] at declared
    rcases declared with ⟨rootKey, rfl⟩
    have found := OrderedMap.mem_entries_iff.mp member
    rw [valueOf] at found
    rcases Assignment.exists_mem_of_last found with ⟨assignment, assigned, entry⟩
    exact ⟨assignment, assigned, by simp [entry, rootKey, found]⟩
  · intro someAssignment
    rcases someAssignment with ⟨assignment, -, declared⟩
    simp only [Bool.and_eq_true, beq_iff_eq] at declared
    rcases declared with ⟨rootKey, found⟩
    rw [← valueOf] at found
    exact ⟨_, OrderedMap.mem_entries_iff.mpr found, by simp [declaresRoot, rootKey]⟩

end Level

end PropertyCascade
