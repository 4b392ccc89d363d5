import PropertyCascade.Proofs.Toml.Scalar

/-!
# Documents read back

A document of tables with one key in each header and one in front of each value. `ReadsAs` relates a
part of such a document to its statements, whatever follows the part, so a document can be read in
parts and the parts put together. The tables that the statements make are then those that were
written, as long as no key is given twice.
-/

namespace PropertyCascade

namespace Toml

namespace Statement

/-! ## Lines -/

theorem readLines_blank (count : Nat) (rest : Text) :
    readLines (count + 1) ('\n' :: rest) = readLines count rest := by
  rfl

theorem afterLine?_newline (rest : Text) : Layout.afterLine? ('\n' :: rest) = some rest := by
  rfl

/-- A line that does not start with a space and is neither blank nor a comment is a statement. -/
theorem readLines_statement {first : Char} {line : Text} {statement : Statement} {rest : Text}
    (notSpace : Layout.isSpace first = false)
    (notBlank : ¬(first = '#' ∨ first = '\n' ∨ first = '\r'))
    (read : read? (first :: line) = some (statement, rest)) (count : Nat) :
    readLines (count + 1) (first :: line) = (readLines count rest).map (statement :: ·) := by
  have kept : Layout.skipSpaces (first :: line) = first :: line :=
    Text.Stops.dropWhile_eq (by simp [Text.Stops, notSpace])
  rw [readLines, kept]
  simp only [if_neg notBlank, read, Option.bind_eq_bind, Option.bind_some]
  cases readLines count rest <;> rfl

theorem read?_header (path rest : Text) :
    read? ('[' :: (Key.write path ++ ']' :: '\n' :: rest)) = some (header [path], rest) := by
  have readPath : Key.readPath? (Key.write path ++ ']' :: '\n' :: rest) =
      some ([path], ']' :: '\n' :: rest) :=
    Key.readPath?_write path rfl fun dot => absurd (Option.some.inj dot) (by decide)
  rcases Key.exists_head_write path with ⟨first, others, written, start⟩
  have notElement : first ≠ '[' := by rintro rfl; cases start
  rw [written, List.cons_append] at readPath ⊢
  rw [read?, readPath]
  · rfl
  · exact fun after same => notElement (List.cons.inj same).1

theorem readLines_header (path : Text) (count : Nat) (rest : Text) :
    readLines (count + 1) ('[' :: (Key.write path ++ ']' :: '\n' :: rest)) =
      (readLines count rest).map (header [path] :: ·) :=
  readLines_statement rfl (by decide) (read?_header path rest) count

theorem read?_pair (key : Text) (value : Value) (rest : Text) :
    read? (Key.write key ++ ' ' :: '=' :: ' ' :: (Scalar.write value ++ '\n' :: rest)) =
      some (pair [key] (Scalar.nodeOf value), rest) := by
  have readPath : Key.readPath? (Key.write key ++ ' ' :: '=' :: ' ' ::
      (Scalar.write value ++ '\n' :: rest)) =
        some ([key], '=' :: ' ' :: (Scalar.write value ++ '\n' :: rest)) :=
    Key.readPath?_write key rfl fun dot => absurd (Option.some.inj dot) (by decide)
  have readSign : readPathAndSign (Key.write key ++ ' ' :: '=' :: ' ' ::
      (Scalar.write value ++ '\n' :: rest)) =
        some ([key], Scalar.write value ++ '\n' :: rest) := by
    rw [readPathAndSign, readPath]
    -- The space after the equals sign is skipped; the value does not start with another one.
    simp only [Option.bind_eq_bind, Option.bind_some]
    rw [Layout.skipSpaces, List.dropWhile_cons_of_pos rfl]
    exact congrArg (fun start => some ([key], start)) (Scalar.skipSpaces_write value _)
  have readValue := readValue_write value (2 * (Scalar.write value ++ '\n' :: rest).length + 1)
    maxNesting rest
  rcases Key.exists_head_write key with ⟨first, others, written, start⟩
  have notHeader : first ≠ '[' := by rintro rfl; cases start
  rw [written, List.cons_append] at readSign ⊢
  rw [read?, readSign]
  · simp only [Option.bind_eq_bind, Option.bind_some, stepBound, readValue, afterLine?_newline]
    rfl
  · exact fun after same => notHeader (List.cons.inj same).1
  · exact fun after same => notHeader (List.cons.inj same).1

theorem readLines_pair (key : Text) (value : Value) (count : Nat) (rest : Text) :
    readLines (count + 1)
        (Key.write key ++ ' ' :: '=' :: ' ' :: (Scalar.write value ++ '\n' :: rest)) =
      (readLines count rest).map (pair [key] (Scalar.nodeOf value) :: ·) := by
  have read := read?_pair key value rest
  rcases Key.exists_head_write key with ⟨first, others, written, start⟩
  have notSpace : Layout.isSpace first = false := Key.not_isSpace_of_starts start
  have notBlank : ¬(first = '#' ∨ first = '\n' ∨ first = '\r') := by
    rintro (rfl | rfl | rfl) <;> cases start
  rw [written, List.cons_append] at read ⊢
  exact readLines_statement notSpace notBlank read count

/-! ## Parts of documents -/

/-- The lines of a part of a document are read as statements, whatever comes after the part. -/
def ReadsAs (part : Text) (statements : List Statement) : Prop :=
  ∃ lines ≤ part.length, ∀ count rest,
    readLines (count + lines) (part ++ rest) = (readLines count rest).map (statements ++ ·)

theorem readsAs_nil : ReadsAs [] [] :=
  ⟨0, Nat.zero_le _, fun count rest => by simp⟩

theorem ReadsAs.append {part other : Text} {statements others : List Statement}
    (reads : ReadsAs part statements) (readsOther : ReadsAs other others) :
    ReadsAs (part ++ other) (statements ++ others) := by
  rcases reads with ⟨lines, few, read⟩
  rcases readsOther with ⟨otherLines, otherFew, readOther⟩
  refine ⟨otherLines + lines, by simp only [List.length_append]; omega, fun count rest => ?_⟩
  rw [List.append_assoc, ← Nat.add_assoc, read, readOther, Option.map_map]
  simp [Function.comp_def]

theorem readsAs_lines {α : Type} {written : α → Text} {statement : α → Statement}
    (reads : ∀ item, ReadsAs (written item) [statement item]) (items : List α) :
    ReadsAs (items.flatMap written) (items.map statement) := by
  induction items with
  | nil => exact readsAs_nil
  | cons item items ih => exact (reads item).append ih

theorem readsAs_blank : ReadsAs ['\n'] [] :=
  ⟨1, Nat.le_refl _, fun count rest => by simp [readLines_blank]⟩

/-- Blank lines between parts make no difference. -/
theorem readsAs_intercalate {α : Type} {written : α → Text} {statements : α → List Statement}
    (reads : ∀ item, ReadsAs (written item) (statements item)) (items : List α) :
    ReadsAs (['\n'].intercalate (items.map written)) (items.flatMap statements) := by
  induction items with
  | nil => exact readsAs_nil
  | cons item items ih =>
      cases items with
      | nil => simpa [List.intercalate] using reads item
      | cons next items =>
          have joined := (reads item).append (readsAs_blank.append ih)
          simpa [List.intercalate] using joined

/-- A part that is the whole text makes up the statements of the document. -/
theorem ReadsAs.readAll? {part : Text} {statements : List Statement}
    (reads : ReadsAs part statements)
    (noMark : part.head? ≠ some '\uFEFF') : Statement.readAll? part = some statements := by
  rcases reads with ⟨lines, few, read⟩
  -- A line has at least its line end, so there are steps left when the text comes to its end.
  have enough : part.length + 1 = (part.length - lines + 1) + lines := by omega
  have all := read (part.length - lines + 1) []
  rw [← enough, List.append_nil] at all
  rw [Statement.readAll?, Text.withoutMark_eq_self noMark]
  simp only [all]
  simp [readLines, Layout.skipSpaces]

/-! ## Tables -/

/-- The statements of a table. -/
def ofTable (path : Text) (pairs : List (Text × Node)) : List Statement :=
  header [path] :: pairs.map fun entry => pair [entry.1] entry.2

theorem leadingPairs_append (pairs : List (Text × Node)) (rest : List Statement) :
    leadingPairs ((pairs.map fun entry => pair [entry.1] entry.2) ++ rest) =
      (pairs.map fun entry => ([entry.1], entry.2)) ++ leadingPairs rest := by
  induction pairs with
  | nil => rfl
  | cons entry pairs ih => simp [leadingPairs, ih]

end Statement

namespace Draft

theorem find?_eq_none {key : Text} {entries : Entries} (fresh : key ∉ entries.map Prod.fst) :
    find? key entries = none := by
  refine List.lookup_eq_none_iff.mpr fun entry member => ?_
  simpa using fun same : key = entry.1 => fresh (List.mem_map.mpr ⟨entry, member, same.symm⟩)

theorem set_of_fresh {key : Text} {entries : Entries} (fresh : key ∉ entries.map Prod.fst)
    (draft : Draft) : set key draft entries = entries ++ [(key, draft)] := by
  induction entries with
  | nil => rfl
  | cons entry entries ih =>
      rcases not_or.mp (mt List.mem_cons.mpr fresh) with ⟨different, freshInRest⟩
      rw [set, if_neg (Ne.symm different), ih freshInRest]
      rfl

/-- Values under keys of their own are added one after the other. -/
theorem addPairs_of_nodup (entries : Entries) (pairs : List (Text × Node))
    (nodup : (entries.map Prod.fst ++ pairs.map Prod.fst).Nodup) :
    addPairs entries (pairs.map fun entry => ([entry.1], entry.2)) =
      some (entries ++ pairs.map fun entry => (entry.1, value entry.2)) := by
  induction pairs generalizing entries with
  | nil => simp [addPairs]
  | cons pair pairs ih =>
      have fresh : pair.1 ∉ entries.map Prod.fst := fun member =>
        (List.nodup_append.mp nodup).2.2 pair.1 member pair.1 (by simp) rfl
      have added : addPair entries [pair.1] pair.2 =
          some (entries ++ [(pair.1, value pair.2)]) := by
        simp [addPair, change, find?_eq_none fresh, set_of_fresh fresh]
      rw [addPairs, List.map_cons, List.foldlM_cons, added]
      have rest := ih (entries ++ [(pair.1, value pair.2)]) (by simpa using nodup)
      rw [addPairs] at rest
      simp [rest]

theorem addTable_of_fresh {entries : Entries} {path : Text} {pairs : List (Text × Node)}
    (fresh : path ∉ entries.map Prod.fst) (nodup : (pairs.map Prod.fst).Nodup) :
    addTable entries [path] (pairs.map fun entry => ([entry.1], entry.2)) =
      some (entries ++
        [(path, table .explicit (pairs.map fun entry => (entry.1, value entry.2)))]) := by
  have added := addPairs_of_nodup [] pairs (by simpa using nodup)
  simp [addTable, change, find?_eq_none fresh, added, set_of_fresh fresh]

theorem nodes_values (pairs : List (Text × Node)) :
    nodes (pairs.map fun entry => (entry.1, value entry.2)) = pairs := by
  induction pairs with
  | nil => rfl
  | cons entry pairs ih => simp [nodes, node, ih]

theorem nodes_tables (tables : List (Text × List (Text × Node))) :
    nodes (tables.map fun entry =>
        (entry.1, table .explicit (entry.2.map fun pair => (pair.1, value pair.2)))) =
      tables.map fun entry => (entry.1, .table entry.2) := by
  induction tables with
  | nil => rfl
  | cons entry tables ih => simp [nodes, node, nodes_values, ih]

end Draft

namespace Document

open Toml.Statement (ofTable leadingPairs)

theorem addTables_pairs (entries : Draft.Entries) (pairs : List (Text × Node))
    (rest : List Statement) :
    addTables entries ((pairs.map fun entry => .pair [entry.1] entry.2) ++ rest) =
      addTables entries rest := by
  induction pairs with
  | nil => rfl
  | cons entry pairs ih => exact ih

theorem leadingPairs_tables (tables : List (Text × List (Text × Node))) :
    leadingPairs (tables.flatMap fun entry => ofTable entry.1 entry.2) = [] := by
  cases tables <;> rfl

theorem addTables_of_nodup (entries : Draft.Entries) (tables : List (Text × List (Text × Node)))
    (nodup : (entries.map Prod.fst ++ tables.map Prod.fst).Nodup)
    (nodupWithin : ∀ entry ∈ tables, (entry.2.map Prod.fst).Nodup) :
    addTables entries (tables.flatMap fun entry => ofTable entry.1 entry.2) =
      some (entries ++ tables.map fun entry =>
        (entry.1, .table .explicit (entry.2.map fun pair => (pair.1, .value pair.2)))) := by
  induction tables generalizing entries with
  | nil => simp [addTables]
  | cons entry tables ih =>
      have fresh : entry.1 ∉ entries.map Prod.fst := fun member =>
        (List.nodup_append.mp nodup).2.2 entry.1 member entry.1 (by simp) rfl
      have added := Draft.addTable_of_fresh fresh (nodupWithin entry List.mem_cons_self)
      rw [List.flatMap_cons, ofTable, List.cons_append, addTables, Statement.leadingPairs_append,
        leadingPairs_tables, List.append_nil, added, Option.bind_some, addTables_pairs,
        ih _ (by simpa using nodup) fun other member =>
          nodupWithin other (List.mem_cons_of_mem _ member)]
      simp

/-- The tables under headers of their own make up the document, in their order. -/
theorem ofStatements?_tables {tables : List (Text × List (Text × Node))}
    (nodup : (tables.map Prod.fst).Nodup)
    (nodupWithin : ∀ entry ∈ tables, (entry.2.map Prod.fst).Nodup) :
    ofStatements? (tables.flatMap fun entry => ofTable entry.1 entry.2) =
      some (tables.map fun entry => (entry.1, .table entry.2)) := by
  have added := addTables_of_nodup [] tables (by simpa using nodup) nodupWithin
  rw [ofStatements?, leadingPairs_tables]
  simp [Draft.addPairs, added, Draft.nodes_tables]

end Document

end Toml

end PropertyCascade
