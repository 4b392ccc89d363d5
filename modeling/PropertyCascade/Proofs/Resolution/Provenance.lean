import PropertyCascade.Proofs.ConfigFile.Entries
import PropertyCascade.Proofs.Resolution.Dependence
import PropertyCascade.Proofs.Resolution.Precedence
import PropertyCascade.Proofs.Session.History

/-!
# Where the entries of a table come from

Filling, overlaying and sorting tables makes no entries: each entry of a table in effect is what
some line of a visible config file assigns. Whatever is true of the assignments that a single line
can make is therefore true of every table, and also of the tables that a cache hands out, since
these have been computed for the files of some earlier moment.
-/

namespace PropertyCascade

namespace Assignment

theorem mem_of_mem_ofStatements {header? : Option Text} {statements : List Statement}
    {assignment : Assignment} (member : assignment ∈ ofStatements header? statements) :
    .assignment assignment.entry.1 assignment.entry.2 ∈ statements := by
  induction statements generalizing header? with
  | nil => simp [ofStatements] at member
  | cons statement rest ih =>
      cases statement with
      | header pattern => exact List.mem_cons_of_mem _ (ih member)
      | assignment key value =>
          rcases List.mem_cons.mp member with rfl | later
          · exact List.mem_cons_self
          · exact List.mem_cons_of_mem _ (ih later)

/-- The value of the last assignment to a key stands in a statement. -/
theorem mem_ofText_of_last {applies : Assignment → Bool} {text key : Text} {value : Value}
    (found : last applies key (ofText text) = some value) :
    .assignment key value ∈ Statement.ofText text := by
  rcases exists_mem_of_last found with ⟨assignment, member, entry⟩
  have stated := mem_of_mem_ofStatements member
  rw [entry] at stated
  exact stated

end Assignment

theorem Statement.exists_line_of_mem_ofText {text : Text} {statement : Statement}
    (member : statement ∈ ofText text) : ∃ line, '\n' ∉ line ∧ ofLine? line = some statement := by
  rcases List.mem_filterMap.mp member with ⟨line, piece, said⟩
  exact ⟨line, separator_not_mem_of_mem_splitOn piece, said⟩

/-- A value that prevails is assigned in a visible config file. -/
theorem exists_statement_of_prevailing {source : FileSource} {configName key : Text}
    {path : PathName} {value : Value}
    (prevails : prevailing source configName path key = some value) :
    ∃ level ∈ visibleAbove source configName path,
      .assignment key value ∈ Statement.ofText level.2 := by
  rw [prevailing, Option.or_eq_some_iff] at prevails
  rcases prevails with inSections | ⟨-, inPreambles⟩
  · rcases List.exists_of_findSome?_eq_some inSections with ⟨level, visible, given⟩
    exact ⟨level, visible, Assignment.mem_ofText_of_last given⟩
  · rcases List.exists_of_findSome?_eq_some inPreambles with ⟨level, visible, given⟩
    refine ⟨level, visible, ?_⟩
    simp only [ConfigText.preambleValue] at given
    split at given
    case isTrue => cases given
    case isFalse => exact Assignment.mem_ofText_of_last given

namespace Properties

/-- Some resolution over some files gives the table. -/
def IsResolved (table : Properties) : Prop :=
  ∃ source configName path, resolve source configName path = .ok table

theorem IsResolved.exists_line {table : Properties} (resolved : table.IsResolved)
    {entry : Text × Value} (member : entry ∈ table.entries) :
    ∃ line, '\n' ∉ line ∧
      Statement.ofLine? line = some (.assignment entry.1 entry.2) := by
  rcases resolved with ⟨source, configName, path, resolved⟩
  cases isAbsolute : path.isAbsolute with
  | false => simp [resolve, Resolution.ofPath, isAbsolute, Except.map] at resolved
  | true =>
      rcases resolve_eq_prevailing source configName path isAbsolute with
        ⟨computed, answered, values⟩
      rcases Except.ok.inj (answered.symm.trans resolved) with rfl
      have prevails := (values entry.1).symm.trans (OrderedMap.mem_entries_iff.mp member)
      rcases exists_statement_of_prevailing prevails with ⟨level, -, stated⟩
      exact Statement.exists_line_of_mem_ofText stated

end Properties

namespace Session

theorem Computes.isResolved {session : Session} {path : PathName} {table : Properties}
    (isAbsolute : path.isAbsolute = true)
    (computes : session.Computes path.normalize.parts table) : table.IsResolved := by
  rcases computes with ⟨client, -, names, parts, rfl⟩
  rw [PathName.parts_normalize isAbsolute] at parts
  rw [← (List.cons.inj parts).2]
  exact ⟨session.store.source, client.configName, path, resolve_of_isAbsolute _ _ isAbsolute⟩

/-- A table that a client is given in a session that began without tables is one that some
resolution gives without a cache. -/
theorem isResolved_of_step {session : Session} (fresh : session.IsFresh) {steps : List Step}
    {index : Nat} {path : PathName} {table : Properties}
    (answered : ((session.run steps).step (.request index (.resolve path))).2 =
      .table (.ok table)) : table.IsResolved := by
  cases known : (session.run steps).clients[index]? with
  | none => simp [step, known] at answered
  | some client =>
      cases isAbsolute : path.isAbsolute with
      | false => simp [step, known, serve, Session.resolve, isAbsolute] at answered
      | true =>
          rcases exists_table_of_resolve known isAbsolute with ⟨given, answer, origin⟩
          rcases Except.ok.inj (Answer.table.inj (answer.symm.trans answered)) with rfl
          rcases origin with remembers | computes
          · rcases remembers.of_run with atStart | ⟨earlier, -, computes⟩
            · exact absurd atStart (fresh.not_remembers _ _)
            · exact computes.isResolved isAbsolute
          · exact computes.isResolved isAbsolute

end Session

end PropertyCascade
