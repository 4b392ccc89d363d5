import PropertyCascade.Proofs.Resolution.Precedence
import PropertyCascade.Proofs.Session.History

/-!
# The root directive in tables

The directive `root` ends the walk through the directories above a file. In a preamble it is no
property: whatever its spelling, it never reaches a table from there. Under a header the same key is
an assignment like any other, so a table can have it, but only with a value that a section gives
which covers the file.

This holds of tables that are computed and of tables that are remembered, since a remembered table
was computed at an earlier moment.
-/

namespace PropertyCascade

/-- Without regard to preambles, the value that a key gets from the sections of the nearest visible
level in which sections that cover the path give one. -/
def sectionsAbove (source : FileSource) (configName : Text) (path : PathName) (key : Text) :
    Option Value :=
  (visibleAbove source configName path).findSome? fun (directory, text) =>
    ConfigText.sectionValue path.basename (path.relativeText directory) text key

theorem prevailing_of_isRootKey (source : FileSource) (configName : Text) (path : PathName)
    {key : Text} (directive : isRootKey key = true) :
    prevailing source configName path key = sectionsAbove source configName path key := by
  have noPreamble : ((visibleAbove source configName path).findSome? fun (_, text) =>
      ConfigText.preambleValue text key) = none := by
    apply List.findSome?_eq_none_iff.mpr
    intro level _
    change ConfigText.preambleValue level.2 key = none
    rw [ConfigText.preambleValue, if_pos directive]
  rw [prevailing, noPreamble, Option.or_none, sectionsAbove]

theorem get?_ofNames_of_isRootKey (source : FileSource) (configName : Text)
    {names : List Segment} (proper : ∀ name ∈ names, name.IsProper) {key : Text}
    (directive : isRootKey key = true) :
    (Resolution.ofNames source configName names).properties.get? key =
      sectionsAbove source configName (.absolute names) key := by
  rw [get?_properties_ofNames source configName proper, prevailing_of_isRootKey _ _ _ directive]

namespace Session

theorem Computes.get?_of_isRootKey {session : Session} {path : PathName} {table : Properties}
    (computes : session.Computes path.normalize.parts table)
    (isAbsolute : path.isAbsolute = true) :
    ∃ client ∈ session.clients, ∀ key, isRootKey key = true → table.get? key =
      sectionsAbove session.store.source client.configName path.normalize key := by
  rcases computes with ⟨client, member, names, parts, rfl⟩
  rw [PathName.parts_normalize isAbsolute] at parts
  rcases List.cons.inj parts with ⟨-, rfl⟩
  refine ⟨client, member, fun key directive => ?_⟩
  rw [PathName.normalize_of_isAbsolute isAbsolute]
  exact get?_ofNames_of_isRootKey _ _ (fun _ => PathName.isProper_of_mem_names) directive

/-- In every run, the root directive has in a table the value that the sections above the path give
it and no value from a preamble. For a remembered table the files count as they were at an earlier
moment, for one that is computed they count as they are. -/
theorem get?_rootKey_eq_sectionsAbove {session : Session} (fresh : session.IsFresh)
    (before : List Step) {index : Nat} {client : Client} {path : PathName}
    (known : (session.run before).clients[index]? = some client)
    (isAbsolute : path.isAbsolute = true) :
    (∃ table, ((session.run before).step (.request index (.resolve path))).2 =
        .table (.ok table) ∧
      ∃ earlier, earlier <+: before ∧ ∃ user ∈ (session.run earlier).clients,
        ∀ key, isRootKey key = true → table.get? key =
          sectionsAbove (session.run earlier).store.source user.configName path.normalize key) ∧
    ∃ table, ((session.run before).step (.request index (.resolveUncached path))).2 =
        .table (.ok table) ∧
      ∀ key, isRootKey key = true → table.get? key =
        sectionsAbove (session.run before).store.source client.configName path.normalize key := by
  constructor
  · rcases exists_table_of_resolve known isAbsolute with ⟨table, answered, origin⟩
    refine ⟨table, answered, ?_⟩
    rcases origin with remembers | computes
    · rcases remembers.of_run with atStart | ⟨earlier, isPrefix, computes⟩
      · exact absurd atStart (fresh.not_remembers _ _)
      · exact ⟨earlier, isPrefix, computes.get?_of_isRootKey isAbsolute⟩
    · exact ⟨before, List.prefix_rfl, computes.get?_of_isRootKey isAbsolute⟩
  · refine ⟨(Resolution.ofNames (session.run before).store.source client.configName
      path.names).properties, ?_, fun key directive => ?_⟩
    · simp only [step, known, serve, Session.resolveUncached, Resolution.ofPath, isAbsolute,
        if_true]
    · rw [PathName.normalize_of_isAbsolute isAbsolute]
      exact get?_ofNames_of_isRootKey _ _ (fun _ => PathName.isProper_of_mem_names) directive

/-- A client of a store in which a preamble and a section have the directive. -/
def withRootInSection : Session :=
  ⟨(FileStore.empty.insert (.ofText "/a/b/.e".toList) "Root=true".toList).insert
    (.ofText "/a/.e".toList) "ROOT=true\n[*.c]\nroot=true".toList, Cache.empty,
    [⟨".e".toList, .own Cache.empty⟩]⟩

theorem get?_rootKey_eq_sectionsAbove_withRootInSection :
    let path := PathName.ofText "/a/b/../f.c".toList
    let before : List Step := [.request 0 (.resolve (.ofText "/a/b/f.c".toList))]
    withRootInSection.IsFresh ∧ path.isAbsolute = true ∧
      (∃ client, (withRootInSection.run before).clients[0]? = some client) ∧
      ∃ table, ((withRootInSection.run before).step (.request 0 (.resolveUncached path))).2 =
          .table (.ok table) ∧
        isRootKey "ROOT".toList = true ∧ table.get? "ROOT".toList = none ∧
        isRootKey rootKey = true ∧ table.get? rootKey = some (.flag true) := by
  intro path before
  have fresh : withRootInSection.IsFresh := by
    rw [IsFresh]
    decide
  have isAbsolute : path.isAbsolute = true := by decide
  have known : ∃ cache, (withRootInSection.run before).clients[0]? =
      some ⟨".e".toList, .own cache⟩ := ⟨_, rfl⟩
  rcases known with ⟨cache, known⟩
  rcases (get?_rootKey_eq_sectionsAbove fresh before known isAbsolute).2 with
    ⟨table, answered, values⟩
  have value (key : Text) (directive : isRootKey key = true) : table.get? key = sectionsAbove
      (withRootInSection.run before).store.source ".e".toList path.normalize key :=
    values key directive
  refine ⟨fresh, isAbsolute, ⟨_, known⟩, table, answered, by decide, ?_, by decide, ?_⟩
  · rw [value _ (by decide)]
    decide +kernel
  · rw [value _ (by decide)]
    decide +kernel

/-- The directive can be in a table, where a section assigns it. -/
theorem get?_rootKey_withRootInSection :
    let path := PathName.ofText "/a/f.c".toList
    path.isAbsolute = true ∧ isRootKey rootKey = true ∧
      ∃ table, (withRootInSection.step (.request 0 (.resolve path))).2 = .table (.ok table) ∧
        (withRootInSection.step (.request 0 (.resolveUncached path))).2 = .table (.ok table) ∧
        table.get? rootKey = some (.flag true) := by
  intro path
  refine ⟨by decide, by decide, _, rfl, rfl, ?_⟩
  decide +kernel

end Session

end PropertyCascade
