import PropertyCascade.Proofs.Session.Filling

/-!
# What an invalidation reaches

A cache has its tables under normalised paths, but an invalidation names them by the parts of the
path that it is given. The two fit together for every spelling without `..`: once such a spelling of
a path has been invalidated, or of a directory at or above it, the next resolution of the path reads
the files, whatever the cache held before and whatever has become of the files meanwhile.

A spelling with `..` names nothing that a resolution has left in a cache, because no normalised path
has such a part. Invalidating it makes no difference to what is answered.
-/

namespace PropertyCascade

namespace Session

/-- Resolving a path through the cache of the client answers what is computed without it. -/
def Recomputes (session : Session) (path : PathName) : Prop :=
  ∃ table, (session.step (.request 0 (.resolve path))).2 = .table (.ok table) ∧
    (session.step (.request 0 (.resolveUncached path))).2 = .table (.ok table)

namespace Step

variable {path spelling : PathName}

theorem removes_invalidate (isAbsolute : spelling.isAbsolute = true)
    (noUp : Segment.up ∉ spelling.parts) (same : spelling.normalize = path.normalize) :
    (request 0 (.invalidate spelling)).removes path = true := by
  rw [removes, ← same, PathName.parts_normalize_of_up_not_mem isAbsolute noUp, beq_self_eq_true]

theorem removes_invalidateWithin (isAbsolute : spelling.isAbsolute = true)
    (noUp : Segment.up ∉ spelling.parts)
    (within : path.normalize.isWithin spelling.normalize = true) :
    (request 0 (.invalidateWithin spelling)).removes path = true := by
  rw [PathName.isWithin, PathName.parts_normalize_of_up_not_mem isAbsolute noUp] at within
  exact within

/-- A spelling with `..` names no normalised path, and no directory above one. -/
theorem removes_of_up_mem (isAbsolute : path.isAbsolute = true) (up : Segment.up ∈ spelling.parts)
    {asked : Request} (invalidates : asked ∈ [.invalidate spelling, .invalidateWithin spelling]) :
    (request 0 asked).removes path = false := by
  have noUp := PathName.up_not_mem_parts_normalize isAbsolute
  simp only [List.mem_cons, List.not_mem_nil, or_false] at invalidates
  rcases invalidates with rfl | rfl
  · apply beq_false_of_ne
    intro same
    exact noUp (same ▸ up)
  · apply Bool.eq_false_iff.mpr
    intro within
    exact noUp ((List.isPrefixOf_iff_prefix.mp within).subset up)

end Step

section Reach

variable {session : Session} {configName : Text} {cache : Cache} {path : PathName}

/-- What a resolution answers is decided by the files and by the entry of the path. -/
theorem answer_resolve (clients : session.clients = [⟨configName, .own cache⟩])
    (isAbsolute : path.isAbsolute = true) :
    (session.step (.request 0 (.resolve path))).2 =
      .table (.ok ((cache.find? path.normalize).getD (session.tableNow configName path))) := by
  rw [step_resolve clients isAbsolute]
  cases cache.find? path.normalize <;> rfl

theorem recomputes_iff (clients : session.clients = [⟨configName, .own cache⟩])
    (isAbsolute : path.isAbsolute = true) :
    session.Recomputes path ↔
      (cache.find? path.normalize).getD (session.tableNow configName path) =
        session.tableNow configName path := by
  rw [Recomputes, answer_resolve clients isAbsolute, step_resolveUncached clients isAbsolute]
  constructor
  · intro someTable
    rcases someTable with ⟨table, answered, computed⟩
    exact Except.ok.inj (Answer.table.inj (answered.trans computed.symm))
  · intro same
    exact ⟨_, rfl, by rw [same]⟩

/-- A path that has no entry has none as long as it is not resolved. -/
theorem exists_missing_run (isAbsolute : path.isAbsolute = true) {steps : List Step}
    (unfilled : ∀ step ∈ steps, step.fills path = false)
    (clients : session.clients = [⟨configName, .own cache⟩])
    (missing : cache.find? path.normalize = none) :
    ∃ after, (session.run steps).clients = [⟨configName, .own after⟩] ∧
      after.find? path.normalize = none := by
  induction steps generalizing session cache with
  | nil => exact ⟨cache, clients, missing⟩
  | cons step rest ih =>
      rcases List.forall_mem_cons.mp unfilled with ⟨notFilling, restUnfilled⟩
      rcases exists_cache_step clients step with ⟨after, afterClients, entries⟩
      apply ih restUnfilled afterClients
      rw [entries path isAbsolute, entryAfter, missing, notFilling]
      simp

theorem recomputes_after_removal (isAbsolute : path.isAbsolute = true) {steps : List Step}
    (unfilled : ∀ step ∈ steps, step.fills path = false)
    (clients : session.clients = [⟨configName, .own cache⟩]) {removal : Step}
    (removes : removal.removes path = true) :
    (session.run (removal :: steps)).Recomputes path := by
  rcases exists_cache_step clients removal with ⟨after, afterClients, entries⟩
  have missing : after.find? path.normalize = none := by
    rw [entries path isAbsolute, entryAfter, if_pos removes]
  rcases exists_missing_run isAbsolute unfilled afterClients missing with
    ⟨last, lastClients, lastMissing⟩
  apply (recomputes_iff lastClients isAbsolute).mpr
  rw [lastMissing, Option.getD_none]

end Reach

/-- The next resolution of a path, in whatever spelling, computes its table anew after a spelling of
the path without `..` has been invalidated, or one of a directory at or above it, and steps have
followed that do not resolve the path. An invalidated spelling with `..` makes no difference. -/
theorem recomputes_after_invalidation (store : FileStore) (sharedCache cache : Cache)
    (configName : Text) (between : List Step) (path : PathName)
    (isAbsolute : path.isAbsolute = true)
    (unfilled : ∀ step ∈ between, step.fills path = false) :
    let session : Session := ⟨store, sharedCache, [⟨configName, .own cache⟩]⟩
    (∀ spelling : PathName, spelling.isAbsolute = true → Segment.up ∉ spelling.parts →
      spelling.normalize = path.normalize →
        (session.run (.request 0 (.invalidate spelling) :: between)).Recomputes path) ∧
    (∀ directory : PathName, directory.isAbsolute = true → Segment.up ∉ directory.parts →
      path.normalize.isWithin directory.normalize = true →
        (session.run (.request 0 (.invalidateWithin directory) :: between)).Recomputes path) ∧
    ∀ spelling : PathName, Segment.up ∈ spelling.parts →
      ∀ request ∈ [Request.invalidate spelling, .invalidateWithin spelling],
        ((session.step (.request 0 request)).1.step (.request 0 (.resolve path))).2 =
          (session.step (.request 0 (.resolve path))).2 := by
  intro session
  have clients : session.clients = [⟨configName, .own cache⟩] := rfl
  refine ⟨?_, ?_, ?_⟩
  · intro spelling spellingIsAbsolute noUp same
    apply recomputes_after_removal isAbsolute unfilled clients
    exact Step.removes_invalidate spellingIsAbsolute noUp same
  · intro directory directoryIsAbsolute noUp within
    apply recomputes_after_removal isAbsolute unfilled clients
    exact Step.removes_invalidateWithin directoryIsAbsolute noUp within
  · intro spelling up request invalidates
    rcases exists_cache_step clients (.request 0 request) with ⟨after, afterClients, entries⟩
    have kept : after.find? path.normalize = cache.find? path.normalize := by
      rw [entries path isAbsolute, entryAfter, Step.removes_of_up_mem isAbsolute up invalidates]
      simp only [List.mem_cons, List.not_mem_nil, or_false] at invalidates
      rcases invalidates with rfl | rfl <;> simp [Step.fills]
    have files : (session.step (.request 0 request)).1.store = store := by
      simp only [List.mem_cons, List.not_mem_nil, or_false] at invalidates
      rcases invalidates with rfl | rfl <;> rfl
    rw [answer_resolve afterClients isAbsolute, answer_resolve clients isAbsolute, kept, tableNow,
      tableNow, files]

/-- An outdated table is forgotten under a spelling of its path, or with all that lies below a
directory, and the config file changes once more before the path is resolved. -/
theorem recomputes_after_invalidation_outdatedTable :
    let store := FileStore.empty.insert (.ofText "/a/.e".toList) "k=1".toList
    let cache := Cache.empty.store (.ofText "/a/b/f".toList)
      (OrderedMap.ofList [(['k'], .integer 0)])
    let between : List Step := [.insert (.ofText "/a/.e".toList) "k=2".toList,
      .request 0 (.resolve (.ofText "/a/b/g".toList))]
    let path := PathName.ofText "/a/c/../b/f".toList
    let spelling := PathName.ofText "/a/./b//f".toList
    let directory := PathName.ofText "/a/.".toList
    let session : Session := ⟨store, Cache.empty, [⟨".e".toList, .own cache⟩]⟩
    (path.isAbsolute = true ∧ ∀ step ∈ between, step.fills path = false) ∧
      (spelling.isAbsolute = true ∧ Segment.up ∉ spelling.parts ∧
        spelling.normalize = path.normalize ∧
        (session.run (.request 0 (.invalidate spelling) :: between)).Recomputes path) ∧
      (directory.isAbsolute = true ∧ Segment.up ∉ directory.parts ∧
        path.normalize.isWithin directory.normalize = true ∧
        (session.run (.request 0 (.invalidateWithin directory) :: between)).Recomputes path) ∧
      Segment.up ∈ path.parts ∧
        ((session.step (.request 0 (.invalidate path))).1.step (.request 0 (.resolve path))).2 =
          (session.step (.request 0 (.resolve path))).2 := by
  intro store cache between path spelling directory session
  have isAbsolute : path.isAbsolute = true := by decide
  have unfilled : ∀ step ∈ between, step.fills path = false := by decide
  rcases recomputes_after_invalidation store Cache.empty cache ".e".toList between path isAbsolute
    unfilled with ⟨ofSpelling, ofDirectory, ofUp⟩
  have spellingIsAbsolute : spelling.isAbsolute = true := by decide
  have spellingNoUp : Segment.up ∉ spelling.parts := by decide
  have same : spelling.normalize = path.normalize := by decide
  have directoryIsAbsolute : directory.isAbsolute = true := by decide
  have directoryNoUp : Segment.up ∉ directory.parts := by decide
  have within : path.normalize.isWithin directory.normalize = true := by decide
  have up : Segment.up ∈ path.parts := by decide
  exact ⟨⟨isAbsolute, unfilled⟩,
    ⟨spellingIsAbsolute, spellingNoUp, same,
      ofSpelling spelling spellingIsAbsolute spellingNoUp same⟩,
    ⟨directoryIsAbsolute, directoryNoUp, within,
      ofDirectory directory directoryIsAbsolute directoryNoUp within⟩,
    up, ofUp path up _ List.mem_cons_self⟩

/-- A path that was resolved with a `..` is not computed anew after it has been invalidated with the
`..`, nor after a directory above it has been invalidated that is spelled with one. -/
theorem not_recomputes_after_invalidation :
    let path := PathName.ofText "/a/x/../f".toList
    let directory := PathName.ofText "/a/x/..".toList
    let session := (ofStore (FileStore.empty.insert (.ofText "/a/.e".toList) "k=1".toList)
      ".e".toList).run
        [.request 0 (.resolve path), .insert (.ofText "/a/.e".toList) "k=2".toList]
    path.isAbsolute = true ∧ directory.isAbsolute = true ∧
      path.normalize.isWithin directory.normalize = true ∧
      ¬(session.step (.request 0 (.invalidate path))).1.Recomputes path ∧
      ¬(session.step (.request 0 (.invalidateWithin directory))).1.Recomputes path := by
  intro path directory session
  have isAbsolute : path.isAbsolute = true := by decide
  refine ⟨isAbsolute, by decide, by decide, ?_, ?_⟩
  · rw [recomputes_iff rfl isAbsolute]
    decide +kernel
  · rw [recomputes_iff rfl isAbsolute]
    decide +kernel

end Session

end PropertyCascade
