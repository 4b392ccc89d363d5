import Mathlib.Data.List.DropRight
import Mathlib.Data.List.Induction
import PropertyCascade.Proofs.Session.History
import PropertyCascade.Proofs.Session.Invalidation

/-!
# Which moment a cached table shows

A client with a cache of its own is given tables that may be outdated. Which moment of the run a
table shows can be read off the steps alone: the entry of a path was filled by the first resolution
of the path, in whatever spelling, since the last step that took the entry away.

The invariant of a run says of the cache that it has, under the normal form of every absolute path,
the table of that moment. It follows from what one step does to the entry of a path: the step takes
it away, or fills it if there is none, or leaves it as it is.
-/

namespace PropertyCascade

namespace Session

namespace Step

/-- The step resolves a path, in whatever spelling. -/
def fills (path : PathName) : Step → Bool
  | request 0 (.resolve spelling) => spelling.normalize == path.normalize
  | _ => false

/-- The step takes away what the cache has under the normal form of a path. -/
def removes (path : PathName) : Step → Bool
  | request 0 (.invalidate spelling) => spelling.parts == path.normalize.parts
  | request 0 (.invalidateWithin directory) => path.normalize.isWithin directory
  | request 0 .clear => true
  | _ => false

end Step

/-- The steps since the entry of a path was last taken away. -/
def sinceRemoval (path : PathName) (steps : List Step) : List Step :=
  steps.rtakeWhile fun step => !step.removes path

/-- The steps up to the one that last took the entry of a path away. -/
def upToRemoval (path : PathName) (steps : List Step) : List Step :=
  steps.rdropWhile fun step => !step.removes path

/-- The steps before the one that filled the current entry of a path: the first resolution of the
path since the entry was last taken away. -/
def fillingMoment? (path : PathName) (steps : List Step) : Option (List Step) :=
  if (sinceRemoval path steps).any (Step.fills path) then
    some (upToRemoval path steps ++
      (sinceRemoval path steps).takeWhile fun step => !step.fills path)
  else none

theorem upToRemoval_append_sinceRemoval (path : PathName) (steps : List Step) :
    upToRemoval path steps ++ sinceRemoval path steps = steps :=
  List.rdropWhile_append_rtakeWhile

theorem fillingMoment?_concat (path : PathName) (steps : List Step) (step : Step) :
    fillingMoment? path (steps ++ [step]) =
      if step.removes path then none
      else (fillingMoment? path steps).or (if step.fills path then some steps else none) := by
  cases removal : step.removes path with
  | true => simp [fillingMoment?, sinceRemoval, removal]
  | false =>
      have since : sinceRemoval path (steps ++ [step]) = sinceRemoval path steps ++ [step] := by
        simp [sinceRemoval, removal]
      have upTo : upToRemoval path (steps ++ [step]) = upToRemoval path steps := by
        simp [upToRemoval, removal]
      have parts := upToRemoval_append_sinceRemoval path steps
      rw [fillingMoment?, fillingMoment?, since, upTo, List.takeWhile_append]
      generalize upToRemoval path steps = earlier at parts
      generalize sinceRemoval path steps = recent at parts
      cases filled : recent.any (Step.fills path) with
      | true =>
          -- The first resolution is among the earlier steps, so the last step does not count.
          have stopped : (recent.takeWhile fun step => !step.fills path).length ≠
              recent.length := by
            intro all
            rcases List.any_eq_true.mp filled with ⟨fill, member, fills⟩
            rw [← (List.takeWhile_prefix _).eq_of_length all] at member
            simpa [fills] using List.mem_takeWhile_imp member
          simp [filled, stopped]
      | false =>
          have all : (recent.takeWhile fun step => !step.fills path) = recent := by
            apply List.takeWhile_eq_self_iff.mpr
            intro step member
            simpa using List.any_eq_false.mp filled step member
          cases fills : step.fills path <;> simp [filled, all, fills, parts]

section Entry

variable {session : Session} {configName : Text} {cache : Cache}

/-- The table that is computed for a path from the files of a session. -/
def tableNow (session : Session) (configName : Text) (path : PathName) : Properties :=
  (Resolution.ofNames session.store.source configName path.names).properties

theorem tableNow_congr {path other : PathName} (isAbsolute : path.isAbsolute = true)
    (same : other.normalize = path.normalize) :
    session.tableNow configName other = session.tableNow configName path := by
  rw [tableNow, tableNow, PathName.names_eq_of_normalize_eq isAbsolute same]

/-- The entry of a path after a step, given the cache before it. -/
def entryAfter (session : Session) (configName : Text) (cache : Cache) (step : Step)
    (path : PathName) : Option Properties :=
  if step.removes path then none
  else (cache.find? path.normalize).or
    (if step.fills path then some (session.tableNow configName path) else none)

/-- A resolution through a client's own cache: a table in the cache is answered, and nothing else
happens; otherwise the table is computed and put into the cache. -/
theorem step_resolve (clients : session.clients = [⟨configName, .own cache⟩]) {path : PathName}
    (isAbsolute : path.isAbsolute = true) :
    session.step (.request 0 (.resolve path)) =
      match cache.find? path.normalize with
      | some table => (session, .table (.ok table))
      | none =>
          let table := session.tableNow configName path
          (⟨session.store.counting
              (Resolution.ofNames session.store.source configName path.names).asked,
            session.sharedCache, [⟨configName, .own (cache.store path.normalize table)⟩]⟩,
            .table (.ok table)) := by
  rw [step, clients]
  simp only [List.getElem?_cons_zero, serve, Session.resolve, isAbsolute, if_true, cacheOf,
    withCache, clients, List.set_cons_zero]
  cases cache.find? path.normalize <;> rfl

theorem step_resolve_of_not_isAbsolute (clients : session.clients = [⟨configName, .own cache⟩])
    {path : PathName} (isRelative : path.isAbsolute = false) :
    session.step (.request 0 (.resolve path)) =
      (session, .table (.error (.relativePath path))) := by
  simp [step, clients, serve, Session.resolve, isRelative]

/-- Without the cache, the files are read and the caches stay as they are. -/
theorem step_resolveUncached (clients : session.clients = [⟨configName, .own cache⟩])
    {path : PathName} (isAbsolute : path.isAbsolute = true) :
    session.step (.request 0 (.resolveUncached path)) =
      ({ session with
          store := session.store.counting
            (Resolution.ofNames session.store.source configName path.names).asked },
        .table (.ok (session.tableNow configName path))) := by
  simp only [step, clients, List.getElem?_cons_zero, serve, Session.resolveUncached,
    Resolution.ofPath, isAbsolute, if_true, tableNow]

theorem step_resolveUncached_of_not_isAbsolute
    (clients : session.clients = [⟨configName, .own cache⟩]) {path : PathName}
    (isRelative : path.isAbsolute = false) :
    session.step (.request 0 (.resolveUncached path)) =
      (session, .table (.error (.relativePath path))) := by
  simp [step, clients, serve, Session.resolveUncached, Resolution.ofPath, isRelative]

theorem clients_step_resolveUncached (clients : session.clients = [⟨configName, .own cache⟩])
    (path : PathName) :
    (session.step (.request 0 (.resolveUncached path))).1.clients = session.clients := by
  cases isAbsolute : path.isAbsolute with
  | true => rw [step_resolveUncached clients isAbsolute]
  | false => rw [step_resolveUncached_of_not_isAbsolute clients isAbsolute]

/-- What a request does to the entries of a client's own cache. -/
theorem exists_cache_serve (clients : session.clients = [⟨configName, .own cache⟩])
    (request : Request) :
    ∃ after, (session.step (.request 0 request)).1.clients = [⟨configName, .own after⟩] ∧
      ∀ path : PathName, path.isAbsolute = true →
        after.find? path.normalize =
          session.entryAfter configName cache (.request 0 request) path := by
  cases request with
  | resolve spelling =>
      by_cases spellingIsAbsolute : spelling.isAbsolute = true
      · rw [step_resolve clients spellingIsAbsolute]
        cases found : cache.find? spelling.normalize with
        | some table =>
            refine ⟨cache, clients, fun path isAbsolute => ?_⟩
            by_cases same : spelling.normalize = path.normalize
            · rw [same] at found
              simp [entryAfter, Step.removes, found]
            · simp [entryAfter, Step.removes, Step.fills, same]
        | none =>
            refine ⟨_, rfl, fun path isAbsolute => ?_⟩
            simp only [Cache.find?_store,
              PathName.parts_normalize_eq_iff isAbsolute spellingIsAbsolute]
            by_cases same : spelling.normalize = path.normalize
            · rw [same] at found
              simp [entryAfter, Step.removes, Step.fills, same, found,
                tableNow_congr isAbsolute same]
            · simp [entryAfter, Step.removes, Step.fills, same, Ne.symm same]
      · rw [step_resolve_of_not_isAbsolute clients (by simpa using spellingIsAbsolute)]
        refine ⟨cache, clients, fun path isAbsolute => ?_⟩
        have different : spelling.normalize ≠ path.normalize := by
          intro same
          apply spellingIsAbsolute
          rw [← PathName.isAbsolute_normalize, same, PathName.isAbsolute_normalize, isAbsolute]
        simp [entryAfter, Step.removes, Step.fills, different]
  | resolveUncached spelling =>
      refine ⟨cache, ?_, fun path _ => by simp [entryAfter, Step.removes, Step.fills]⟩
      rw [clients_step_resolveUncached clients, clients]
  | lookup spelling =>
      refine ⟨cache, ?_, fun path _ => by simp [entryAfter, Step.removes, Step.fills]⟩
      simp [step, clients, serve]
  | invalidate spelling =>
      refine ⟨cache.invalidate spelling, by simp [step, clients, serve, withCache, cacheOf], ?_⟩
      intro path _
      simp [Cache.find?_invalidate, entryAfter, Step.removes, Step.fills,
        eq_comm (a := path.normalize.parts)]
  | invalidateWithin directory =>
      refine ⟨cache.invalidateWithin directory,
        by simp [step, clients, serve, withCache, cacheOf], ?_⟩
      intro path _
      simp [Cache.find?_invalidateWithin, entryAfter, Step.removes, Step.fills]
  | clear =>
      refine ⟨Cache.empty, by simp [step, clients, serve, withCache], fun path _ => ?_⟩
      simp [entryAfter, Step.removes]

/-- What a step does to the entries of a client's own cache. -/
theorem exists_cache_step (clients : session.clients = [⟨configName, .own cache⟩])
    (step : Step) :
    ∃ after, (session.step step).1.clients = [⟨configName, .own after⟩] ∧
      ∀ path : PathName, path.isAbsolute = true →
        after.find? path.normalize = session.entryAfter configName cache step path := by
  cases step with
  | request index request =>
      cases index with
      | zero => exact exists_cache_serve clients request
      | succ index =>
          refine ⟨cache, by simp [Session.step, clients], fun path _ => ?_⟩
          simp [entryAfter, Step.removes, Step.fills]
  | _ => exact ⟨cache, clients, fun path _ => by simp [entryAfter, Step.removes, Step.fills]⟩

end Entry

/-- After a run, the cache has for every path the table of the filling moment. -/
theorem exists_cache_run (store : FileStore) (configName : Text) (steps : List Step) :
    ∃ cache, ((ofStore store configName).run steps).clients = [⟨configName, .own cache⟩] ∧
      ∀ path : PathName, path.isAbsolute = true →
        cache.find? path.normalize = (fillingMoment? path steps).map fun earlier =>
          ((ofStore store configName).run earlier).tableNow configName path := by
  induction steps using List.reverseRecOn with
  | nil => exact ⟨Cache.empty, rfl, fun path _ => rfl⟩
  | append_singleton steps step ih =>
      rcases ih with ⟨cache, clients, entries⟩
      rcases exists_cache_step clients step with ⟨after, afterClients, afterEntries⟩
      refine ⟨after, by rw [run_concat, afterClients], fun path isAbsolute => ?_⟩
      rw [afterEntries path isAbsolute, entryAfter, entries path isAbsolute,
        fillingMoment?_concat]
      cases step.removes path <;> cases step.fills path <;>
        cases fillingMoment? path steps <;> rfl

/-- A resolution through a cache answers what would have been computed at the moment that filled
the entry of the path. It reads nothing and changes nothing if the path has an entry, and adds this
one entry if it has none. Without the cache nothing is left in it, and relative paths are refused. -/
theorem resolve_eq_resolveUncached_at_fillingMoment (store : FileStore) (configName : Text)
    (before : List Step) (path : PathName) :
    let session := (ofStore store configName).run before
    let resolution := Step.request 0 (.resolve path)
    let uncached := Step.request 0 (.resolveUncached path)
    ∃ cache, session.clients = [⟨configName, .own cache⟩] ∧
      (path.isAbsolute = true →
        (∃ earlier table, fillingMoment? path (before ++ [resolution]) = some earlier ∧
          (session.step resolution).2 = .table (.ok table) ∧
          (((ofStore store configName).run earlier).step uncached).2 = .table (.ok table)) ∧
        (∀ table, cache.find? path.normalize = some table → ∀ files : FileStore,
          ({ session with store := files } : Session).step resolution =
            ({ session with store := files }, .table (.ok table))) ∧
        (cache.find? path.normalize = none →
          ∃ after table, (session.step resolution).1.clients = [⟨configName, .own after⟩] ∧
            after.size = cache.size + 1 ∧
            ∀ wanted, after.find? wanted =
              if wanted.parts = path.normalize.parts then some table else cache.find? wanted)) ∧
      (session.step uncached).1.clients = session.clients ∧
      (path.isAbsolute = false →
        session.step resolution = (session, .table (.error (.relativePath path))) ∧
          session.step uncached = (session, .table (.error (.relativePath path)))) := by
  intro session resolution uncached
  rcases exists_cache_run store configName before with ⟨cache, clients, entries⟩
  refine ⟨cache, clients, fun isAbsolute => ⟨?_, ?_, ?_⟩, ?_, fun isRelative => ⟨?_, ?_⟩⟩
  · have filled := fillingMoment?_concat path before resolution
    rw [step_resolve clients isAbsolute, entries path isAbsolute, filled]
    cases moment : fillingMoment? path before with
    | some earlier =>
        rcases exists_cache_run store configName earlier with ⟨earlierCache, earlierClients, -⟩
        exact ⟨earlier, _, rfl, rfl,
          by rw [step_resolveUncached earlierClients isAbsolute]⟩
    | none =>
        exact ⟨before, _, by simp [resolution, Step.removes, Step.fills], rfl,
          by rw [step_resolveUncached clients isAbsolute]⟩
  · intro table found files
    have others : ({ session with store := files } : Session).clients = _ := clients
    rw [step_resolve others isAbsolute, found]
  · intro missing
    rw [step_resolve clients isAbsolute, missing]
    exact ⟨_, session.tableNow configName path, rfl, OrderedMap.size_insert _ missing,
      fun wanted => Cache.find?_store ..⟩
  · exact clients_step_resolveUncached clients path
  · exact step_resolve_of_not_isAbsolute clients isRelative
  · exact step_resolveUncached_of_not_isAbsolute clients isRelative

/-- The entry of a path is taken away under another spelling, and filled again before the config
file changes once more: the table that is answered shows the file in between. -/
theorem resolve_eq_resolveUncached_at_fillingMoment_changedTwice :
    let store := FileStore.empty.insert (.ofText "/a/.e".toList) "k=1".toList
    let configName := ".e".toList
    let path := PathName.ofText "/a/c/../f".toList
    let earlier : List Step :=
      [.request 0 (.resolve (.ofText "/a/f".toList)),
        .insert (.ofText "/a/.e".toList) "k=2".toList,
        .request 0 (.invalidate (.ofText "/a/./f".toList))]
    let before : List Step := earlier ++
      [.request 0 (.resolve (.ofText "/a//f".toList)),
        .insert (.ofText "/a/.e".toList) "k=3".toList]
    let session := (ofStore store configName).run before
    path.isAbsolute = true ∧
      ∃ table, (session.step (.request 0 (.resolve path))).2 = .table (.ok table) ∧
        (((ofStore store configName).run earlier).step (.request 0 (.resolveUncached path))).2 =
          .table (.ok table) ∧
        table.get? "k".toList = some (.integer 2) := by
  intro store configName path earlier before session
  have isAbsolute : path.isAbsolute = true := by decide
  rcases resolve_eq_resolveUncached_at_fillingMoment store configName before path with
    ⟨cache, -, absolute, -⟩
  rcases (absolute isAbsolute).1 with ⟨moment, table, filled, answered, shown⟩
  have isEarlier : fillingMoment? path (before ++ [.request 0 (.resolve path)]) = some earlier := by
    decide
  rcases Option.some.inj (filled.symm.trans isEarlier) with rfl
  refine ⟨isAbsolute, table, answered, shown, ?_⟩
  have computed : (((ofStore store configName).run earlier).step
      (.request 0 (.resolveUncached path))).2 =
        .table (.ok (((ofStore store configName).run earlier).tableNow configName path)) := rfl
  rw [Except.ok.inj (Answer.table.inj (shown.symm.trans computed))]
  decide +kernel

end Session

end PropertyCascade
