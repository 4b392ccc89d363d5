import PropertyCascade.Cache.Lemmas
import PropertyCascade.Proofs.Resolution.Dependence
import PropertyCascade.Session

/-!
# Invalidation

A client with a cache of its own is never given an outdated table, as long as every change of a
config file is followed, before the next resolution, by forgetting the tables at or below the
directory of that file. Changes of other files need nothing of this kind.

The invariant of a run says of each table in the cache that it is the one that would be computed
now, unless a directory at or above its path is stale, that is, its config file has changed and
the tables below it have not been forgotten since. It holds after every run, whether or not
changes are followed up; where they are, no directory is stale when a path is resolved.
-/

namespace PropertyCascade

namespace Session

/-- A session over a store with one client, whose cache is empty. -/
def ofStore (store : FileStore) (configName : Text) : Session :=
  ⟨store, Cache.empty, [⟨configName, .own Cache.empty⟩]⟩

namespace Step

/-- The path at which a step changes the files. -/
def changed? : Step → Option PathName
  | insert path _ => some path
  | remove path => some path
  | deny path _ => some path
  | allow path => some path
  | request _ _ => none

/-- The step changes the config file in a directory. -/
def ChangesConfig (configName : Text) (directory : PathName) (step : Step) : Prop :=
  ∃ path, step.changed? = some path ∧
    path.parts = (directory.join (PathName.ofText configName)).parts

/-- The step forgets the tables at or below a directory. -/
def Invalidates (directory : PathName) (step : Step) : Prop :=
  ∃ spelling : PathName, spelling.parts = directory.parts ∧
    step = request 0 (.invalidateWithin spelling)

end Step

/-- Between a change of the config file in a directory and the next resolution, the tables at or
below that directory are forgotten. -/
def InvalidatesChanges (configName : Text) (steps : List Step) : Prop :=
  ∀ before change between path after (directory : PathName),
    steps = before ++ change :: between ++ .request 0 (.resolve path) :: after →
      directory.isAbsolute = true → Segment.up ∉ directory.parts →
        change.ChangesConfig configName directory →
          ∃ step ∈ between, step.Invalidates directory

/-- The config file in a directory has changed and the tables at or below the directory have not
been forgotten since. -/
def IsStale (configName : Text) (steps : List Step) (directory : PathName) : Prop :=
  ∃ before change between, steps = before ++ change :: between ∧
    change.ChangesConfig configName directory ∧ ∀ step ∈ between, ¬step.Invalidates directory

theorem isStale_concat_of_changesConfig {configName : Text} {steps : List Step} {step : Step}
    {directory : PathName} (changes : step.ChangesConfig configName directory) :
    IsStale configName (steps ++ [step]) directory :=
  ⟨steps, step, [], rfl, changes, by simp⟩

theorem IsStale.concat {configName : Text} {steps : List Step} {directory : PathName}
    (stale : IsStale configName steps directory) {step : Step}
    (kept : ¬step.Invalidates directory) : IsStale configName (steps ++ [step]) directory := by
  rcases stale with ⟨before, change, between, rfl, changes, noneKept⟩
  refine ⟨before, change, between ++ [step], by simp, changes, fun other member => ?_⟩
  rcases List.mem_append.mp member with earlier | last
  · exact noneKept other earlier
  · rw [List.mem_singleton.mp last]
    exact kept

/-- A table is accounted for if it is the one that would be computed now, or if a directory at or
above its path is stale. -/
def IsAccounted (configName : Text) (steps : List Step) (source : FileSource)
    (parts : List Segment) (table : Properties) : Prop :=
  ∃ names, parts = Segment.root :: names ∧ (∀ name ∈ names, name.IsProper) ∧
    (table = (Resolution.ofNames source configName names).properties ∨
      ∃ directory, directory <+: names ∧ IsStale configName steps (.absolute directory))

/-- Every table in a cache is accounted for. -/
def AllAccounted (configName : Text) (steps : List Step) (source : FileSource)
    (cache : Cache) : Prop :=
  ∀ parts table, cache.tables.get? parts = some table →
    IsAccounted configName steps source parts table

/-- The invariant of a run: there is one client, and every table in its cache is accounted for. -/
def IsSound (configName : Text) (steps : List Step) (session : Session) : Prop :=
  ∃ cache, session.clients = [⟨configName, .own cache⟩] ∧
    AllAccounted configName steps session.store.source cache

section Change

variable {configName : Text} {steps : List Step} {step : Step} {path : PathName}

theorem exists_store_of_changed? (session : Session) (changed : step.changed? = some path) :
    ∃ store, (session.step step).1 = { session with store := store } ∧
      ∀ wanted : PathName, wanted.parts ≠ path.parts →
        store.source wanted = session.store.source wanted := by
  cases step with
  | insert changedPath text =>
      rcases Option.some.inj changed with rfl
      exact ⟨_, rfl, fun _ different => session.store.source_insert_of_ne text different⟩
  | remove changedPath =>
      rcases Option.some.inj changed with rfl
      exact ⟨_, rfl, fun _ different => session.store.source_remove_of_ne different⟩
  | deny changedPath failure =>
      rcases Option.some.inj changed with rfl
      exact ⟨_, rfl, fun _ different => session.store.source_deny_of_ne failure different⟩
  | allow changedPath =>
      rcases Option.some.inj changed with rfl
      exact ⟨_, rfl, fun _ different => session.store.source_allow_of_ne different⟩
  | request index request => simp [Step.changed?] at changed

theorem not_invalidates_of_changed? (changed : step.changed? = some path) (directory : PathName) :
    ¬step.Invalidates directory := by
  intro invalidates
  rcases invalidates with ⟨spelling, -, rfl⟩
  simp [Step.changed?] at changed

/-- After a change, a table is either still current or a directory above it is stale. -/
theorem IsAccounted.change {source after : FileSource} {parts : List Segment} {table : Properties}
    (accounted : IsAccounted configName steps source parts table)
    (changed : step.changed? = some path)
    (unchanged : ∀ wanted : PathName, wanted.parts ≠ path.parts → after wanted = source wanted) :
    IsAccounted configName (steps ++ [step]) after parts table := by
  rcases accounted with ⟨names, partsEq, proper, current | ⟨directory, above, stale⟩⟩
  · refine ⟨names, partsEq, proper, ?_⟩
    by_cases touched : ∃ directory, directory <+: names ∧
        path.parts = (Ascent.configPath configName directory).parts
    · rcases touched with ⟨directory, above, same⟩
      exact Or.inr ⟨directory, above, isStale_concat_of_changesConfig ⟨path, changed, same⟩⟩
    · left
      have agree : Resolution.ofNames after configName names =
          Resolution.ofNames source configName names := by
        apply Resolution.ofNames_congr
        intro directory above
        apply unchanged
        intro same
        exact touched ⟨directory, above, same.symm⟩
      rw [current, agree]
  · exact ⟨names, partsEq, proper, Or.inr ⟨directory, above,
      stale.concat (not_invalidates_of_changed? changed _)⟩⟩

end Change

section Request

variable {configName : Text} {steps : List Step} {step : Step} {source : FileSource}

theorem IsAccounted.concat {parts : List Segment} {table : Properties}
    (accounted : IsAccounted configName steps source parts table)
    (kept : ∀ directory, directory.parts <+: parts → ¬step.Invalidates directory) :
    IsAccounted configName (steps ++ [step]) source parts table := by
  rcases accounted with ⟨names, rfl, proper, current | ⟨directory, above, stale⟩⟩
  · exact ⟨names, rfl, proper, Or.inl current⟩
  · refine ⟨names, rfl, proper, Or.inr ⟨directory, above, stale.concat (kept _ ?_)⟩⟩
    rw [PathName.parts_absolute fun name member => proper name (above.subset member)]
    exact List.prefix_cons_inj _ |>.mpr above

theorem AllAccounted.concat {cache : Cache} (accounted : AllAccounted configName steps source cache)
    (kept : ∀ directory, ¬step.Invalidates directory) :
    AllAccounted configName (steps ++ [step]) source cache :=
  fun parts table found => (accounted parts table found).concat fun directory _ => kept directory

theorem allAccounted_empty : AllAccounted configName steps source Cache.empty := by
  intro parts table found
  simp [Cache.empty] at found

theorem AllAccounted.store {cache : Cache} (accounted : AllAccounted configName steps source cache)
    {path : PathName} (isAbsolute : path.isAbsolute = true) :
    AllAccounted configName steps source
      (cache.store path.normalize
        (Resolution.ofNames source configName path.names).properties) := by
  intro parts table found
  rw [Cache.store, OrderedMap.get?_insert] at found
  split at found
  case isTrue same =>
    refine ⟨path.names, ?_, fun _ => PathName.isProper_of_mem_names,
      Or.inl (Option.some.inj found).symm⟩
    rw [Std.LawfulEqCmp.compare_eq_iff_eq.mp same, PathName.parts_normalize isAbsolute]
  case isFalse => exact accounted parts table found

theorem AllAccounted.invalidate {cache : Cache}
    (accounted : AllAccounted configName steps source cache) (path : PathName) :
    AllAccounted configName steps source (cache.invalidate path) := by
  intro parts table found
  rw [Cache.invalidate, OrderedMap.get?_erase] at found
  split at found
  case isTrue => simp at found
  case isFalse => exact accounted parts table found

/-- Forgetting the tables below a directory ends that directory's being stale, and leaves no table
that depends on it. -/
theorem AllAccounted.invalidateWithin {cache : Cache}
    (accounted : AllAccounted configName steps source cache) (directory : PathName) :
    AllAccounted configName (steps ++ [.request 0 (.invalidateWithin directory)]) source
      (cache.invalidateWithin directory) := by
  intro parts table found
  rw [Cache.invalidateWithin, OrderedMap.get?_filterKeys] at found
  split at found
  case isTrue outside =>
    apply (accounted parts table found).concat
    intro other above invalidates
    rcases invalidates with ⟨spelling, same, stepEq⟩
    obtain rfl : directory = spelling := by simpa using stepEq
    rw [← same] at above
    simp [List.isPrefixOf_iff_prefix.mpr above] at outside
  case isFalse => simp at found

theorem isSound_serve {session : Session} {cache : Cache}
    (clients : session.clients = [⟨configName, .own cache⟩])
    (accounted : AllAccounted configName steps session.store.source cache) (request : Request) :
    IsSound configName (steps ++ [.request 0 request])
      (session.serve 0 ⟨configName, .own cache⟩ request).1 := by
  have notInvalidating (other : ∀ directory, request ≠ .invalidateWithin directory)
      (directory : PathName) : ¬(Step.request 0 request).Invalidates directory := by
    intro invalidates
    rcases invalidates with ⟨spelling, -, stepEq⟩
    exact other spelling (by simpa using stepEq)
  cases request with
  | resolve path =>
      have kept := accounted.concat (notInvalidating (by simp))
      rw [serve, Session.resolve]
      by_cases isAbsolute : path.isAbsolute = true
      · rw [if_pos isAbsolute]
        cases found : cache.find? path.normalize with
        | some table => simpa only [cacheOf, found] using ⟨cache, clients, kept⟩
        | none =>
            simp only [cacheOf, found, withCache, clients]
            exact ⟨_, rfl, kept.store isAbsolute⟩
      · rw [if_neg isAbsolute]
        exact ⟨cache, clients, kept⟩
  | resolveUncached path =>
      have kept := accounted.concat (notInvalidating (by simp))
      rw [serve, Session.resolveUncached]
      cases Resolution.ofPath session.store.source configName path with
      | error failure => exact ⟨cache, clients, kept⟩
      | ok resolution => exact ⟨cache, clients, kept⟩
  | lookup path => exact ⟨cache, clients, accounted.concat (notInvalidating (by simp))⟩
  | invalidate path =>
      refine ⟨cache.invalidate path, ?_, ?_⟩
      · simp [serve, withCache, cacheOf, clients]
      · exact (accounted.concat (notInvalidating (by simp))).invalidate path
  | invalidateWithin directory =>
      refine ⟨cache.invalidateWithin directory, ?_, accounted.invalidateWithin directory⟩
      simp [serve, withCache, cacheOf, clients]
  | clear =>
      refine ⟨Cache.empty, ?_, allAccounted_empty⟩
      simp [serve, withCache, clients]

end Request

/-- Each step keeps the invariant. -/
theorem IsSound.step {configName : Text} {steps : List Step} {session : Session}
    (sound : IsSound configName steps session) (step : Step) :
    IsSound configName (steps ++ [step]) (session.step step).1 := by
  rcases sound with ⟨cache, clients, accounted⟩
  cases changed : step.changed? with
  | some path =>
      rcases exists_store_of_changed? session changed with ⟨store, stepEq, unchanged⟩
      rw [stepEq]
      exact ⟨cache, clients, fun parts table found =>
        (accounted parts table found).change changed unchanged⟩
  | none =>
      cases step with
      | request index request =>
          rw [Session.step, clients]
          cases index with
          | zero => exact isSound_serve clients accounted request
          | succ index =>
              refine ⟨cache, clients, accounted.concat ?_⟩
              intro directory invalidates
              rcases invalidates with ⟨spelling, -, stepEq⟩
              simp at stepEq
      | _ => simp [Step.changed?] at changed

/-- The invariant holds after every run. -/
theorem isSound_run (store : FileStore) (configName : Text) (steps : List Step) :
    IsSound configName steps ((ofStore store configName).run steps) := by
  induction steps using List.reverseRecOn with
  | nil => exact ⟨Cache.empty, rfl, allAccounted_empty⟩
  | append_singleton steps step ih =>
      have last : (ofStore store configName).run (steps ++ [step]) =
          (((ofStore store configName).run steps).step step).1 := by
        simp [run]
      rw [last]
      exact ih.step step

/-- Where every change is followed up, no directory is stale when a path is resolved. -/
theorem InvalidatesChanges.not_isStale {configName : Text} {before after : List Step}
    {path : PathName}
    (followed : InvalidatesChanges configName (before ++ .request 0 (.resolve path) :: after))
    {directory : PathName} (isAbsolute : directory.isAbsolute = true)
    (noUp : Segment.up ∉ directory.parts) : ¬IsStale configName before directory := by
  intro pending
  rcases pending with ⟨earlier, change, between, rfl, changes, kept⟩
  rcases followed earlier change between path after directory rfl isAbsolute noUp changes with
    ⟨step, member, invalidates⟩
  exact kept step member invalidates

/-- In a run that follows up every change of a config file, resolving an absolute path gives the
table that is computed without the cache. -/
theorem resolve_eq_resolveUncached (store : FileStore) {configName : Text}
    {before after : List Step} {path : PathName}
    (followed : InvalidatesChanges configName (before ++ .request 0 (.resolve path) :: after))
    (isAbsolute : path.isAbsolute = true) :
    ∃ table,
      (((ofStore store configName).run before).step (.request 0 (.resolve path))).2 =
          .table (.ok table) ∧
        (((ofStore store configName).run before).step (.request 0 (.resolveUncached path))).2 =
          .table (.ok table) := by
  rcases isSound_run store configName before with ⟨cache, clients, accounted⟩
  generalize (ofStore store configName).run before = session at clients accounted
  refine ⟨(Resolution.ofNames session.store.source configName path.names).properties, ?_, ?_⟩
  · rw [Session.step, clients]
    simp only [List.getElem?_cons_zero, serve, Session.resolve, isAbsolute, if_true, cacheOf]
    cases found : cache.find? path.normalize with
    | none => rfl
    | some table =>
        rcases accounted _ table found with
          ⟨names, parts, proper, current | ⟨directory, above, stale⟩⟩
        · rw [PathName.parts_normalize isAbsolute] at parts
          rcases List.cons.inj parts with ⟨-, rfl⟩
          rw [current]
        · have directoryProper : ∀ name ∈ directory, name.IsProper :=
            fun name member => proper name (above.subset member)
          refine absurd stale (followed.not_isStale (PathName.isAbsolute_absolute directory) ?_)
          rw [PathName.parts_absolute directoryProper, List.mem_cons, not_or]
          exact ⟨by decide, fun member => (directoryProper _ member).ne_up rfl⟩
  · rw [Session.step, clients]
    simp only [List.getElem?_cons_zero, serve, Session.resolveUncached, Resolution.ofPath,
      isAbsolute, if_true]

/-- A file that was resolved before is resolved again, in another spelling, after the config file
above it has changed and the tables below that directory have been forgotten. -/
theorem resolve_eq_resolveUncached_after_insert :
    let configName := ".e".toList
    let store := FileStore.empty.insert (.ofText "/a/.e".toList) "k=old".toList
    let before : List Step := [.request 0 (.resolve (.ofText "/a/b/f".toList)),
      .insert (.ofText "/a/.e".toList) "k=new".toList,
      .request 0 (.invalidateWithin (.ofText "/a/.".toList))]
    let path := PathName.ofText "/a/c/../b/f".toList
    InvalidatesChanges configName (before ++ .request 0 (.resolve path) :: []) ∧
      path.isAbsolute = true ∧
      ∃ table,
        (((ofStore store configName).run before).step (.request 0 (.resolve path))).2 =
            .table (.ok table) ∧
          (((ofStore store configName).run before).step (.request 0 (.resolveUncached path))).2 =
            .table (.ok table) := by
  intro configName store before path
  have followed : InvalidatesChanges configName (before ++ .request 0 (.resolve path) :: []) := by
    intro earlier change between resolved after directory steps isAbsolute _ changes
    rcases changes with ⟨changedPath, changed, parts⟩
    rw [PathName.parts_join isAbsolute (by decide)] at parts
    rcases earlier with _ | ⟨_, _ | ⟨_, _ | ⟨_, _ | ⟨_, _⟩⟩⟩⟩ <;>
      simp only [before, List.nil_append, List.cons_append, List.cons.injEq, List.append_assoc]
        at steps
    case nil => simp [← steps.1, Step.changed?] at changed
    case cons.nil =>
      rcases steps with ⟨-, rfl, rest⟩
      rcases Option.some.inj changed with rfl
      have directoryParts : (PathName.ofText "/a/.".toList).parts = directory.parts :=
        List.append_cancel_right ((by decide : _ = _).trans parts)
      cases between with
      | nil => simp at rest
      | cons step others =>
          rcases List.cons.inj rest with ⟨rfl, -⟩
          exact ⟨_, List.mem_cons_self, _, directoryParts, rfl⟩
    case cons.cons.nil => simp [← steps.2.2.1, Step.changed?] at changed
    case cons.cons.cons.nil => simp [← steps.2.2.2.1, Step.changed?] at changed
    case cons.cons.cons.cons => simp at steps
  have isAbsolute : path.isAbsolute = true := by decide
  exact ⟨followed, isAbsolute, resolve_eq_resolveUncached store followed isAbsolute⟩

end Session

end PropertyCascade
