import PropertyCascade.Proofs.Session.History

/-!
# Sharing a cache

A cache is keyed by paths alone, while a table also depends on the name of the config files. When
clients with different config names share a cache, the table under a path is therefore that of the
client which asks for the path first, and every later client is given the same one. Clients with
the same config name do not disturb each other.

The invariant of a run says of every path, in whatever spelling, which table the shared cache has:
that of the first call with the same normal form.
-/

namespace PropertyCascade

namespace Session

/-- Clients with given config names over a store, which share a cache. -/
def sharing (store : FileStore) (configNames : List Text) : Session :=
  ⟨store, Cache.empty, configNames.map fun configName => ⟨configName, .shared⟩⟩

/-- A resolution of a path by one of several clients. -/
structure Call (clientCount : Nat) where
  client : Fin clientCount
  path : PathName

namespace Call

variable {clientCount : Nat}

def toStep (call : Call clientCount) : Step :=
  .request call.client (.resolve call.path)

/-- The first call for a path, in whatever spelling. -/
def first? (calls : List (Call clientCount)) (path : PathName) : Option (Call clientCount) :=
  calls.find? fun call => call.path.normalize = path.normalize

theorem first?_concat_of_same {calls : List (Call clientCount)} {call : Call clientCount}
    {path : PathName} (same : call.path.normalize = path.normalize) :
    first? (calls ++ [call]) path = (first? calls path).or (some call) := by
  simp [first?, same]

theorem first?_concat_of_ne {calls : List (Call clientCount)} {call : Call clientCount}
    {path : PathName} (different : call.path.normalize ≠ path.normalize) :
    first? (calls ++ [call]) path = first? calls path := by
  simp [first?, different]

end Call

section Sharing

variable {store : FileStore} {configNames : List Text}

/-- The table that a client of several computes for a path. -/
def tableOf (store : FileStore) (configNames : List Text) (path : PathName)
    (client : Fin configNames.length) : Properties :=
  (Resolution.ofNames store.source configNames[client] path.names).properties

theorem tableOf_congr {path other : PathName} (isAbsolute : path.isAbsolute = true)
    (same : other.normalize = path.normalize) (client : Fin configNames.length) :
    tableOf store configNames other client = tableOf store configNames path client := by
  rw [tableOf, tableOf, PathName.names_eq_of_normalize_eq isAbsolute same]

/-- The invariant of a run of calls: the files and the clients are as at the start, and the shared
cache has for each path the table of the client that asked for it first. -/
structure IsShared (store : FileStore) (configNames : List Text)
    (calls : List (Call configNames.length)) (session : Session) : Prop where
  source : session.store.source = store.source
  clients : session.clients = (sharing store configNames).clients
  tables : ∀ path : PathName, path.isAbsolute = true →
    session.sharedCache.find? path.normalize =
      (Call.first? calls path).map fun first => tableOf store configNames path first.client

theorem isShared_sharing : IsShared store configNames [] (sharing store configNames) :=
  ⟨rfl, rfl, fun _ _ => rfl⟩

variable {calls : List (Call configNames.length)} {session : Session}

theorem IsShared.getElem?_clients (shared : IsShared store configNames calls session)
    (client : Fin configNames.length) :
    session.clients[client.val]? = some ⟨configNames[client], .shared⟩ := by
  simp [shared.clients, sharing]

/-- A client is given the table that is in the cache, or else the one that it computes and leaves
there. -/
theorem IsShared.step_eq (shared : IsShared store configNames calls session)
    {call : Call configNames.length} (isAbsolute : call.path.isAbsolute = true) :
    session.step call.toStep =
      match Call.first? calls call.path with
      | some first => (session, .table (.ok (tableOf store configNames call.path first.client)))
      | none =>
          let table := tableOf store configNames call.path call.client
          ({ session with
              store := session.store.counting
                (Resolution.ofNames store.source configNames[call.client] call.path.names).asked
              sharedCache := session.sharedCache.store call.path.normalize table },
            .table (.ok table)) := by
  simp only [Call.toStep, Session.step, shared.getElem?_clients, serve, Session.resolve,
    isAbsolute, if_true, cacheOf, withCache, shared.tables call.path isAbsolute, shared.source]
  cases Call.first? calls call.path <;> rfl

/-- One call more: the first calls stay what they were, and a path that was not asked for before
has its table from now on. -/
theorem IsShared.step (shared : IsShared store configNames calls session)
    (call : Call configNames.length) :
    IsShared store configNames (calls ++ [call]) (session.step call.toStep).1 := by
  by_cases isAbsolute : call.path.isAbsolute = true
  case neg =>
    have unchanged : (session.step call.toStep).1 = session := by
      simp [Call.toStep, Session.step, shared.getElem?_clients, serve, Session.resolve,
        isAbsolute]
    rw [unchanged]
    refine ⟨shared.source, shared.clients, fun path pathIsAbsolute => ?_⟩
    have different : call.path.normalize ≠ path.normalize := by
      intro same
      apply isAbsolute
      rw [← PathName.isAbsolute_normalize, same, PathName.isAbsolute_normalize, pathIsAbsolute]
    rw [Call.first?_concat_of_ne different, shared.tables path pathIsAbsolute]
  case pos =>
    rw [shared.step_eq isAbsolute]
    cases found : Call.first? calls call.path with
    | some first =>
        refine ⟨shared.source, shared.clients, fun path pathIsAbsolute => ?_⟩
        rw [shared.tables path pathIsAbsolute]
        by_cases same : call.path.normalize = path.normalize
        · have earlier : Call.first? calls path = some first := by
            rw [← found, Call.first?, Call.first?, same]
          rw [Call.first?_concat_of_same same, earlier, Option.some_or]
        · rw [Call.first?_concat_of_ne same]
    | none =>
        -- The table is left under the normal form, so it is found for every spelling of the path.
        refine ⟨shared.source, shared.clients, fun path pathIsAbsolute => ?_⟩
        simp only [Cache.find?_store, PathName.parts_normalize_eq_iff pathIsAbsolute isAbsolute,
          shared.tables path pathIsAbsolute]
        by_cases same : call.path.normalize = path.normalize
        · have notEarlier : Call.first? calls path = none := by
            rw [← found, Call.first?, Call.first?, same]
          rw [if_pos same.symm, Call.first?_concat_of_same same, notEarlier, Option.none_or,
            Option.map_some, tableOf_congr pathIsAbsolute same]
        · rw [if_neg (Ne.symm same), Call.first?_concat_of_ne same]

theorem isShared_run (store : FileStore) (configNames : List Text)
    (calls : List (Call configNames.length)) :
    IsShared store configNames calls
      ((sharing store configNames).run (calls.map Call.toStep)) := by
  induction calls using List.reverseRecOn with
  | nil => exact isShared_sharing
  | append_singleton calls call ih =>
      rw [List.map_append, List.map_singleton, run_concat]
      exact ih.step call

theorem IsShared.resolveUncached_eq (shared : IsShared store configNames calls session)
    (client : Fin configNames.length) {path : PathName} (isAbsolute : path.isAbsolute = true) :
    (session.step (.request client (.resolveUncached path))).2 =
      .table (.ok (tableOf store configNames path client)) := by
  simp only [Session.step, shared.getElem?_clients, serve, Session.resolveUncached,
    Resolution.ofPath, isAbsolute, if_true, shared.source, tableOf]

end Sharing

/-- Over files that do not change, every resolution through a shared cache gives the table of the
client that was the first to ask for the path, in whatever spelling; a client with the same config
name is thus given its own table. -/
theorem resolve_eq_resolveUncached_of_first (store : FileStore) (configNames : List Text)
    (before : List (Call configNames.length)) (call : Call configNames.length)
    (isAbsolute : call.path.isAbsolute = true) :
    let session := (sharing store configNames).run (before.map Call.toStep)
    ∃ first table, Call.first? (before ++ [call]) call.path = some first ∧
      (session.step (.request call.client (.resolve call.path))).2 = .table (.ok table) ∧
      (session.step (.request first.client (.resolveUncached call.path))).2 =
        .table (.ok table) ∧
      (configNames[first.client] = configNames[call.client] →
        (session.step (.request call.client (.resolveUncached call.path))).2 =
          .table (.ok table)) := by
  intro session
  have shared : IsShared store configNames before session := isShared_run store configNames before
  have concat : Call.first? (before ++ [call]) call.path =
      (Call.first? before call.path).or (some call) := Call.first?_concat_of_same rfl
  have someFirst : ∃ first, Call.first? (before ++ [call]) call.path = some first ∧
      (session.step call.toStep).2 =
        .table (.ok (tableOf store configNames call.path first.client)) := by
    rw [concat, shared.step_eq isAbsolute]
    cases Call.first? before call.path with
    | some first => exact ⟨first, rfl, rfl⟩
    | none => exact ⟨call, rfl, rfl⟩
  rcases someFirst with ⟨first, isFirst, answered⟩
  refine ⟨first, _, isFirst, answered, shared.resolveUncached_eq first.client isAbsolute, ?_⟩
  intro sameName
  rw [shared.resolveUncached_eq call.client isAbsolute, tableOf, tableOf, sameName]

/-- A directory with a config file of either name. -/
def twoConfigNames : FileStore :=
  (FileStore.empty.insert (.ofText "/a/.e".toList) "k=1".toList).insert
    (.ofText "/a/.f".toList) "k=2".toList

theorem resolve_eq_resolveUncached_of_first_twoConfigNames :
    let configNames := [".e".toList, ".f".toList]
    let before : List (Call configNames.length) :=
      [⟨⟨0, by decide⟩, .ofText "/b".toList⟩, ⟨⟨1, by decide⟩, .ofText "/a/c/../f".toList⟩]
    let call : Call configNames.length := ⟨⟨0, by decide⟩, .ofText "/a//f".toList⟩
    let session := (sharing twoConfigNames configNames).run (before.map Call.toStep)
    call.path.isAbsolute = true ∧
      ∃ table, (session.step (.request 0 (.resolve call.path))).2 = .table (.ok table) ∧
        (session.step (.request 1 (.resolveUncached call.path))).2 = .table (.ok table) := by
  intro configNames before call session
  have isAbsolute : call.path.isAbsolute = true := by decide
  rcases resolve_eq_resolveUncached_of_first twoConfigNames configNames before call isAbsolute with
    ⟨first, table, isFirst, answered, own, -⟩
  have client : (Call.first? (before ++ [call]) call.path).map Call.client =
      some ⟨1, by decide⟩ := by decide
  rw [isFirst] at client
  have firstClient : first.client = ⟨1, by decide⟩ := Option.some.inj client
  rw [firstClient] at own
  exact ⟨isAbsolute, table, answered, own⟩

/-- A client is given the table of another client that has a different config name. -/
theorem resolve_ne_resolveUncached_twoConfigNames :
    let path := PathName.ofText "/a/f".toList
    let session := (sharing twoConfigNames [".e".toList, ".f".toList]).run
      [.request 0 (.resolve path)]
    path.isAbsolute = true ∧
      ∃ table own, (session.step (.request 1 (.resolve path))).2 = .table (.ok table) ∧
        (session.step (.request 1 (.resolveUncached path))).2 = .table (.ok own) ∧
        table ≠ own := by
  intro path session
  refine ⟨by decide, _, _, rfl, rfl, ?_⟩
  decide +kernel

end Session

end PropertyCascade
