import Mathlib.Data.List.Induction
import PropertyCascade.Cache.Lemmas
import PropertyCascade.Proofs.PathName
import PropertyCascade.Session

/-!
# Where cached tables come from

However many clients there are, whichever of them share a cache, and whatever becomes of the files:
a table in a cache is one that some client would have computed for its path at an earlier moment of
the run. One step adds at most the table that it computes itself, and all other operations on
caches only take tables away.
-/

namespace PropertyCascade

namespace Session

/-- The caches in use. -/
def caches (session : Session) : List Cache :=
  session.sharedCache :: session.clients.map session.cacheOf

/-- Some cache has a table under given parts. -/
def Remembers (session : Session) (parts : List Segment) (table : Properties) : Prop :=
  ∃ cache ∈ session.caches, cache.tables.get? parts = some table

/-- Some client would compute a table for given parts from the files as they are. -/
def Computes (session : Session) (parts : List Segment) (table : Properties) : Prop :=
  ∃ client ∈ session.clients, ∃ names, parts = Segment.root :: names ∧
    table = (Resolution.ofNames session.store.source client.configName names).properties

theorem cacheOf_mem_caches {session : Session} {index : Nat} {client : Client}
    (known : session.clients[index]? = some client) : session.cacheOf client ∈ session.caches :=
  List.mem_cons_of_mem _ (List.mem_map_of_mem (List.mem_of_getElem? known))

theorem mem_caches_withCache {session : Session} {index : Nat} {client : Client}
    {cache wanted : Cache} (member : wanted ∈ (session.withCache index client cache).caches) :
    wanted = cache ∨ wanted ∈ session.caches := by
  rw [withCache] at member
  split at member
  case h_1 =>
    rcases List.mem_cons.mp member with shared | own
    · exact Or.inr (List.mem_cons.mpr (Or.inl shared))
    · rcases List.mem_map.mp own with ⟨other, otherMember, rfl⟩
      rcases List.mem_or_eq_of_mem_set otherMember with unchanged | rfl
      · exact Or.inr (List.mem_cons_of_mem _ (List.mem_map_of_mem unchanged))
      · exact Or.inl rfl
  case h_2 =>
    rcases List.mem_cons.mp member with shared | own
    · exact Or.inl shared
    · rcases List.mem_map.mp own with ⟨other, otherMember, rfl⟩
      cases use : other.cacheUse with
      | own own =>
          refine Or.inr (List.mem_cons_of_mem _ (List.mem_map.mpr ⟨other, otherMember, ?_⟩))
          simp [cacheOf, use]
      | shared => exact Or.inl (by simp [cacheOf, use])

section Step

variable {session : Session} {parts : List Segment} {table : Properties}

/-- What is remembered does not depend on the files. -/
theorem remembers_withCache_store (store : FileStore) (index : Nat) (client : Client)
    (cache : Cache) :
    (({ session with store := store } : Session).withCache index client cache).Remembers
        parts table ↔
      (session.withCache index client cache).Remembers parts table := by
  simp only [withCache]
  cases client.cacheUse <;> exact Iff.rfl

/-- A cache that is put in the place of another one and has no new tables but one. -/
theorem Remembers.of_withCache {index : Nat} {client : Client} {cache : Cache} {new : Prop}
    (known : session.clients[index]? = some client)
    (from_cache : cache.tables.get? parts = some table →
      (session.cacheOf client).tables.get? parts = some table ∨ new)
    (remembers : (session.withCache index client cache).Remembers parts table) :
    session.Remembers parts table ∨ new := by
  rcases remembers with ⟨wanted, member, found⟩
  rcases mem_caches_withCache member with rfl | unchanged
  · exact (from_cache found).imp_left fun old => ⟨_, cacheOf_mem_caches known, old⟩
  · exact Or.inl ⟨wanted, unchanged, found⟩

/-- A resolution remembers what it computes. -/
theorem Remembers.of_resolve {index : Nat} {client : Client} {path : PathName}
    (known : session.clients[index]? = some client)
    (remembers : (session.resolve index client path).1.Remembers parts table) :
    session.Remembers parts table ∨ session.Computes parts table := by
  rw [Session.resolve] at remembers
  split at remembers
  case isFalse => exact Or.inl remembers
  case isTrue isAbsolute =>
    cases found : (session.cacheOf client).find? path.normalize with
    | some cached => exact Or.inl (by simpa only [found] using remembers)
    | none =>
        simp only [found, remembers_withCache_store] at remembers
        refine Remembers.of_withCache known (fun stored => ?_) remembers
        rw [Cache.store, OrderedMap.get?_insert] at stored
        split at stored
        case isTrue same =>
          refine Or.inr ⟨client, List.mem_of_getElem? known, path.names, ?_,
            (Option.some.inj stored).symm⟩
          rw [Std.LawfulEqCmp.compare_eq_iff_eq.mp same, PathName.parts_normalize isAbsolute]
        case isFalse => exact Or.inl stored

/-- Each table that a request leaves in a cache was there before, or the request computed it. -/
theorem Remembers.of_serve {index : Nat} {client : Client} {request : Request}
    (known : session.clients[index]? = some client)
    (remembers : (session.serve index client request).1.Remembers parts table) :
    session.Remembers parts table ∨ session.Computes parts table := by
  cases request with
  | resolve path => exact of_resolve known remembers
  | resolveUncached path =>
      rw [serve, Session.resolveUncached] at remembers
      cases resolved : Resolution.ofPath session.store.source client.configName path with
      | error failure => exact Or.inl (by simpa only [resolved] using remembers)
      | ok resolution =>
          simp only [resolved] at remembers
          exact Or.inl remembers
  | lookup path => exact Or.inl remembers
  | invalidate path =>
      refine of_withCache known (fun found => Or.inl ?_) remembers
      rw [Cache.invalidate, OrderedMap.get?_erase] at found
      split at found
      · cases found
      · exact found
  | invalidateWithin directory =>
      refine of_withCache known (fun found => Or.inl ?_) remembers
      rw [Cache.invalidateWithin, OrderedMap.get?_filterKeys] at found
      split at found
      · exact found
      · cases found
  | clear =>
      refine of_withCache known (fun found => ?_) remembers
      cases found

/-- Each table in a cache after a step was there before, or the step computed it. -/
theorem Remembers.of_step {step : Step}
    (remembers : (session.step step).1.Remembers parts table) :
    session.Remembers parts table ∨ session.Computes parts table := by
  cases step with
  | request index request =>
      rw [Session.step] at remembers
      cases known : session.clients[index]? with
      | none => exact Or.inl (by simpa only [known] using remembers)
      | some client => exact of_serve known (by simpa only [known] using remembers)
  | _ => exact Or.inl remembers

end Step

theorem run_concat (session : Session) (steps : List Step) (step : Step) :
    session.run (steps ++ [step]) = ((session.run steps).step step).1 := by
  simp [run]

/-- Each table in a cache after a run was there at its start, or some client would have computed it
at an earlier moment. -/
theorem Remembers.of_run {session : Session} {steps : List Step} {parts : List Segment}
    {table : Properties} (remembers : (session.run steps).Remembers parts table) :
    session.Remembers parts table ∨
      ∃ earlier, earlier <+: steps ∧ (session.run earlier).Computes parts table := by
  induction steps using List.reverseRecOn with
  | nil => exact Or.inl remembers
  | append_singleton steps step ih =>
      rw [run_concat] at remembers
      rcases remembers.of_step with before | now
      · refine (ih before).imp_right fun someMoment => ?_
        rcases someMoment with ⟨earlier, isPrefix, computes⟩
        exact ⟨earlier, isPrefix.trans (List.prefix_append _ _), computes⟩
      · exact Or.inr ⟨steps, List.prefix_append _ _, now⟩

/-- The session has not remembered any table yet. -/
def IsFresh (session : Session) : Prop :=
  ∀ cache ∈ session.caches, cache = Cache.empty

theorem IsFresh.not_remembers {session : Session} (fresh : session.IsFresh)
    (parts : List Segment) (table : Properties) : ¬session.Remembers parts table := by
  intro remembers
  rcases remembers with ⟨cache, member, found⟩
  rw [fresh cache member] at found
  cases found

/-- What a resolution answers for an absolute path is a table that the client's cache has, or the
one that the client computes. -/
theorem exists_table_of_resolve {session : Session} {index : Nat} {client : Client}
    {path : PathName} (known : session.clients[index]? = some client)
    (isAbsolute : path.isAbsolute = true) :
    ∃ table, (session.step (.request index (.resolve path))).2 = .table (.ok table) ∧
      (session.Remembers path.normalize.parts table ∨
        session.Computes path.normalize.parts table) := by
  simp only [step, known, serve, Session.resolve, isAbsolute, if_true]
  cases found : (session.cacheOf client).find? path.normalize with
  | some table => exact ⟨table, rfl, Or.inl ⟨_, cacheOf_mem_caches known, found⟩⟩
  | none => exact ⟨_, rfl, Or.inr ⟨client, List.mem_of_getElem? known, path.names,
      PathName.parts_normalize isAbsolute, rfl⟩⟩

end Session

end PropertyCascade
