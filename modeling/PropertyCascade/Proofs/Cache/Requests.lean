import PropertyCascade.Cache.Lemmas
import PropertyCascade.Proofs.OrderedMap
import PropertyCascade.Proofs.PathName.Spelling

/-!
# Caches as maps

A cache answers every sequence of requests as a map from the parts of paths to tables does. A map
here is no more than a function with the tables under some keys; what the requests do to it is said
by changes of that function, and what they answer by its values and by the number of its keys.

Between the map and the cache stands a table of slots, in which a path is first given an empty slot,
under the spelling in which it was asked for, and the slot is filled when the table has been
computed. No request leaves an empty slot behind, so the slots hold what the map holds. That is the
invariant of both proofs: the keys are distinct, and what is found under a key is what the map has
there.

A computation may read and change the world around the cache. So it shows in the replies to later
requests whether a computation has been run.
-/

namespace PropertyCascade

namespace Cache

/-- What is asked of a cache. -/
inductive Request (World : Type) where
  /-- The table under a path, which is computed if there is none. -/
  | fetch (path : PathName) (compute : World → Properties × World)
  | lookup (path : PathName)
  | invalidate (path : PathName)
  | invalidateWithin (directory : PathName)
  | clear
  | size
  | isEmpty

/-- What a request is answered with. -/
inductive Reply where
  | table (properties : Properties)
  | found (properties : Option Properties)
  | existed (truth : Bool)
  | dropped (count : Nat)
  | done
  | size (count : Nat)
  | isEmpty (truth : Bool)

/-- What a request leaves behind, and its reply. -/
structure Served (World Store : Type) where
  store : Store
  world : World
  reply : Reply

section Replies

variable {World Store Other : Type}

/-- The replies to requests, one after the other, and the world after them. -/
def replies (serve : Store → World → Request World → Served World Store) (store : Store)
    (world : World) : List (Request World) → List Reply × World
  | [] => ([], world)
  | request :: requests =>
      let served := serve store world request
      let later := replies serve served.store served.world requests
      (served.reply :: later.1, later.2)

/-- Requests are served alike if the replies and the worlds are the same, and what is left behind is
related again. -/
structure ServedAlike (related : Store → Other → Prop) (left : Served World Store)
    (right : Served World Other) : Prop where
  related : related left.store right.store
  sameWorld : left.world = right.world
  sameReply : left.reply = right.reply

theorem replies_eq_of_servedAlike {related : Store → Other → Prop}
    {serve : Store → World → Request World → Served World Store}
    {serveOther : Other → World → Request World → Served World Other}
    (alike : ∀ store other world request, related store other →
      ServedAlike related (serve store world request) (serveOther other world request))
    {store : Store} {other : Other} (start : related store other) (world : World)
    (requests : List (Request World)) :
    replies serve store world requests = replies serveOther other world requests := by
  induction requests generalizing store other world with
  | nil => rfl
  | cons request requests ih =>
      rcases alike store other world request start with ⟨next, sameWorld, sameReply⟩
      simp only [replies, sameWorld, sameReply, ih next]

end Replies

/-! ## Maps -/

/-- The tables under some keys. -/
abbrev Entries := List Segment → Option Properties

namespace Entries

variable {World : Type}

/-- No tables. -/
def empty : Entries :=
  fun _ => none

/-- The number of keys with a table. -/
noncomputable def count (entries : Entries) : Nat :=
  {key | (entries key).isSome}.ncard

/-- Serves a request from a map. -/
noncomputable def serve (entries : Entries) (world : World) :
    Request World → Served World Entries
  | .fetch path compute =>
      match entries path.parts with
      | some table => ⟨entries, world, .table table⟩
      | none =>
          let (table, later) := compute world
          ⟨Function.update entries path.parts (some table), later, .table table⟩
  | .lookup path => ⟨entries, world, .found (entries path.parts)⟩
  | .invalidate path =>
      ⟨Function.update entries path.parts none, world, .existed (entries path.parts).isSome⟩
  | .invalidateWithin directory =>
      ⟨fun key => if directory.parts <+: key then none else entries key, world,
        .dropped {key | (entries key).isSome ∧ directory.parts <+: key}.ncard⟩
  | .clear => ⟨empty, world, .done⟩
  | .size => ⟨entries, world, .size entries.count⟩
  | .isEmpty => ⟨entries, world, .isEmpty (entries.count == 0)⟩

end Entries

section Keys

variable {entries : Entries} {keys : List (List Segment)} (distinct : keys.Nodup)
  (mem_iff : ∀ key, (entries key).isSome ↔ key ∈ keys)

include distinct mem_iff

theorem Entries.count_eq_length : entries.count = keys.length :=
  OrderedMap.ncard_eq_length distinct mem_iff

/-- The number of keys below a directory is the number by which the keys get fewer when these are
removed. -/
theorem ncard_within_eq (directory : PathName) :
    {key | (entries key).isSome ∧ directory.parts <+: key}.ncard =
      keys.length - (keys.filter fun key => !directory.parts.isPrefixOf key).length := by
  have within : ∀ key, ((entries key).isSome ∧ directory.parts <+: key) ↔
      key ∈ keys.filter fun key => directory.parts.isPrefixOf key := by
    intro key
    rw [List.mem_filter, mem_iff, List.isPrefixOf_iff_prefix]
  rw [OrderedMap.ncard_eq_length (distinct.filter _) within]
  have split := List.length_eq_length_filter_add (l := keys) fun key =>
    directory.parts.isPrefixOf key
  omega

end Keys

/-! ## Slots -/

/-- Slots for tables under the spellings in which their paths were first asked for, in any order. An
empty slot is one whose table is still to be computed. -/
structure Slots where
  entries : List (PathName × Option Properties)

namespace Slots

variable {World : Type}

/-- No slots. -/
def empty : Slots :=
  ⟨[]⟩

/-- The slot under a key. -/
def slot? (slots : Slots) (key : List Segment) : Option (Option Properties) :=
  (slots.entries.find? fun entry => entry.1.parts == key).map (·.2)

/-- Makes an empty slot for a path that has none. -/
def claim (slots : Slots) (path : PathName) : Slots :=
  if (slots.slot? path.parts).isSome then slots else ⟨(path, none) :: slots.entries⟩

/-- Puts a table into the slot of a path, if it is empty. -/
def fill (slots : Slots) (path : PathName) (table : Properties) : Slots :=
  ⟨slots.entries.map fun (spelling, slot) =>
    (spelling, if spelling.parts = path.parts then slot.or (some table) else slot)⟩

/-- Removes the slots whose keys do not satisfy a condition. -/
def retain (slots : Slots) (keep : List Segment → Bool) : Slots :=
  ⟨slots.entries.filter fun entry => keep entry.1.parts⟩

/-- Serves a request from slots. -/
def serve (slots : Slots) (world : World) : Request World → Served World Slots
  | .fetch path compute =>
      let claimed := slots.claim path
      match claimed.slot? path.parts with
      | some (some table) => ⟨claimed, world, .table table⟩
      | _ =>
          let (table, later) := compute world
          ⟨claimed.fill path table, later, .table table⟩
  | .lookup path => ⟨slots, world, .found (slots.slot? path.parts).join⟩
  | .invalidate path =>
      ⟨slots.retain (· != path.parts), world, .existed (slots.slot? path.parts).isSome⟩
  | .invalidateWithin directory =>
      let kept := slots.retain fun key => !directory.parts.isPrefixOf key
      ⟨kept, world, .dropped (slots.entries.length - kept.entries.length)⟩
  | .clear => ⟨empty, world, .done⟩
  | .size => ⟨slots, world, .size slots.entries.length⟩
  | .isEmpty => ⟨slots, world, .isEmpty slots.entries.isEmpty⟩

/-- The keys of the slots. -/
def keys (slots : Slots) : List (List Segment) :=
  slots.entries.map fun entry => entry.1.parts

theorem length_keys (slots : Slots) : slots.keys.length = slots.entries.length :=
  List.length_map ..

theorem isSome_slot?_iff {slots : Slots} {key : List Segment} :
    (slots.slot? key).isSome ↔ key ∈ slots.keys := by
  simp [slot?, keys]

theorem slot?_claim (slots : Slots) (path : PathName) (key : List Segment) :
    (slots.claim path).slot? key =
      if key = path.parts then some (slots.slot? key).join else slots.slot? key := by
  rw [claim]
  split
  case isTrue claimed =>
    split
    case isTrue same =>
      subst same
      rcases Option.isSome_iff_exists.mp claimed with ⟨slot, found⟩
      simp [found]
    case isFalse => rfl
  case isFalse free =>
    split
    case isTrue same =>
      subst same
      rw [Option.not_isSome_iff_eq_none.mp free]
      simp [slot?]
    case isFalse different => simp [slot?, Ne.symm different]

theorem slot?_fill (slots : Slots) (path : PathName) (table : Properties) (key : List Segment) :
    (slots.fill path table).slot? key =
      if key = path.parts then (slots.slot? key).map (·.or (some table)) else slots.slot? key := by
  rw [fill, slot?, List.find?_map, Option.map_map, slot?]
  change Option.map _ (slots.entries.find? fun entry => entry.1.parts == key) = _
  cases found : slots.entries.find? fun entry => entry.1.parts == key with
  | none => simp
  | some entry =>
      have isKey : entry.1.parts = key := by simpa using List.find?_some found
      simp only [Option.map_some, Function.comp_apply, isKey]
      split <;> rfl

theorem slot?_retain (slots : Slots) (keep : List Segment → Bool) (key : List Segment) :
    (slots.retain keep).slot? key = if keep key then slots.slot? key else none := by
  rw [retain, slot?, slot?, List.find?_filter]
  split
  case isTrue kept =>
    congr 2
    funext entry
    by_cases isKey : entry.1.parts = key
    · simp [isKey, kept]
    · simp [isKey]
  case isFalse dropped =>
    rw [Option.map_eq_none_iff, List.find?_eq_none]
    intro entry _
    by_cases isKey : entry.1.parts = key
    · simp [isKey, dropped]
    · simp [isKey]

theorem keys_claim (slots : Slots) (path : PathName) :
    (slots.claim path).keys =
      if path.parts ∈ slots.keys then slots.keys else path.parts :: slots.keys := by
  rw [claim]
  simp only [isSome_slot?_iff]
  split <;> rfl

theorem keys_fill (slots : Slots) (path : PathName) (table : Properties) :
    (slots.fill path table).keys = slots.keys := by
  simp [fill, keys, Function.comp_def]

theorem keys_retain (slots : Slots) (keep : List Segment → Bool) :
    (slots.retain keep).keys = slots.keys.filter keep := by
  rw [retain, keys, keys, List.filter_map]
  rfl

/-- The slots hold what a map holds: every slot is filled, and no two are for the same key. -/
structure Holds (slots : Slots) (entries : Entries) : Prop where
  distinct : slots.keys.Nodup
  slot?_eq : ∀ key, slots.slot? key = (entries key).map some

theorem holds_empty : empty.Holds Entries.empty :=
  ⟨.nil, fun _ => rfl⟩

theorem Holds.mem_keys_iff {slots : Slots} {entries : Entries} (holds : slots.Holds entries)
    (key : List Segment) : (entries key).isSome ↔ key ∈ slots.keys := by
  rw [← isSome_slot?_iff, holds.slot?_eq, Option.isSome_map]

theorem Holds.claim_of_mem {slots : Slots} {entries : Entries} (holds : slots.Holds entries)
    {path : PathName} {table : Properties} (found : entries path.parts = some table) :
    slots.claim path = slots := by
  rw [claim, if_pos]
  rw [holds.slot?_eq, found]
  rfl

theorem Holds.fill_claim {slots : Slots} {entries : Entries} (holds : slots.Holds entries)
    {path : PathName} (missing : entries path.parts = none) (table : Properties) :
    ((slots.claim path).fill path table).Holds
      (Function.update entries path.parts (some table)) := by
  have noSlot : slots.slot? path.parts = none := by rw [holds.slot?_eq, missing]; rfl
  constructor
  · rw [keys_fill, keys_claim]
    split
    case isTrue => exact holds.distinct
    case isFalse notKey => exact List.nodup_cons.mpr ⟨notKey, holds.distinct⟩
  · intro key
    rw [slot?_fill, slot?_claim, Function.update_apply]
    split
    case isTrue same =>
      subst same
      simp [noSlot]
    case isFalse => exact holds.slot?_eq key

theorem Holds.retain {slots : Slots} {entries after : Entries} (holds : slots.Holds entries)
    {keep : List Segment → Bool}
    (kept : ∀ key, after key = if keep key then entries key else none) :
    (slots.retain keep).Holds after := by
  constructor
  · rw [keys_retain]
    exact holds.distinct.filter _
  · intro key
    rw [slot?_retain, kept, holds.slot?_eq]
    split <;> rfl

/-- A request that is served from slots is served from the map that they hold. -/
theorem Holds.serve {slots : Slots} {entries : Entries} (holds : slots.Holds entries)
    (world : World) (request : Request World) :
    ServedAlike Holds (slots.serve world request) (entries.serve world request) := by
  have length : entries.count = slots.entries.length := by
    rw [Entries.count_eq_length holds.distinct holds.mem_keys_iff, length_keys]
  cases request with
  | fetch path compute =>
      simp only [Slots.serve, Entries.serve]
      cases found : entries path.parts with
      | some table =>
          simp only [holds.claim_of_mem found, holds.slot?_eq, found, Option.map_some]
          exact ⟨holds, rfl, rfl⟩
      | none =>
          have claimed : (slots.claim path).slot? path.parts = some none := by
            rw [slot?_claim, if_pos rfl, holds.slot?_eq, found]
            rfl
          simp only [claimed]
          exact ⟨holds.fill_claim found _, rfl, rfl⟩
  | lookup path =>
      refine ⟨holds, rfl, ?_⟩
      simp only [Slots.serve, Entries.serve, holds.slot?_eq]
      cases entries path.parts <;> rfl
  | invalidate path =>
      simp only [Slots.serve, Entries.serve]
      refine ⟨?_, rfl, ?_⟩
      · dsimp only
        apply holds.retain
        intro key
        rw [Function.update_apply]
        by_cases same : key = path.parts <;> simp [same]
      · rw [holds.slot?_eq, Option.isSome_map]
  | invalidateWithin directory =>
      simp only [Slots.serve, Entries.serve]
      refine ⟨?_, rfl, ?_⟩
      · dsimp only
        apply holds.retain
        intro key
        simp only [← List.isPrefixOf_iff_prefix]
        cases directory.parts.isPrefixOf key <;> rfl
      · rw [ncard_within_eq holds.distinct holds.mem_keys_iff, ← length_keys, ← length_keys,
          keys_retain]
  | clear => exact ⟨holds_empty, rfl, rfl⟩
  | size => exact ⟨holds, rfl, by simp only [Slots.serve, Entries.serve, length]⟩
  | isEmpty =>
      refine ⟨holds, rfl, ?_⟩
      simp only [Slots.serve, Entries.serve, length]
      cases slots.entries <;> rfl

end Slots

/-! ## Caches -/

/-- Serves a request from a cache. A computation is only run if there is no table. -/
def serve {World : Type} (cache : Cache) (world : World) : Request World → Served World Cache
  | .fetch path compute =>
      let (after, table) := cache.fetch path fun _ => (compute world).1
      ⟨after, if (cache.find? path).isSome then world else (compute world).2, .table table⟩
  | .lookup path => ⟨cache, world, .found (cache.find? path)⟩
  | .invalidate path => ⟨cache.invalidate path, world, .existed (cache.find? path).isSome⟩
  | .invalidateWithin directory =>
      let after := cache.invalidateWithin directory
      ⟨after, world, .dropped (cache.size - after.size)⟩
  | .clear => ⟨cache.clear, world, .done⟩
  | .size => ⟨cache, world, .size cache.size⟩
  | .isEmpty => ⟨cache, world, .isEmpty cache.isEmpty⟩

/-- A cache has the tables of a map. -/
def Has (cache : Cache) (entries : Entries) : Prop :=
  ∀ key, cache.tables.get? key = entries key

theorem Has.mem_keys_iff {cache : Cache} {entries : Entries} (has : cache.Has entries)
    (key : List Segment) : (entries key).isSome ↔ key ∈ cache.tables.keys := by
  rw [← has, OrderedMap.isSome_get?_iff]

theorem Has.store {cache : Cache} {entries : Entries} (has : cache.Has entries) (path : PathName)
    (table : Properties) :
    (cache.store path table).Has (Function.update entries path.parts (some table)) := by
  intro key
  rw [Cache.store, OrderedMap.get?_insert_eq_update, funext has]

/-- A request that is served from a cache is served from the map with its tables. -/
theorem Has.serve {World : Type} {cache : Cache} {entries : Entries} (has : cache.Has entries)
    (world : World) (request : Request World) :
    ServedAlike Has (cache.serve world request) (entries.serve world request) := by
  have distinct : cache.tables.keys.Nodup := cache.tables.nodup_keys
  have size : entries.count = cache.size := by
    rw [Entries.count_eq_length distinct has.mem_keys_iff]
    exact List.length_map ..
  have found (path : PathName) : cache.find? path = entries path.parts := has path.parts
  cases request with
  | fetch path compute =>
      simp only [Cache.serve, Cache.fetch, Entries.serve, found]
      cases entries path.parts with
      | some table => exact ⟨has, rfl, rfl⟩
      | none => exact ⟨has.store path _, rfl, rfl⟩
  | lookup path => exact ⟨has, rfl, by simp only [Cache.serve, Entries.serve, found]⟩
  | invalidate path =>
      refine ⟨fun key => ?_, rfl, by simp only [Cache.serve, Entries.serve, found]⟩
      simp only [Cache.serve, Entries.serve, Cache.invalidate]
      rw [OrderedMap.get?_erase_eq_update, funext has]
  | invalidateWithin directory =>
      refine ⟨fun key => ?_, rfl, ?_⟩
      · simp only [Cache.serve, Entries.serve, Cache.invalidateWithin,
          ← List.isPrefixOf_iff_prefix]
        rw [OrderedMap.get?_filterKeys, has]
        cases directory.parts.isPrefixOf key <;> rfl
      · simp only [Cache.serve, Entries.serve, ncard_within_eq distinct has.mem_keys_iff]
        simp [Cache.size, Cache.invalidateWithin, OrderedMap.size, OrderedMap.keys,
          OrderedMap.filterKeys, List.filter_map, Function.comp_def]
  | clear => exact ⟨fun _ => rfl, rfl, rfl⟩
  | size => exact ⟨has, rfl, by simp only [Cache.serve, Entries.serve, size]⟩
  | isEmpty =>
      refine ⟨has, rfl, ?_⟩
      simp only [Cache.serve, Entries.serve, size, Cache.size, Cache.isEmpty, OrderedMap.size,
        OrderedMap.isEmpty]
      cases cache.tables.entries <;> rfl

/-- The replies of a cache are those of a map from the parts of paths to tables, and so are those of
slots that are made before they are filled. Which paths have the same parts is a matter of their
spelling. -/
theorem serves_as_map :
    (∀ path other : PathName, path.parts = other.parts ↔ path.SpelledAlike other) ∧
      ∀ (World : Type) (world : World) (requests : List (Request World)),
        replies serve empty world requests = replies Entries.serve Entries.empty world requests ∧
          replies Slots.serve Slots.empty world requests =
            replies Entries.serve Entries.empty world requests := by
  refine ⟨PathName.parts_eq_iff_spelledAlike, fun World world requests => ⟨?_, ?_⟩⟩
  · exact replies_eq_of_servedAlike (fun _ _ world request has => Has.serve has world request)
      (fun _ => rfl) world requests
  · exact replies_eq_of_servedAlike
      (fun _ _ world request holds => Slots.Holds.serve holds world request)
      Slots.holds_empty world requests

/-- Only whole parts count, so `/ab` is not at or below `/a`, and every path is at or below the
empty one. -/
example (path : PathName) :
    ¬(PathName.ofText "/a".toList).parts <+: (PathName.ofText "/ab".toList).parts ∧
      (PathName.ofText []).parts <+: path.parts :=
  ⟨by decide, List.nil_prefix⟩

end Cache

end PropertyCascade
