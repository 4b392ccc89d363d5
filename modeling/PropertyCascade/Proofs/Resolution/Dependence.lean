import PropertyCascade.FileStore
import PropertyCascade.OrderedMap.Lemmas
import PropertyCascade.Proofs.PathName

/-!
# What a resolution depends on

A resolution only reads the config files in the directories above a path, so file sources that
agree on these give the same result. Of a store of files, a change at one path makes no difference
to what is read at any other.
-/

namespace PropertyCascade

namespace Ascent

theorem through_congr {source other : FileSource} {configName : Text}
    {pairs : List (List Segment × List Segment)}
    (agree : ∀ pair ∈ pairs,
      source (configPath configName pair.1) = other (configPath configName pair.1)) :
    through source configName pairs = through other configName pairs := by
  induction pairs with
  | nil => rfl
  | cons pair farther ih =>
      rcases pair with ⟨directory, below⟩
      have here := agree _ List.mem_cons_self
      have rest := ih fun pair member => agree pair (List.mem_cons_of_mem _ member)
      simp only [through, here, rest]

end Ascent

namespace Resolution

/-- A resolution is determined by the config files in the directories above the path. -/
theorem ofNames_congr {source other : FileSource} {configName : Text} {names : List Segment}
    (agree : ∀ directory, directory <+: names →
      source (Ascent.configPath configName directory) =
        other (Ascent.configPath configName directory)) :
    ofNames source configName names = ofNames other configName names := by
  have above : Ascent.above source configName names = Ascent.above other configName names := by
    apply Ascent.through_congr
    intro proper member
    rcases proper with ⟨directory, below⟩
    exact agree directory ⟨below, PathName.append_of_mem_above member⟩
  simp only [ofNames, above]

end Resolution

/-- At an absolute path, the properties in effect are those at its names. -/
theorem resolve_of_isAbsolute (source : FileSource) (configName : Text) {path : PathName}
    (isAbsolute : path.isAbsolute = true) :
    resolve source configName path =
      .ok (Resolution.ofNames source configName path.names).properties := by
  rw [resolve, Resolution.ofPath, if_pos isAbsolute]
  rfl

namespace FileStore

variable (store : FileStore)

theorem source_insert_of_eq {path wanted : PathName} (text : Text)
    (same : wanted.parts = path.parts) (allowed : store.denials.get? path.parts = none) :
    (store.insert path text).source wanted = .ok text := by
  simp [source, insert, OrderedMap.get?_insert, same, allowed]

theorem source_insert_of_ne {path wanted : PathName} (text : Text)
    (different : wanted.parts ≠ path.parts) :
    (store.insert path text).source wanted = store.source wanted := by
  simp [source, insert, OrderedMap.get?_insert, different]

theorem source_remove_of_ne {path wanted : PathName} (different : wanted.parts ≠ path.parts) :
    (store.remove path).source wanted = store.source wanted := by
  simp [source, remove, OrderedMap.get?_erase, different]

theorem source_deny_of_ne {path wanted : PathName} (failure : ReadFailure)
    (different : wanted.parts ≠ path.parts) :
    (store.deny path failure).source wanted = store.source wanted := by
  simp [source, deny, OrderedMap.get?_insert, different]

theorem source_allow_of_ne {path wanted : PathName} (different : wanted.parts ≠ path.parts) :
    (store.allow path).source wanted = store.source wanted := by
  simp [source, allow, OrderedMap.get?_erase, different]

end FileStore

end PropertyCascade
