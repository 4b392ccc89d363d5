import PropertyCascade.Cache.Lemmas
import PropertyCascade.Proofs.Resolution.Dependence
import PropertyCascade.Run
import PropertyCascade.Session

/-!
# Runs file by file

The files of a run share a cache, and yet the report on a file does not depend on the other files:
while the files stay as they are, every table in the cache is the one that would be computed again.
So a run is put together from the runs over its entries alone. Paths that are named together are
reported as if they were named one after the other, and one that is missing costs its own report
and no other.
-/

namespace PropertyCascade

variable {source : FileSource} {configName : Text}

namespace Cache

/-- Every table that is found under the normal form of a path is the one in effect at the path. -/
def IsCurrent (source : FileSource) (configName : Text) (cache : Cache) : Prop :=
  ∀ path : PathName, path.isAbsolute = true → ∀ table,
    cache.find? path.normalize = some table →
      table = (Resolution.ofNames source configName path.names).properties

theorem isCurrent_empty : empty.IsCurrent source configName := by
  intro path isAbsolute table found
  simp at found

variable {cache : Cache}

/-- Resolving a path through a current cache answers what is answered without it. -/
theorem IsCurrent.snd_resolve (current : cache.IsCurrent source configName) (path : PathName) :
    (cache.resolve source configName path).2 = PropertyCascade.resolve source configName path := by
  rw [Cache.resolve, PropertyCascade.resolve, Resolution.ofPath]
  split
  case isFalse => rfl
  case isTrue isAbsolute =>
    change Except.ok _ = Except.ok _
    congr 1
    rw [fetch]
    split
    case h_1 table found => exact current path isAbsolute table found
    case h_2 => rfl

/-- A current cache stays current, because what it gains is computed from the same files. -/
theorem IsCurrent.fst_resolve (current : cache.IsCurrent source configName) (path : PathName) :
    (cache.resolve source configName path).1.IsCurrent source configName := by
  rw [Cache.resolve]
  split
  case isFalse => exact current
  case isTrue isAbsolute =>
    intro other otherIsAbsolute table found
    change (cache.fetch path.normalize _).1.find? other.normalize = some table at found
    rw [find?_fetch] at found
    split at found
    case isFalse => exact current other otherIsAbsolute table found
    case isTrue sameParts =>
      have same : other.normalize = path.normalize :=
        (PathName.parts_normalize_eq_iff otherIsAbsolute isAbsolute).mp sameParts
      rw [PathName.names_eq_of_normalize_eq isAbsolute same]
      rw [← Option.some.inj found]
      cases held : cache.find? path.normalize with
      | none => rfl
      | some former => exact current path isAbsolute former held

end Cache

/-- A client of a session is answered what resolving through its cache answers. -/
theorem Session.snd_resolve (session : Session) (index : Nat) (client : Client)
    (path : PathName) :
    (session.resolve index client path).2 =
      ((session.cacheOf client).resolve session.store.source client.configName path).2 := by
  rw [Session.resolve, Cache.resolve]
  split
  case isFalse => rfl
  case isTrue =>
    simp only [Cache.fetch]
    cases (session.cacheOf client).find? path.normalize <;> rfl

/-- A walk of a directory that is named by an absolute path finds files at absolute paths. -/
def Descent.KeepsAbsolute (descent : Descent) : Prop :=
  ∀ (tree : FileTree) (settings : WalkSettings) (path : PathName) (place : Place),
    path.isAbsolute = true → ∀ found, .ok found ∈ descent tree settings path place →
      found.isAbsolute = true

namespace Walk

theorem keepsAbsolute_ofDirectory : Descent.KeepsAbsolute ofDirectory := by
  intro tree settings path place isAbsolute found member
  rcases List.mem_append.mp member with fault | taken
  · split at fault <;> simp at fault
  · rcases List.mem_map.mp taken with ⟨below, -, equal⟩
    rw [← Except.ok.inj equal]
    exact PathName.isAbsolute_join isAbsolute _

variable {descent : Descent} {tree : FileTree} {settings : WalkSettings}

theorem isAbsolute_of_mem_ofPathsBy (keepsAbsolute : descent.KeepsAbsolute) {paths : List PathName}
    (areAbsolute : ∀ path ∈ paths, path.isAbsolute = true) {found : PathName}
    (member : .ok found ∈ ofPathsBy descent tree settings paths) : found.isAbsolute = true := by
  rcases List.mem_flatMap.mp member with ⟨path, named, entry⟩
  have isAbsolute := areAbsolute path named
  rw [ofPath] at entry
  split at entry
  case isTrue =>
    rw [Except.ok.inj (List.mem_singleton.mp entry)]
    exact isAbsolute
  case isFalse =>
    split at entry
    case h_1 => simp at entry
    case h_2 place _ => exact keepsAbsolute tree settings path place isAbsolute found entry

theorem ofPath_missing {path : PathName} (missing : tree.find? path = none) :
    ofPath descent tree settings path = [.error (.notFound path)] := by
  rw [ofPath, FileTree.isFile, FileTree.lookup?, missing]
  rfl

theorem ofPathsBy_append (first second : List PathName) :
    ofPathsBy descent tree settings (first ++ second) =
      ofPathsBy descent tree settings first ++ ofPathsBy descent tree settings second :=
  List.flatMap_append

end Walk

namespace Run

theorem empty_append (run : Run) : empty.append run = run := by
  simp [append, empty]

theorem append_assoc (first second third : Run) :
    (first.append second).append third = first.append (second.append third) := by
  simp [append, Nat.add_assoc]

theorem isAbsolute_absolutize {directory : PathName} (isAbsolute : directory.isAbsolute = true)
    (path : PathName) : (absolutize directory path).isAbsolute = true := by
  rw [absolutize, PathName.isAbsolute_normalize]
  exact PathName.isAbsolute_join isAbsolute path

/-- The run over a single entry, without a cache. -/
def alone (source : FileSource) (configName : Text) : Except WalkError PathName → Run
  | .error _ => ⟨[], 1⟩
  | .ok path =>
      match resolve source configName path with
      | .ok properties => ⟨[⟨path, properties⟩], 0⟩
      | .error _ => ⟨[], 1⟩

/-- One run after another, over entries that are resolved without a cache. -/
def joined (source : FileSource) (configName : Text)
    (entries : List (Except WalkError PathName)) : Run :=
  (entries.map (alone source configName)).foldr append empty

section Entries

variable {cache : Cache}

theorem fst_ofEntry (current : cache.IsCurrent source configName)
    (entry : Except WalkError PathName) :
    (ofEntry source configName cache entry).1.IsCurrent source configName := by
  cases entry with
  | error fault => exact current
  | ok path =>
      have after := current.fst_resolve path
      rw [ofEntry]
      split
      case h_1 next properties same => simpa only [same] using after
      case h_2 next failure same => simpa only [same] using after

theorem snd_ofEntry (current : cache.IsCurrent source configName)
    (entry : Except WalkError PathName) :
    (ofEntry source configName cache entry).2 = alone source configName entry := by
  cases entry with
  | error fault => rfl
  | ok path =>
      rw [ofEntry, alone, ← current.snd_resolve path]
      rcases cache.resolve source configName path with ⟨after, answer⟩
      cases answer <;> rfl

/-- A run from a current cache goes as if there were none. -/
theorem ofEntries_eq_joined (current : cache.IsCurrent source configName)
    (entries : List (Except WalkError PathName)) :
    ofEntries source configName cache entries = joined source configName entries := by
  induction entries generalizing cache with
  | nil => rfl
  | cons entry rest ih =>
      change (ofEntry source configName cache entry).2.append
        (ofEntries source configName (ofEntry source configName cache entry).1 rest) =
          (alone source configName entry).append (joined source configName rest)
      rw [ih (fst_ofEntry current entry), snd_ofEntry current entry]

theorem joined_append (first second : List (Except WalkError PathName)) :
    joined source configName (first ++ second) =
      (joined source configName first).append (joined source configName second) := by
  induction first with
  | nil => exact (empty_append _).symm
  | cons entry rest ih =>
      change (alone source configName entry).append (joined source configName (rest ++ second)) =
        ((alone source configName entry).append (joined source configName rest)).append _
      rw [ih, append_assoc]

end Entries

/-- The reports of a run are on the files among the entries, in their order, each with the
properties in effect for the file, and the errors are the other entries. -/
structure Covers (source : FileSource) (configName : Text)
    (entries : List (Except WalkError PathName)) (run : Run) : Prop where
  paths : run.reports.map Report.path = entries.filterMap Except.toOption
  properties : ∀ report ∈ run.reports,
    resolve source configName report.path = .ok report.properties
  total : run.reports.length + run.errors = entries.length

theorem Covers.append {entries others : List (Except WalkError PathName)} {first second : Run}
    (covers : first.Covers source configName entries)
    (coversOthers : second.Covers source configName others) :
    (first.append second).Covers source configName (entries ++ others) where
  paths := by
    rw [Run.append, List.map_append, List.filterMap_append, covers.paths, coversOthers.paths]
  properties := by
    intro report member
    rcases List.mem_append.mp member with inFirst | inSecond
    · exact covers.properties report inFirst
    · exact coversOthers.properties report inSecond
  total := by
    have total := covers.total
    have totalOfOthers := coversOthers.total
    simp only [Run.append, List.length_append]
    omega

theorem covers_alone {entry : Except WalkError PathName}
    (isAbsolute : ∀ path, entry = .ok path → path.isAbsolute = true) :
    (alone source configName entry).Covers source configName [entry] := by
  cases entry with
  | error fault => exact ⟨rfl, by simp [alone], rfl⟩
  | ok path =>
      have resolved := resolve_of_isAbsolute source configName (isAbsolute path rfl)
      rw [alone, resolved]
      refine ⟨rfl, fun report member => ?_, rfl⟩
      rw [List.mem_singleton.mp member]
      exact resolved

theorem covers_joined {entries : List (Except WalkError PathName)}
    (areAbsolute : ∀ path, .ok path ∈ entries → path.isAbsolute = true) :
    (joined source configName entries).Covers source configName entries := by
  induction entries with
  | nil => exact ⟨rfl, by simp [joined, empty], rfl⟩
  | cons entry rest ih =>
      have first : (alone source configName entry).Covers source configName [entry] :=
        covers_alone fun path equal => areAbsolute path (equal ▸ List.mem_cons_self)
      exact first.append (ih fun path member => areAbsolute path (List.mem_cons_of_mem _ member))

/-- Paths of one run have no influence on each other. -/
theorem ofPathsBy_independent {descent : Descent} (keepsAbsolute : descent.KeepsAbsolute)
    (tree : FileTree) (settings : Settings) {directory : PathName}
    (isAbsolute : directory.isAbsolute = true) :
    let run := ofPathsBy descent tree settings directory
    (∀ first second, run (first ++ second) = (run first).append (run second)) ∧
      (∀ paths, (run paths).Covers tree.source settings.configName
        (Walk.ofPathsBy descent tree settings.walk (paths.map (absolutize directory)))) ∧
      ∀ before missing after, tree.find? (absolutize directory missing) = none →
        run (before ++ missing :: after) =
          ⟨(run (before ++ after)).reports, (run (before ++ after)).errors + 1⟩ := by
  intro run
  have runs (paths : List PathName) : run paths = joined tree.source settings.configName
      (Walk.ofPathsBy descent tree settings.walk (paths.map (absolutize directory))) :=
    ofEntries_eq_joined Cache.isCurrent_empty _
  have appends (first second : List PathName) :
      run (first ++ second) = (run first).append (run second) := by
    rw [runs, runs, runs, List.map_append, Walk.ofPathsBy_append, joined_append]
  refine ⟨appends, fun paths => ?_, fun before missing after isMissing => ?_⟩
  · rw [runs]
    apply covers_joined
    intro found member
    apply Walk.isAbsolute_of_mem_ofPathsBy keepsAbsolute ?_ member
    intro path named
    rcases List.mem_map.mp named with ⟨written, -, rfl⟩
    exact isAbsolute_absolutize isAbsolute written
  · have single : run [missing] = ⟨[], 1⟩ := by
      rw [runs, List.map_singleton, Walk.ofPathsBy, List.flatMap_singleton,
        Walk.ofPath_missing isMissing]
      rfl
    rw [← List.singleton_append, appends, appends, single, appends]
    simp only [append, List.nil_append, Run.mk.injEq, true_and]
    omega

/-- A directory `/w` with a config file, a file and a directory with another file. -/
def smallTree : FileTree :=
  let file (name content : String) (tree : FileTree) : FileTree :=
    tree.put (PathName.ofText name.toList) (.file (Text.Utf8.encode content.toList))
  file "/w/d/g" "" (file "/w/f" "" (file "/w/.e" "k=1\n[d/*]\nk=2" FileTree.empty))

/-- A file is named twice, the second time as part of a directory, after a path that is missing. -/
theorem ofPathsBy_independent_smallTree :
    let settings : Settings := ⟨".e".toList, .plain, ⟨false, true⟩⟩
    let directory := PathName.ofText "/w".toList
    let paths (names : List String) := names.map fun name => PathName.ofText name.toList
    let run := ofPathsBy Walk.ofDirectory smallTree settings directory
    Descent.KeepsAbsolute Walk.ofDirectory ∧ directory.isAbsolute = true ∧
      smallTree.find? (absolutize directory (PathName.ofText "x".toList)) = none ∧
      run (paths ["d/../f", "x", "."]) =
        (run (paths ["d/../f", "x"])).append (run (paths ["."])) ∧
      run (paths ["d/../f", "x", "."]) =
        ⟨(run (paths ["d/../f", "."])).reports, (run (paths ["d/../f", "."])).errors + 1⟩ ∧
      (run (paths ["d/../f", "x", "."])).reports.map Report.path =
        paths ["/w/f", "/w/d/g", "/w/f"] := by
  intro settings directory paths run
  have isAbsolute : directory.isAbsolute = true := by decide
  have isMissing : smallTree.find? (absolutize directory (PathName.ofText "x".toList)) = none := by
    decide
  rcases ofPathsBy_independent Walk.keepsAbsolute_ofDirectory smallTree settings isAbsolute with
    ⟨appends, covers, missing⟩
  refine ⟨Walk.keepsAbsolute_ofDirectory, isAbsolute, isMissing, ?_, ?_, ?_⟩
  · exact appends (paths ["d/../f", "x"]) (paths ["."])
  · exact missing (paths ["d/../f"]) (PathName.ofText "x".toList) (paths ["."]) isMissing
  · refine (covers (paths ["d/../f", "x", "."])).paths.trans ?_
    decide

end Run

end PropertyCascade
