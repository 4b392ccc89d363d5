import PropertyCascade.Proofs.Resolution.Dependence
import PropertyCascade.Proofs.Resolution.Precedence

/-!
# Moving a tree

It makes no difference to the properties of a file where the tree stands that it belongs to. Two
sources are compared which have the same config files in the same directories below two places, and
no others: a file below the one place has the same properties as the file that the same path leads
to below the other.

The walk from the file upward has two parts. Within the tree, the directories of the two walks
differ by the place that they begin with, while what is left of the path below each of them is the
same. Above the tree nothing can be read, so this part adds no level, however long it is.
-/

namespace PropertyCascade

/-- Of all config files, a source has those at given directories below a place, with given texts. -/
def HoldsBelow (source : FileSource) (configName : Text) (place : PathName)
    (texts : List Segment → Option Text) : Prop :=
  ∀ directory : PathName, directory.isAbsolute = true → directory.normalize = directory →
    ∀ text, source (directory.join (.ofText configName)) = .ok text ↔
      ∃ below, directory.names = place.names ++ below ∧ texts below = some text

section HoldsBelow

variable {source : FileSource} {configName : Text} {place : PathName}
  {texts : List Segment → Option Text}

theorem HoldsBelow.readConfig?_eq_some_iff (holds : HoldsBelow source configName place texts)
    {directory : List Segment} (proper : ∀ name ∈ directory, name.IsProper) (text : Text) :
    readConfig? source configName (.absolute directory) = some text ↔
      ∃ below, directory = place.names ++ below ∧ texts below = some text := by
  have names := PathName.names_absolute proper
  have normal : (PathName.absolute directory).normalize = .absolute directory := by
    rw [PathName.normalize_of_isAbsolute (PathName.isAbsolute_absolute directory), names]
  have read := holds (.absolute directory) (PathName.isAbsolute_absolute directory) normal text
  rw [names] at read
  rw [← read, readConfig?]
  cases source ((PathName.absolute directory).join (.ofText configName)) <;>
    simp [Except.toOption]

/-- Below the place, the texts that the source holds are read. -/
theorem HoldsBelow.readConfig?_below (holds : HoldsBelow source configName place texts)
    {below : List Segment} (proper : ∀ name ∈ below, name.IsProper) :
    readConfig? source configName (.absolute (place.names ++ below)) = texts below := by
  have allProper : ∀ name ∈ place.names ++ below, name.IsProper := by
    intro name member
    rcases List.mem_append.mp member with inPlace | inBelow
    · exact PathName.isProper_of_mem_names inPlace
    · exact proper name inBelow
  apply Option.ext
  intro text
  rw [holds.readConfig?_eq_some_iff allProper]
  constructor
  · intro found
    rcases found with ⟨other, same, held⟩
    rw [List.append_cancel_left same]
    exact held
  · intro held
    exact ⟨below, rfl, held⟩

/-- Above the place, nothing is read. -/
theorem HoldsBelow.readConfig?_above (holds : HoldsBelow source configName place texts)
    {directory rest : List Segment} (above : (directory, rest) ∈ PathName.above place.names) :
    readConfig? source configName (.absolute directory) = none := by
  have whole := PathName.append_of_mem_above above
  have proper : ∀ name ∈ directory, name.IsProper := by
    intro name member
    exact PathName.isProper_of_mem_names (whole ▸ List.mem_append_left _ member)
  apply Option.eq_none_iff_forall_ne_some.mpr
  intro text read
  rcases (holds.readConfig?_eq_some_iff proper text).mp read with ⟨below, longer, -⟩
  -- The directory would begin with all names of the place, of which it lacks the last ones.
  rw [← whole, List.append_assoc] at longer
  have nothing := List.self_eq_append_right.mp longer
  exact PathName.ne_nil_of_mem_above above (List.append_eq_nil_iff.mp nothing).1

/-- The levels above a path below the place do not depend on the place. -/
theorem HoldsBelow.levels_above (holds : HoldsBelow source configName place texts)
    {names : List Segment} (proper : ∀ name ∈ names, name.IsProper) :
    (Ascent.above source configName (place.names ++ names)).levels =
      (upToFirst (fun level => ConfigText.isRoot level.2)
        ((PathName.above names).filterMap fun pair =>
          (texts pair.1).map fun text => (pair.2, text))).map fun level =>
            ⟨Level.ofText level.2, Ascent.relativeText level.1⟩ := by
  have outside : Ascent.readable source configName ((PathName.above place.names).map
      fun pair => (pair.1, pair.2 ++ names)) = [] := by
    apply List.filterMap_eq_nil_iff.mpr
    intro pair member
    rcases List.mem_map.mp member with ⟨higher, above, rfl⟩
    simp only [holds.readConfig?_above above, Option.map_none]
  have inside : ((Ascent.readable source configName ((PathName.above names).map
      fun pair => (place.names ++ pair.1, pair.2))).map
        fun level => (level.1.2, level.2)) =
      (PathName.above names).filterMap fun pair =>
        (texts pair.1).map fun text => (pair.2, text) := by
    rw [Ascent.readable, List.filterMap_map, List.map_filterMap]
    apply List.filterMap_congr
    intro pair above
    have directoryProper : ∀ name ∈ pair.1, name.IsProper := by
      intro name member
      exact proper name (PathName.append_of_mem_above above ▸ List.mem_append_left _ member)
    simp only [Function.comp_apply, holds.readConfig?_below directoryProper, Option.map_map]
    rfl
  rw [Ascent.above, Ascent.levels_through, PathName.above_append, Ascent.readable,
    List.filterMap_append, ← Ascent.readable, ← Ascent.readable, outside, List.append_nil,
    ← inside, upToFirst_map, List.map_map]
  rfl

theorem HoldsBelow.properties_ofNames (holds : HoldsBelow source configName place texts)
    {other : PathName} {otherSource : FileSource}
    (otherHolds : HoldsBelow otherSource configName other texts) {names : List Segment}
    (nonempty : names ≠ []) (proper : ∀ name ∈ names, name.IsProper) :
    (Resolution.ofNames source configName (place.names ++ names)).properties =
      (Resolution.ofNames otherSource configName (other.names ++ names)).properties := by
  simp only [Resolution.ofNames, Ascent.properties, holds.levels_above proper,
    otherHolds.levels_above proper, List.getLast?_append_of_ne_nil _ nonempty]

end HoldsBelow

section Store

variable {store : FileStore} {configName : Text} {place : PathName}
  {texts : List Segment → Option Text}

theorem holdsBelow_empty (configName : Text) (place : PathName) :
    HoldsBelow FileStore.empty.source configName place fun _ => none := by
  intro directory _ _ text
  simp [FileStore.source, FileStore.empty]

/-- One config file more below the place of a tree. -/
theorem HoldsBelow.insert (holds : HoldsBelow store.source configName place texts)
    {name : Segment} (single : (PathName.ofText configName).parts = [name])
    (isProper : name.IsProper) {below : List Segment}
    (proper : ∀ other ∈ below, other.IsProper) (text : Text)
    (allowed : store.denials.get? (PathName.absolute (place.names ++ below ++ [name])).parts =
      none) :
    HoldsBelow (store.insert (.absolute (place.names ++ below ++ [name])) text).source configName
      place fun other => if other = below then some text else texts other := by
  intro directory isAbsolute normal wanted
  have pathParts : (PathName.absolute (place.names ++ below ++ [name])).parts =
      Segment.root :: (place.names ++ below) ++ [name] := by
    apply PathName.parts_absolute
    intro other member
    simp only [List.mem_append, List.mem_singleton] at member
    rcases member with (inPlace | inBelow) | rfl
    · exact PathName.isProper_of_mem_names inPlace
    · exact proper other inBelow
    · exact isProper
  have nameProper : ∀ part ∈ (PathName.ofText configName).parts, part.IsProper := by
    simpa [single] using isProper
  have fileParts : (directory.join (.ofText configName)).parts =
      Segment.root :: directory.names ++ [name] := by
    rw [PathName.parts_join isAbsolute (PathName.isAbsolute_eq_false_of_parts nameProper),
      PathName.effective_segments_of_parts nameProper, single,
      ← PathName.parts_normalize isAbsolute, normal]
  by_cases same : directory.names = place.names ++ below
  · have found : (store.insert (.absolute (place.names ++ below ++ [name])) text).source
        (directory.join (.ofText configName)) = .ok text := by
      apply store.source_insert_of_eq text _ allowed
      rw [fileParts, pathParts, same]
    rw [found]
    simp [same]
  · have different : (directory.join (.ofText configName)).parts ≠
        (PathName.absolute (place.names ++ below ++ [name])).parts := by
      intro equal
      rw [fileParts, pathParts] at equal
      exact same (List.append_cancel_right (List.cons.inj equal).2)
    rw [store.source_insert_of_ne text different, holds directory isAbsolute normal]
    constructor
    · intro held
      rcases held with ⟨other, names, held⟩
      have notBelow : other ≠ below := fun equal => same (equal ▸ names)
      exact ⟨other, names, (if_neg notBelow).trans held⟩
    · intro held
      rcases held with ⟨other, names, held⟩
      have notBelow : other ≠ below := fun equal => same (equal ▸ names)
      exact ⟨other, names, (if_neg notBelow).symm.trans held⟩

end Store

/-- A file has the same properties in two trees that have the same config files, wherever the trees
stand. -/
theorem resolve_eq_of_holdsBelow {first second : FileSource} {configName : Text}
    {place other path : PathName} {texts : List Segment → Option Text}
    (placeIsAbsolute : place.isAbsolute = true) (otherIsAbsolute : other.isAbsolute = true)
    (nonempty : path.parts ≠ []) (proper : ∀ part ∈ path.parts, part.IsProper)
    (holds : HoldsBelow first configName place texts)
    (otherHolds : HoldsBelow second configName other texts) :
    ∃ table, resolve first configName (place.join path) = .ok table ∧
      resolve second configName (other.join path) = .ok table := by
  refine ⟨(Resolution.ofNames first configName (place.names ++ path.parts)).properties, ?_, ?_⟩
  · rw [resolve_of_isAbsolute _ _ (PathName.isAbsolute_join placeIsAbsolute path),
      PathName.names_join placeIsAbsolute proper]
  · rw [resolve_of_isAbsolute _ _ (PathName.isAbsolute_join otherIsAbsolute path),
      PathName.names_join otherIsAbsolute proper,
      holds.properties_ofNames otherHolds nonempty proper]

/-- The name `.e` as a segment. -/
def dotE : Segment := Text.Utf8.encode ['.', 'e']

/-- The name `s` as a segment. -/
def onlyS : Segment := Text.Utf8.encode ['s']

/-- A tree at a place, with a config file at its top and one in the directory `s`. -/
def treeAt (place : PathName) : FileStore :=
  (FileStore.empty.insert (.absolute (place.names ++ [] ++ [dotE]))
    "k=1\n[/s/**]\nm=2\n[s/f]\nm=3".toList).insert
      (.absolute (place.names ++ [onlyS] ++ [dotE])) "[t/*]\nj=4".toList

/-- The config files of the tree. -/
def treeTexts (below : List Segment) : Option Text :=
  if below = [onlyS] then some "[t/*]\nj=4".toList
  else if below = [] then some "k=1\n[/s/**]\nm=2\n[s/f]\nm=3".toList
  else none

theorem holdsBelow_treeAt (place : PathName) :
    HoldsBelow (treeAt place).source ".e".toList place treeTexts := by
  have single : (PathName.ofText ".e".toList).parts = [dotE] := by decide
  have isProper : dotE.IsProper := ⟨by decide, by decide, by decide⟩
  have inner : onlyS.IsProper := ⟨by decide, by decide, by decide⟩
  have noNames : ∀ name ∈ ([] : List Segment), name.IsProper := by simp
  have outermost := (holdsBelow_empty ".e".toList place).insert single isProper noNames
    "k=1\n[/s/**]\nm=2\n[s/f]\nm=3".toList rfl
  exact outermost.insert single isProper (List.forall_mem_singleton.mpr inner) _ rfl

/-- The tree stands at the root, and two directories farther down. -/
theorem resolve_eq_of_holdsBelow_treeAt :
    let place := PathName.ofText "/".toList
    let other := PathName.ofText "/s/./t".toList
    let path := PathName.ofText "s//t/f".toList
    place.isAbsolute = true ∧ other.isAbsolute = true ∧ path.parts ≠ [] ∧
      (∀ part ∈ path.parts, part.IsProper) ∧
      HoldsBelow (treeAt place).source ".e".toList place treeTexts ∧
      HoldsBelow (treeAt other).source ".e".toList other treeTexts ∧
      ∃ table, resolve (treeAt place).source ".e".toList (place.join path) = .ok table ∧
        resolve (treeAt other).source ".e".toList (other.join path) = .ok table ∧
        table = OrderedMap.ofList
          [(['j'], .integer 4), (['k'], .integer 1), (['m'], .integer 2)] := by
  intro place other path
  have placeIsAbsolute : place.isAbsolute = true := by decide
  have otherIsAbsolute : other.isAbsolute = true := by decide
  have nonempty : path.parts ≠ [] := by decide
  have proper : ∀ part ∈ path.parts, part.IsProper := by
    have parts : path.parts = [onlyS, Text.Utf8.encode ['t'], Text.Utf8.encode ['f']] := by
      decide
    rw [parts]
    intro part member
    simp only [List.mem_cons, List.not_mem_nil, or_false] at member
    rcases member with rfl | rfl | rfl <;> exact ⟨by decide, by decide, by decide⟩
  rcases resolve_eq_of_holdsBelow placeIsAbsolute otherIsAbsolute nonempty proper
    (holdsBelow_treeAt place) (holdsBelow_treeAt other) with ⟨table, resolved, otherResolved⟩
  refine ⟨placeIsAbsolute, otherIsAbsolute, nonempty, proper, holdsBelow_treeAt place,
    holdsBelow_treeAt other, table, resolved, otherResolved, ?_⟩
  have computed := resolve_of_isAbsolute (treeAt place).source ".e".toList
    (PathName.isAbsolute_join placeIsAbsolute path)
  rw [Except.ok.inj (resolved.symm.trans computed)]
  decide +kernel

end PropertyCascade
