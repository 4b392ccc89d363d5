import Mathlib.Data.List.Basic
import PropertyCascade.FileStore
import PropertyCascade.Proofs.Level
import PropertyCascade.Proofs.PathName
import PropertyCascade.Resolution

/-!
# Precedence

Which value a key gets when a file is resolved. The visible levels are the config files that can be
read in the directories above the file, up to and including the first that is a root. The value
comes from the nearest visible level whose sections give the key a value; if there is none, from
the nearest one whose preamble does.

The specification only mentions paths, the texts of the config files and the assignments in them.
The proof reads the walk through the directories as the list of the visible levels, and filling a
table from each of them in turn as a search for the first that has a value.
-/

namespace PropertyCascade

universe u v

/-- The elements of a list up to and including the first that satisfies a condition. -/
def upToFirst {Element : Type u} (condition : Element → Bool) (list : List Element) :
    List Element :=
  list.take (list.findIdx condition + 1)

theorem upToFirst_cons {Element : Type u} (condition : Element → Bool) (first : Element)
    (rest : List Element) :
    upToFirst condition (first :: rest) =
      first :: if condition first then [] else upToFirst condition rest := by
  cases holds : condition first <;> simp [upToFirst, List.findIdx_cons, holds]

theorem upToFirst_map {Element : Type u} {Image : Type v} (f : Element → Image)
    (condition : Image → Bool) (list : List Element) :
    upToFirst condition (list.map f) = (upToFirst (condition ∘ f) list).map f := by
  simp [upToFirst, List.findIdx_map, List.map_take]

namespace PathName

/-- The text of the last part of a path. -/
def basename (path : PathName) : Text :=
  (path.fileName?.map Segment.text).getD []

/-- The text of the way from a directory to a path below it. -/
def relativeText (path directory : PathName) : Text :=
  ['/'].intercalate ((path.parts.drop directory.parts.length).map Segment.text)

theorem basename_absolute {names : List Segment} (proper : ∀ name ∈ names, name.IsProper) :
    (absolute names).basename = (names.getLast?.map Segment.text).getD [] := by
  rw [basename, fileName?, parts_absolute proper]
  cases names using List.reverseRecOn with
  | nil => rfl
  | append_singleton directory name =>
      have isName : name.isName = true := (proper name (by simp)).isName
      rw [← List.cons_append, List.getLast?_concat, List.getLast?_concat, Option.filter_some,
        if_pos isName]

theorem relativeText_absolute {directory below : List Segment}
    (proper : ∀ name ∈ directory ++ below, name.IsProper) :
    (absolute (directory ++ below)).relativeText (absolute directory) =
      Ascent.relativeText below := by
  have directoryProper : ∀ name ∈ directory, name.IsProper :=
    fun name member => proper name (List.mem_append_left _ member)
  rw [relativeText, parts_absolute proper, parts_absolute directoryProper, Ascent.relativeText]
  simp

end PathName

/-- The text of the config file in a directory, if it can be read. -/
def readConfig? (source : FileSource) (configName : Text) (directory : PathName) : Option Text :=
  (source (directory.join (PathName.ofText configName))).toOption

/-- The config files that can be read in the directories above a path, the nearest first, each
with its directory. -/
def readableAbove (source : FileSource) (configName : Text) (path : PathName) :
    List (PathName × Text) :=
  (Search.directories path).tail.filterMap fun directory =>
    (readConfig? source configName directory).map fun text => (directory, text)

/-- The visible levels above a path: those that can be read, up to and including the first root. -/
def visibleAbove (source : FileSource) (configName : Text) (path : PathName) :
    List (PathName × Text) :=
  upToFirst (fun (_, text) => ConfigText.isRoot text) (readableAbove source configName path)

/-- The value that prevails for a key: from the sections of the nearest visible level in which
sections that cover the path give one, otherwise from the preamble of the nearest visible level
that gives one. -/
def prevailing (source : FileSource) (configName : Text) (path : PathName) (key : Text) :
    Option Value :=
  ((visibleAbove source configName path).findSome? fun (directory, text) =>
      ConfigText.sectionValue path.basename (path.relativeText directory) text key).or
    ((visibleAbove source configName path).findSome? fun (_, text) =>
      ConfigText.preambleValue text key)

namespace Ascent

/-- The directories of a walk with the texts of their config files, where these can be read. -/
def readable (source : FileSource) (configName : Text)
    (pairs : List (List Segment × List Segment)) : List ((List Segment × List Segment) × Text) :=
  pairs.filterMap fun pair =>
    (readConfig? source configName (.absolute pair.1)).map fun text => (pair, text)

/-- The levels of a walk are those that can be read, up to and including the first root. -/
theorem levels_through (source : FileSource) (configName : Text)
    (pairs : List (List Segment × List Segment)) :
    (through source configName pairs).levels =
      (upToFirst (fun level => ConfigText.isRoot level.2)
        (readable source configName pairs)).map fun level =>
          ⟨Level.ofText level.2, relativeText level.1.2⟩ := by
  induction pairs with
  | nil => rfl
  | cons pair farther ih =>
      rcases pair with ⟨directory, below⟩
      rw [through, readable, List.filterMap_cons, readConfig?, configPath]
      cases read : source ((PathName.absolute directory).join (PathName.ofText configName)) with
      | error failure => exact ih
      | ok text =>
          simp only [Except.toOption, Option.map_some]
          rw [upToFirst_cons, Level.isRoot_ofText]
          cases ConfigText.isRoot text with
          | true => rfl
          | false => exact congrArg (_ :: ·) ih

theorem get?_properties (ascent : Ascent) (basename key : Text) :
    (ascent.properties basename).get? key =
      (ascent.levels.findSome? fun visible =>
        (visible.level.matching basename visible.relativePath).get? key).or
      (ascent.levels.findSome? fun visible => visible.level.preamble.get? key) := by
  rw [properties, OrderedMap.get?_overlay, OrderedMap.get?_foldl_fillFrom,
    OrderedMap.get?_foldl_fillFrom]
  rfl

theorem readableAbove_absolute (source : FileSource) (configName : Text) {names : List Segment}
    (proper : ∀ name ∈ names, name.IsProper) :
    readableAbove source configName (.absolute names) =
      (readable source configName (PathName.above names)).map fun level =>
        (.absolute level.1.1, level.2) := by
  rw [readableAbove, readable, PathName.directories_absolute proper, List.tail_cons,
    List.filterMap_map, List.map_filterMap]
  simp [Function.comp_def]

end Ascent

theorem get?_properties_ofNames (source : FileSource) (configName : Text) {names : List Segment}
    (proper : ∀ name ∈ names, name.IsProper) (key : Text) :
    (Resolution.ofNames source configName names).properties.get? key =
      prevailing source configName (.absolute names) key := by
  have visible : visibleAbove source configName (.absolute names) =
      (upToFirst (fun level => ConfigText.isRoot level.2)
        (Ascent.readable source configName (PathName.above names))).map fun level =>
          (.absolute level.1.1, level.2) := by
    rw [visibleAbove, Ascent.readableAbove_absolute source configName proper, upToFirst_map]
    rfl
  have relative (level : (List Segment × List Segment) × Text)
      (member : level ∈ upToFirst (fun level => ConfigText.isRoot level.2)
        (Ascent.readable source configName (PathName.above names))) :
      (PathName.absolute names).relativeText (.absolute level.1.1) =
        Ascent.relativeText level.1.2 := by
    rcases List.mem_filterMap.mp (List.mem_of_mem_take member) with ⟨pair, above, read⟩
    rcases Option.map_eq_some_iff.mp read with ⟨text, -, rfl⟩
    have parts : pair.1 ++ pair.2 = names := PathName.append_of_mem_above above
    rw [← parts] at proper ⊢
    exact PathName.relativeText_absolute proper
  rw [Resolution.ofNames, Ascent.get?_properties, Ascent.above, Ascent.levels_through, prevailing,
    visible, PathName.basename_absolute proper]
  simp only [List.findSome?_map, Function.comp_def, Level.get?_preamble_ofText,
    Level.get?_matching_ofText]
  congr 1
  rw [← List.head?_filterMap, ← List.head?_filterMap]
  congr 1
  apply List.filterMap_congr
  intro level member
  rw [relative level member]

/-- Resolving an absolute path succeeds, and each key gets the value that prevails for it above
the normalised path. -/
theorem resolve_eq_prevailing (source : FileSource) (configName : Text) (path : PathName)
    (isAbsolute : path.isAbsolute = true) :
    ∃ table, resolve source configName path = .ok table ∧
      ∀ key, table.get? key = prevailing source configName path.normalize key := by
  refine ⟨(Resolution.ofNames source configName path.names).properties, ?_, fun key => ?_⟩
  · rw [resolve, Resolution.ofPath, if_pos isAbsolute]
    rfl
  · rw [PathName.normalize_of_isAbsolute isAbsolute]
    exact get?_properties_ofNames source configName (fun _ => PathName.isProper_of_mem_names) key

/-- Config files in four directories: the nearest cannot be read, the next two assign `k` in a
preamble and in a section, and the farthest lies beyond a root. -/
def layeredStore : FileStore :=
  ((((FileStore.empty.insert (.ofText "/a/b/c/.e".toList) "[*]\nk=nearest".toList).insert
    (.ofText "/a/b/.e".toList) "k=preamble".toList).insert
    (.ofText "/a/.e".toList) "ROOT=True\n[b/**]\nk=section\n[*.o]\nk=other".toList).insert
    (.ofText "/.e".toList) "[*]\nk=beyond".toList).deny
    (.ofText "/a/b/c/.e".toList) .permissionDenied

theorem resolve_eq_prevailing_layeredStore :
    (PathName.ofText "/a/x/../b/c/f".toList).isAbsolute = true ∧
      ∃ table, resolve layeredStore.source ".e".toList (.ofText "/a/x/../b/c/f".toList) =
          .ok table ∧ table.get? ['k'] = some (.text "section".toList) := by
  have isAbsolute : (PathName.ofText "/a/x/../b/c/f".toList).isAbsolute = true := by decide
  rcases resolve_eq_prevailing layeredStore.source ".e".toList _ isAbsolute with
    ⟨table, resolved, values⟩
  refine ⟨isAbsolute, table, resolved, ?_⟩
  rw [values]
  decide +kernel

end PropertyCascade
