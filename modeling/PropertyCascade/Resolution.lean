import PropertyCascade.FileSource
import PropertyCascade.Level

/-!
# Resolution

The properties in effect for a file come from the config files in the directories above it. They
are visited from the nearest directory upward, and the visit ends with the first readable level
that is a root. A config file that cannot be read, for whatever reason, contributes nothing.

A nearer level takes precedence over a farther one. The sections of all levels take precedence
over the preambles of all levels.
-/

namespace PropertyCascade

/-- A level above a file, with the path that leads from its directory to the file. -/
structure VisibleLevel where
  level : Level
  relativePath : Text

/-- A walk through the directories above a file. -/
structure Ascent where
  /-- The paths that were read from, in order. -/
  asked : List PathName
  /-- The levels that were read, the nearest first. -/
  levels : List VisibleLevel

namespace Ascent

/-- The path of the config file in a directory. -/
def configPath (configName : Text) (directory : List Segment) : PathName :=
  (PathName.absolute directory).join (PathName.ofText configName)

/-- A path of names as a text. -/
def relativeText (names : List Segment) : Text :=
  ['/'].intercalate (names.map Segment.text)

/-- Walks through directories, each given with the names that lead from it to the file, up to the
first level that is a root. -/
def through (source : FileSource) (configName : Text) :
    List (List Segment × List Segment) → Ascent
  | [] => ⟨[], []⟩
  | (directory, below) :: farther =>
      let path := configPath configName directory
      match source path with
      | .error _ =>
          let rest := through source configName farther
          ⟨path :: rest.asked, rest.levels⟩
      | .ok text =>
          let visible : VisibleLevel := ⟨Level.ofText text, relativeText below⟩
          if visible.level.isRoot then ⟨[path], [visible]⟩
          else
            let rest := through source configName farther
            ⟨path :: rest.asked, visible :: rest.levels⟩

/-- Walks through the directories above a file. -/
def above (source : FileSource) (configName : Text) (names : List Segment) : Ascent :=
  through source configName (PathName.above names)

/-- The properties that the levels of a walk give a file. -/
def properties (ascent : Ascent) (basename : Text) : Properties :=
  let sections := ascent.levels.foldl (fun found visible =>
    found.fillFrom (visible.level.matching basename visible.relativePath)) OrderedMap.empty
  let preambles := ascent.levels.foldl (fun found visible =>
    found.fillFrom visible.level.preamble) OrderedMap.empty
  preambles.overlay sections

end Ascent

/-- Why a path cannot be resolved. -/
inductive ResolveError where
  | relativePath (path : PathName)
  deriving DecidableEq, Repr

namespace ResolveError

/-- The wording of an error. -/
def message : ResolveError → Text
  | relativePath path => "path must be absolute: ".toList ++ path.display

end ResolveError

/-- The result of a resolution and the paths that it read from. -/
structure Resolution where
  properties : Properties
  asked : List PathName

namespace Resolution

/-- Resolves the file at an absolute path of names. -/
def ofNames (source : FileSource) (configName : Text) (names : List Segment) : Resolution :=
  let ascent := Ascent.above source configName names
  let basename := (names.getLast?.map Segment.text).getD []
  ⟨ascent.properties basename, ascent.asked⟩

/-- Resolves the file at a path, which must be absolute. -/
def ofPath (source : FileSource) (configName : Text) (path : PathName) :
    Except ResolveError Resolution :=
  if path.isAbsolute then .ok (ofNames source configName path.names)
  else .error (.relativePath path)

end Resolution

/-- The properties in effect for the file at a path. -/
def resolve (source : FileSource) (configName : Text) (path : PathName) :
    Except ResolveError Properties :=
  (Resolution.ofPath source configName path).map Resolution.properties

end PropertyCascade
