import PropertyCascade.Cache
import PropertyCascade.Report
import PropertyCascade.Resolution
import PropertyCascade.Walk

/-!
# Runs

A run resolves the files that named paths stand for. The paths are made absolute first, and
normalised without regard to the file system. The files are then resolved one after the other, all
through one cache that is empty at the start. What goes wrong with one path is counted.
-/

namespace PropertyCascade

/-- Resolves a path through a cache, and gives the cache after that. The files are only read if the
cache has no table for the normalised path. -/
def Cache.resolve (cache : Cache) (source : FileSource) (configName : Text) (path : PathName) :
    Cache × Except ResolveError Properties :=
  if path.isAbsolute then
    let (after, table) := cache.fetch path.normalize fun _ =>
      (Resolution.ofNames source configName path.names).properties
    (after, .ok table)
  else (cache, .error (.relativePath path))

/-- The reports of a run in the order of the files, and the number of errors. -/
structure Run where
  reports : List Report
  errors : Nat
  deriving DecidableEq

namespace Run

/-- The run without files. -/
def empty : Run :=
  ⟨[], 0⟩

/-- One run after another. -/
def append (first second : Run) : Run :=
  ⟨first.reports ++ second.reports, first.errors + second.errors⟩

/-- Whether something went wrong. -/
def hasErrors (run : Run) : Bool :=
  0 < run.errors

/-- A path as seen from a directory, without dots. -/
def absolutize (directory path : PathName) : PathName :=
  (directory.join path).normalize

/-- The run over what a path stands for, and the cache after it. -/
def ofEntry (source : FileSource) (configName : Text) (cache : Cache) :
    Except WalkError PathName → Cache × Run
  | .error _ => (cache, ⟨[], 1⟩)
  | .ok path =>
      match cache.resolve source configName path with
      | (after, .ok properties) => (after, ⟨[⟨path, properties⟩], 0⟩)
      | (after, .error _) => (after, ⟨[], 1⟩)

/-- The run over what several paths stand for, from a given cache. -/
def ofEntries (source : FileSource) (configName : Text) (cache : Cache) :
    List (Except WalkError PathName) → Run
  | [] => empty
  | entry :: rest =>
      let (after, first) := ofEntry source configName cache entry
      first.append (ofEntries source configName after rest)

/-- Resolves the files that paths stand for, as seen from a directory, given how directories are
walked. -/
def ofPathsBy (descent : Descent) (tree : FileTree) (settings : Settings) (directory : PathName)
    (paths : List PathName) : Run :=
  ofEntries tree.source settings.configName Cache.empty
    (Walk.ofPathsBy descent tree settings.walk (paths.map (absolutize directory)))

/-- Resolves the files that paths stand for, as seen from a directory. -/
def ofPaths (tree : FileTree) (settings : Settings) (directory : PathName)
    (paths : List PathName) : Run :=
  ofPathsBy Walk.ofDirectory tree settings directory paths

end Run

end PropertyCascade
