import PropertyCascade.PathName

/-!
# Searching upward

The search for a file in a directory and the directories above it, as they are written in its
path. The nearest file counts. The search can be told not to leave a repository: then it ends at
the first directory in which something is called `.git`.
-/

namespace PropertyCascade

/-- What can be asked of a file system without reading files. -/
structure Probe where
  isFile : PathName → Bool
  isPresent : PathName → Bool

namespace Search

/-- A directory and at most a number of directories above it, the nearest first. -/
def upTo : Nat → PathName → List PathName
  | 0, directory => [directory]
  | count + 1, directory =>
      match directory.parent? with
      | some parent => directory :: upTo count parent
      | none => [directory]

/-- A directory and all directories above it, the nearest first. -/
def directories (start : PathName) : List PathName :=
  upTo start.bytes.length start

/-- The name of the directory in which a repository keeps its data. -/
def repositoryName : PathName :=
  PathName.ofText ['.', 'g', 'i', 't']

/-- The path of the file with a given name in the first directory that has one. -/
def firstIn (probe : Probe) (name : PathName) (stopAtRepository : Bool) :
    List PathName → Option PathName
  | [] => none
  | directory :: farther =>
      if probe.isFile (directory.join name) then some (directory.join name)
      else if stopAtRepository && probe.isPresent (directory.join repositoryName) then none
      else firstIn probe name stopAtRepository farther

/-- Searches from a directory upward. -/
def upward (probe : Probe) (start name : PathName) (stopAtRepository : Bool) : Option PathName :=
  firstIn probe name stopAtRepository (directories start)

end Search

end PropertyCascade
