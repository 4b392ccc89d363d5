import PropertyCascade.Ignore.Directory

/-!
# Walks

The files that named paths stand for. A path that leads to a file stands for that file, whatever
its name; one that leads to a directory stands for the files below it, in the order of a walk,
that are not left out. A file below a directory is taken if no step on the way to it is left out;
links on the way are not followed. The directory itself is taken in any case.
-/

namespace PropertyCascade

/-- Why a named path stands for no file. -/
inductive WalkError where
  | notFound (path : PathName)
  /-- Some ignore file above a named directory has a line that cannot be read. -/
  | unreadableRule (path : PathName)
  deriving DecidableEq, Repr

namespace WalkError

/-- The wording of an error. -/
def message : WalkError → Text
  | notFound path => "no such file or directory: ".toList ++ path.display
  | unreadableRule path => "unreadable ignore rule above ".toList ++ path.display

end WalkError

/-- How a directory is walked: the files that a path stands for which leads to a directory at a
place. -/
abbrev Descent :=
  FileTree → WalkSettings → PathName → Place → List (Except WalkError PathName)

namespace Walk

/-- Whether a file, given by the names that lead to it from a place, is taken. -/
def takes (tree : FileTree) (settings : WalkSettings) (place below : Place) : Bool :=
  (List.range below.length).all fun count =>
    !Ignore.isLeftOut tree settings (place ++ below.take (count + 1)) (count + 1 < below.length)

/-- The files below a place that are taken, by the names that lead to them from it. -/
def filesTaken (tree : FileTree) (settings : WalkSettings) (place : Place) : List Place :=
  (tree.filesBelow place).filter (takes tree settings place)

/-- Whether some ignore file of the directories above a place has a line that cannot be read. -/
def hasUnreadableRule (tree : FileTree) (settings : WalkSettings) (place : Place) : Bool :=
  (PathName.above place).any fun (directory, _) =>
    (Ignore.Directory.ofPlace tree settings directory).hasUnreadable

/-- A path continued by names. -/
def continued (path : PathName) (below : Place) : PathName :=
  path.join (PathName.relative below)

/-- The files that a path which leads to a directory stands for. -/
def ofDirectory : Descent := fun tree settings path place =>
  (if hasUnreadableRule tree settings place then [.error (.unreadableRule path)] else []) ++
    (filesTaken tree settings place).map fun below => .ok (continued path below)

/-- The files that a path stands for, given how directories are walked. -/
def ofPath (descent : Descent) (tree : FileTree) (settings : WalkSettings) (path : PathName) :
    List (Except WalkError PathName) :=
  if tree.isFile path then [.ok path]
  else match tree.find? path with
    | none => [.error (.notFound path)]
    | some place => descent tree settings path place

/-- The files that several paths stand for, given how directories are walked. -/
def ofPathsBy (descent : Descent) (tree : FileTree) (settings : WalkSettings)
    (paths : List PathName) : List (Except WalkError PathName) :=
  paths.flatMap (ofPath descent tree settings)

/-- The files that several paths stand for. -/
def ofPaths (tree : FileTree) (settings : WalkSettings) (paths : List PathName) :
    List (Except WalkError PathName) :=
  ofPathsBy ofDirectory tree settings paths

end Walk

end PropertyCascade
