import PropertyCascade.FileTree
import PropertyCascade.Ignore.Rule
import PropertyCascade.Settings

/-!
# Ignore rules of directories

Which of the files in a tree are left out. Every directory above a file may have rules about it in
`.ignore`, in `.gitignore` and in the data of a repository. The first kind always counts. The
other two count within a repository only, and only those of directories up to its top. Within a
kind the nearest directory that says something decides, and the kinds come in this order.

A name that starts with a dot, and does not end with one, is hidden: it is left out unless a rule
takes it in.
-/

namespace PropertyCascade

namespace Ignore

/-- The rules that a directory has, by their kinds, and whether it is the top of a repository. -/
structure Directory where
  always : RuleFile
  versioned : RuleFile
  excluded : RuleFile
  isTop : Bool

namespace Directory

/-- The rules in a file, or none if it cannot be read. -/
def ruleFile (tree : FileTree) (path : PathName) : RuleFile :=
  match tree.content? path with
  | .ok content => RuleFile.ofContent content
  | .error _ => RuleFile.empty

/-- A file name in a directory. -/
def within (directory : PathName) (name : String) : PathName :=
  directory.join (PathName.ofText name.toList)

/-- The first line of a file. -/
def firstLine? (tree : FileTree) (path : PathName) : Option Text :=
  match tree.content? path with
  | .ok content => (RuleFile.texts (RuleFile.lines content)).head?
  | .error _ => none

/-- What follows a text at the start of another. -/
def after? (start text : Text) : Option Text :=
  if start.isPrefixOf text then some (text.drop start.length) else none

/-- The name under which a directory keeps the data of a repository. -/
def repositoryData (directory : PathName) : PathName :=
  within directory ".git"

/-- The directory that a file names which stands in the place of a repository's data. -/
def linked? (tree : FileTree) (directory : PathName) : Option PathName := do
  let named ← after? "gitdir: ".toList (← firstLine? tree (repositoryData directory))
  pure (PathName.ofText named)

/-- The file by which a linked directory names the one with the shared data. -/
def sharedDataFile (linked : PathName) : PathName :=
  within linked "commondir"

/-- The directory with the data of a repository. Where `.git` is a file, it names a directory with
a file that names the one with the shared data. -/
def repository? (tree : FileTree) (directory : PathName) : Option PathName :=
  if tree.isFile (repositoryData directory) then do
    let linked ← linked? tree directory
    let shared ← firstLine? tree (sharedDataFile linked)
    if shared.head? = some '.' then pure (linked.join (PathName.ofText shared))
    else pure (PathName.ofText shared)
  else some (repositoryData directory)

/-- The file with the rules that a repository does not share. -/
def excludeFile (data : PathName) : PathName :=
  within data "info/exclude"

/-- The rules of the directory at a place. -/
def ofPlace (tree : FileTree) (settings : WalkSettings) (place : Place) : Directory :=
  let directory := PathName.absolute place
  let always := ruleFile tree (within directory ".ignore")
  if settings.gitIgnore then
    ⟨always, ruleFile tree (within directory ".gitignore"),
      match repository? tree directory with
      | some data => ruleFile tree (excludeFile data)
      | none => RuleFile.empty,
      tree.isPresent (repositoryData directory)⟩
  else ⟨always, RuleFile.empty, RuleFile.empty, false⟩

/-- Whether some line in the rules of a directory cannot be read. -/
def hasUnreadable (directory : Directory) : Bool :=
  directory.always.hasUnreadable || directory.versioned.hasUnreadable ||
    directory.excluded.hasUnreadable

end Directory

/-- A directory above a path, with the bytes of the path from there. -/
structure Viewpoint where
  directory : Directory
  path : List UInt8

namespace Viewpoint

/-- The directories above a place, the nearest first. -/
def above (tree : FileTree) (settings : WalkSettings) (place : Place) : List Viewpoint :=
  (PathName.above place).map fun (directory, below) =>
    ⟨Directory.ofPlace tree settings directory, (PathName.relative below).bytes⟩

/-- The directories of a repository: up to its top. -/
def toTop : List Viewpoint → List Viewpoint
  | [] => []
  | viewpoint :: farther =>
      if viewpoint.directory.isTop then [viewpoint] else viewpoint :: toTop farther

/-- What the nearest of several directories says that says something. -/
def nearest (kind : Directory → RuleFile) (isDirectory : Bool) (viewpoints : List Viewpoint) :
    Option Verdict :=
  viewpoints.findSome? fun viewpoint =>
    Rule.decide? (kind viewpoint.directory).rules viewpoint.path isDirectory

/-- What the rules of the directories above a path say about it. -/
def verdict? (viewpoints : List Viewpoint) (isDirectory : Bool) : Option Verdict :=
  let always := nearest Directory.always isDirectory viewpoints
  if viewpoints.any (·.directory.isTop) then
    always.or ((nearest Directory.versioned isDirectory (toTop viewpoints)).or
      (nearest Directory.excluded isDirectory (toTop viewpoints)))
  else always

end Viewpoint

/-- Whether a name is hidden. -/
def isHidden (name : Segment) : Bool :=
  name.head? == some Segment.dot && name.getLast? != some Segment.dot

/-- Whether what stands at a place below a walked directory is left out. -/
def isLeftOut (tree : FileTree) (settings : WalkSettings) (place : Place) (isDirectory : Bool) :
    Bool :=
  match Viewpoint.verdict? (Viewpoint.above tree settings place) isDirectory with
  | some .leaveOut => true
  | some .takeIn => false
  | none => !settings.hidden && (place.getLast?.map isHidden).getD false

end Ignore

end PropertyCascade
