import PropertyCascade.FileSource
import PropertyCascade.OrderedMap

/-!
# File trees

A file system as the map of what stands where: an entry for the names that lead to it from the
root. Since the names of a path are compared one after the other, the order of the map is that of
a walk which visits directories in the order of their names and enters each at once.

Paths are followed name by name: through links, up at `..`, and only through what is a directory.
-/

namespace PropertyCascade

/-- What stands at a place. -/
inductive FileEntry where
  | directory
  | file (content : List UInt8)
  /-- A symbolic link with its target as written. -/
  | link (target : PathName)
  deriving DecidableEq

/-- A place: the names that lead to it from the root. -/
abbrev Place := List Segment

/-- A file system. The root is a directory without an entry. -/
structure FileTree where
  entries : OrderedMap Place FileEntry
  deriving DecidableEq

namespace FileTree

/-- The tree in which there is only the root. -/
def empty : FileTree :=
  ⟨OrderedMap.empty⟩

/-- What stands at a place. -/
def get? (tree : FileTree) (place : Place) : Option FileEntry :=
  if place = [] then some .directory else tree.entries.get? place

/-- Whether a directory stands at a place. -/
def hasDirectory (tree : FileTree) (place : Place) : Bool :=
  tree.get? place == some .directory

/-- How far a path could be followed. -/
inductive Passage where
  | arrived (place : Place)
  | blocked
  /-- A link was met in a directory, with what it leads to and what is left of the path. -/
  | linked (directory : Place) (target : PathName) (left : List Segment)

/-- Follows segments from a place, up to the first link. -/
def proceed (tree : FileTree) (place : Place) : List Segment → Passage
  | [] => .arrived place
  | segment :: rest =>
      if tree.hasDirectory place then
        if segment.isNoise then tree.proceed place rest
        else if segment = Segment.up then tree.proceed place.dropLast rest
        else match tree.get? (place ++ [segment]) with
          | none => .blocked
          | some (.link target) => .linked place target rest
          | some _ => tree.proceed (place ++ [segment]) rest
      else .blocked

/-- The greatest number of links in the way of one path. -/
def maxLinks : Nat := 40

/-- Follows segments from a place, through at most a number of links. -/
def follow (tree : FileTree) : Nat → Place → List Segment → Option Place
  | count, place, segments =>
      match tree.proceed place segments with
      | .arrived found => some found
      | .blocked => none
      | .linked directory target left =>
          match count with
          | 0 => none
          | fewer + 1 =>
              tree.follow fewer (if target.isAbsolute then [] else directory)
                (target.segments ++ left)

/-- The place that a path leads to, from the root if it is relative. -/
def find? (tree : FileTree) (path : PathName) : Option Place :=
  if path.bytes = [] then none else tree.follow maxLinks [] path.segments

/-- What a path leads to. -/
def lookup? (tree : FileTree) (path : PathName) : Option FileEntry :=
  (tree.find? path).bind tree.get?

/-- Whether a path leads to something. -/
def isPresent (tree : FileTree) (path : PathName) : Bool :=
  (tree.lookup? path).isSome

/-- Whether a path leads to a file. -/
def isFile (tree : FileTree) (path : PathName) : Bool :=
  match tree.lookup? path with
  | some (.file _) => true
  | _ => false

/-- The content of the file that a path leads to. -/
def content? (tree : FileTree) (path : PathName) : Except ReadFailure (List UInt8) :=
  match tree.lookup? path with
  | none => .error .notFound
  | some (.file content) => .ok content
  | some _ => .error .other

/-- What reading a path as a text gives. -/
def source (tree : FileTree) : FileSource := fun path => do
  match Text.Utf8.decode? (← tree.content? path) with
  | some text => .ok text
  | none => .error .invalidData

/-- The files strictly below a place, in order, by the names that lead to them from it. -/
def filesBelow (tree : FileTree) (place : Place) : List Place :=
  tree.entries.entries.filterMap fun (found, entry) =>
    match entry with
    | .file _ =>
        if place.isPrefixOf found && found != place then some (found.drop place.length) else none
    | _ => none

/-- Makes the directories that are missing on the way along names, and gives the place where the
way ends. -/
def makeDirectories (tree : FileTree) (place : Place) : List Segment → FileTree × Place
  | [] => (tree, place)
  | name :: rest =>
      match tree.follow maxLinks place [name] with
      | some found => tree.makeDirectories found rest
      | none =>
          let made := place ++ [name]
          makeDirectories ⟨tree.entries.insert made .directory⟩ made rest

/-- Puts an entry where a path leads, and makes the directories above it. -/
def put (tree : FileTree) (path : PathName) (entry : FileEntry) : FileTree :=
  match path.names.getLast? with
  | none => tree
  | some name =>
      let (made, place) := tree.makeDirectories [] path.names.dropLast
      ⟨made.entries.insert (place ++ [name]) entry⟩

end FileTree

end PropertyCascade
