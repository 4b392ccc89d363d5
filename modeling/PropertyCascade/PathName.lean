import PropertyCascade.Text.Utf8

/-!
# Path names

A path name is a sequence of bytes, cut into segments by separators. What it means is the sequence
of its parts: `/` if it is absolute, and then every segment that is neither empty nor `.`; only a
`.` at the very start of a relative path is a part. Names that differ in repeated separators or in
dots of no effect have the same parts.

Normalising a name also drops the leading `.` and lets every `..` cancel the name before it,
without asking any file system; at the root there is nothing to cancel.
-/

namespace PropertyCascade

/-- The bytes between two separators. -/
abbrev Segment := List UInt8

namespace Segment

/-- The separator, and as a part the root directory. -/
def separator : UInt8 := 0x2F

/-- The part that an absolute path starts with. -/
def root : Segment := [separator]

/-- The byte of a dot. -/
def dot : UInt8 := 0x2E

/-- A single dot. -/
def here : Segment := [dot]

/-- Two dots. -/
def up : Segment := [dot, dot]

/-- Empty segments and single dots have no effect within a path. -/
def isNoise (segment : Segment) : Bool :=
  segment == [] || segment == here

/-- Whether a part is a name: neither the root nor dots. -/
def isName (part : Segment) : Bool :=
  part != root && part != here && part != up

/-- The text that a segment is shown as. -/
def text (segment : Segment) : Text :=
  Text.Utf8.decodeLossy segment

end Segment

instance : Std.TransOrd (List Segment) :=
  inferInstance

instance : Std.LawfulEqOrd (List Segment) :=
  inferInstance

/-- A name of a file or directory. -/
structure PathName where
  bytes : List UInt8
  deriving DecidableEq, Repr

namespace PathName

open Segment

/-- The name that a text denotes. -/
def ofText (text : Text) : PathName :=
  ⟨Text.Utf8.encode text⟩

/-- The text that a name is shown as: malformed pieces become replacement characters. -/
def display (path : PathName) : Text :=
  Text.Utf8.decodeLossy path.bytes

/-- Whether a name starts at the root. -/
def isAbsolute (path : PathName) : Bool :=
  path.bytes.head? == some separator

/-- The segments of a name, at least one. -/
def segments (path : PathName) : List Segment :=
  path.bytes.splitOn separator

/-- The segments that have an effect. -/
def effective (segments : List Segment) : List Segment :=
  segments.filter fun segment => !segment.isNoise

/-- The parts of a name. -/
def parts (path : PathName) : List Segment :=
  if path.isAbsolute then root :: effective path.segments
  else match path.segments with
    | first :: rest => if first = here then here :: effective rest else effective (first :: rest)
    | [] => []

/-- Whether a path lies at or below another, part by part. -/
def isWithin (path directory : PathName) : Bool :=
  directory.parts.isPrefixOf path.parts

/-- The absolute name with given segments. -/
def absolute (segments : List Segment) : PathName :=
  ⟨separator :: [separator].intercalate segments⟩

/-- The relative name with given segments. -/
def relative (segments : List Segment) : PathName :=
  ⟨[separator].intercalate segments⟩

/-- A name seen from a directory: an absolute name replaces the directory. -/
def join (directory path : PathName) : PathName :=
  if path.isAbsolute || directory.bytes.isEmpty then path
  else if directory.bytes.getLast? = some separator then ⟨directory.bytes ++ path.bytes⟩
  else ⟨directory.bytes ++ separator :: path.bytes⟩

/-- One part more on a stack of names: a name goes on top, `..` takes the top away, and the other
parts have no effect. -/
def settle (stack : List Segment) (part : Segment) : List Segment :=
  if part = up then stack.tail
  else if part.isName then part :: stack
  else stack

/-- The names that are left when every `..` has cancelled the name before it. -/
def names (path : PathName) : List Segment :=
  (path.parts.foldl settle []).reverse

/-- A name without dots, double dots and repeated separators. -/
def normalize (path : PathName) : PathName :=
  if path.isAbsolute then absolute path.names else relative path.names

/-- The last part, if it is a name. -/
def fileName? (path : PathName) : Option Segment :=
  path.parts.getLast?.filter isName

/-- Segments in reverse order without the last of them that has an effect. -/
def withoutLast (reversed : List Segment) : List Segment :=
  ((reversed.dropWhile isNoise).drop 1).dropWhile isNoise

/-- The directory that a name is in: the name as written up to its last part. -/
def parent? (path : PathName) : Option PathName :=
  match path.parts.getLast? with
  | none => none
  | some part =>
      if part = root then none
      else if path.isAbsolute then
        some (absolute (withoutLast path.segments.tail.reverse).reverse)
      else match path.segments with
        | first :: rest =>
            if rest.all isNoise then some (relative [])
            else some (relative (first :: (withoutLast rest.reverse).reverse))
        | [] => none

/-- The directories above a path of names, the nearest first, each with the names that lead from
it to the path. -/
def above : List Segment → List (List Segment × List Segment)
  | [] => []
  | name :: rest =>
      ((above rest).map fun (directory, below) => (name :: directory, below)) ++
        [([], name :: rest)]

/-- At the root there is nothing above, and a relative name may lose all of its parts. -/
example :
    (ofText "/../a//b/./../c".toList).normalize = ofText "/a/c".toList ∧
      (ofText "a/../../b".toList).normalize = ofText "b".toList := by
  decide

end PathName

end PropertyCascade
