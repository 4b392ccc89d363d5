import PropertyCascade.Properties
import PropertyCascade.Text.Blank

/-!
# Config files

A config file is a preamble followed by sections, each under a header in brackets. It is read line
by line. A line is a header, an assignment or nothing: blank lines, comments, lines without `=` and
assignments to an empty key say nothing, so every text is a config file.

The lines are first read into statements, and the statements are then gathered into the preamble
and the sections. Within each of these the last assignment to a key counts.
-/

namespace PropertyCascade

/-- What a line of a config file says. -/
inductive Statement where
  /-- Starts a section with a pattern. -/
  | header (pattern : Text)
  /-- Gives a key a value. -/
  | assignment (key : Text) (value : Value)
  deriving DecidableEq

namespace Statement

/-- Comments start with `#` or `;`. -/
def isComment : Text → Bool
  | '#' :: _ => true
  | ';' :: _ => true
  | _ => false

/-- The pattern in a header: what stands between its outermost brackets. -/
def pattern? : Text → Option Text
  | '[' :: rest => if rest.getLast? = some ']' then some rest.dropLast else none
  | _ => none

/-- The key and the value of an assignment, cut at the first `=`. -/
def assignment? (line : Text) : Option Statement :=
  match Text.cutFirst '=' line with
  | none => none
  | some (before, after) =>
      let key := Text.trim before
      if key = [] then none else some (assignment key (Value.ofText (Text.trim after)))

/-- The statement in a line without blanks at its ends. -/
def ofTrimmed? (line : Text) : Option Statement :=
  if line = [] ∨ isComment line = true then none
  else match pattern? line with
    | some pattern => some (header pattern)
    | none => assignment? line

/-- The statement in a line. -/
def ofLine? (line : Text) : Option Statement :=
  ofTrimmed? (Text.trim line)

/-- The statements in a text, without a byte order mark at its start. -/
def ofText (text : Text) : List Statement :=
  ((Text.withoutMark text).splitOn '\n').filterMap ofLine?

/-- The assignments before the next header. -/
def leading : List Statement → List (Text × Value)
  | assignment key value :: rest => (key, value) :: leading rest
  | _ => []

end Statement

/-- A pattern, not examined yet, and the properties assigned under it. -/
structure Section where
  pattern : Text
  properties : Properties
  deriving DecidableEq

namespace Section

/-- The sections that statements make: each header takes the assignments up to the next one. -/
def ofStatements : List Statement → List Section
  | [] => []
  | .header pattern :: rest =>
      ⟨pattern, OrderedMap.ofList (Statement.leading rest)⟩ :: ofStatements rest
  | .assignment _ _ :: rest => ofStatements rest

end Section

/-- A preamble and sections in the order of the file. -/
structure ConfigFile where
  preamble : Properties
  sections : List Section
  deriving DecidableEq

namespace ConfigFile

/-- Gathers statements into a preamble and sections. -/
def ofStatements (statements : List Statement) : ConfigFile :=
  ⟨OrderedMap.ofList (Statement.leading statements), Section.ofStatements statements⟩

/-- Reads a config file. -/
def read (text : Text) : ConfigFile :=
  ofStatements (Statement.ofText text)

/-- An assignment is cut at its first `=`, a comment only starts a line, and lines of other forms say
nothing. -/
example : (read "a=b=c # d\n# e=f\n=g\n[h]\r\n k = v \n".toList) =
    ⟨OrderedMap.ofList [(['a'], .text "b=c # d".toList)],
      [⟨['h'], OrderedMap.ofList [(['k'], .text ['v'])]⟩]⟩ := by
  decide

end ConfigFile

end PropertyCascade
