import PropertyCascade.ConfigFile
import PropertyCascade.Glob.Pattern

/-!
# Levels

The config file of one directory, ready to be asked for the properties of a file below it. The
patterns of its sections are compiled; a section whose header is no pattern keeps the fault and
matches nothing, without any effect on the other sections.

The key `root` in the preamble, in any case of its letters, is a directive and no property: it is
taken out of the preamble, and the level is a root if one of its spellings has the value `true`.
-/

namespace PropertyCascade

/-- The directive that ends the walk through the directories above a file. -/
def rootKey : Text := ['r', 'o', 'o', 't']

/-- Whether a key is the root directive, in any case of its letters. -/
def isRootKey (key : Text) : Bool :=
  Text.equalsIgnoringCase key rootKey

/-- A section with its pattern, or with the fault in its header. -/
structure CompiledSection where
  pattern : Except Glob.Fault Glob.Pattern
  properties : Properties

namespace CompiledSection

/-- Compiles the header of a section. -/
def ofSection (fileSection : Section) : CompiledSection :=
  ⟨Glob.Pattern.compile fileSection.pattern, fileSection.properties⟩

/-- Whether the section has a pattern that covers a file. -/
def covers (compiled : CompiledSection) (basename relativePath : Text) : Bool :=
  match compiled.pattern with
  | .ok pattern => pattern.covers basename relativePath
  | .error _ => false

/-- The fault in the header of the section. -/
def fault? (compiled : CompiledSection) : Option Glob.Fault :=
  match compiled.pattern with
  | .ok _ => none
  | .error fault => some fault

end CompiledSection

/-- A config file with its patterns compiled and the root directive taken out. -/
structure Level where
  preamble : Properties
  sections : List CompiledSection
  isRoot : Bool

namespace Level

/-- Whether an entry of a preamble makes its level a root. -/
def declaresRoot (entry : Text × Value) : Bool :=
  isRootKey entry.1 && entry.2 == .flag true

/-- Compiles a config file. -/
def ofConfigFile (file : ConfigFile) : Level :=
  ⟨file.preamble.filterKeys fun key => !isRootKey key,
    file.sections.map CompiledSection.ofSection,
    file.preamble.entries.any declaresRoot⟩

/-- Reads and compiles a config file. -/
def ofText (text : Text) : Level :=
  ofConfigFile (ConfigFile.read text)

/-- The properties from the sections that cover a file; a later section replaces what an earlier
one says. -/
def matching (level : Level) (basename relativePath : Text) : Properties :=
  (level.sections.filter fun compiled => compiled.covers basename relativePath).foldl
    (fun found compiled => found.overlay compiled.properties) OrderedMap.empty

/-- The faults in the headers, in the order of the file. -/
def faults (level : Level) : List Glob.Fault :=
  level.sections.filterMap CompiledSection.fault?

end Level

end PropertyCascade
