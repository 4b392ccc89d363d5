import PropertyCascade.FileSource
import PropertyCascade.OutputFormat
import PropertyCascade.Toml.Document

/-!
# Settings

The settings of a run come from the command line, from a settings file and from the defaults, in
this order: each source only decides what the sources before it leave open.

The settings file is a TOML document with three sections, all optional and each with optional
fields. A section may also be an array of all its fields in order. Anything else in the file makes
it malformed.
-/

namespace PropertyCascade

/-- The name that config files have if no other is asked for. -/
def defaultConfigName : Text := ".editorconfig".toList

/-- What a settings file says. -/
structure FileSettings where
  configName : Option Text
  format : Option OutputFormat
  hidden : Option Bool
  gitIgnore : Option Bool
  deriving DecidableEq, Repr

/-- What a command line says. -/
structure Overrides where
  configName : Option Text
  format : Option OutputFormat
  hidden : Option Bool
  /-- Whether ignore rules are left out of account. -/
  noIgnore : Option Bool
  deriving DecidableEq, Repr

/-- Which of the files in a directory are taken. -/
structure WalkSettings where
  /-- Whether hidden files are taken. -/
  hidden : Bool
  /-- Whether the ignore rules of repositories count. -/
  gitIgnore : Bool
  deriving DecidableEq, Repr

/-- The settings of a run. -/
structure Settings where
  configName : Text
  format : OutputFormat
  walk : WalkSettings
  deriving DecidableEq, Repr

/-- Why a settings file cannot be used. -/
inductive SettingsError where
  | unreadable (failure : ReadFailure)
  | malformed
  deriving DecidableEq, Repr

namespace SettingsError

/-- The wording of an error. -/
def message : SettingsError → Text
  | unreadable failure => "failed to read config file: ".toList ++ failure.message
  | malformed => "failed to parse config file".toList

end SettingsError

namespace FileSettings

open Toml (Node)

/-- A file that says nothing. -/
def empty : FileSettings :=
  ⟨none, none, none, none⟩

/-- The fields of a section with given names: what a table has under them, or the first elements of
an array. A table may have no other entries, and an array must have an element for each name. -/
def fields? (names : List Text) : Node → Option (List (Option Node))
  | .table entries =>
      if entries.all fun entry => names.contains entry.1 then
        some (names.map fun name => entries.lookup name)
      else none
  | .array elements =>
      if names.length ≤ elements.length then some ((elements.take names.length).map some) else none
  | _ => none

/-- An optional field, which must have the right form if it is there. -/
def optional? {α : Type} (read : Node → Option α) : Option Node → Option (Option α)
  | none => some none
  | some node => (read node).map some

/-- The content of a string. -/
def text? : Node → Option Text
  | .string content => some content
  | _ => none

/-- The truth value of a boolean. -/
def flag? : Node → Option Bool
  | .boolean truth => some truth
  | _ => none

/-- Whether a node is an empty table or an empty array. -/
def isHollow : Node → Bool
  | .table [] => true
  | .array [] => true
  | _ => false

/-- The format that a node names: by a string, or by the only key of a table. -/
def format? : Node → Option OutputFormat
  | .string content => OutputFormat.ofName? content
  | .table [(key, content)] => if isHollow content then OutputFormat.ofName? key else none
  | _ => none

/-- The fields of an optional section. -/
def optionalFields? (names : List Text) : Option Node → Option (List (Option Node))
  | none => some (names.map fun _ => none)
  | some node => fields? names node

/-- The settings in the entries of a document. -/
def ofEntries? (entries : List (Text × Node)) : Option FileSettings :=
  match fields? ["resolve".toList, "output".toList, "walk".toList] (.table entries) with
  | some [resolve, output, walk] =>
      match optionalFields? ["config_name".toList] resolve,
        optionalFields? ["format".toList] output,
        optionalFields? ["hidden".toList, "git_ignore".toList] walk with
      | some [configName], some [format], some [hidden, gitIgnore] => do
          pure ⟨← optional? text? configName, ← optional? format? format,
            ← optional? flag? hidden, ← optional? flag? gitIgnore⟩
      | _, _, _ => none
  | _ => none

/-- Reads the content of a settings file. -/
def read (text : Text) : Except SettingsError FileSettings :=
  match (Toml.Document.read? text).bind ofEntries? with
  | some settings => .ok settings
  | none => .error .malformed

/-- Reads a settings file. -/
def load (source : FileSource) (path : PathName) : Except SettingsError FileSettings :=
  match source path with
  | .error failure => .error (.unreadable failure)
  | .ok text => read text

end FileSettings

namespace Settings

/-- The settings if nothing is said. -/
def default : Settings :=
  ⟨defaultConfigName, .plain, ⟨false, true⟩⟩

/-- The settings that a command line and a settings file give. -/
def merge (overrides : Overrides) (file : FileSettings) : Settings :=
  ⟨(overrides.configName.or file.configName).getD default.configName,
    (overrides.format.or file.format).getD default.format,
    ⟨(overrides.hidden.or file.hidden).getD default.walk.hidden,
      ((overrides.noIgnore.map not).or file.gitIgnore).getD default.walk.gitIgnore⟩⟩

end Settings

end PropertyCascade
