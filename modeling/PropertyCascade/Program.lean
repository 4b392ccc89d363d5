import PropertyCascade.CommandLine
import PropertyCascade.Run
import PropertyCascade.Search

/-!
# The program

What the program prints, and the status that it ends with, as a function of its arguments and of
the file system. A settings file that is named has to be usable; one that is found in a directory
above is left aside if it is not.
-/

namespace PropertyCascade

namespace Program

/-- What the program prints and the status that it ends with. -/
structure Outcome where
  status : Nat
  output : Text
  deriving DecidableEq

/-- What the program is started with. -/
structure Surroundings where
  tree : FileTree
  directory : PathName
  /-- Whether to use colours if the command line does not say so. -/
  colours : Bool

/-- The name that the program looks for its settings under. -/
def settingsName : PathName :=
  PathName.ofText "ecfg.toml".toList

/-- The line for `--version`. -/
def versionText : Text :=
  "ecfg 0.1.0\n".toList

/-- The text for `--help`. -/
def helpText : Text :=
  "Print the effective .editorconfig properties of files\n\n".toList ++
    "Usage: ecfg [OPTIONS] <PATHS>...\n".toList

/-- The settings file in the current directory or above it. -/
def settingsFile? (surroundings : Surroundings) : Option PathName :=
  Search.upward ⟨surroundings.tree.isFile, surroundings.tree.isPresent⟩ surroundings.directory
    settingsName true

/-- What the settings file says. -/
def fileSettings (surroundings : Surroundings) (line : CommandLine) :
    Except SettingsError FileSettings :=
  match line.settingsPath with
  | some path =>
      FileSettings.load surroundings.tree.source (surroundings.directory.join path)
  | none =>
      match settingsFile? surroundings with
      | none => .ok FileSettings.empty
      | some path =>
          match FileSettings.load surroundings.tree.source path with
          | .ok file => .ok file
          | .error _ => .ok FileSettings.empty

/-- The colours to print with. -/
def palette (surroundings : Surroundings) (line : CommandLine) : Palette :=
  ⟨Palette.useColours line.colour line.noColour surroundings.colours⟩

/-- Answers a command line that asks for reports. -/
def answer (surroundings : Surroundings) (line : CommandLine) : Outcome :=
  match fileSettings surroundings line with
  | .error _ => ⟨1, []⟩
  | .ok file =>
      let settings := Settings.merge line.overrides file
      let run := Run.ofPaths surroundings.tree settings surroundings.directory line.paths
      ⟨if run.hasErrors then 1 else 0,
        Report.render settings.format (palette surroundings line) run.reports⟩

/-- Answers any arguments. -/
def outcome (surroundings : Surroundings) (arguments : List Argument) : Outcome :=
  match CommandLine.read arguments with
  | .ok line => answer surroundings line
  | .error .misuse => ⟨2, []⟩
  | .error .version => ⟨0, versionText⟩
  | .error .help => ⟨0, helpText⟩

end Program

end PropertyCascade
