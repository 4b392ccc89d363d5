import PropertyCascade.Settings

/-!
# Command lines

The arguments of the program: options and flags in any order, and the paths to report on. They are
read from left to right. An option takes its value from the same argument, after `=` or directly
after its letter, or else from the next argument, which may not look like an option. After `--` all
arguments are paths. Nothing may be given twice but paths.

Asking for the version or for help ends the reading at once, unless something before was wrong.
-/

namespace PropertyCascade

/-- An argument as it comes from the system. -/
abbrev Argument := List UInt8

/-- What a command line asks for. -/
structure CommandLine where
  paths : List PathName
  configName : Option Text
  format : Option OutputFormat
  /-- The settings file to use. -/
  settingsPath : Option PathName
  hidden : Bool
  noIgnore : Bool
  colour : Bool
  noColour : Bool
  verbose : Bool
  deriving DecidableEq

namespace CommandLine

/-- Why the reading of a command line ends early. -/
inductive Stop where
  | misuse
  | version
  | help
  deriving DecidableEq, Repr

/-- The options that take a value. -/
inductive Setting where
  | configName
  | format
  | settingsPath
  deriving DecidableEq, Repr

/-- The options without a value. -/
inductive Flag where
  | hidden
  | noIgnore
  | colour
  | noColour
  | verbose
  deriving DecidableEq, Repr

/-- What an option name stands for. -/
inductive Meaning where
  | setting (setting : Setting)
  | flag (flag : Flag)
  | stop (stop : Stop)
  deriving DecidableEq, Repr

/-- A command line that asks for nothing. -/
def empty : CommandLine :=
  ⟨[], none, none, none, false, false, false, false, false⟩

/-- The hyphen that options start with. -/
def hyphen : UInt8 := 0x2D

/-- The sign between an option and its value. -/
def equalsSign : UInt8 := 0x3D

/-- The long names of options. -/
def longNames : List (String × Meaning) :=
  [("config-name", .setting .configName), ("format", .setting .format),
    ("config", .setting .settingsPath), ("hidden", .flag .hidden),
    ("no-ignore", .flag .noIgnore), ("color", .flag .colour), ("no-color", .flag .noColour),
    ("verbose", .flag .verbose), ("version", .stop .version), ("help", .stop .help)]

/-- The meaning of a long name. -/
def longMeaning? (name : List UInt8) : Option Meaning :=
  (longNames.find? fun entry => (PathName.ofText entry.1.toList).bytes == name).map (·.2)

/-- The meaning of a letter. -/
def letterMeaning? (letter : UInt8) : Option Meaning :=
  if letter = 0x66 then some (.setting .configName)
  else if letter = 0x76 then some (.flag .verbose)
  else if letter = 0x56 then some (.stop .version)
  else if letter = 0x68 then some (.stop .help)
  else none

/-- Adds a path, which may not be empty. -/
def addPath (line : CommandLine) (argument : Argument) : Except Stop CommandLine :=
  if argument = [] then .error .misuse
  else .ok { line with paths := line.paths ++ [⟨argument⟩] }

/-- Sets a flag that has not been set yet. -/
def setFlag (line : CommandLine) : Flag → Except Stop CommandLine
  | .hidden => if line.hidden then .error .misuse else .ok { line with hidden := true }
  | .noIgnore => if line.noIgnore then .error .misuse else .ok { line with noIgnore := true }
  | .colour => if line.colour then .error .misuse else .ok { line with colour := true }
  | .noColour => if line.noColour then .error .misuse else .ok { line with noColour := true }
  | .verbose => if line.verbose then .error .misuse else .ok { line with verbose := true }

/-- Sets the value of an option that has none yet. -/
def setValue (line : CommandLine) (setting : Setting) (value : Argument) :
    Except Stop CommandLine :=
  match setting with
  | .configName =>
      match line.configName, Text.Utf8.decode? value with
      | none, some name => .ok { line with configName := some name }
      | _, _ => .error .misuse
  | .format =>
      match line.format, (Text.Utf8.decode? value).bind OutputFormat.ofName? with
      | none, some format => .ok { line with format := some format }
      | _, _ => .error .misuse
  | .settingsPath =>
      if line.settingsPath.isNone && value != [] then
        .ok { line with settingsPath := some ⟨value⟩ }
      else .error .misuse

/-- Reads a long option, with the value after its `=`, if there is one. Gives also the option that
still needs a value. -/
def readLong (line : CommandLine) (name : List UInt8) (value : Option Argument) :
    Except Stop (CommandLine × Option Setting) :=
  match longMeaning? name, value with
  | some (.setting setting), some value => (line.setValue setting value).map (·, none)
  | some (.setting setting), none => .ok (line, some setting)
  | some (.flag flag), none => (line.setFlag flag).map (·, none)
  | some (.stop stop), none => .error stop
  | _, _ => .error .misuse

/-- Reads letters after a single hyphen. The first that takes a value takes all that follows it.
Gives also the option that still needs a value. -/
def readLetters (line : CommandLine) : List UInt8 → Except Stop (CommandLine × Option Setting)
  | [] => .ok (line, none)
  | letter :: rest =>
      match letterMeaning? letter with
      | some (.setting setting) =>
          match rest with
          | [] => .ok (line, some setting)
          | first :: more =>
              (line.setValue setting (if first = equalsSign then more else rest)).map (·, none)
      | some (.flag flag) =>
          match line.setFlag flag with
          | .ok after => readLetters after rest
          | .error stop => .error stop
      | some (.stop stop) => .error stop
      | none => .error .misuse

/-- Whether an argument looks like an option; a single hyphen does not. -/
def looksLikeOption (argument : Argument) : Bool :=
  argument.head? == some hyphen && argument != [hyphen]

/-- The parts of an argument before and after its first `=`. -/
def cutEquals (argument : Argument) : List UInt8 × Option Argument :=
  match argument.span (· != equalsSign) with
  | (name, _ :: value) => (name, some value)
  | (name, []) => (name, none)

/-- Reads one argument that may be an option. Gives also the option that still needs a value. -/
def readArgument (line : CommandLine) (argument : Argument) :
    Except Stop (CommandLine × Option Setting) :=
  if !looksLikeOption argument then (line.addPath argument).map (·, none)
  else match argument.drop 1 with
    | second :: rest =>
        if second = hyphen then
          let (name, value) := cutEquals rest
          line.readLong name value
        else line.readLetters (second :: rest)
    | [] => .error .misuse

/-- Reads arguments, the first of which is the value of an option that still needs one. -/
def readAll (line : CommandLine) : Option Setting → List Argument → Except Stop CommandLine
  | none, [] => .ok line
  | some _, [] => .error .misuse
  | some setting, argument :: rest =>
      if looksLikeOption argument then .error .misuse
      else match line.setValue setting argument with
        | .ok after => readAll after none rest
        | .error stop => .error stop
  | none, argument :: rest =>
      if argument = [hyphen, hyphen] then rest.foldlM addPath line
      else match line.readArgument argument with
        | .ok (after, needed) => readAll after needed rest
        | .error stop => .error stop

/-- Whether a command line names a path and does not ask for colours and against them. -/
def isComplete (line : CommandLine) : Bool :=
  line.paths != [] && !(line.colour && line.noColour)

/-- Reads a command line. -/
def read (arguments : List Argument) : Except Stop CommandLine :=
  match empty.readAll none arguments with
  | .ok line => if line.isComplete then .ok line else .error .misuse
  | .error stop => .error stop

/-- What a command line says about the settings. A flag that is not given leaves them open. -/
def overrides (line : CommandLine) : Overrides :=
  ⟨line.configName, line.format, if line.hidden then some true else none,
    if line.noIgnore then some true else none⟩

/-- Options and paths mix, a value may be joined to its option, and asking for the version ends the
reading unless something before was wrong. -/
example :
    let bytes (arguments : List String) := arguments.map fun argument =>
      Text.Utf8.encode argument.toList
    (read (bytes ["a", "-vfname", "--hidden", "--", "-b"])).toOption =
        some ⟨[.ofText "a".toList, .ofText "-b".toList], some "name".toList, none, none, true, false,
          false, false, true⟩ ∧
      (match read (bytes ["--version", "--bad"]) with
        | .error stop => stop == .version
        | .ok _ => false) = true := by
  decide +kernel

end CommandLine

end PropertyCascade
