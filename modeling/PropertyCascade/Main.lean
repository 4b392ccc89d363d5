import PropertyCascade.Program

/-!
# The command

The outer layer of the program. It records the part of the file system that the arguments are
about as a `FileTree`, lets `Program.outcome` answer, and prints what that says. Files are recorded
with their content only where the content can matter: settings, config and ignore files, and the
data of repositories.
-/

namespace PropertyCascade

/-- An action that adds to what is recorded of the file system. -/
abbrev Recorder := StateT FileTree IO

namespace Recorder

/-- The result of an action, unless it fails. -/
def attempt? {α : Type} (action : IO α) : Recorder (Option α) := do
  match ← action.toBaseIO with
  | .ok result => return some result
  | .error _ => return none

/-- The name of a place as a string. -/
def placeName (place : Place) : String :=
  String.ofList (PathName.absolute place).display

/-- A string as a path name. -/
def pathOf (name : String) : PathName :=
  PathName.ofText name.toList

/-- Adds an entry to the record. -/
def enter (place : Place) (entry : FileEntry) : Recorder Unit :=
  modify fun tree => ⟨tree.entries.insert place entry⟩

/-- Records a file. What is known of its content is kept. -/
def enterFile (withContent : Bool) (place : Place) : Recorder Unit := do
  if withContent then
    match ← attempt? (IO.FS.readBinFile (placeName place)) with
    | some content => enter place (.file content.toList)
    | none => enter place (.file [])
  else if ((← get).get? place).isNone then enter place (.file [])

/-- Records what stands on the way along segments that start at a directory, and what a link on the
way leads to. -/
partial def along (withContent : Bool) (place : Place) : List Segment → Recorder Unit
  | [] => return
  | segment :: rest => do
      if segment.isNoise then along withContent place rest
      else if segment = Segment.up then along withContent place.dropLast rest
      else
        let next := place ++ [segment]
        match ← attempt? (System.mkFilePath [placeName next]).symlinkMetadata with
        | none => return
        | some metadata =>
            match metadata.type with
            | .symlink =>
                match ← attempt? (IO.FS.realPath (placeName next)) with
                | none => return
                | some real =>
                    enter next (.link (pathOf real.toString))
                    along withContent [] ((pathOf real.toString).segments ++ rest)
            | .file => enterFile withContent next
            | _ =>
                enter next .directory
                along withContent next rest

/-- Records what a path leads to. -/
def path (withContent : Bool) (path : PathName) : Recorder Unit :=
  along withContent [] path.segments

/-- Records the ignore rules of a directory. -/
def rules (directory : PathName) : Recorder Unit := do
  for name in [".ignore", ".gitignore", ".git/info/exclude"] do
    path true (directory.join (pathOf name))
  match Ignore.Directory.linked? (← get) directory with
  | none => return
  | some linked =>
      path true (Ignore.Directory.sharedDataFile linked)
      match Ignore.Directory.repository? (← get) directory with
      | none => return
      | some data => path true (Ignore.Directory.excludeFile data)

/-- Records the config file of a directory. -/
def config (configName : Text) (directory : List Segment) : Recorder Unit :=
  path true (Ascent.configPath configName directory)

/-- Records the directory at a place, which is shown under given names, and all that is below it. -/
partial def below (configName : Text) (shown : List Segment) (place : Place) : Recorder Unit := do
  rules (PathName.absolute place)
  config configName shown
  match ← attempt? (System.mkFilePath [placeName place]).readDir with
  | none => return
  | some entries =>
      for entry in entries do
        let name := (pathOf entry.fileName).bytes
        if ((← get).get? (place ++ [name])).isNone then along false place [name]
        if (← get).hasDirectory (place ++ [name]) then
          below configName (shown ++ [name]) (place ++ [name])

/-- Records what a named path stands for, and the config files and ignore rules above it. -/
def named (configName : Text) (named : PathName) : Recorder Unit := do
  path false named
  for (directory, _) in PathName.above named.names do
    config configName directory
  match (← get).find? named with
  | none => return
  | some place =>
      if (← get).hasDirectory place then
        for (directory, _) in PathName.above place do
          rules (PathName.absolute directory)
        below configName named.names place

/-- Records the settings file that is named, and those in a directory or above it. -/
def settings (directory : PathName) (line : CommandLine) : Recorder Unit := do
  path false directory
  match line.settingsPath with
  | some named => path true (directory.join named)
  | none =>
      for above in Search.directories directory do
        path true (above.join Program.settingsName)
        path false (above.join Search.repositoryName)

/-- Records what a command line is about. -/
def line (directory : PathName) (line : CommandLine) : Recorder Unit := do
  settings directory line
  match Program.fileSettings ⟨← get, directory, false⟩ line with
  | .error _ => return
  | .ok file =>
      for named in line.paths do
        Recorder.named (Settings.merge line.overrides file).configName
          (Run.absolutize directory named)

end Recorder

/-- The surroundings of the program, as far as its arguments are about them. -/
def surroundings (arguments : List Argument) : IO Program.Surroundings := do
  let directory := Recorder.pathOf (← IO.currentDir).toString
  let colours := (← IO.getEnv "NO_COLOR").isNone && (← (← IO.getStdout).isTty)
  match CommandLine.read arguments with
  | .error _ => return ⟨FileTree.empty, directory, colours⟩
  | .ok line =>
      let ((), tree) ← (Recorder.line directory line).run FileTree.empty
      return ⟨tree, directory, colours⟩

end PropertyCascade

/-- Prints what the program answers, and ends with its status. -/
def main (arguments : List String) : IO UInt32 := do
  let arguments := arguments.map fun argument => (PropertyCascade.Recorder.pathOf argument).bytes
  let outcome :=
    PropertyCascade.Program.outcome (← PropertyCascade.surroundings arguments) arguments
  (← IO.getStdout).putStr (String.ofList outcome.output)
  return outcome.status.toUInt32
