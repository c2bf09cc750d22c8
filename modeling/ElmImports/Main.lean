import ElmImports.Cli.Run
import ElmImports.Disk.Change

/-!
# The command line

The part of the file system that a command can need is read into a disk: the trees below the working
directory and below the directories that are named, the files beside those directories' ancestors, and the
user's configuration. When it is known which source roots a project has, the trees below them are read too.
-/

namespace ElmImports.Cli

/-- Puts the file at a place on the disk, as a locked one if it is there and cannot be read. -/
def loadFile (disk : Disk) (place : Place) : IO Disk := do
  let path := String.ofList place.path.display
  try
    return disk.makeFile place (← IO.FS.readBinFile path).toList
  catch _ =>
    let isRegular ← try pure ((← (← IO.FS.realPath path).metadata).type matches .file) catch _ => pure false
    return if isRegular then disk.make place .lockedFile else disk

/-- Puts the files of a directory on the disk; what else it holds is given back. -/
def loadFiles (disk : Disk) (place : Place) : IO (Disk × List Place) := do
  let entries ← try (← IO.FS.realPath (String.ofList place.path.display)).readDir catch _ => return (disk, [])
  entries.toList.foldlM
    (fun (disk, dirs) entry => do
      let place := Utf8.encode entry.fileName.toList :: place
      let isDirectory ← try pure ((← entry.path.symlinkMetadata).type matches .dir) catch _ => pure false
      if isDirectory then return (disk, place :: dirs) else return (← loadFile disk place, dirs))
    (disk.makeDirectory place, [])

partial def loadTree (disk : Disk) (place : Place) : IO Disk := do
  let (disk, dirs) ← loadFiles disk place
  dirs.foldlM loadTree disk

def loadAround (disk : Disk) (place : Place) : IO Disk := do
  let above := (List.range place.length).map fun n => place.drop (n + 1)
  let disk ← above.foldlM (fun disk place => Prod.fst <$> loadFiles disk place) disk
  loadTree disk place

def loadEnvironment : IO Environment := do
  let names := "HOME".toList :: "XDG_CONFIG_HOME".toList :: Setting.all.map Setting.envName
  let found ← names.mapM fun name => do
    return (← IO.getEnv (String.ofList name)).map fun value => (name, Utf8.encode value.toList)
  return found.filterMap id

def Command.directories : Command → List Path
  | .resolve file base? _ _ => file.directory :: base?.toList
  | .showConfig dir? => dir?.toList

def loadRoots (disk : Disk) (env : Environment) (cwd : Place) : Command → IO Disk
  | .showConfig _ => return disk
  | .resolve file base? layer _ => do
    match disk.workingDirectory.toOption.map (Config.resolve disk env · layer) with
    | some (.ok c) =>
      let base := match base? with
        | some base => base.normalize
        | none => (disk.baseDirectory file.normalize).toOption.getD file.directory
      ((c.project disk).sourceRoots disk base).foldlM (fun disk root => loadTree disk (cwd.along root)) disk
    | _ => return disk

/-- The disk for a command; without a working directory there is nothing on it. -/
def load (env : Environment) (command : Command) : IO Disk := do
  let dir ← try pure (← IO.currentDir).toString catch _ => pure ""
  if dir.isEmpty then return { Disk.empty with cwd := none }
  let cwd := Place.along [] (.ofString dir)
  let disk ← (cwd :: command.directories.map cwd.along).foldlM loadAround (Disk.empty.workIn cwd)
  let disk ← match env.userConfig? with
    | some config => loadFile disk (cwd.along config)
    | none => pure disk
  loadRoots disk env cwd command

def secondsText (nanoseconds : Nat) : Text :=
  let hundredths := (nanoseconds + 5000000) / 10000000
  Decimal.write (hundredths / 100) ++ ['.'] ++ Decimal.write (hundredths / 10 % 10) ++ Decimal.write (hundredths % 10)

def usageText : String :=
  "Usage: elm-deps resolve [OPTIONS] <FILE>\n       elm-deps config show [--path <PATH>]\n"

def runMain (words : List String) : IO UInt32 := do
  let started ← IO.monoNanosNow
  let stdout ← IO.getStdout
  let stderr ← IO.getStderr
  match parse (words.map String.toList) with
  | .error .version =>
    stdout.putStr (String.ofList versionText)
    return 0
  | .error stop =>
    (if stop = .help then stdout else stderr).putStr usageText
    return UInt32.ofNat stop.exitCode
  | .ok command =>
    let env ← loadEnvironment
    match run (← load env command) env command with
    | .ok printed =>
      stdout.write ⟨printed.output.toArray⟩
      stdout.flush
      if let some summary := printed.summary? then
        let elapsed := (← IO.monoNanosNow) - started
        stderr.putStr (String.ofList (summary.text (secondsText elapsed)))
      return 0
    | .error e =>
      stderr.putStrLn (String.ofList (e.code ++ "\n".toList ++ e.message))
      return 1

end ElmImports.Cli

def main (words : List String) : IO UInt32 :=
  ElmImports.Cli.runMain words
