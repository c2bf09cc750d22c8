import ElmImports.Config.Layer
import ElmImports.Disk.Search
import ElmImports.Walk.Resolution

/-!
# Configurations

A configuration starts from built-in values and is changed by layers: the user's file, the project's file,
which is the nearest at or above the working directory, the environment and the command line. A layer replaces
the values it gives and enters itself as their origin. The first thing wrong, in that order, is the error.
-/

namespace ElmImports

inductive FileKind
  | user
  | project
  deriving DecidableEq

inductive ConfigError
  | unreadableFile (kind : FileKind) (p : Path)
  | invalidFile (kind : FileKind) (p : Path)
  | unknownFormat (origin given : Text)
  | chunkNotNumber (given : Text)
  | chunkZero
  | emptyText (s : Setting)
  | noWorkingDirectory (cause : OsError)
  | invalidPath (p : Path)

def FileKind.name : FileKind → Text
  | user => "user".toList
  | project => "project".toList

namespace ConfigError

/-- What stands for the reason why a file is no TOML. -/
def tomlReason : Text := "<toml error>".toList

def message : ConfigError → Text
  | unreadableFile kind p => "Could not read ".toList ++ kind.name ++ " config: ".toList ++ p.display
  | invalidFile kind p => "Invalid ".toList ++ kind.name ++ " config ".toList ++ p.display ++ ": ".toList ++ tomlReason
  | unknownFormat origin given => origin ++ ": ".toList ++ OutputFormat.unsupported given
  | chunkNotNumber given => Setting.envName .chunkSize ++ ": not a number: ".toList ++ given
  | chunkZero => Setting.key .chunkSize ++ " must be at least 1".toList
  | emptyText s => s.key ++ " must not be empty".toList
  | noWorkingDirectory cause => "Could not determine working directory: ".toList ++ cause.message
  | invalidPath p => "Invalid path: ".toList ++ p.display

end ConfigError

structure Config where
  format : OutputFormat := .json
  chunk : Nat := 480
  layout : Layout := {}
  manifest : Text := SourceRoots.defaultManifest
  sourceRoots : Bool := true
  origins : Origins := ∅
  loaded : List Path := []

namespace Config

def builtIn : Config :=
  { origins := Origins.defaults (Setting.all.map Setting.key) }

def dropDots (t : Text) : Text :=
  t.dropWhile (· == '.')

/-- Takes over what a layer gives; `origin` says where the layer has each setting from. -/
def apply (c : Config) (layer : Layer) (origin : Setting → Origin) : Config where
  format := layer.format?.getD c.format
  chunk := layer.chunk?.getD c.chunk
  layout := {
    sourceExtension := (layer.sourceExtension?.map dropDots).getD c.layout.sourceExtension
    nativeExtension := (layer.nativeExtension?.map dropDots).getD c.layout.nativeExtension
    nativePrefix := layer.nativePrefix?.getD c.layout.nativePrefix }
  manifest := layer.manifest?.getD c.manifest
  sourceRoots := layer.sourceRoots?.getD c.sourceRoots
  origins := (Setting.all.filter layer.sets).foldl (fun origins s => origins.insert s.key (origin s)) c.origins
  loaded := c.loaded

/-! ## The layers -/

def formatNamed (origin given : Text) : Except ConfigError OutputFormat :=
  match OutputFormat.parse? given with
  | some f => .ok f
  | none => .error (.unknownFormat origin given)

def fileLayer (disk : Disk) (kind : FileKind) (p : Path) (origin : Origin) : Except ConfigError Layer := do
  let some content := (disk.read p).toOption.bind Utf8.decode? | throw (.unreadableFile kind p)
  let some file := ConfigFile.parse? content | throw (.invalidFile kind p)
  return { file.others with format? := ← file.format?.mapM (formatNamed origin.display) }

def environmentLayer (env : Environment) : Except ConfigError Layer := do
  return {
    format? := ← (env.value? .format).mapM (formatNamed (Setting.envName .format))
    chunk? := ← (env.value? .chunkSize).mapM fun given => match Decimal.read? given.trim with
      | some n => pure n
      | none => throw (.chunkNotNumber given)
    sourceExtension? := env.value? .sourceExtension
    nativeExtension? := env.value? .nativeExtension
    nativePrefix? := env.value? .nativePrefix
    manifest? := env.value? .manifest
    sourceRoots? := (env.value? .sourceRoots).map Environment.isOn }

def applyFile (c : Config) (disk : Disk) (kind : FileKind) (file? : Option Path) : Except ConfigError Config :=
  match file? with
  | none => .ok c
  | some p => do
    let origin := match kind with
      | .user => Origin.userFile p
      | .project => Origin.projectFile p
    let layer ← fileLayer disk kind p origin
    return { c.apply layer fun _ => origin with loaded := c.loaded ++ [p] }

/-! ## Resolving a configuration -/

def projectConfigName : Path := Path.ofString ".elm-deps.toml"

def fault? (c : Config) : Option ConfigError :=
  if c.chunk = 0 then some .chunkZero
  else if c.layout.sourceExtension = [] then some (.emptyText .sourceExtension)
  else if c.layout.nativeExtension = [] then some (.emptyText .nativeExtension)
  else if c.layout.nativePrefix = [] then some (.emptyText .nativePrefix)
  else if c.manifest = [] then some (.emptyText .manifest)
  else none

/-- The configuration for a working directory, where the user's file is looked for at `user?`. -/
def resolveFrom (disk : Disk) (env : Environment) (dir : Path) (user? : Option Path) (cli : Layer) :
    Except ConfigError Config := do
  let c ← builtIn.applyFile disk .user (user?.filter disk.isFile)
  let c ← c.applyFile disk .project (disk.nearest? projectConfigName dir)
  let c := c.apply (← environmentLayer env) fun s => .environment s.envName
  let c := c.apply cli fun s => .commandLine s.flag
  match c.fault? with
  | some e => throw e
  | none => return c

def resolve (disk : Disk) (env : Environment) (dir : Path) (cli : Layer) : Except ConfigError Config :=
  resolveFrom disk env dir env.userConfig? cli

def project (c : Config) (disk : Disk) : Project where
  disk := disk
  layout := c.layout
  chunk := c.chunk
  sourceRoots := if c.sourceRoots then .ofManifest c.manifest else .none

end Config

end ElmImports
