import ElmImports.Cli.Command
import ElmImports.Config.Listing
import ElmImports.Graph.Dot
import ElmImports.Json.Write
import ElmImports.Output.Lines

/-!
# Running commands

A command is run on a disk and an environment and yields what is to be printed. The summary that a walk ends
with tells the time it took, which is filled in by whoever measured it.
-/

namespace ElmImports

inductive Failure
  | entry (e : EntryError)
  | config (e : ConfigError)
  | output (e : WriteError)

namespace Failure

def code : Failure → Text
  | entry (.invalidModule _) => "elm_deps::invalid_module".toList
  | entry (.unreadable _ _) => "elm_deps::entry_unreadable".toList
  | config _ => "elm_deps::config".toList
  | output .full => "elm_deps::io".toList
  | output _ => "elm_deps::json".toList

def message : Failure → Text
  | entry e => e.message
  | config e => "Configuration error: ".toList ++ e.message
  | output .pathNotText => "path contains invalid UTF-8 characters".toList
  | output _ => "write limit reached".toList

end Failure

namespace Cli

def versionText : Text := "elm-deps 0.1.0\n".toList

structure Summary where
  entry : Path
  dependencies : Nat
  unreadable : Nat

def Summary.text (s : Summary) (elapsed : Text) : Text :=
  "Resolved ".toList ++ Decimal.write s.dependencies ++ " dependencies of ".toList ++ s.entry.display ++ " (".toList ++
    Decimal.write s.unreadable ++ " unreadable) in ".toList ++ elapsed ++ "s\n".toList

structure Printed where
  output : Bytes
  summary? : Option Summary := none

def render (report : Report) (c : Config) : Written :=
  match c.format with
  | .json => Json.writeArray none report.dependencies
  | .text => writeLines none report.dependencies
  | .dot => (Graph.ofReport report c.layout).writeDot none

def runResolve (disk : Disk) (env : Environment) (file : Path) (base? : Option Path) (layer : Layer) (quiet : Bool) :
    Except Failure Printed := do
  let dir ← disk.workingDirectory.mapError fun cause => .config (.noWorkingDirectory cause)
  let c ← (Config.resolve disk env dir layer).mapError .config
  let report ← ((c.project disk).walk file base?).mapError .entry
  match render report c with
  | ⟨_, some e⟩ => throw (.output e)
  | ⟨output, none⟩ =>
    let summary : Summary := ⟨report.entry, report.dependencies.length, report.unreadable.length⟩
    return ⟨output, if quiet then none else some summary⟩

def runShow (disk : Disk) (env : Environment) (dir? : Option Path) : Except Failure Printed := do
  let dir := dir?.getD ⟨[Path.dot]⟩
  let dir ← (disk.canonical dir).mapError fun _ => .config (.invalidPath dir)
  let c ← (Config.resolve disk env dir {}).mapError .config
  return ⟨(c.writeListing none).received, none⟩

def run (disk : Disk) (env : Environment) : Command → Except Failure Printed
  | .resolve file base? layer quiet => runResolve disk env file base? layer quiet
  | .showConfig dir? => runShow disk env dir?

end Cli

end ElmImports
