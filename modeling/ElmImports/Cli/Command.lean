import ElmImports.Cli.Options
import ElmImports.Config.Layer

/-!
# Commands

There are two: `resolve` lists what an entry file imports, and `config show` lists the configuration. The
words `help`, `-h` and `--help` ask for help at every level, and the version is told at the outermost.
-/

namespace ElmImports.Cli

inductive Command
  | resolve (file : Path) (base? : Option Path) (layer : Layer) (quiet : Bool)
  | showConfig (dir? : Option Path)

/-! ## The commands' options -/

def pathFault? (value : Text) : Option Stop :=
  if value.isEmpty then some .badValue else none

def resolveAccepts : Accepted where
  flags := ["no-source-roots".toList, "quiet".toList]
  options := ["base-dir".toList, "format".toList, "chunk-size".toList, "source-extension".toList,
    "native-extension".toList, "native-prefix".toList, "manifest".toList]
  operand := true
  fault? name value :=
    if name = [] ∨ name = "base-dir".toList then pathFault? value
    else if name = "format".toList then if (OutputFormat.ofName? value).isSome then none else some .badValue
    else if name = "chunk-size".toList then if (Decimal.read? value).isSome then none else some .badNumber
    else none

def showAccepts : Accepted where
  flags := []
  options := ["path".toList]
  operand := false
  fault? _ := pathFault?

def parseResolve (words : List Text) : Except Stop Command := do
  let given ← resolveAccepts.read words
  let value? := fun (name : String) => given.values.lookup name.toList
  let some file := value? "" | throw .missingArgument
  let layer : Layer := {
    format? := (value? "format").bind OutputFormat.ofName?
    chunk? := (value? "chunk-size").bind Decimal.read?
    sourceExtension? := value? "source-extension"
    nativeExtension? := value? "native-extension"
    nativePrefix? := value? "native-prefix"
    manifest? := value? "manifest"
    sourceRoots? := if given.flags.contains "no-source-roots".toList then some false else none }
  return .resolve (.ofText file) ((value? "base-dir").map .ofText) layer (given.flags.contains "quiet".toList)

def parseShow (words : List Text) : Except Stop Command := do
  let given ← showAccepts.read words
  return .showConfig ((given.values.lookup "path".toList).map .ofText)

/-! ## Choosing a command -/

/-- What a word that names no command stops with. Two dashes before a command's name are one word too many. -/
def groupStop (names : List Text) (outermost : Bool) : List Text → Stop
  | [] => .noCommand
  | word :: rest =>
    if word = "--".toList then
      match rest with
      | [] => .noCommand
      | next :: _ => if names.contains next ∨ next = "help".toList then .unknownArgument else .unknownCommand
    else if "--".toList.isPrefixOf word then
      let (name, value?) := Given.long word
      if name = "help".toList then if value?.isSome then .tooManyValues else .help
      else if name = "version".toList ∧ outermost then if value?.isSome then .tooManyValues else .version
      else .unknownArgument
    else if word.head? = some '-' ∧ word.length > 1 then
      if word.tail.head? = some 'h' then .help
      else if word.tail.head? = some 'V' ∧ outermost then .version
      else .unknownArgument
    else .unknownCommand

def helpStop (known : List (List Text)) (words : List Text) : Stop :=
  if words = [] ∨ known.contains words then .help else .unknownCommand

def resolveName : Text := "resolve".toList

def configName : Text := "config".toList

def showName : Text := "show".toList

def helpName : Text := "help".toList

def parseConfig (words : List Text) : Except Stop Command :=
  match words with
  | word :: rest =>
    if word = showName then parseShow rest
    else if word = helpName then .error (helpStop [[showName], [helpName]] rest)
    else .error (groupStop [showName] false words)
  | [] => .error .noCommand

/-- The command that the words of a command line ask for, the program's own name not among them. -/
def parse (words : List Text) : Except Stop Command :=
  match words with
  | word :: rest =>
    if word = resolveName then parseResolve rest
    else if word = configName then parseConfig rest
    else if word = helpName then
      .error (helpStop [[resolveName], [configName], [helpName], [configName, showName], [configName, helpName]] rest)
    else .error (groupStop [resolveName, configName] true words)
  | [] => .error .noCommand

end ElmImports.Cli
