import ElmImports.Disk.Basic

/-!
# Module headers and base directories

The first line of a file may declare its module: an optional `port` or `effect`, then `module`, then the
name. Imports are resolved against the base directory, which lies as many steps above the file's directory
as the declared name has segments before its last.
-/

namespace ElmImports

inductive Header
  | declared (name : Text)
  | omitted
  /-- The line opens as a declaration and names no module. -/
  | invalid
  deriving DecidableEq

namespace Header

/-- The line behind a qualifier and the blanks that follow it; the whole line if it has none. -/
def unqualified (line : Text) : Text :=
  match Text.afterKeyword? "port".toList line, Text.afterKeyword? "effect".toList line with
  | some rest, _ => rest.trimStart
  | none, some rest => rest.trimStart
  | none, none => line

def parse (line : Text) : Header :=
  match Text.afterKeyword? "module".toList (unqualified line) with
  | none => .omitted
  | some rest => match rest.firstWord? with
    | some name => .declared name
    | none => .invalid

end Header

inductive EntryError
  | invalidModule (file : Path)
  | unreadable (file : Path) (cause : OsError)

namespace EntryError

def message : EntryError → Text
  | invalidModule file => file.display ++ " is not a syntactically valid Elm module. ".toList ++
      "Try running the compiler on it manually to figure out what the problem is.".toList
  | unreadable file cause => "Could not read entry file ".toList ++ file.display ++ ": ".toList ++ cause.message

end EntryError

/-- The directory that the imports of `file` are resolved against, its header being known. -/
def baseDirectoryFor (file : Path) : Header → Except EntryError Path
  | .declared name =>
    let up := (name.splitOn '.').tail
    .ok (up.foldl (fun dir _ => dir.join ⟨[Path.dot, Path.dot]⟩) file.directory).normalize
  | .omitted => .ok file.directory.normalize
  | .invalid => .error (.invalidModule file)

def isLineEnd (c : Char) : Bool :=
  c == '\n' || c == '\r'

/-- The bytes up to the first line feed, decoded, without the line ends they close with. -/
def firstLine (content : Bytes) : Text :=
  ((Utf8.decodeLossy (content.takeWhile (· != 0x0A))).reverse.dropWhile isLineEnd).reverse

namespace Disk

def baseDirectory (disk : Disk) (file : Path) : Except EntryError Path :=
  match disk.read file with
  | .ok content => baseDirectoryFor file (.parse (firstLine content))
  | .error cause => .error (.unreadable file cause)

end Disk

end ElmImports
