import Std.Data.TreeMap
import ElmImports.Path.Normal

/-!
# Disks

A disk is a finite tree of directories and files without links, together with a working directory. A
place on it is the list of names that lead there, the innermost first, so that going to the parent is
taking the tail and the root is its own parent. A path is looked up piece by piece, each from a place
that must be a directory. What is there need not be readable: a locked file can be found, but not read.
-/

namespace ElmImports

inductive OsError
  | notFound
  | notADirectory
  | isADirectory
  | nameTooLong
  | nulByte
  | interrupted
  | permissionDenied
  | unexpectedEnd
  | other
  deriving DecidableEq

def OsError.message : OsError → Text
  | notFound => "No such file or directory (os error 2)".toList
  | notADirectory => "Not a directory (os error 20)".toList
  | isADirectory => "Is a directory (os error 21)".toList
  | nameTooLong => "File name too long (os error 36)".toList
  | nulByte => "file name contained an unexpected NUL byte".toList
  | interrupted => "operation interrupted".toList
  | permissionDenied => "Permission denied (os error 13)".toList
  | unexpectedEnd => "unexpected end of file".toList
  | other => "other error".toList

/-- The names that lead to a place from the root, the innermost first. -/
abbrev Place := List Bytes

namespace Place

def path (place : Place) : Path :=
  Path.ofComponents (.root :: place.reverse.map .name)

/-- The place that the components of a path lead to when nothing is looked up. -/
def along (place : Place) (p : Path) : Place :=
  p.components.foldl
    (fun here c => match c with
      | .root => []
      | .current => here
      | .parent => here.tail
      | .name bytes => bytes :: here)
    place

def isUnder (top place : Place) : Bool :=
  top.isSuffixOf place

end Place

inductive Node
  | file (content : Bytes)
  /-- A regular file that may not be read. -/
  | lockedFile
  | directory
  deriving DecidableEq

structure Disk where
  nodes : Std.TreeMap Place Node
  /-- `none` when the working directory has been removed. -/
  cwd : Option Place

namespace Disk

def empty : Disk := ⟨∅, some []⟩

def node? (disk : Disk) : Place → Option Node
  | [] => some .directory
  | place => disk.nodes[place]?

def isDirectory (disk : Disk) (place : Place) : Bool :=
  match disk.node? place with
  | some .directory => true
  | _ => false

def isRegular (disk : Disk) (place : Place) : Bool :=
  match disk.node? place with
  | some (.file _) => true
  | some .lockedFile => true
  | _ => false

/-! ## Looking up a path -/

/-- The longest name and the longest path the system takes, in bytes. -/
def longestName : Nat := 255

def longestPath : Nat := 4095

def enter (disk : Disk) (place : Place) (piece : Bytes) : Except OsError Place :=
  if ! disk.isDirectory place then .error .notADirectory
  else if piece = [] ∨ piece = [Path.dot] then .ok place
  else if piece = [Path.dot, Path.dot] then .ok place.tail
  else if piece.length > longestName then .error .nameTooLong
  else if (disk.node? (piece :: place)).isNone then .error .notFound
  else .ok (piece :: place)

def start (disk : Disk) (p : Path) : Except OsError Place :=
  if p.isAbsolute then .ok [] else match disk.cwd with
    | some place => .ok place
    | none => .error .notFound

def locate (disk : Disk) (p : Path) : Except OsError Place :=
  if p.bytes.contains 0 then .error .nulByte
  else if p.isEmpty then .error .notFound
  else if p.bytes.length > longestPath then .error .nameTooLong
  else do
    let place ← disk.start p
    (p.bytes.splitOn Path.slash).foldlM disk.enter place

/-! ## Reading -/

def read (disk : Disk) (p : Path) : Except OsError Bytes := do
  match disk.node? (← disk.locate p) with
  | some (.file content) => pure content
  | some .lockedFile => throw .permissionDenied
  | some .directory => throw .isADirectory
  | none => throw .notFound

def isFile (disk : Disk) (p : Path) : Bool :=
  match disk.locate p with
  | .ok place => disk.isRegular place
  | .error _ => false

def canonical (disk : Disk) (p : Path) : Except OsError Path :=
  Place.path <$> disk.locate p

def workingDirectory (disk : Disk) : Except OsError Path :=
  match disk.cwd with
  | some place => .ok place.path
  | none => .error .notFound

def contents (disk : Disk) : List Bytes :=
  disk.nodes.toList.filterMap fun
    | (_, .file content) => some content
    | _ => none

end Disk

end ElmImports
