import ElmImports.Path.Basic

/-!
# Taking paths apart and joining them

Joining adds a slash where one is missing, and an absolute path replaces what it is joined to. The parent,
the file name and the extension are those of the last component; pieces that name nothing behind it do not
count. The extension is what follows the last dot of a file name, unless that dot is its first character.
-/

namespace ElmImports.Path

def join (base p : Path) : Path :=
  if p.isAbsolute then p
  else if base.bytes.getLast?.all (· == slash) then ⟨base.bytes ++ p.bytes⟩
  else ⟨base.bytes ++ slash :: p.bytes⟩

/-! ## The last component -/

def openingBytes (p : Path) : Bytes :=
  p.opening.flatMap Component.spelling

/-- The pieces behind the opening component, the last first, from the last one that names something on. -/
def trailing (p : Path) : List Bytes :=
  ((p.bytes.drop p.openingBytes.length).splitOn slash).reverse.dropWhile (Component.ofPiece? · |>.isNone)

/-- The path with its last component removed; `none` for a root and for the empty path. -/
def parent? (p : Path) : Option Path :=
  match p.trailing with
  | _ :: before =>
    let kept := before.dropWhile (Component.ofPiece? · |>.isNone)
    some ⟨p.openingBytes ++ [slash].intercalate kept.reverse⟩
  | [] => if p.isDotted then some ⟨[]⟩ else none

def ancestorsWithin : Nat → Path → List Path
  | 0, p => [p]
  | n + 1, p => p :: match p.parent? with
    | some above => ancestorsWithin n above
    | none => []

/-- `p`, its parent, and so on up to a root or to the empty path. A step up loses at least one byte. -/
def ancestors (p : Path) : List Path :=
  ancestorsWithin p.bytes.length p

def fileName? (p : Path) : Option Bytes :=
  match p.components.getLast? with
  | some (.name bytes) => some bytes
  | _ => none

def withFileName (p : Path) (name : Bytes) : Path :=
  let dir := if p.fileName?.isSome then p.parent?.getD p else p
  dir.join ⟨name⟩

/-! ## Extensions -/

/-- A file name cut at its last dot, which belongs to neither part. -/
def cutAtLastDot (name : Bytes) : Bytes × Option Bytes :=
  match name.reverse.dropWhile (· != dot) with
  | _ :: b :: before => ((b :: before).reverse, some (name.reverse.takeWhile (· != dot)).reverse)
  | _ => (name, none)

def extension? (p : Path) : Option Bytes :=
  p.fileName?.bind fun name => (cutAtLastDot name).2

/-- The path up to the end of its file name without the extension; all of it if it has no file name. -/
def withoutExtension (p : Path) : Path :=
  match p.fileName?, p.trailing with
  | some name, _ :: before =>
    ⟨p.openingBytes ++ [slash].intercalate (before.reverse ++ [(cutAtLastDot name).1])⟩
  | _, _ => p

/-! ## Relative paths -/

def below? (base p : Path) : Option Path :=
  (base.components.isPrefixOf? p.components).map ofComponents

end ElmImports.Path
