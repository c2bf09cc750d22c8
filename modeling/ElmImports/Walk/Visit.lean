import ElmImports.Walk.Resolution

/-!
# Following imports

A visit scans a file, resolves its imports in order, and then visits every source file among the
dependencies that were new, depth first. A file that has been visited is not scanned again, so cycles end.
An import goes to the base directory if the module's file is there, else to the first source root that
holds it, and to the base directory again if none does.
-/

namespace ElmImports

inductive VisitStatus
  | resolved
  | unreadable
  deriving DecidableEq

structure Visit where
  file : Path
  status : VisitStatus
  resolution : Resolution

def Visit.settle (v : Visit) : Resolution :=
  match v.status with
  | .resolved => v.resolution
  | .unreadable => { v.resolution with unreadable := v.resolution.unreadable.insert v.file }

namespace Project

def target (P : Project) (base : Path) (m : ModuleName) (r : Resolution) : Path × Resolution :=
  let here := m.pathUnder base P.layout
  if P.disk.isFile here then (here, r)
  else
    let (roots, r) := r.lookUp P base
    match P.disk.rootHolding? roots m base P.layout with
    | some root => (m.pathUnder root P.layout, r)
    | none => (here, r)

def enterImport (P : Project) (base file : Path) (r : Resolution) (new : Array Path) (line : Text) :
    Resolution × Array Path :=
  match ModuleName.ofImportLine? line with
  | none => (r, new)
  | some m =>
    let (target, r) := P.target base m r
    if r.unreadable.contains target then (r, new)
    else
      let r := { r with edges := r.edges.push (file, target) }
      match r.known.insert? target with
      | some known => ({ r with known }, new.push target)
      | none => (r, new)

def enterImports (P : Project) (base file : Path) (r : Resolution) (lines : List Text) : Resolution × Array Path :=
  lines.foldl (fun (r, new) line => P.enterImport base file r new line) (r, #[])

/-- A visit that goes at most `depth` files deep; `none` if that does not suffice. -/
def visitWithin (P : Project) (base : Path) : Nat → Path → Resolution → Option Visit
  | 0, _, _ => none
  | depth + 1, file, r =>
    let file := file.normalize
    if r.visited.contains file then some ⟨file, .resolved, r⟩
    else
      let r := { r with visited := r.visited.insert file, scanned := r.scanned.push file }
      match P.disk.importLines? P.chunk file with
      | none => some ⟨file, .unreadable, r⟩
      | some lines => do
        let (entered, new) := P.enterImports base file r lines
        let sources := new.toList.filter P.layout.isSourceFile
        let after ← sources.foldlM (fun r p => (visitWithin P base depth p r).map Visit.settle) entered
        pure ⟨file, .resolved, if after.unreadable.size > r.unreadable.size then after.dropUnreadable else after⟩

/-! ## How deep a visit can go -/

def allImportLines (P : Project) : List Text :=
  P.disk.contents.flatMap fun content => match Scan.ofSource [.data content] P.chunk with
    | .ok scan => scan.scanner.imports
    | .error _ => []

/-- Every file below the first is named by an import line and lies below the base directory or a source root. -/
def depthBound (P : Project) (base : Path) (r : Resolution) : Nat :=
  P.allImportLines.length * ((r.lookUp P base).1.length + 1) + 2

def visit (P : Project) (base file : Path) (r : Resolution) : Visit :=
  (P.visitWithin base (P.depthBound base r) file r).getD ⟨file.normalize, .resolved, r⟩

end Project

end ElmImports
