import ElmImports.Disk.Search
import ElmImports.Module.Name
import ElmImports.SourceRoots.Manifest

/-!
# Source roots

A module that is missing below its base directory may lie below another root of its project. Which roots
there are may depend on the base directory; the usual ones are those the nearest manifest declares, taken
from the manifest's own directory. A manifest that cannot be read declares none.
-/

namespace ElmImports

abbrev SourceRoots := Disk → Path → List Path

namespace SourceRoots

def none : SourceRoots := fun _ _ => []

def defaultManifest : Text := "elm.json".toList

def manifest? (disk : Disk) (name : Text) (dir : Path) : Option Path :=
  disk.nearest? (.ofText name) dir

def declaredBy (disk : Disk) (manifest : Path) : List Path :=
  match disk.read manifest with
  | .error _ => []
  | .ok content =>
    let dirs := (Utf8.decode? content).bind Manifest.read?
    let home := manifest.parent?.getD ⟨[Path.dot]⟩
    (dirs.getD []).map fun dir => (home.join (.ofText dir)).normalize

def ofManifest (name : Text) : SourceRoots := fun disk base =>
  match manifest? disk name base with
  | some manifest => declaredBy disk manifest
  | Option.none => []

end SourceRoots

/-- The first root, other than `base` itself, below which the module's file exists. -/
def Disk.rootHolding? (disk : Disk) (roots : List Path) (m : ModuleName) (base : Path) (layout : Layout) :
    Option Path :=
  roots.find? fun root => root != base && disk.isFile (m.pathUnder root layout)

def SourceRoots.override? (roots : SourceRoots) (disk : Disk) (m : ModuleName) (base : Path) (layout : Layout) :
    Option Path :=
  disk.rootHolding? (roots disk base.normalize) m base.normalize layout

end ElmImports
