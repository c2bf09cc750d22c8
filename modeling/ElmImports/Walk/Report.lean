import ElmImports.Module.Header
import ElmImports.Walk.Visit

/-!
# Walking from an entry file

A walk visits the entry file and reports what it found: the dependencies and import edges among files that
can be read, and apart from them, sorted, the files that cannot. The base directory is the entry's own
unless one is given.
-/

namespace ElmImports

structure Report where
  entry : Path
  base : Path
  dependencies : List Path
  edges : List (Path × Path)
  unreadable : List Path
  /-- The base directories whose source roots were asked for. -/
  asked : List Path

def Resolution.report (r : Resolution) (entry base : Path) : Report where
  entry := entry
  base := base
  dependencies := r.dropUnreadable.known.toList
  edges := r.edges.toList.filter fun (importer, imported) =>
    ! r.unreadable.contains importer && ! r.unreadable.contains imported
  unreadable := r.unreadable.toList
  asked := r.asked.toList

namespace Project

/-- Walks from `entry`, going on from what `seed` has found. An entry that it has visited is left alone. -/
def walkFrom (P : Project) (seed : Resolution) (entry : Path) (base? : Option Path) : Except EntryError Report := do
  let entry := entry.normalize
  if seed.visited.contains entry then
    pure (seed.report entry ((base?.map Path.normalize).getD ⟨[]⟩))
  else
    let base ← match base? with
      | some base => pure base.normalize
      | none => P.disk.baseDirectory entry
    pure ((P.visit base entry seed).resolution.report entry base)

def walk (P : Project) (entry : Path) (base? : Option Path) : Except EntryError Report :=
  P.walkFrom {} entry base?

end Project

def Disk.dependencies (disk : Disk) (entry : Path) (known : List Path := []) (base? : Option Path := none)
    (visited : List Path := []) : Except EntryError (List Path) := do
  let P : Project := { disk }
  return (← P.walkFrom (.seeded known visited) entry base?).dependencies

end ElmImports
