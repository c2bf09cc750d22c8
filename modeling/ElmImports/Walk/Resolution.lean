import Std.Data.TreeMap
import ElmImports.SourceRoots.Basic
import ElmImports.ImportBlock.Scan
import ElmImports.Walk.Dependencies

/-!
# Projects, and what a walk has found

A project is what a walk goes by. A resolution is what has been found so far; a walk takes one and hands
back a larger one, so that walks can be run one after another. The source roots of a base directory are
asked for when they are first needed and kept.
-/

namespace ElmImports

structure Project where
  disk : Disk
  layout : Layout := {}
  /-- How many bytes of a file are read at a time. -/
  chunk : Nat := 480
  sourceRoots : SourceRoots := .ofManifest SourceRoots.defaultManifest

structure Resolution where
  /-- The dependencies found, in the order of discovery. -/
  known : Dependencies := {}
  /-- The files that need not be scanned any more. -/
  visited : PathSet := ∅
  /-- The files that were reached and could not be read. -/
  unreadable : PathSet := ∅
  /-- Importer and imported, for every import of a scanned file. -/
  edges : Array (Path × Path) := #[]
  /-- The source roots that have been looked up, by base directory. -/
  roots : Std.TreeMap Path (List Path) := ∅
  /-- The files that were scanned, in order. -/
  scanned : Array Path := #[]
  /-- The base directories whose source roots were asked for, in order. -/
  asked : Array Path := #[]

namespace Resolution

def seeded (known visited : List Path) : Resolution where
  known := .ofList known
  visited := visited.foldl (fun s p => s.insert p.normalize) ∅

def dropUnreadable (r : Resolution) : Resolution :=
  { r with known := r.known.exclude r.unreadable }

def lookUp (r : Resolution) (P : Project) (base : Path) : List Path × Resolution :=
  match r.roots[base]? with
  | some dirs => (dirs, r)
  | none =>
    let dirs := P.sourceRoots P.disk base
    (dirs, { r with roots := r.roots.insert base dirs, asked := r.asked.push base })

end Resolution

end ElmImports
