import ElmImports.Proofs.Walk.Depth

/-!
# Projects that walks cannot tell apart

A walk goes by the layout of its project, by which paths are files, by their import lines, by the base directory
that an entry declares and by the source roots of a directory. Two projects that agree on these give the same
visits and the same walks, in whatever else their disks differ.
-/

namespace ElmImports.Project

structure Alike (P P' : Project) : Prop where
  layout : P'.layout = P.layout
  isFile : ∀ p, P'.disk.isFile p = P.disk.isFile p
  importLines? : ∀ p, P'.disk.importLines? P'.chunk p = P.disk.importLines? P.chunk p
  baseDirectory : ∀ p, P'.disk.baseDirectory p = P.disk.baseDirectory p
  sourceRoots : ∀ base, P'.sourceRoots P'.disk base = P.sourceRoots P.disk base

namespace Alike

variable {P P' : Project} (h : Alike P P')
include h

theorem lookUp (base : Path) (r : Resolution) : r.lookUp P' base = r.lookUp P base := by
  unfold Resolution.lookUp
  rw [h.sourceRoots]

theorem rootHolding? (roots : List Path) (m : ModuleName) (base : Path) (layout : Layout) :
    P'.disk.rootHolding? roots m base layout = P.disk.rootHolding? roots m base layout := by
  unfold Disk.rootHolding?
  congr 1
  funext root
  rw [h.isFile]

theorem target (base : Path) (m : ModuleName) (r : Resolution) : P'.target base m r = P.target base m r := by
  unfold Project.target
  simp only [h.layout, h.isFile, h.lookUp, h.rootHolding?]

theorem enterImport (base file : Path) (r : Resolution) (new : Array Path) (line : Text) :
    P'.enterImport base file r new line = P.enterImport base file r new line := by
  unfold Project.enterImport
  simp only [h.target]

theorem enterImports (base file : Path) (r : Resolution) (lines : List Text) :
    P'.enterImports base file r lines = P.enterImports base file r lines := by
  unfold Project.enterImports
  simp only [h.enterImport]

theorem visitWithin (base : Path) (depth : Nat) : P'.visitWithin base depth = P.visitWithin base depth := by
  induction depth with
  | zero => rfl
  | succ depth ih =>
    funext file r
    rw [visitWithin_succ, visitWithin_succ]
    unfold visitAllWithin sourcesIn
    simp only [h.importLines?, h.enterImports, h.layout, ih]

/-- The depths that the two are given may differ, and each depth beyond them gives the visit. -/
theorem visit (base file : Path) (r : Resolution) : P'.visit base file r = P.visit base file r := by
  have hvisit := P.visitWithin_of_le base (Nat.le_max_left (P.depthBound base r) (P'.depthBound base r)) file
  rw [← h.visitWithin] at hvisit
  exact visit_eq_of_visitWithin hvisit

theorem walk (entry : Path) (base? : Option Path) : P'.walk entry base? = P.walk entry base? := by
  unfold Project.walk walkFrom
  simp only [h.visit, h.baseDirectory]

end Alike

end ElmImports.Project
