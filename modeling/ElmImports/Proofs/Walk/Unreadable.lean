import ElmImports.Proofs.Graph.Report
import ElmImports.Proofs.Module.Header
import ElmImports.Proofs.Walk.Union

/-!
# What a walk could not read

What a walk sets aside are the sources that some scanned file imports and that cannot be scanned, and nothing else in
its report mentions them. On a disk without locked files they are those that are nowhere to be found, so that they stand
below the base directory; a locked file is set aside where it lies. Only the entry is set aside by no file above it: a
walk that is given a base directory and cannot scan its entry finds nothing, and does not report the entry either.
-/

namespace ElmImports

/-! ## Files that are not there -/

namespace Disk

variable {disk : Disk} {p : Path}

theorem importLines?_of_not_isFile (h : disk.isFile p = false) (chunk : Nat) : disk.importLines? chunk p = none := by
  cases hread : disk.read p with
  | error cause => exact importLines?_of_read_error hread chunk
  | ok content => exact absurd ((isFile_of_read hread).symm.trans h) nofun

theorem IsReadable.isFile_eq_false_iff (hreadable : disk.IsReadable) (chunk : Nat) :
    disk.isFile p = false ↔ disk.importLines? chunk p = none := by
  refine ⟨(importLines?_of_not_isFile · chunk), fun h => Bool.eq_false_iff.mpr fun hfile => ?_⟩
  obtain ⟨content, hread⟩ := hreadable.exists_read hfile
  rw [importLines?_of_read hread] at h
  cases h

end Disk

namespace Project

def HeldNowhere (P : Project) (base : Path) (m : ModuleName) : Prop :=
  ∀ dir ∈ base :: P.sourceRoots P.disk base, P.disk.isFile (m.pathUnder dir P.layout) = false

section
variable {P : Project} {base entry f p : Path} {m : ModuleName} {base? : Option Path} {report : Report}

theorem HeldNowhere.targetIn (h : P.HeldNowhere base m) :
    P.targetIn base (P.sourceRoots P.disk base) m = m.pathUnder base P.layout := by
  obtain ⟨hbase, hroots⟩ := List.forall_mem_cons.mp h
  have hnot : ¬ P.disk.isFile (m.pathUnder base P.layout) = true := Bool.eq_false_iff.mp hbase
  unfold Project.targetIn
  rw [if_neg hnot, rootHolding?_eq hnot, List.find?_eq_none.mpr fun root hroot => by simp [hroots root hroot]]

theorem heldNowhere_of_targetIn (h : P.disk.isFile (P.targetIn base (P.sourceRoots P.disk base) m) = false) :
    P.HeldNowhere base m := by
  unfold Project.targetIn at h
  split at h
  · rename_i hbase
    exact absurd (hbase.symm.trans h) nofun
  · rename_i hbase
    rw [rootHolding?_eq hbase] at h
    split at h
    · rename_i root hroot
      exact absurd ((List.find?_some hroot).symm.trans h) nofun
    · rename_i hnone
      refine List.forall_mem_cons.mpr ⟨h, fun root hroot => ?_⟩
      exact Bool.eq_false_iff.mpr (List.find?_eq_none.mp hnone root hroot)

/-! ## Visits that cannot scan their first file -/

theorem visit_of_unscannable (hl : P.disk.importLines? P.chunk entry.normalize = none) :
    (P.visit base entry {}).resolution = Resolution.mark {} entry.normalize := by
  rw [visit_eq, hl]
  rfl

theorem scannable_of_baseOf (hb : P.baseOf entry none = .ok base) :
    P.disk.importLines? P.chunk entry.normalize ≠ none := by
  obtain ⟨⟨content, hread⟩, -⟩ := Disk.of_baseDirectory hb
  rw [Disk.importLines?_of_read hread]
  exact nofun

/-! ## What is set aside -/

theorem scanned_of_unreadable (h : p ∈ (P.visit base entry {}).resolution.unreadable.toList) :
    p ∈ (P.visit base entry {}).resolution.scanned.toList ∧ P.disk.importLines? P.chunk p = none ∧
      p ≠ entry.normalize := by
  have hwf := ((settled_empty P).visit base entry).wellFormed
  refine ⟨((scannedOnce_visit P base entry).visited p).mpr (hwf.tried h), hwf.failed p h, ?_⟩
  rintro rfl
  exact (P.visits_visit base entry {}).entry_readable hwf h

/-- A scanned file that cannot be read is no dependency, not even the first one. -/
theorem not_mem_known_of_scanned (hscanned : p ∈ (P.visit base entry {}).resolution.scanned.toList)
    (hp : P.disk.importLines? P.chunk p = none) : p ∉ (P.visit base entry {}).resolution.known.toList := by
  intro hk
  by_cases hl : P.disk.importLines? P.chunk entry.normalize = none
  · rw [visit_of_unscannable hl] at hk
    cases hk
  · rcases accounted_of_scanned hscanned with rfl | ⟨hsource, -⟩
    · exact hl hp
    · exact (exhausted_visit base hl).not_missing_of_mem_known hk ⟨hsource, hp⟩

theorem mem_unreadable_visit : p ∈ (P.visit base entry {}).resolution.unreadable.toList ↔
    p ∈ (P.visit base entry {}).resolution.scanned.toList ∧ P.disk.importLines? P.chunk p = none ∧
      p ≠ entry.normalize := by
  refine ⟨scanned_of_unreadable, fun ⟨hscanned, hp, hne⟩ => ?_⟩
  obtain ⟨-, hfound⟩ := (accounted_of_scanned hscanned).resolve_left hne
  exact hfound.resolve_left (not_mem_known_of_scanned hscanned hp)

/-- What is set aside is what a scanned file imports and no scan can read. -/
theorem mem_unreadable_visit_iff_target : p ∈ (P.visit base entry {}).resolution.unreadable.toList ↔
    P.layout.isSourceFile p = true ∧ P.disk.importLines? P.chunk p = none ∧
      ∃ f ∈ (P.visit base entry {}).resolution.scanned.toList, ∃ m,
        P.ImportsModule f m ∧ p = P.targetIn base (P.sourceRoots P.disk base) m := by
  by_cases hl : P.disk.importLines? P.chunk entry.normalize = none
  · rw [visit_of_unscannable hl]
    refine iff_of_false nofun ?_
    rintro ⟨-, -, f, hf, m, ⟨lines, hlines, -⟩, -⟩
    rw [List.mem_singleton.mp hf, hl] at hlines
    cases hlines
  · have hexhausted := exhausted_visit base hl
    constructor
    · intro hp
      obtain ⟨hsource, hfailed⟩ := hexhausted.missing_of_mem_unreadable hp
      obtain ⟨f, hf, himports⟩ := exists_importer_visit base entry (.inr hp)
      exact ⟨hsource, hfailed, f, hf, imports_iff_importsModule.mp himports⟩
    · rintro ⟨hsource, hfailed, f, hf, himports⟩
      have hvisited := ((scannedOnce_visit P base entry).visited f).mp hf
      refine (hexhausted.gathered.closed f hvisited _
        (imports_iff_importsModule.mpr himports)).resolve_left fun hk => ?_
      exact hexhausted.not_missing_of_mem_known hk ⟨hsource, hfailed⟩

/-- Without locked files, what is set aside was looked for everywhere. -/
theorem mem_unreadable_visit_iff_import (hreadable : P.disk.IsReadable) :
    p ∈ (P.visit base entry {}).resolution.unreadable.toList ↔
      P.layout.isSourceFile p = true ∧ ∃ f ∈ (P.visit base entry {}).resolution.scanned.toList, ∃ m,
        P.ImportsModule f m ∧ P.HeldNowhere base m ∧ p = m.pathUnder base P.layout := by
  rw [mem_unreadable_visit_iff_target]
  constructor
  · rintro ⟨hsource, hfailed, f, hf, m, hm, rfl⟩
    have hheld := heldNowhere_of_targetIn ((hreadable.isFile_eq_false_iff P.chunk).mpr hfailed)
    exact ⟨hsource, f, hf, m, hm, hheld, hheld.targetIn⟩
  · rintro ⟨hsource, f, hf, m, hm, hheld, rfl⟩
    exact ⟨hsource, Disk.importLines?_of_not_isFile (hheld base List.mem_cons_self) P.chunk, f, hf, m, hm,
      hheld.targetIn.symm⟩

/-- No edge that a report has joins a scanned file that could not be read. -/
theorem not_end_of_scanned (hscanned : p ∈ (P.visit base entry {}).resolution.scanned.toList)
    (hp : P.disk.importLines? P.chunk p = none) :
    ∀ e ∈ ((P.visit base entry {}).resolution.report entry.normalize base).edges, e.1 ≠ p ∧ e.2 ≠ p := by
  have hsettled := (settled_empty P).visit base entry
  intro e he
  obtain ⟨hedge, hreadable⟩ := hsettled.mem_edges_report.mp he
  refine ⟨?_, ?_⟩
  · rintro rfl
    exact hsettled.traced.scanned e hedge hp
  · rintro rfl
    exact not_mem_known_of_scanned hscanned hp ((hsettled.traced.imported e hedge).resolve_right hreadable)

end

/-- A report lists, in order, the scanned files that could not be read, apart from the entry: the sources that some
scanned file imports and that cannot be scanned. If no file is locked, they are those that are nowhere, as they would
lie below the base directory. No dependency and no edge mentions any of them, or such an entry, which there is only if
the base directory was given. -/
theorem unreadable_of_walk {P : Project} {entry : Path} {base? : Option Path} {report : Report}
    (h : P.walk entry base? = .ok report) :
    let scanned := (P.visit report.base entry {}).resolution.scanned.toList
    report.unreadable.Pairwise (fun p q => compare p q = .lt) ∧
      (∀ p, p ∈ report.unreadable ↔
        p ∈ scanned ∧ P.disk.importLines? P.chunk p = none ∧ p ≠ report.entry) ∧
      (∀ p, p ∈ report.unreadable ↔ P.layout.isSourceFile p = true ∧ P.disk.importLines? P.chunk p = none ∧
        ∃ f ∈ scanned, ∃ m, P.ImportsModule f m ∧ p = P.targetIn report.base (P.sourceRoots P.disk report.base) m) ∧
      (P.disk.IsReadable → ∀ p, p ∈ report.unreadable ↔ P.layout.isSourceFile p = true ∧
        ∃ f ∈ scanned, ∃ m, P.ImportsModule f m ∧ P.HeldNowhere report.base m ∧ p = m.pathUnder report.base P.layout) ∧
      (∀ p ∈ scanned, P.disk.importLines? P.chunk p = none →
        p ∉ report.dependencies ∧ ∀ e ∈ report.edges, e.1 ≠ p ∧ e.2 ≠ p) ∧
      (P.disk.importLines? P.chunk report.entry = none → base? ≠ none ∧ scanned = [report.entry]) := by
  obtain ⟨base, hbase, rfl⟩ := of_walk h
  have hsettled := (settled_empty P).visit base entry
  refine ⟨Std.TreeSet.ordered_toList, fun p => mem_unreadable_visit, fun p => mem_unreadable_visit_iff_target,
    fun hreadable p => mem_unreadable_visit_iff_import hreadable, ?_, ?_⟩
  · intro p hscanned hp
    rw [dependencies_report hsettled.wellFormed hsettled.apart]
    exact ⟨not_mem_known_of_scanned hscanned hp, not_end_of_scanned hscanned hp⟩
  · intro hl
    refine ⟨?_, ?_⟩
    · rintro rfl
      exact scannable_of_baseOf hbase hl
    · show (P.visit base entry {}).resolution.scanned.toList = _
      rw [visit_of_unscannable hl]
      rfl

/-- Of the modules that are imported, two are nowhere and one is native; another file is not there at all. -/
def lostFiles : Project :=
  let name (s : String) := Utf8.encode s.toList
  { disk := ((Disk.empty.makeFile [name "Main.elm", name "src"]
      (name "module Main exposing (..)\nimport Util\nimport Gone\nimport Native.Lost\n")).makeFile
      [name "Util.elm", name "lib"] (name "import Gone\nimport Absent\nimport Main\n")).makeFile
      [name "elm.json"] (name "\x7b\"source-directories\":[\"lib\"]\x7d") }

theorem unreadable_of_lostFiles :
    lostFiles.disk.IsReadable ∧
      (∃ report, lostFiles.walk (.ofString "src/Main.elm") none = .ok report ∧
        report.unreadable = [.ofString "src/Absent.elm", .ofString "src/Gone.elm"] ∧
        ∀ p ∈ report.unreadable,
          (∃ m, lostFiles.HeldNowhere report.base m ∧ p = m.pathUnder report.base lostFiles.layout) ∧
            p ∉ report.dependencies ∧ ∀ e ∈ report.edges, e.1 ≠ p ∧ e.2 ≠ p) ∧
      ∃ report, lostFiles.walk (.ofString "src/Missing.elm") (some (.ofString "src")) = .ok report ∧
        (lostFiles.visit report.base (.ofString "src/Missing.elm") {}).resolution.scanned.toList = [report.entry] ∧
        report.unreadable = [] := by
  have hreadable : lostFiles.disk.IsReadable := by decide +kernel
  refine ⟨hreadable, ?_, ?_⟩
  · have hbase : lostFiles.baseOf (.ofString "src/Main.elm") none = .ok (.ofString "src") := rfl
    have hwalk := walk_of_baseOf hbase
    obtain ⟨-, hscanned, -, himported, hunmentioned, -⟩ := unreadable_of_walk hwalk
    refine ⟨_, hwalk, ?_, fun p hp => ⟨?_, ?_⟩⟩
    · exact Path.map_bytes_inj (by decide +kernel)
    · obtain ⟨-, f, -, m, -, hheld, hpath⟩ := (himported hreadable p).mp hp
      exact ⟨m, hheld, hpath⟩
    · obtain ⟨hmem, hp, -⟩ := (hscanned p).mp hp
      exact hunmentioned p hmem hp
  · have hbase : lostFiles.baseOf (.ofString "src/Missing.elm") (some (.ofString "src")) = .ok (.ofString "src") := rfl
    have hwalk := walk_of_baseOf hbase
    obtain ⟨-, -, -, -, -, hentry⟩ := unreadable_of_walk hwalk
    exact ⟨_, hwalk, (hentry rfl).2, rfl⟩

/-- The module's file below the base directory is locked, and there is another below a root. -/
def lockedImport : Project :=
  let name (s : String) := Utf8.encode s.toList
  { disk := (((Disk.empty.makeFile [name "Main.elm", name "src"] (name "import Util\n")).make
      [name "Util.elm", name "src"] .lockedFile).makeFile [name "Util.elm", name "lib"] []).makeFile
      [name "elm.json"] (name "\x7b\"source-directories\":[\"lib\"]\x7d") }

example : (lockedImport.walk (.ofString "src/Main.elm") none).toOption.map (·.unreadable) =
    some [.ofString "src/Util.elm"] := by
  have hbase : lockedImport.baseOf (.ofString "src/Main.elm") none = .ok (.ofString "src") := rfl
  rw [walk_of_baseOf hbase]
  exact congrArg some (Path.map_bytes_inj (by decide +kernel))

end Project

end ElmImports
