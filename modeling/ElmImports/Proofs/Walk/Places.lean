import ElmImports.Proofs.Graph.Report
import ElmImports.Proofs.Module.Name
import ElmImports.Proofs.Path.Place
import ElmImports.Proofs.Walk.Union

/-!
# One path for a file

A walk compares normal paths and never looks at the working directory. Two of its paths can therefore lead to one
file, but only where one of them leaves a directory and comes back down to it by name. Paths that begin alike are
apart, and what a walk finds begins as its base directory or a source root does.
-/

namespace ElmImports

/-! ## Where a module's file begins -/

namespace ModuleName

def Descends (m : ModuleName) (layout : Layout) : Prop :=
  ∃ names : List Bytes, (m.relativePath layout).components = names.map .name

section
variable {m : ModuleName} {layout : Layout} {dir : Path}

theorem isAbsolute_pathUnder (m : ModuleName) (layout : Layout) (hdir : dir.isAbsolute = true) :
    (m.pathUnder dir layout).isAbsolute = true := by
  unfold pathUnder
  rw [Path.isAbsolute_normalize]
  exact Path.isAbsolute_join hdir _

theorem Descends.beginsLike (h : m.Descends layout) (dir : Path) : (m.pathUnder dir layout).BeginsLike dir := by
  obtain ⟨names, hnames⟩ := h
  have hrelative : (m.relativePath layout).isAbsolute = false := by
    rw [Bool.eq_false_iff, ne_eq, Path.isAbsolute_iff, hnames]
    simp
  apply (Path.beginsLike_normalize _).trans
  apply Path.beginsLike_of_steps names.reverse
  rw [Path.steps_join hrelative, hnames, Path.foldl_follow_names, List.map_reverse]

theorem descends_of_slash_not_mem (hslash : ∀ s ∈ m.segments, '/' ∉ s) (hnames : m.names ≠ [])
    (hext : '/' ∉ m.extension layout) : m.Descends layout := by
  obtain ⟨dirs, last, hlast⟩ := (List.eq_nil_or_concat m.names).resolve_left hnames
  rw [List.concat_eq_append] at hlast
  refine ⟨dirs ++ [last ++ Path.dot :: Utf8.encode (m.extension layout)], ?_⟩
  rw [components_relativePath hslash hlast hext, List.map_append, List.map_singleton]

end

end ModuleName

/-! ## The files of a walk -/

def Report.files (report : Report) : List Path :=
  report.entry :: (report.dependencies ++ report.unreadable)

namespace Project

section
variable {P : Project} {entry base t : Path} {base? : Option Path} {report : Report}

theorem mem_files_report {r : Resolution} (hr : WellFormed P r) (ha : Apart r) {p : Path} :
    p ∈ (r.report entry base).files ↔ p = entry ∨ p ∈ r.known.toList ∨ p ∈ r.unreadable.toList := by
  unfold Report.files
  rw [List.mem_cons, List.mem_append, dependencies_report hr ha]
  rfl

/-- The files of a walk are normal paths; those that were scanned and those that are drawn are among them. -/
structure Meets (P : Project) (report : Report) (scanned drawn : List Path) : Prop where
  normal : ∀ p ∈ report.files, p.IsNormal
  imported : ∀ p ∈ report.files, p = report.entry ∨ ∃ f ∈ scanned, P.Imports report.base f p
  scanned_nodup : scanned.Nodup
  scanned_mem : scanned ⊆ report.files
  drawn_nodup : drawn.Nodup
  drawn_mem : drawn ⊆ report.files

theorem meets_of_walk (h : P.walk entry base? = .ok report) (layout : Layout) :
    P.Meets report (P.visit report.base entry {}).resolution.scanned.toList (Graph.ofReport report layout).paths := by
  have hcovers := covers_of_walk h
  have hdraws := hcovers.draws layout
  obtain ⟨base, -, rfl⟩ := of_walk h
  have hentry := entry.isNormal_normalize
  have hsettled := (settled_empty P).visit base entry
  have hfiles {p : Path} : p ∈ ((P.visit base entry {}).resolution.report entry.normalize base).files ↔ _ :=
    mem_files_report hsettled.wellFormed hsettled.apart
  refine ⟨?_, ?_, (scannedOnce_visit P base entry).nodup, ?_, hdraws.paths_nodup, ?_⟩
  · intro p hp
    rcases hfiles.mp hp with rfl | hp | hp
    · exact hentry
    · exact hsettled.wellFormed.known.normal p hp
    · exact hsettled.wellFormed.unreadable p hp
  · exact fun p hp => (hfiles.mp hp).imp_right (exists_importer_visit base entry)
  · intro p hp
    apply hfiles.mpr
    rcases accounted_of_scanned hp with hp | ⟨-, hp⟩
    · exact .inl hp
    · exact .inr hp
  · intro p hp
    rcases List.mem_cons.mp ((mem_paths_ofReport hcovers.closed layout).mp hp) with rfl | hp
    · exact List.mem_cons_self
    · exact List.mem_cons_of_mem _ (List.mem_append_left _ hp)

/-! ## Walks that stay on one side -/

inductive Aligned (P : Project) (entry : Path) (base? : Option Path) (report : Report) : Prop
  | absolute : entry.isAbsolute = true → (∀ base ∈ base?, base.isAbsolute = true) →
      (∀ dir, dir.isAbsolute = true → ∀ root ∈ P.sourceRoots P.disk dir, root.isAbsolute = true) →
      Aligned P entry base? report
  | alike : (∀ dir ∈ report.base :: P.sourceRoots P.disk report.base, dir.BeginsLike report.entry) →
      (∀ f ∈ (P.visit report.base entry {}).resolution.scanned.toList, ∀ m, P.ImportsModule f m →
        m.Descends P.layout) →
      Aligned P entry base? report

theorem isAbsolute_of_baseOf (hentry : entry.isAbsolute = true) (hbase : ∀ base ∈ base?, base.isAbsolute = true)
    (h : P.baseOf entry base? = .ok base) : base.isAbsolute = true := by
  cases base? with
  | some dir =>
    cases h
    rw [Path.isAbsolute_normalize]
    exact hbase dir rfl
  | none =>
    apply isAbsolute_baseDirectory _ h
    rw [Path.isAbsolute_normalize, hentry]

theorem Aligned.beginsLike (ha : P.Aligned entry base? report) (h : P.walk entry base? = .ok report) {p : Path}
    (hp : p = report.entry ∨
      ∃ f ∈ (P.visit report.base entry {}).resolution.scanned.toList, P.Imports report.base f p) :
    p.BeginsLike report.entry := by
  obtain ⟨base, hbase, hreport⟩ := of_walk h
  have hentry : report.entry = entry.normalize := by rw [hreport]; rfl
  have hdir : report.base = base := by rw [hreport]; rfl
  rcases hp with rfl | ⟨f, hscanned, himports⟩
  · exact ⟨rfl, rfl⟩
  · obtain ⟨m, hm, rfl⟩ := imports_iff_importsModule.mp himports
    obtain ⟨dir, hmem, hplace⟩ := P.targetIn_eq_pathUnder report.base (P.sourceRoots P.disk report.base) m
    rw [hplace]
    cases ha with
    | absolute habsolute hbases hroots =>
      have hbaseAbsolute : report.base.isAbsolute = true := hdir ▸ isAbsolute_of_baseOf habsolute hbases hbase
      have hdirAbsolute : dir.isAbsolute = true := by
        rcases List.mem_cons.mp hmem with rfl | hmem
        · exact hbaseAbsolute
        · exact hroots _ hbaseAbsolute dir hmem
      apply Path.beginsLike_of_isAbsolute (m.isAbsolute_pathUnder P.layout hdirAbsolute)
      rw [hentry, Path.isAbsolute_normalize, habsolute]
    | alike hdirs hmodules => exact ((hmodules f hscanned m hm).beginsLike dir).trans (hdirs dir hmem)

end

/-- Two files of a walk lie at one place, as seen from a working directory, just if one of their paths makes a detour
to where the other starts; no file has two paths if all begin alike. -/
theorem places_of_walk {P : Project} {entry : Path} {base? : Option Path} {report : Report}
    (h : P.walk entry base? = .ok report) (layout : Layout) (cwd : Place) :
    let scanned := (P.visit report.base entry {}).resolution.scanned.toList
    let drawn := (Graph.ofReport report layout).paths
    P.Meets report scanned drawn ∧
      (∀ p ∈ report.files, ∀ q ∈ report.files,
        cwd.along p = cwd.along q ↔ p.Detours cwd q ∨ q.Detours cwd p) ∧
      (∀ p ∈ report.files, ∀ q ∈ report.files, p.BeginsLike q → cwd.along p = cwd.along q → p = q) ∧
      (P.Aligned entry base? report →
        (∀ p ∈ report.files, ∀ q ∈ report.files, cwd.along p = cwd.along q → p = q) ∧
          (scanned.map cwd.along).Nodup ∧ (drawn.map cwd.along).Nodup) := by
  have hmeets := meets_of_walk h layout
  have halike : ∀ p ∈ report.files, ∀ q ∈ report.files, p.BeginsLike q → cwd.along p = cwd.along q → p = q :=
    fun p hp q hq hbegin => (hmeets.normal p hp).eq_of_along_eq (hmeets.normal q hq) hbegin
  refine ⟨hmeets, fun _ _ _ _ => Path.along_eq_iff, halike, fun ha => ?_⟩
  have hinj : ∀ p ∈ report.files, ∀ q ∈ report.files, cwd.along p = cwd.along q → p = q := by
    intro p hp q hq
    apply halike p hp q hq
    exact (ha.beginsLike h (hmeets.imported p hp)).trans (ha.beginsLike h (hmeets.imported q hq)).symm
  have hnodup {ps : List Path} (hps : ps.Nodup) (hmem : ps ⊆ report.files) : (ps.map cwd.along).Nodup :=
    List.pairwise_map.mpr (hps.imp_of_mem fun hp hq hne he => hne (hinj _ (hmem hp) _ (hmem hq) he))
  exact ⟨hinj, hnodup hmeets.scanned_nodup hmeets.scanned_mem, hnodup hmeets.drawn_nodup hmeets.drawn_mem⟩

/-- A file imports one that lies in another root, and that imports it in turn. -/
def twoRoots : Project :=
  let name (s : String) := Utf8.encode s.toList
  { disk := (((Disk.empty.makeFile [name "Main.elm", name "src", name "work"]
      (name "module Main exposing (..)\nimport Util\nimport Native.Page\n")).makeFile
      [name "Util.elm", name "lib", name "work"] (name "import Main\nimport Gone\n")).makeFile
      [name "elm.json", name "work"] (name "\x7b\"source-directories\":[\"lib\"]\x7d")).workIn [name "work"] }

theorem places_of_twoRoots :
    let cwd : Place := [Utf8.encode "work".toList]
    (∃ report, twoRoots.walk (.ofString "src/./Main.elm") none = .ok report ∧
        twoRoots.Aligned (.ofString "src/./Main.elm") none report ∧
        (∀ p ∈ report.files, ∀ q ∈ report.files, cwd.along p = cwd.along q → p = q)) ∧
      ∃ report, twoRoots.walk (.ofString "/work/src/Main.elm") none = .ok report ∧
        twoRoots.Aligned (.ofString "/work/src/Main.elm") none report ∧
        (∀ p ∈ report.files, ∀ q ∈ report.files, cwd.along p = cwd.along q → p = q) := by
  intro cwd
  constructor
  · have hbase : twoRoots.baseOf (.ofString "src/./Main.elm") none = .ok (.ofString "src") := rfl
    have hmodules : ∀ line ∈ twoRoots.allImportLines, ∀ m ∈ ModuleName.ofImportLine? line,
        (∀ s ∈ m.segments, '/' ∉ s) ∧ m.names ≠ [] ∧ '/' ∉ m.extension twoRoots.layout := by
      decide +kernel
    have hwalk := walk_of_baseOf hbase
    have haligned : twoRoots.Aligned (.ofString "src/./Main.elm") none
        ((twoRoots.visit (.ofString "src") (.ofString "src/./Main.elm") {}).resolution.report
          (Path.ofString "src/./Main.elm").normalize (.ofString "src")) := by
      refine .alike ?_ fun f _ m hm => ?_
      · show ∀ dir ∈ Path.ofString "src" :: twoRoots.sourceRoots twoRoots.disk (.ofString "src"),
          dir.isAbsolute = _ ∧ dir.climb = _
        decide +kernel
      · obtain ⟨lines, hl, line, hline, hm⟩ := hm
        obtain ⟨hslash, hnames, hext⟩ := hmodules line (twoRoots.mem_allImportLines hl hline) m hm
        exact ModuleName.descends_of_slash_not_mem hslash hnames hext
    exact ⟨_, hwalk, haligned, ((places_of_walk hwalk twoRoots.layout cwd).2.2.2 haligned).1⟩
  · have hbase : twoRoots.baseOf (.ofString "/work/src/Main.elm") none = .ok (.ofString "/work/src") := rfl
    have hwalk := walk_of_baseOf hbase
    have haligned : ∀ report, twoRoots.Aligned (.ofString "/work/src/Main.elm") none report :=
      fun _ => .absolute rfl nofun fun _ hdir _ => SourceRoots.isAbsolute_of_mem_ofManifest hdir
    exact ⟨_, hwalk, haligned _, ((places_of_walk hwalk twoRoots.layout cwd).2.2.2 (haligned _)).1⟩

/-- Work goes on in the directory that the name of the entry's module starts with, and the module imports itself. -/
def withinPackage : Project :=
  let name (s : String) := Utf8.encode s.toList
  { disk := (Disk.empty.makeFile [name "Main.elm", name "A"]
      (name "module A.Main exposing (..)\nimport A.Main\n")).workIn [name "A"] }

/-- The base directory lies above the working directory, so that the entry is found again by a detour. -/
theorem two_paths_withinPackage :
    let cwd : Place := [Utf8.encode "A".toList]
    let entry := Path.ofString "Main.elm"
    let other := Path.ofString "../A/Main.elm"
    withinPackage.disk.cwd = some cwd ∧ entry ≠ other ∧ cwd.along entry = cwd.along other ∧
      ∃ report, withinPackage.walk entry none = .ok report ∧ report.entry = entry ∧ report.dependencies = [other] ∧
        (withinPackage.visit report.base entry {}).resolution.scanned.toList = [entry, other] ∧
        (Graph.ofReport report withinPackage.layout).paths = [entry, other] := by
  have hbase : withinPackage.baseOf (.ofString "Main.elm") none = .ok (.ofString "..") := rfl
  refine ⟨rfl, ?_, rfl, _, walk_of_baseOf hbase, rfl, ?_, ?_, ?_⟩
  · exact fun h => absurd (congrArg Path.bytes h) (by decide)
  · exact Path.map_bytes_inj (by decide +kernel)
  · exact Path.map_bytes_inj (by decide +kernel)
  · exact Path.map_bytes_inj (by decide +kernel)

end Project

end ElmImports
