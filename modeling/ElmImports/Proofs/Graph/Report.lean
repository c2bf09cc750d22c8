import ElmImports.Disk.Change
import ElmImports.Proofs.Walk.Counted
import ElmImports.Proofs.Walk.Scanned

/-!
# The graph of a walk

A report's edges join files that it reports, so that the graph of a walk has a node for the entry and for each
other dependency and no more. Its edges are the pairs of reported files of which one was scanned and imports
the other, and each counts the import lines that it stands for.
-/

namespace ElmImports

namespace Project

section
variable {P : Project} {entry base f t : Path} {base? : Option Path} {report : Report} {r : Resolution} {v : Visit}

theorem of_walk (h : P.walk entry base? = .ok report) : ∃ base, P.baseOf entry base? = .ok base ∧
    report = (P.visit base entry {}).resolution.report entry.normalize base := by
  unfold walk at h
  rw [P.walkFrom_eq rfl] at h
  cases hbase : P.baseOf entry base? with
  | ok base =>
    rw [hbase] at h
    cases h
    exact ⟨base, rfl, rfl⟩
  | error cause =>
    rw [hbase] at h
    cases h

/-! ## The edges that are reported -/

theorem Settled.mem_edges_report (h : Settled P r) {e : Path × Path} :
    e ∈ (r.report entry base).edges ↔ e ∈ r.edges.toList ∧ e.2 ∉ r.unreadable.toList := by
  show e ∈ r.edges.toList.filter (fun e => ! r.unreadable.contains e.1 && ! r.unreadable.contains e.2) ↔ _
  rw [List.mem_filter, Bool.and_eq_true]
  refine and_congr_right fun he => ?_
  obtain ⟨hn, hn'⟩ := h.traced.normal e he
  rw [h.wellFormed.not_contains_unreadable hn, h.wellFormed.not_contains_unreadable hn']
  exact and_iff_right (h.consistent.importer e he).2

theorem Settled.count_edges_report (h : Settled P r) (hf : f.IsNormal) (ht : t.IsNormal)
    (hfu : f ∉ r.unreadable.toList) (htu : t ∉ r.unreadable.toList) :
    (r.report entry base).edges.count (f, t) = r.edges.toList.count (f, t) := by
  show (r.edges.toList.filter fun e => ! r.unreadable.contains e.1 && ! r.unreadable.contains e.2).count (f, t) = _
  rw [List.count, List.countP_filter]
  refine List.countP_congr fun e _ => ?_
  rw [Bool.and_eq_true]
  refine and_iff_left_of_imp fun hbeq => ?_
  obtain ⟨h₁, h₂⟩ := beq_pair_iff.mp hbeq
  rw [contains_eq_of_beq _ _ _ h₁, contains_eq_of_beq _ _ _ h₂, Bool.and_eq_true]
  exact ⟨(h.wellFormed.not_contains_unreadable hf).mpr hfu, (h.wellFormed.not_contains_unreadable ht).mpr htu⟩

theorem Visits.entry_readable (hv : Visits P base entry {} v) (hr : WellFormed P v.resolution) :
    entry ∉ v.resolution.unreadable.toList := by
  intro hu
  cases hv with
  | seen hseen => cases hseen
  | failed _ _ => cases hu
  | scanned _ hl _ _ => exact nomatch hl.symm.trans (hr.failed entry hu)

end

end Project

/-! ## The graph of a closed report -/

structure Report.Closed (report : Report) : Prop where
  entry : report.entry.IsNormal
  normal : ∀ p ∈ report.dependencies, p.IsNormal
  nodup : report.dependencies.Nodup
  importer : ∀ e ∈ report.edges, e.1 ∈ report.entry :: report.dependencies
  imported : ∀ e ∈ report.edges, e.2 ∈ report.dependencies

namespace Graph

section
variable {report : Report} (h : report.Closed)
include h

theorem eraseDups_of_closed : (report.entry :: report.dependencies).eraseDups =
    report.entry :: report.dependencies.filter (! · == report.entry) := by
  rw [List.eraseDups_cons, eraseDups_of_normal]
  · exact fun p hp => h.normal p (List.mem_filter.mp hp).1
  · exact h.nodup.filter _

theorem ofReport_of_closed (layout : Layout) :
    (ofReport report layout).paths = report.entry :: report.dependencies.filter (! · == report.entry) ∧
      (ofReport report layout).nodes.toList =
        (ofReport report layout).paths.map (Legend.node ⟨report.entry, report.base, layout⟩) ∧
      (ofReport report layout).edges.toList = tally report.edges := by
  have hsum := summarizes_ofReport report layout
  -- the nodes are there before the edges are added
  have hmentioned : ∀ p ∈ report.edges.flatMap fun e => [e.1, e.2],
      (report.entry :: report.dependencies).contains p = true := by
    intro p hp
    obtain ⟨e, he, hp⟩ := List.mem_flatMap.mp hp
    have hmem : p ∈ report.entry :: report.dependencies := by
      rcases List.mem_cons.mp hp with rfl | hp
      · exact h.importer e he
      · rw [List.mem_singleton.mp hp]
        exact List.mem_cons_of_mem _ (h.imported e he)
    exact List.contains_iff_exists_mem_beq.mpr ⟨p, hmem, BEq.rfl⟩
  have hpaths := hsum.paths
  rw [Report.mentioned, eraseDups_append_of_contains hmentioned, eraseDups_of_closed h] at hpaths
  have hnormal : ∀ p ∈ report.entry :: report.dependencies, p.IsNormal :=
    List.forall_mem_cons.mpr ⟨h.entry, h.normal⟩
  have hspelled : ∀ p ∈ report.entry :: report.dependencies, (ofReport report layout).spelled p = p := by
    intro p hp
    refine spelled_of_normal (fun q hq => ?_) (hnormal p hp)
    rw [hpaths, ← eraseDups_of_closed h] at hq
    exact hnormal q ((eraseDups_sublist _).subset hq)
  have hedges := hsum.edges
  rw [List.map_congr_left (g := id), List.map_id] at hedges
  · exact ⟨hpaths, hsum.nodes, hedges⟩
  · intro e he
    unfold spelledPair
    rw [hspelled _ (h.importer e he), hspelled _ (List.mem_cons_of_mem _ (h.imported e he))]
    rfl

end

end Graph

namespace Project

section
variable {P : Project} {entry base f t : Path} {r : Resolution}

theorem Settled.closed_report (h : Settled P r) (base : Path) (he : entry.IsNormal)
    (haccounted : ∀ p ∈ r.visited.toList, Accounted P entry r p) : (r.report entry base).Closed := by
  have hdependencies : (r.report entry base).dependencies = r.known.toList := dependencies_report h.wellFormed h.apart
  refine ⟨he, ?_, ?_, ?_, ?_⟩
  · rw [hdependencies]
    exact h.wellFormed.known.normal
  · rw [hdependencies]
    exact h.wellFormed.known.nodup
  · intro e hm
    obtain ⟨hm, -⟩ := h.mem_edges_report.mp hm
    obtain ⟨hv, hu⟩ := h.consistent.importer e hm
    rw [hdependencies]
    rcases haccounted e.1 hv with heq | ⟨-, hk | hu'⟩
    · rw [heq]
      exact List.mem_cons_self
    · exact List.mem_cons_of_mem _ hk
    · exact absurd hu' hu
  · intro e hm
    obtain ⟨hm, hu⟩ := h.mem_edges_report.mp hm
    rw [hdependencies]
    exact (h.traced.imported e hm).resolve_right hu

theorem Settled.exists_edge_report (h : Settled P r) {p : Path} (hp : p ∈ r.known.toList) :
    ∃ e ∈ (r.report entry base).edges, e.2 = p := by
  obtain ⟨e, he, rfl⟩ := h.traced.named p hp
  exact ⟨e, h.mem_edges_report.mpr ⟨he, h.apart _ hp⟩, rfl⟩

end

/-- The report's edges are the imports among what it reports, each import line counted. -/
structure Covers (P : Project) (report : Report) (scanned : List Path) : Prop where
  closed : report.Closed
  imported : ∀ p ∈ report.dependencies, ∃ e ∈ report.edges, e.2 = p
  importer : ∀ e ∈ report.edges, e.1 ∈ scanned
  counts : ∀ f ∈ report.entry :: report.dependencies, ∀ t ∈ report.entry :: report.dependencies,
    f ∈ scanned → report.edges.count (f, t) = P.importCount report.base f t

theorem covers_of_walk {P : Project} {entry : Path} {base? : Option Path} {report : Report}
    (h : P.walk entry base? = .ok report) :
    P.Covers report (P.visit report.base entry {}).resolution.scanned.toList := by
  obtain ⟨base, -, rfl⟩ := of_walk h
  have he := entry.isNormal_normalize
  have hs := (settled_empty P).visit base entry
  have hcounted := counted_visit P base entry
  have honce := scannedOnce_visit P base entry
  have hreadable := (P.visits_visit base entry {}).entry_readable hs.wellFormed
  have hclosed := hs.closed_report base he (accounted_visit P base entry)
  have hdependencies : ((P.visit base entry {}).resolution.report entry.normalize base).dependencies =
      (P.visit base entry {}).resolution.known.toList := dependencies_report hs.wellFormed hs.apart
  show P.Covers _ (P.visit base entry {}).resolution.scanned.toList
  generalize (P.visit base entry {}).resolution = r at *
  have hfound : ∀ p ∈ entry.normalize :: (r.report entry.normalize base).dependencies,
      p.IsNormal ∧ p ∉ r.unreadable.toList := by
    rw [hdependencies]
    exact List.forall_mem_cons.mpr ⟨⟨he, hreadable⟩, fun p hp => ⟨hs.wellFormed.known.normal p hp, hs.apart p hp⟩⟩
  refine ⟨hclosed, ?_, ?_, ?_⟩
  · exact fun p hp => hs.exists_edge_report (hdependencies ▸ hp)
  · intro e hm
    rw [honce.visited]
    exact (hs.consistent.importer e (hs.mem_edges_report.mp hm).1).1
  · intro f hf t ht hscanned
    obtain ⟨hnf, hfu⟩ := hfound f hf
    obtain ⟨hnt, htu⟩ := hfound t ht
    rw [hs.count_edges_report hnf hnt hfu htu]
    exact hcounted.counts f ((honce.visited f).mp hscanned) t hnt htu

theorem mem_paths_ofReport {report : Report} (h : report.Closed) (layout : Layout) {p : Path} :
    p ∈ (Graph.ofReport report layout).paths ↔ p ∈ report.entry :: report.dependencies := by
  rw [(Graph.ofReport_of_closed h layout).1, List.mem_cons, List.mem_cons, List.mem_filter]
  refine or_congr_right' fun hne => and_iff_left_of_imp fun hp => ?_
  simpa using fun hbeq => hne ((h.normal p hp).eq_of_beq h.entry hbeq)

/-- The graph has the reported files for its nodes, the entry first, and joins two of them if one was scanned and
imports the other, as often as it does. -/
structure Draws (P : Project) (report : Report) (layout : Layout) (scanned : List Path) (g : Graph) : Prop where
  paths : g.paths = report.entry :: report.dependencies.filter (! · == report.entry)
  paths_nodup : g.paths.Nodup
  nodes : g.nodes.toList = g.paths.map (Legend.node ⟨report.entry, report.base, layout⟩)
  kind : ∀ node ∈ g.nodes.toList, node.kind = .entry ↔ node.path = report.entry
  imported : ∀ p ∈ report.dependencies, p ∈ g.paths ∧ ∃ e ∈ g.edges.toList, e.target = p
  pairs_nodup : (g.edges.toList.map fun e => (e.source, e.target)).Nodup
  ends : ∀ e ∈ g.edges.toList, e.source ∈ g.paths ∧ e.target ∈ g.paths
  imports : ∀ e ∈ g.edges.toList, e.imports = P.importCount report.base e.source e.target
  joins : ∀ f ∈ g.paths, ∀ t ∈ g.paths, (∃ e ∈ g.edges.toList, e.source = f ∧ e.target = t) ↔
    f ∈ scanned ∧ 0 < P.importCount report.base f t

theorem Covers.draws {P : Project} {report : Report} {scanned : List Path} (hcovers : P.Covers report scanned)
    (layout : Layout) : P.Draws report layout scanned (Graph.ofReport report layout) := by
  have hclosed := hcovers.closed
  obtain ⟨hpaths, hnodes, hedges⟩ := Graph.ofReport_of_closed hclosed layout
  have hmem {p : Path} := mem_paths_ofReport hclosed layout (p := p)
  have hreported : ∀ p ∈ report.entry :: report.dependencies, p.IsNormal :=
    List.forall_mem_cons.mpr ⟨hclosed.entry, hclosed.normal⟩
  have hjoined : ∀ e ∈ report.edges, e.1 ∈ report.entry :: report.dependencies ∧
      e.2 ∈ report.entry :: report.dependencies :=
    fun e he => ⟨hclosed.importer e he, List.mem_cons_of_mem _ (hclosed.imported e he)⟩
  have hnormal : ∀ e ∈ report.edges, e.1.IsNormal ∧ e.2.IsNormal :=
    fun e he => ⟨hreported _ (hjoined e he).1, hreported _ (hjoined e he).2⟩
  refine ⟨hpaths, ?_, hnodes, ?_, ?_, ?_, ?_, ?_, ?_⟩
  · rw [hpaths, ← Graph.eraseDups_of_closed hclosed]
    exact (pairwise_eraseDups _).imp fun hpq heq => by rw [heq, BEq.rfl] at hpq; cases hpq
  · intro node hn
    rw [hnodes] at hn
    obtain ⟨p, hp, rfl⟩ := List.mem_map.mp hn
    rw [Graph.kind_node_iff]
    have hp := hreported p (hmem.mp hp)
    exact ⟨hp.eq_of_beq hclosed.entry, fun heq => Path.beq_iff.mpr (congrArg Path.components heq)⟩
  · intro p hp
    refine ⟨hmem.mpr (List.mem_cons_of_mem _ hp), ?_⟩
    obtain ⟨e, he, rfl⟩ := hcovers.imported p hp
    have hpos : 0 < report.edges.count e := List.countP_pos_iff.mpr ⟨e, he, BEq.rfl⟩
    rw [hedges]
    obtain ⟨edge, hedge, -, htarget⟩ := (joined_tally hnormal (hnormal e he).1 (hnormal e he).2).mpr hpos
    exact ⟨edge, hedge, htarget⟩
  · rw [hedges]
    exact nodup_tally _
  · intro e he
    rw [hedges] at he
    obtain ⟨hsource, htarget⟩ := hjoined _ (imports_of_mem_tally he).1
    exact ⟨hmem.mpr hsource, hmem.mpr htarget⟩
  · intro e he
    rw [hedges] at he
    obtain ⟨hpair, himports⟩ := imports_of_mem_tally he
    obtain ⟨hsource, htarget⟩ := hjoined _ hpair
    rw [himports, hcovers.counts _ hsource _ htarget (hcovers.importer _ hpair)]
  · intro f hf t ht
    have hf := hmem.mp hf
    have ht := hmem.mp ht
    have hcount := hcovers.counts f hf t ht
    rw [hedges, joined_tally hnormal (hreported f hf) (hreported t ht)]
    constructor
    · intro hpos
      obtain ⟨e, he, hbeq⟩ := List.countP_pos_iff.mp hpos
      have hscanned := hcovers.importer e he
      rw [eq_of_beq_pair hnormal he (hreported f hf) (hreported t ht) hbeq] at hscanned
      exact ⟨hscanned, hcount hscanned ▸ hpos⟩
    · rintro ⟨hscanned, hpos⟩
      rwa [hcount hscanned]

/-- The graph of a walk draws what the walk reports. -/
theorem draws_of_walk {P : Project} {entry : Path} {base? : Option Path} {report : Report}
    (h : P.walk entry base? = .ok report) (layout : Layout) :
    P.Draws report layout (P.visit report.base entry {}).resolution.scanned.toList (Graph.ofReport report layout) :=
  (covers_of_walk h).draws layout

/-- A file is imported twice, by itself, and by a file that it imports; another one is missing. -/
def repeatedImports : Project :=
  let name (s : String) := Utf8.encode s.toList
  { disk := (Disk.empty.makeFile [name "Main.elm", name "src"]
      (name "import Page\nimport Gone\nimport Main\nimport Page as P\n")).makeFile
      [name "Page.elm", name "src"] (name "import Main\nimport Gone\nimport Native.Page\n") }

theorem draws_of_repeatedImports :
    ∃ report, repeatedImports.walk (.ofString "src/./Main.elm") (some (.ofString "src")) = .ok report ∧
      report.entry = .ofString "src/Main.elm" ∧ report.base = .ofString "src" ∧
      repeatedImports.Draws report repeatedImports.layout
        (repeatedImports.visit report.base (.ofString "src/./Main.elm") {}).resolution.scanned.toList
        (Graph.ofReport report repeatedImports.layout) := by
  have hbase : repeatedImports.baseOf (.ofString "src/./Main.elm") (some (.ofString "src")) =
      .ok (.ofString "src") := rfl
  have hwalk := walk_of_baseOf hbase
  exact ⟨_, hwalk, rfl, rfl, draws_of_walk hwalk _⟩

end Project

end ElmImports
