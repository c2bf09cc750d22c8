import ElmImports.Disk.Change
import ElmImports.Proofs.Graph.Summary
import ElmImports.Proofs.Module.Header
import ElmImports.Proofs.Path.Below
import ElmImports.Proofs.Walk.Depth
import ElmImports.Walk.Report

/-!
# Nodes named by their modules

The file of a module is reached by going down from the base directory, so that the node of its path gets the
module's name back once the base directory, the slashes and the extension are gone. The base directory `.` is not
gone but missing from the start: no normal path below it begins with a dot. There a node is named by its file
alone, and only a module of one segment keeps its name.
-/

namespace ElmImports

open ElmImports.Path

/-! ## Names of nodes -/

section
variable {m : ModuleName} {layout : Layout} {legend : Legend} {dirs : List Text} {last : Text} {p : Path}

theorem Legend.shown_of_below {rest : List Component} (h : p.components = legend.base.components ++ rest) :
    legend.shown p = ofComponents rest := by
  unfold shown
  rw [below?_of_components h]

theorem Legend.shown_of_fileName {name : Bytes} (hbelow : below? legend.base p = none) (h : p.fileName? = some name) :
    legend.shown p = ofComponents (([] ++ [name]).map .name) := by
  unfold shown
  rw [hbelow, h, ofComponents_names, List.nil_append, List.intercalate_singleton]
  rfl

theorem Legend.name_of_shown (hdirs : ∀ d ∈ dirs, (Component.name (Utf8.encode d)).IsStep)
    (hlast : (Component.name (Utf8.encode last)).IsStep) {ext : Text} (hdot : '.' ∉ ext) (hslash : '/' ∉ ext)
    (h : legend.shown p =
      ofComponents ((dirs.map Utf8.encode ++ [Utf8.encode last ++ dot :: Utf8.encode ext]).map .name)) :
    legend.name p = ['.'].intercalate (dirs ++ [last]) := by
  have hencoded : ∀ d ∈ dirs.map Utf8.encode, (Component.name d).IsStep := by
    intro d hd
    obtain ⟨text, htext, rfl⟩ := List.mem_map.mp hd
    exact hdirs text htext
  unfold Legend.name
  rw [h, components_withoutExtension hencoded hlast (mt dot_mem_encode.mp hdot) (mt slash_mem_encode.mp hslash)]
  have hspelled : ((dirs.map Utf8.encode ++ [Utf8.encode last]).map Component.name).map
      (fun c => Utf8.decodeLossy c.spelling) = dirs ++ [last] := by
    simp [Function.comp_def, Component.spelling, Utf8.decodeLossy_encode]
  rw [hspelled]

namespace ModuleName

theorem text_eq_intercalate (m : ModuleName) : ['.'].intercalate m.segments = m.text :=
  List.intercalate_splitOn '.'

section
variable (hsegments : ∀ s ∈ m.segments, s ≠ [] ∧ '/' ∉ s) (hsplit : m.segments = dirs ++ [last])
include hsegments hsplit

theorem isStep_encode {s : Text} (hs : s ∈ dirs ++ [last]) : (Component.name (Utf8.encode s)).IsStep := by
  rw [← hsplit] at hs
  obtain ⟨hne, hslash⟩ := hsegments s hs
  exact isStep_of_dot_not_mem (encode_ne_nil hne) (mt dot_mem_encode.mp (dot_not_mem_segment hs))
    (mt slash_mem_encode.mp hslash)

theorem components_pathUnder (hext : '/' ∉ m.extension layout) (base : Path) :
    (m.pathUnder base layout).components = base.steps.reverse ++
      (dirs.map Utf8.encode ++ [Utf8.encode last ++ dot :: Utf8.encode (m.extension layout)]).map .name := by
  have hnames : m.names = dirs.map Utf8.encode ++ [Utf8.encode last] := by
    rw [names_eq fun s hs => (hsegments s hs).1, hsplit, List.map_append]
    rfl
  have hsteps := m.steps_pathUnder (fun s hs => (hsegments s hs).2) hnames hext base
  unfold pathUnder
  rw [components_normalize_of_steps hsteps, List.reverse_append, List.reverse_reverse, List.append_assoc,
    List.map_append]
  rfl

/-- Below any other directory than `.` a node has the module's name. -/
theorem name_pathUnder (hdot : '.' ∉ m.extension layout) (hslash : '/' ∉ m.extension layout)
    (hbase : legend.base.components = legend.base.steps.reverse) (hp : (p == m.pathUnder legend.base layout) = true) :
    legend.name p = m.text := by
  have hcomponents := beq_iff.mp hp
  rw [components_pathUnder hsegments hsplit hslash, ← hbase] at hcomponents
  rw [Legend.name_of_shown ?_ ?_ hdot hslash (Legend.shown_of_below hcomponents), ← hsplit, m.text_eq_intercalate]
  · exact fun d hd => isStep_encode hsegments hsplit (List.mem_append_left _ hd)
  · exact isStep_encode hsegments hsplit (by simp)

/-- Below `.` a node has the name of the file. -/
theorem name_pathUnder_dot (hdot : '.' ∉ m.extension layout) (hslash : '/' ∉ m.extension layout)
    (hbase : legend.base = ⟨[dot]⟩) (hp : (p == m.pathUnder legend.base layout) = true) : legend.name p = last := by
  have hcomponents := beq_iff.mp hp
  rw [components_pathUnder hsegments hsplit hslash, hbase] at hcomponents
  have hbelow : below? legend.base p = none := by
    have hcurrent : .current ∈ legend.base.components := by
      rw [hbase]
      decide
    refine below?_eq_none hcurrent ?_
    rw [hcomponents, show steps ⟨[dot]⟩ = [] from rfl]
    simp
  rw [List.map_append, ← List.append_assoc] at hcomponents
  have hshown := Legend.shown_of_fileName hbelow (fileName?_of_components hcomponents)
  have hdirs : ∀ d ∈ ([] : List Text), (Component.name (Utf8.encode d)).IsStep := nofun
  rw [Legend.name_of_shown hdirs ?_ hdot hslash hshown, List.nil_append, List.intercalate_singleton]
  exact isStep_encode hsegments hsplit (by simp)

end

end ModuleName

end

/-! ## The base directory of a walk -/

namespace Project
variable {P : Project} {seed : Resolution} {entry base : Path} {base? : Option Path} {report : Report}

theorem isNormal_of_baseOf (h : P.baseOf entry base? = .ok base) : base.IsNormal := by
  cases base? with
  | some dir =>
    cases h
    exact isNormal_normalize dir
  | none =>
    obtain ⟨-, up, rfl⟩ := Disk.of_baseDirectory h
    exact isNormal_normalize _

theorem base_of_walkFrom (h : P.walkFrom seed entry base? = .ok report) :
    report.base.IsNormal ∨ report.base = ⟨[]⟩ := by
  cases hvisited : seed.visited.contains entry.normalize with
  | true =>
    unfold walkFrom at h
    rw [if_pos hvisited] at h
    cases h
    cases base? with
    | some dir => exact .inl (isNormal_normalize dir)
    | none => exact .inr rfl
  | false =>
    rw [P.walkFrom_eq hvisited] at h
    cases hbase : P.baseOf entry base? with
    | ok base =>
      rw [hbase] at h
      cases h
      exact .inl (isNormal_of_baseOf hbase)
    | error cause =>
      rw [hbase] at h
      cases h

end Project

/-! ## The nodes of a walk -/

/-- In the graph of any walk the file of a module below the base directory, if the report mentions it, has a node,
which is named as the module is, unless the base directory is `.`: then it is named by the last segment. -/
theorem Project.name_of_node {P : Project} {seed : Resolution} {entry : Path} {base? : Option Path} {report : Report}
    (h : P.walkFrom seed entry base? = .ok report) (layout : Layout) {m : ModuleName}
    (hsegments : ∀ s ∈ m.segments, s ≠ [] ∧ '/' ∉ s) (hdot : '.' ∉ m.extension layout)
    (hslash : '/' ∉ m.extension layout) :
    let nodes := (Graph.ofReport report layout).nodes.toList
    let p := m.pathUnder report.base layout
    ((∃ node ∈ nodes, (node.path == p) = true) ↔ report.mentioned.contains p = true) ∧
      ∀ node ∈ nodes, (node.path == p) = true →
        (report.base ≠ ⟨[dot]⟩ → node.name = m.text) ∧
          (report.base = ⟨[dot]⟩ →
            m.segments.getLast? = some node.name ∧ (node.name = m.text ↔ m.segments = [m.text])) := by
  have hsum := Graph.summarizes_ofReport report layout
  refine ⟨hsum.contains_mentioned _, fun node hnode hp => ?_⟩
  obtain ⟨dirs, last, hsplit⟩ := m.exists_segments
  rw [hsum.eq_node hnode]
  constructor
  · intro hne
    have hbase : report.base.components = report.base.steps.reverse := by
      rcases base_of_walkFrom h with hbase | hbase
      · exact hbase.components_of_ne_dot hne
      · rw [hbase]; rfl
    exact ModuleName.name_pathUnder hsegments hsplit hdot hslash hbase hp
  · intro hbase
    have hname : (Legend.node ⟨report.entry, report.base, layout⟩ node.path).name = last :=
      ModuleName.name_pathUnder_dot hsegments hsplit hdot hslash hbase hp
    have hlast : m.segments.getLast? = some last := by rw [hsplit, List.getLast?_concat]
    rw [hname]
    refine ⟨hlast, fun htext => ?_, fun hsingle => ?_⟩
    · have hmem : last ∈ m.segments := List.mem_of_getLast? hlast
      have hundotted : '.' ∉ m.text := htext ▸ ModuleName.dot_not_mem_segment hmem
      exact List.splitOn_eq_singleton hundotted
    · rw [hsingle, List.getLast?_singleton] at hlast
      exact (Option.some.inj hlast).symm

def package (cwd : Place) : Project :=
  let name (s : String) := Utf8.encode s.toList
  { disk := ((Disk.empty.makeFile [name "Main.elm", name "lib"]
      (name "module Main exposing (..)\nimport A.B\n")).makeFile [name "B.elm", name "A", name "lib"]
      (name "module A.B exposing (..)\n")).workIn cwd }

theorem Project.name_of_node_package :
    let m : ModuleName := ⟨"A.B".toList⟩
    ((∀ s ∈ m.segments, s ≠ [] ∧ '/' ∉ s) ∧ '.' ∉ m.extension {} ∧ '/' ∉ m.extension {}) ∧
      (∃ report, (package []).walkFrom {} (.ofString "lib/Main.elm") none = .ok report ∧
        report.base = .ofString "lib" ∧
        ∃ node ∈ (Graph.ofReport report {}).nodes.toList, (node.path == .ofString "lib/A/B.elm") = true ∧
          node.name = "A.B".toList) ∧
      ∃ report, (package [Utf8.encode "lib".toList]).walkFrom {} (.ofString "Main.elm") none = .ok report ∧
        report.base = .ofString "." ∧
        ∃ node ∈ (Graph.ofReport report {}).nodes.toList, (node.path == .ofString "A/B.elm") = true ∧
          node.name = "B".toList := by
  intro m
  have hsegments : ∀ s ∈ m.segments, s ≠ [] ∧ '/' ∉ s := by decide
  have hdot : '.' ∉ m.extension {} := by decide
  have hslash : '/' ∉ m.extension {} := by decide
  refine ⟨⟨hsegments, hdot, hslash⟩, ?_, ?_⟩
  · obtain ⟨report, hwalk, hbase, hmentions⟩ : ∃ report,
        (package []).walkFrom {} (.ofString "lib/Main.elm") none = .ok report ∧ report.base = .ofString "lib" ∧
          report.mentioned.contains (.ofString "lib/A/B.elm") = true := by
      have hbase : (package []).baseOf (.ofString "lib/Main.elm") none = .ok (.ofString "lib") := rfl
      exact ⟨_, walk_of_baseOf hbase, rfl, by decide +kernel⟩
    have hpath : m.pathUnder (.ofString "lib") {} = .ofString "lib/A/B.elm" :=
      List.singleton_inj.mp (map_bytes_inj (by decide +kernel))
    obtain ⟨hnode, hnames⟩ := name_of_node hwalk {} hsegments hdot hslash
    rw [hbase, hpath] at hnode hnames
    obtain ⟨node, hnode, hbeq⟩ := hnode.mpr hmentions
    have hne : Path.ofString "lib" ≠ ⟨[dot]⟩ := fun h => absurd (congrArg Path.bytes h) (by decide)
    exact ⟨report, hwalk, hbase, node, hnode, hbeq, (hnames node hnode hbeq).1 hne⟩
  · obtain ⟨report, hwalk, hbase, hmentions⟩ : ∃ report,
        (package [Utf8.encode "lib".toList]).walkFrom {} (.ofString "Main.elm") none = .ok report ∧
          report.base = .ofString "." ∧ report.mentioned.contains (.ofString "A/B.elm") = true := by
      have hbase : (package [Utf8.encode "lib".toList]).baseOf (.ofString "Main.elm") none = .ok (.ofString ".") := rfl
      exact ⟨_, walk_of_baseOf hbase, rfl, by decide +kernel⟩
    have hpath : m.pathUnder (.ofString ".") {} = .ofString "A/B.elm" :=
      List.singleton_inj.mp (map_bytes_inj (by decide +kernel))
    obtain ⟨hnode, hnames⟩ := name_of_node hwalk {} hsegments hdot hslash
    rw [hbase, hpath] at hnode hnames
    obtain ⟨node, hnode, hbeq⟩ := hnode.mpr hmentions
    obtain ⟨hlast, -⟩ := (hnames node hnode hbeq).2 rfl
    exact ⟨report, hwalk, hbase, node, hnode, hbeq, (Option.some.inj hlast).symm⟩

end ElmImports
