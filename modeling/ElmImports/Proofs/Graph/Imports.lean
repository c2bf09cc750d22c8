import Mathlib.Algebra.Ring.Nat
import ElmImports.Proofs.Graph.Summary

/-!
# What the imports of a graph add up to

A graph to which imports are added, and nothing else, is their summary. Its nodes are the paths that the imports
join, in the order of their first mention, its edges are the pairs that they join, in the order of their first
occurrence, and its edges count each import once.
-/

namespace ElmImports

/-- Every item is counted with its first occurrence. -/
theorem sum_count_eraseDups {α : Type} [BEq α] [EquivBEq α] : ∀ l : List α, (l.eraseDups.map (l.count ·)).sum = l.length
  | [] => rfl
  | a :: l => by
    have := length_filter_lt_succ (! · == a) l
    have hrest : ∀ b ∈ (l.filter (! · == a)).eraseDups, (a :: l).count b = (l.filter (! · == a)).count b := by
      intro b hb
      have hba : (b == a) = false := by
        simpa using (List.mem_filter.mp ((eraseDups_sublist _).subset hb)).2
      rw [count_filter_bne hba, List.count_cons, BEq.comm, hba]
      rfl
    have hfirst : (a :: l).count a = l.count a + 1 := by
      rw [List.count_cons, BEq.rfl, if_pos rfl]
    have hsplit : l.length = l.count a + (l.filter (! · == a)).length := by
      show l.length = l.countP (· == a) + _
      rw [← List.countP_eq_length_filter, List.length_eq_countP_add_countP (· == a)]
      simp
    rw [List.eraseDups_cons, List.map_cons, List.sum_cons, List.map_congr_left hrest, sum_count_eraseDups, hfirst,
      List.length_cons]
    omega
termination_by l => l.length

namespace Graph

variable {g : Graph} {legend : Legend} {imports : List (Path × Path)}

def mentionedIn (imports : List (Path × Path)) : List Path :=
  imports.flatMap fun e => [e.1, e.2]

theorem spelledPair_beq (g : Graph) (e : Path × Path) : (g.spelledPair e == e) = true :=
  beq_pair_iff.mpr ⟨g.spelled_beq e.1, g.spelled_beq e.2⟩

/-- Pairs are counted alike, however their paths are spelled. -/
theorem tally_spelledPair (g : Graph) (imports : List (Path × Path)) : tally (imports.map g.spelledPair) =
    imports.eraseDups.map fun e => ⟨g.spelled e.1, g.spelled e.2, imports.count e⟩ := by
  unfold tally
  rw [eraseDups_map g.spelledPair_beq, List.map_map]
  refine List.map_congr_left fun e _ => ?_
  show (⟨g.spelled e.1, g.spelled e.2, (imports.map g.spelledPair).count (g.spelledPair e)⟩ : GraphEdge) = _
  rw [count_map_beq g.spelledPair_beq]

structure AddsUp (g : Graph) (legend : Legend) (imports : List (Path × Path)) : Prop where
  paths : g.paths = (mentionedIn imports).eraseDups
  nodes : g.nodes.toList = g.paths.map legend.node
  /-- A path that is mentioned has one node, another path has none. -/
  once : ∀ p, g.nodes.toList.countP (·.path == p) = if (mentionedIn imports).contains p then 1 else 0
  kind : ∀ node ∈ g.nodes.toList, node.kind = .entry ↔ (node.path == legend.entry) = true
  edges : g.edges.toList = imports.eraseDups.map fun e => ⟨g.spelled e.1, g.spelled e.2, imports.count e⟩
  /-- An edge joins the nodes of the paths that the import joins. -/
  spelled : ∀ e ∈ imports, g.spelled e.1 ∈ g.paths ∧ (g.spelled e.1 == e.1) = true ∧
    g.spelled e.2 ∈ g.paths ∧ (g.spelled e.2 == e.2) = true
  distinct : g.edges.toList.Pairwise fun e e' => ¬ ((e.source == e'.source) = true ∧ (e.target == e'.target) = true)
  total : (g.edges.toList.map (·.imports)).sum = imports.length

/-- Imports that are added one after another add up, whatever they join and however often. -/
theorem addsUp_addImports (legend : Legend) (imports : List (Path × Path)) :
    (({} : Graph).addImports legend imports).AddsUp legend imports := by
  have hsum : (({} : Graph).addImports legend imports).Summarizes legend (mentionedIn imports) imports :=
    (summarizes_empty legend).addImports imports
  generalize ({} : Graph).addImports legend imports = g at hsum
  have hedges : g.edges.toList = imports.eraseDups.map fun e => ⟨g.spelled e.1, g.spelled e.2, imports.count e⟩ := by
    rw [hsum.edges, tally_spelledPair]
  refine ⟨hsum.paths, hsum.nodes, ?_, ?_, hedges, ?_, ?_, ?_⟩
  · intro p
    have hcount : g.nodes.toList.countP (·.path == p) = g.paths.count p := by
      unfold Graph.paths
      rw [List.count, List.countP_map]
      rfl
    rw [hcount, hsum.paths, count_eraseDups]
  · intro node hn
    rw [hsum.nodes] at hn
    obtain ⟨p, -, rfl⟩ := List.mem_map.mp hn
    exact kind_node_iff legend p
  · intro e he
    obtain ⟨himporter, himported⟩ := hsum.joined e he
    exact ⟨spelled_mem himporter, g.spelled_beq _, spelled_mem himported, g.spelled_beq _⟩
  · rw [hsum.edges]
    refine List.pairwise_map.mpr ((pairwise_eraseDups _).imp fun {e e'} he hbeq => ?_)
    rw [beq_pair_iff.mpr hbeq] at he
    cases he
  · rw [hedges, List.map_map]
    exact sum_count_eraseDups imports

/-- Two files import each other, one of them itself as well, and the other twice, spelled otherwise the second time. -/
example :
    let imports := [("b", "a"), ("a", "b"), ("b", "b"), ("b/.", "a/")].map
      fun e => (Path.ofString e.1, Path.ofString e.2)
    let g := ({} : Graph).addImports ⟨.ofString "a", .ofString ".", {}⟩ imports
    g.paths.map Path.display = ["b".toList, "a".toList] ∧ g.edges.toList.map (·.imports) = [2, 1, 1] := by
  decide +kernel

end Graph

end ElmImports
