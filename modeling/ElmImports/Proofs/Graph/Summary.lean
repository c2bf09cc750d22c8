import ElmImports.Graph.Basic
import ElmImports.Proofs.Lists.Firsts
import ElmImports.Proofs.Path.Normal

/-!
# What a graph sums up

A graph has a node for every path that was mentioned and an edge for every pair of them that was counted, both
in the order of first mention, and an edge counts how often its pair was. A path goes by the spelling that its
node has, which is the first one.
-/

namespace ElmImports

theorem beq_pair_iff {a b : Path × Path} : (a == b) = true ↔ (a.1 == b.1) = true ∧ (a.2 == b.2) = true :=
  Bool.and_eq_true_iff

instance : EquivBEq (Path × Path) where
  symm h := by
    rw [beq_pair_iff] at h ⊢
    exact ⟨BEq.symm h.1, BEq.symm h.2⟩
  trans h h' := by
    rw [beq_pair_iff] at h h' ⊢
    exact ⟨BEq.trans h.1 h'.1, BEq.trans h.2 h'.2⟩

/-! ## Counting pairs -/

/-- One edge for each of the pairs, in the order of their first occurrence. -/
def tally (pairs : List (Path × Path)) : List GraphEdge :=
  pairs.eraseDups.map fun pair => ⟨pair.1, pair.2, pairs.count pair⟩

section
variable {α : Type} {p : α → Bool} {f : α → α}

/-- Changing the first item of a kind changes all of them if there is only one. -/
theorem modify_findIdx? : ∀ {l : List α} {i : Nat}, l.findIdx? p = some i →
    (l.Pairwise fun a b => p a = true → p b = false) → l.modify i f = l.map fun a => if p a then f a else a
  | [], _, h, _ => by simp at h
  | a :: l, i, h, hl => by
    obtain ⟨ha, hl⟩ := List.pairwise_cons.mp hl
    rw [List.findIdx?_cons] at h
    cases hp : p a with
    | true =>
      rw [hp, if_pos rfl] at h
      obtain rfl := Option.some.inj h
      have hrest : l.map (fun b => if p b then f b else b) = l.map id :=
        List.map_congr_left fun b hb => by rw [ha b hb hp, if_neg Bool.false_ne_true, id]
      rw [List.modify_cons, if_pos rfl, List.map_cons, hp, if_pos rfl, hrest, List.map_id]
    | false =>
      rw [hp, if_neg Bool.false_ne_true] at h
      obtain ⟨i, hi, rfl⟩ := Option.map_eq_some_iff.mp h
      rw [List.modify_cons, if_neg (Nat.succ_ne_zero i), List.map_cons, hp, if_neg Bool.false_ne_true,
        Nat.add_sub_cancel, modify_findIdx? hi hl]

end

theorem count_concat (pairs : List (Path × Path)) (pair pair' : Path × Path) :
    (pairs ++ [pair]).count pair' = pairs.count pair' + if pair == pair' then 1 else 0 := by
  rw [List.count_append, List.count_singleton]

theorem count_of_not_contains {pairs : List (Path × Path)} {pair : Path × Path}
    (h : pairs.eraseDups.contains pair = false) : pairs.count pair = 0 := by
  rw [contains_eraseDups, Bool.eq_false_iff] at h
  refine List.countP_eq_zero.mpr fun other ho he => h ?_
  exact List.contains_iff_exists_mem_beq.mpr ⟨other, ho, BEq.symm he⟩

section
variable {pairs : List (Path × Path)} (hpairs : ∀ e ∈ pairs, e.1.IsNormal ∧ e.2.IsNormal)
include hpairs

theorem eq_of_beq_pair {e : Path × Path} {source target : Path} (he : e ∈ pairs) (hs : source.IsNormal)
    (ht : target.IsNormal) (hbeq : (e == (source, target)) = true) : e = (source, target) := by
  obtain ⟨h₁, h₂⟩ := beq_pair_iff.mp hbeq
  obtain ⟨hn, hn'⟩ := hpairs e he
  exact Prod.ext (hn.eq_of_beq hs h₁) (hn'.eq_of_beq ht h₂)

theorem joined_tally {source target : Path} (hs : source.IsNormal) (ht : target.IsNormal) :
    (∃ e ∈ tally pairs, e.source = source ∧ e.target = target) ↔ 0 < pairs.count (source, target) := by
  rw [List.count, List.countP_pos_iff]
  constructor
  · rintro ⟨e, he, rfl, rfl⟩
    obtain ⟨pair, hp, rfl⟩ := List.mem_map.mp he
    exact ⟨pair, (eraseDups_sublist pairs).subset hp, BEq.rfl⟩
  · rintro ⟨pair, hp, hbeq⟩
    have hcontains : pairs.eraseDups.contains pair = true := by
      rw [contains_eraseDups]
      exact List.contains_iff_exists_mem_beq.mpr ⟨pair, hp, BEq.rfl⟩
    obtain ⟨first, hf, hfirst⟩ := List.contains_iff_exists_mem_beq.mp hcontains
    have hmem := (eraseDups_sublist pairs).subset hf
    have heq := eq_of_beq_pair hpairs hmem hs ht (BEq.trans (BEq.symm hfirst) hbeq)
    exact ⟨_, List.mem_map_of_mem hf, congrArg Prod.fst heq, congrArg Prod.snd heq⟩

end

theorem nodup_tally (pairs : List (Path × Path)) : ((tally pairs).map fun e => (e.source, e.target)).Nodup := by
  unfold tally
  rw [List.map_map]
  refine List.Pairwise.map _ (fun a b hab he => ?_) (pairwise_eraseDups pairs)
  rw [show a = b from he, BEq.rfl] at hab
  cases hab

theorem imports_of_mem_tally {pairs : List (Path × Path)} {e : GraphEdge} (he : e ∈ tally pairs) :
    (e.source, e.target) ∈ pairs ∧ e.imports = pairs.count (e.source, e.target) := by
  obtain ⟨pair, hp, rfl⟩ := List.mem_map.mp he
  exact ⟨(eraseDups_sublist pairs).subset hp, rfl⟩

namespace Graph

variable {g : Graph} {legend : Legend} {p q : Path}

theorem edges_countImport {pairs : List (Path × Path)} (h : g.edges.toList = tally pairs) (source target : Path) :
    (g.countImport source target).edges.toList = tally (pairs ++ [(source, target)]) := by
  have hcount := count_concat pairs (source, target)
  have hfirsts := eraseDups_concat (source, target) pairs
  let joins (e : GraphEdge) : Bool := e.source == source && e.target == target
  have hjoins (pair : Path × Path) (n : Nat) : joins ⟨pair.1, pair.2, n⟩ = ((source, target) == pair) :=
    (BEq.comm : (pair == (source, target)) = _)
  have hfind : g.edges.findIdx? joins = (tally pairs).findIdx? joins := by
    rw [← h, ← List.findIdx?_toArray]
  unfold countImport
  rw [show g.edges.findIdx? _ = _ from hfind]
  cases hi : (tally pairs).findIdx? joins with
  -- no edge joins the pair yet: it was never counted, and its edge comes last
  | none =>
    have hnone : ∀ pair ∈ pairs.eraseDups, ((source, target) == pair) = false := by
      intro pair hp
      rw [← hjoins pair (pairs.count pair)]
      exact List.findIdx?_eq_none_iff.mp hi _ (List.mem_map_of_mem hp)
    have hcontains : pairs.eraseDups.contains (source, target) = false := by
      simpa [List.contains_eq_any_beq] using hnone
    rw [hcontains, if_neg Bool.false_ne_true] at hfirsts
    unfold tally
    rw [hfirsts, List.map_append, List.map_singleton, hcount, count_of_not_contains hcontains]
    dsimp only
    rw [Array.toList_push, h, tally]
    congr 1
    · refine List.map_congr_left fun pair hp => ?_
      rw [hcount, hnone pair hp]
      rfl
    · simp
  | some i =>
    have hcontains : pairs.eraseDups.contains (source, target) = true := by
      obtain ⟨hlt, he, -⟩ := List.findIdx?_eq_some_iff_getElem.mp hi
      obtain ⟨pair, hp, heq⟩ := List.mem_map.mp (List.getElem_mem hlt)
      rw [← heq, hjoins] at he
      exact List.contains_iff_exists_mem_beq.mpr ⟨pair, hp, he⟩
    rw [hcontains, if_pos rfl] at hfirsts
    -- only one of the edges joins the pair that is counted
    have honce : (tally pairs).Pairwise fun a b => joins a = true → joins b = false := by
      refine List.pairwise_map.mpr ((pairwise_eraseDups pairs).imp fun {a b} hab ha => ?_)
      rw [hjoins] at ha ⊢
      rw [BEq.congr_left ha]
      exact hab
    dsimp only
    rw [Array.toList_modify, h, modify_findIdx? hi honce]
    unfold tally
    rw [hfirsts, List.map_map]
    refine List.map_congr_left fun pair _ => ?_
    rw [hcount, Function.comp, hjoins]
    cases ((source, target) == pair) <;> rfl

/-! ## Nodes -/

theorem kind_node_iff (legend : Legend) (p : Path) : (legend.node p).kind = .entry ↔ (p == legend.entry) = true := by
  unfold Legend.node Legend.kind
  dsimp only
  split
  · exact iff_of_true rfl ‹_›
  · split <;> exact iff_of_false nofun ‹_›

def paths (g : Graph) : List Path :=
  g.nodes.toList.map (·.path)

def spelled (g : Graph) (p : Path) : Path :=
  (g.paths.find? (· == p)).getD p

def spelledPair (g : Graph) (e : Path × Path) : Path × Path :=
  (g.spelled e.1, g.spelled e.2)

theorem spelled_of_normal {g : Graph} {p : Path} (hg : ∀ q ∈ g.paths, q.IsNormal) (hp : p.IsNormal) :
    g.spelled p = p := by
  unfold spelled
  cases hq : g.paths.find? (· == p) with
  | none => rfl
  | some q =>
    have hbeq : (q == p) = true := List.find?_some (p := (· == p)) hq
    exact (hg q (List.mem_of_find?_eq_some hq)).eq_of_beq hp hbeq

theorem spelledPair_congr {g' : Graph} (h : g'.paths = g.paths) : g'.spelledPair = g.spelledPair := by
  funext e
  unfold spelledPair spelled
  rw [h]

theorem nodes_countImport (g : Graph) (source target : Path) : (g.countImport source target).nodes = g.nodes := by
  unfold countImport
  split <;> rfl

theorem node?_path (g : Graph) (p : Path) : (g.node? p).map (·.path) = g.paths.find? (· == p) := by
  unfold node? paths
  rw [List.find?_map, ← Array.find?_toList]
  rfl

theorem find?_beq_isSome (ps : List Path) (p : Path) : (ps.find? (· == p)).isSome = ps.contains p := by
  rw [Bool.eq_iff_iff, List.find?_isSome, List.contains_iff_exists_mem_beq]
  exact exists_congr fun q => and_congr_right fun _ => by rw [BEq.comm]

theorem spelled_mem {p : Path} (h : g.paths.contains p = true) : g.spelled p ∈ g.paths := by
  rw [← find?_beq_isSome] at h
  obtain ⟨q, hq⟩ := Option.isSome_iff_exists.mp h
  unfold spelled
  rw [hq]
  exact List.mem_of_find?_eq_some hq

theorem spelled_beq (g : Graph) (p : Path) : (g.spelled p == p) = true := by
  unfold spelled
  cases hq : g.paths.find? (· == p) with
  | none => exact BEq.rfl
  | some q => exact List.find?_some (p := (· == p)) hq

theorem withNode_of_contains (h : g.paths.contains p = true) (legend : Legend) :
    g.withNode legend p = (g, g.spelled p) := by
  have hpath := g.node?_path p
  rw [← find?_beq_isSome] at h
  obtain ⟨q, hq⟩ := Option.isSome_iff_exists.mp h
  unfold withNode spelled
  rw [hq] at hpath ⊢
  obtain ⟨node, hnode, rfl⟩ := Option.map_eq_some_iff.mp hpath
  rw [hnode]
  rfl

theorem withNode_of_not_contains (h : g.paths.contains p = false) (legend : Legend) :
    g.withNode legend p = ({ g with nodes := g.nodes.push (legend.node p) }, p) := by
  have hpath := g.node?_path p
  rw [← find?_beq_isSome, Option.isSome_eq_false_iff, Option.isNone_iff_eq_none] at h
  rw [h, Option.map_eq_none_iff] at hpath
  unfold withNode
  rw [hpath]

theorem paths_withNode (g : Graph) (legend : Legend) (p : Path) :
    (g.withNode legend p).1.paths = if g.paths.contains p then g.paths else g.paths ++ [p] := by
  cases h : g.paths.contains p with
  | true => rw [withNode_of_contains h, if_pos rfl]
  | false =>
    rw [withNode_of_not_contains h, if_neg Bool.false_ne_true]
    simp [paths, Legend.node]

theorem spelled_of_contains (h : g.paths.contains q = true) (legend : Legend) (p : Path) :
    (g.withNode legend p).1.spelled q = g.spelled q := by
  rw [← find?_beq_isSome] at h
  unfold spelled
  rw [paths_withNode]
  split
  · rfl
  · rw [List.find?_append, Option.or_of_isSome h]

theorem withNode_snd (g : Graph) (legend : Legend) (p : Path) :
    (g.withNode legend p).2 = (g.withNode legend p).1.spelled p := by
  cases h : g.paths.contains p with
  | true => rw [withNode_of_contains h]
  | false =>
    have hnone : g.paths.find? (· == p) = none := by
      rw [← Option.isNone_iff_eq_none, ← Option.isSome_eq_false_iff, find?_beq_isSome, h]
    have hpaths := g.paths_withNode legend p
    rw [h, if_neg Bool.false_ne_true] at hpaths
    unfold spelled
    rw [hpaths, List.find?_append, hnone, withNode_of_not_contains h]
    simp

/-! ## Graphs and their calls -/

/-- The graph has a node for each of the paths mentioned and sums up the imports that were added. -/
structure Summarizes (g : Graph) (legend : Legend) (mentioned : List Path) (imports : List (Path × Path)) : Prop where
  paths : g.paths = mentioned.eraseDups
  nodes : g.nodes.toList = g.paths.map legend.node
  edges : g.edges.toList = tally (imports.map g.spelledPair)
  joined : ∀ e ∈ imports, g.paths.contains e.1 = true ∧ g.paths.contains e.2 = true

theorem summarizes_empty (legend : Legend) : Summarizes {} legend [] [] :=
  ⟨rfl, rfl, rfl, nofun⟩

variable {mentioned : List Path} {imports : List (Path × Path)}

theorem Summarizes.withNode (h : Summarizes g legend mentioned imports) (p : Path) :
    Summarizes (g.withNode legend p).1 legend (mentioned ++ [p]) imports := by
  have hpaths := g.paths_withNode legend p
  refine ⟨?_, ?_, ?_, ?_⟩
  · rw [hpaths, h.paths, eraseDups_concat]
  · cases hp : g.paths.contains p with
    | true => rw [withNode_of_contains hp, h.nodes]
    | false =>
      rw [hp, if_neg Bool.false_ne_true] at hpaths
      rw [hpaths, withNode_of_not_contains hp]
      simp [h.nodes]
  · have hedges : (g.withNode legend p).1.edges = g.edges := by
      unfold Graph.withNode
      split <;> rfl
    rw [hedges, h.edges]
    congr 1
    refine List.map_congr_left fun e he => ?_
    obtain ⟨h₁, h₂⟩ := h.joined e he
    unfold spelledPair
    rw [spelled_of_contains h₁, spelled_of_contains h₂]
  · intro e he
    obtain ⟨h₁, h₂⟩ := h.joined e he
    rw [hpaths]
    split
    · exact ⟨h₁, h₂⟩
    · simp [List.contains_append, h₁, h₂]

theorem contains_withNode (g : Graph) (legend : Legend) (p : Path) :
    (g.withNode legend p).1.paths.contains p = true := by
  rw [paths_withNode]
  split
  · assumption
  · simp [List.contains_append]

theorem Summarizes.countImport (h : Summarizes g legend mentioned imports) {importer imported : Path}
    (h₁ : g.paths.contains importer = true) (h₂ : g.paths.contains imported = true) :
    Summarizes (g.countImport (g.spelled importer) (g.spelled imported)) legend mentioned
      (imports ++ [(importer, imported)]) := by
  have hedges := edges_countImport h.edges (g.spelled importer) (g.spelled imported)
  have hnodes := g.nodes_countImport (g.spelled importer) (g.spelled imported)
  have hpaths : (g.countImport (g.spelled importer) (g.spelled imported)).paths = g.paths :=
    congrArg (fun nodes => nodes.toList.map (·.path)) hnodes
  refine ⟨hpaths.trans h.paths, ?_, ?_, ?_⟩
  · rw [hnodes, hpaths, h.nodes]
  · rw [hedges, spelledPair_congr hpaths, List.map_append]
    rfl
  · rw [hpaths]
    intro e he
    rcases List.mem_append.mp he with he | he
    · exact h.joined e he
    · rw [List.mem_singleton.mp he]
      exact ⟨h₁, h₂⟩

theorem Summarizes.addImport (h : Summarizes g legend mentioned imports) (importer imported : Path) :
    Summarizes (g.addImport legend importer imported) legend (mentioned ++ [importer, imported])
      (imports ++ [(importer, imported)]) := by
  have hboth := (h.withNode importer).withNode imported
  have hfirst := g.contains_withNode legend importer
  have hsecond := (g.withNode legend importer).1.contains_withNode legend imported
  have hkept : ((g.withNode legend importer).1.withNode legend imported).1.paths.contains importer = true := by
    rw [paths_withNode]
    split
    · exact hfirst
    · rw [List.contains_append, hfirst, Bool.true_or]
  rw [List.append_assoc] at hboth
  unfold Graph.addImport
  dsimp only
  rw [withNode_snd, withNode_snd, ← spelled_of_contains hfirst legend imported]
  exact hboth.countImport hkept hsecond

theorem Summarizes.addNodes : ∀ (ps : List Path) {g : Graph} {mentioned : List Path},
    Summarizes g legend mentioned imports → Summarizes (g.addNodes legend ps) legend (mentioned ++ ps) imports
  | [], _, _, h => by rwa [List.append_nil]
  | p :: ps, g, mentioned, h => by
    have hrest := Summarizes.addNodes ps (h.withNode p)
    rwa [List.append_assoc] at hrest

theorem Summarizes.addImports : ∀ (added : List (Path × Path)) {g : Graph} {mentioned : List Path}
    {imports : List (Path × Path)}, Summarizes g legend mentioned imports →
    Summarizes (g.addImports legend added) legend (mentioned ++ added.flatMap fun e => [e.1, e.2]) (imports ++ added)
  | [], _, _, _, h => by simpa [Graph.addImports] using h
  | (importer, imported) :: added, g, mentioned, imports, h => by
    have hrest := Summarizes.addImports added (h.addImport importer imported)
    rwa [List.append_assoc, List.append_assoc] at hrest

/-! ## The graph of a report -/

theorem Summarizes.contains_mentioned (h : Summarizes g legend mentioned imports) (p : Path) :
    (∃ node ∈ g.nodes.toList, (node.path == p) = true) ↔ mentioned.contains p = true := by
  rw [← contains_eraseDups, ← h.paths, List.contains_iff_exists_mem_beq]
  unfold Graph.paths
  simp only [List.mem_map, exists_exists_and_eq_and]
  exact exists_congr fun node => and_congr_right fun _ => by rw [BEq.comm]

theorem Summarizes.eq_node (h : Summarizes g legend mentioned imports) {node : GraphNode}
    (hnode : node ∈ g.nodes.toList) : node = legend.node node.path := by
  rw [h.nodes] at hnode
  obtain ⟨p, -, rfl⟩ := List.mem_map.mp hnode
  rfl

end Graph

def Report.mentioned (report : Report) : List Path :=
  report.entry :: report.dependencies ++ report.edges.flatMap fun e => [e.1, e.2]

theorem Graph.summarizes_ofReport (report : Report) (layout : Layout) :
    Summarizes (ofReport report layout) ⟨report.entry, report.base, layout⟩ report.mentioned report.edges :=
  ((summarizes_empty _).addNodes (report.entry :: report.dependencies)).addImports report.edges

end ElmImports
