import ElmImports.Graph.Dot
import ElmImports.Proofs.Graph.Summary
import ElmImports.Proofs.Text.Pieces
import ElmImports.Proofs.Text.Utf8

/-!
# Nothing is lost in a written graph

What is written for an item shows, whatever comes behind it, where it ends: a quote inside quotes is escaped, so that
the first one that is not closes them, and the lines of nodes and edges open with a blank, unlike what comes behind
the last of them. So the nodes and edges of a graph, as they are displayed, can be read back from its text.
-/

namespace ElmImports

/-! ## What is displayed -/

def GraphNode.shown (node : GraphNode) : Text × Text × NodeKind :=
  (node.path.display, node.name, node.kind)

def GraphEdge.shown (edge : GraphEdge) : Text × Text × Nat :=
  (edge.source.display, edge.target.display, edge.imports)

/-! ## What can be read back -/

section
variable {α β : Type}

/-- What is written for an item shows where it ends and what is to be read of it. -/
def Legible (write : α → Text) (read : α → β) : Prop :=
  ∀ {a b : α} {rest rest' : Text}, write a ++ rest = write b ++ rest' → read a = read b ∧ rest = rest'

variable {write : α → Text} {read : α → β}

/-- Items in a row are read back up to a character that none of them begins with. -/
theorem Legible.row {stop : Char} {rest rest' : Text} (h : Legible write read)
    (hstop : ∀ a, ∃ c t, write a = c :: t ∧ c ≠ stop) : ∀ {items items' : List α},
    items.flatMap write ++ stop :: rest = items'.flatMap write ++ stop :: rest' →
      items.map read = items'.map read ∧ rest = rest'
  | [], [], heq => ⟨rfl, (List.cons.inj heq).2⟩
  | [], b :: _, heq => by
    obtain ⟨c, t, ht, hne⟩ := hstop b
    rw [List.flatMap_cons, ht] at heq
    exact absurd (List.cons.inj heq).1.symm hne
  | a :: _, [], heq => by
    obtain ⟨c, t, ht, hne⟩ := hstop a
    rw [List.flatMap_cons, ht] at heq
    exact absurd (List.cons.inj heq).1 hne
  | a :: items, b :: items', heq => by
    rw [List.flatMap_cons, List.flatMap_cons, List.append_assoc, List.append_assoc] at heq
    obtain ⟨hitem, heq⟩ := h heq
    obtain ⟨hitems, hrest⟩ := h.row hstop heq
    exact ⟨by rw [List.map_cons, List.map_cons, hitem, hitems], hrest⟩

end

namespace Dot

theorem legible_escaped : Legible (fun c : Char => if c = '\\' ∨ c = '"' then ['\\', c] else [c]) id := by
  intro c c' rest rest' h
  dsimp only at h
  split at h <;> split at h
  · exact List.cons.inj (List.cons.inj h).2
  · rename_i _ hc'
    exact absurd (.inl (List.cons.inj h).1.symm) hc'
  · rename_i hc _
    exact absurd (.inl (List.cons.inj h).1) hc
  · exact List.cons.inj h

theorem legible_quoted : Legible quoted id := by
  intro t t' rest rest' h
  unfold quoted escape at h
  rw [List.append_assoc, List.append_assoc] at h
  -- the first quote that nothing escapes is the closing one
  have hstop (c : Char) : ∃ d s, (if c = '\\' ∨ c = '"' then ['\\', c] else [c]) = d :: s ∧ d ≠ '"' := by
    split
    · exact ⟨'\\', [c], rfl, by decide⟩
    · rename_i hc
      exact ⟨c, [], rfl, fun hquote => hc (.inr hquote)⟩
  have hrow := legible_escaped.row hstop (List.cons.inj h).2
  rwa [List.map_id, List.map_id] at hrow

theorem legible_fill : Legible fill id := by
  intro kind kind' rest rest' h
  have hentry : fill .entry = ['g', 'o', 'l', 'd'] := rfl
  have hsource : fill .source = ['l', 'i', 'g', 'h', 't', 'b', 'l', 'u', 'e'] := rfl
  have hnative : fill .native = ['l', 'i', 'g', 'h', 't', 'g', 'r', 'e', 'y'] := rfl
  cases kind <;> cases kind'
  case entry.entry => exact ⟨rfl, List.append_cancel_left h⟩
  case source.source => exact ⟨rfl, List.append_cancel_left h⟩
  case native.native => exact ⟨rfl, List.append_cancel_left h⟩
  all_goals simp [hentry, hsource, hnative] at h

theorem legible_nodeLine : Legible nodeLine GraphNode.shown := by
  intro a b rest rest' h
  unfold nodeLine at h
  simp only [List.append_assoc] at h
  obtain ⟨hpath, h⟩ := legible_quoted (List.append_cancel_left h)
  obtain ⟨hname, h⟩ := legible_quoted (List.append_cancel_left h)
  obtain ⟨hkind, h⟩ := legible_fill (List.append_cancel_left h)
  exact ⟨Prod.ext hpath (Prod.ext hname hkind), List.append_cancel_left h⟩

theorem decimal_append_space {m n : Nat} {rest rest' : Text}
    (h : Decimal.write m ++ ' ' :: rest = Decimal.write n ++ ' ' :: rest') : m = n ∧ rest = rest' := by
  have hdigits (n : Nat) : ' ' ∉ Decimal.write n := fun hspace =>
    absurd (Nat.isDigit_of_mem_toDigits (by decide) (by decide) hspace) (by decide)
  obtain ⟨hwritten, hrest⟩ := Pieces.append_sep_inj (hdigits m) (hdigits n) h
  have hvalue (n : Nat) : Nat.ofDigitChars 10 (Decimal.write n) 0 = n :=
    Nat.ofDigitChars_toDigits (by decide) (by decide)
  rw [← hvalue m, hwritten, hvalue n]
  exact ⟨rfl, hrest⟩

theorem legible_edgeEnd : Legible (fun imports => edgeLabel imports ++ ";\n".toList) (max · 1) := by
  intro m n rest rest' h
  -- no import and one are written alike
  have hlabel {imports : Nat} (rest : Text) (hmany : imports > 1) : edgeLabel imports ++ ";\n".toList ++ rest =
      " [label=\"".toList ++ (Decimal.write imports ++ ' ' :: ("imports\"];\n".toList ++ rest)) := by
    unfold edgeLabel
    rw [if_pos hmany]
    simp only [List.append_assoc]
    rfl
  have hnone {imports : Nat} (rest : Text) (hfew : ¬ imports > 1) :
      edgeLabel imports ++ ";\n".toList ++ rest = ";\n".toList ++ rest := by
    unfold edgeLabel
    rw [if_neg hfew]
    rfl
  dsimp only at h ⊢
  by_cases hm : m > 1
  · rw [hlabel rest hm] at h
    by_cases hn : n > 1
    · rw [hlabel rest' hn] at h
      obtain ⟨hmn, h⟩ := decimal_append_space (List.append_cancel_left h)
      exact ⟨by rw [hmn], List.append_cancel_left h⟩
    · rw [hnone rest' hn] at h
      have hhead : some ' ' = some ';' := congrArg List.head? h
      cases hhead
  · rw [hnone rest hm] at h
    by_cases hn : n > 1
    · rw [hlabel rest' hn] at h
      have hhead : some ';' = some ' ' := congrArg List.head? h
      cases hhead
    · rw [hnone rest' hn] at h
      exact ⟨by omega, List.append_cancel_left h⟩

theorem legible_edgeLine :
    Legible edgeLine fun edge => (edge.source.display, edge.target.display, max edge.imports 1) := by
  intro a b rest rest' h
  unfold edgeLine at h
  simp only [List.append_assoc] at h
  obtain ⟨hsource, h⟩ := legible_quoted (List.append_cancel_left h)
  obtain ⟨htarget, h⟩ := legible_quoted (List.append_cancel_left h)
  rw [← List.append_assoc, ← List.append_assoc] at h
  obtain ⟨himports, h⟩ := legible_edgeEnd h
  exact ⟨Prod.ext hsource (Prod.ext htarget himports), h⟩

end Dot

namespace Graph

theorem dot_legible {g g' : Graph} (h : g.dot = g'.dot) :
    g.nodes.toList.map GraphNode.shown = g'.nodes.toList.map GraphNode.shown ∧
      (g.edges.toList.map fun edge => (edge.source.display, edge.target.display, max edge.imports 1)) =
        g'.edges.toList.map fun edge => (edge.source.display, edge.target.display, max edge.imports 1) := by
  unfold dot at h
  simp only [List.append_assoc] at h
  have hnodes : ∀ node : GraphNode, ∃ c t, Dot.nodeLine node = c :: t ∧ c ≠ '\n' :=
    fun node => ⟨' ', _, rfl, by decide⟩
  have hedges : ∀ edge : GraphEdge, ∃ c t, Dot.edgeLine edge = c :: t ∧ c ≠ '\x7d' :=
    fun edge => ⟨' ', _, rfl, by decide⟩
  obtain ⟨hnodes, h⟩ := Dot.legible_nodeLine.row hnodes (List.append_cancel_left h)
  exact ⟨hnodes, (Dot.legible_edgeLine.row hedges h).1⟩

theorem bytes_of_writeDot {g : Graph} {limit : Option Nat} {bytes : Bytes} (h : g.writeDot limit = ⟨bytes, none⟩) :
    bytes = Utf8.encode g.dot := by
  unfold writeDot Written.ofText at h
  dsimp only at h
  split at h
  · exact (congrArg Written.received h).symm
  · split at h
    · exact (congrArg Written.received h).symm
    · cases h

/-! ## Graphs that are built -/

inductive Built (legend : Legend) : Graph → Prop
  | empty : Built legend {}
  | node {g : Graph} (p : Path) : Built legend g → Built legend (g.withNode legend p).1
  | edge {g : Graph} (importer imported : Path) : Built legend g → Built legend (g.addImport legend importer imported)

variable {g g' : Graph} {legend legend' : Legend}

theorem Built.summarizes (h : g.Built legend) : ∃ mentioned imports, Summarizes g legend mentioned imports := by
  induction h with
  | empty => exact ⟨[], [], summarizes_empty legend⟩
  | node p _ ih =>
    obtain ⟨_, _, hsum⟩ := ih
    exact ⟨_, _, hsum.withNode p⟩
  | edge importer imported _ ih =>
    obtain ⟨_, _, hsum⟩ := ih
    exact ⟨_, _, hsum.addImport importer imported⟩

theorem Built.addNodes : ∀ (ps : List Path) {g : Graph}, g.Built legend → (g.addNodes legend ps).Built legend
  | [], _, h => h
  | p :: ps, _, h => Built.addNodes ps (h.node p)

theorem Built.addImports : ∀ (imports : List (Path × Path)) {g : Graph}, g.Built legend →
    (g.addImports legend imports).Built legend
  | [], _, h => h
  | (importer, imported) :: imports, _, h => Built.addImports imports (h.edge importer imported)

theorem built_ofReport (report : Report) (layout : Layout) :
    (ofReport report layout).Built ⟨report.entry, report.base, layout⟩ :=
  (Built.empty.addNodes _).addImports _

/-- An edge of a built graph joins two nodes and stands for an import. -/
theorem Built.edge_spec (h : g.Built legend) {edge : GraphEdge} (he : edge ∈ g.edges.toList) :
    edge.source ∈ g.paths ∧ edge.target ∈ g.paths ∧ 1 ≤ edge.imports := by
  obtain ⟨_, imports, hsum⟩ := h.summarizes
  rw [hsum.edges] at he
  obtain ⟨hpair, hcount⟩ := imports_of_mem_tally he
  obtain ⟨e, hmem, hspelled⟩ := List.mem_map.mp hpair
  obtain ⟨hsource, htarget⟩ := hsum.joined e hmem
  obtain ⟨hfrom, hto⟩ : g.spelled e.1 = edge.source ∧ g.spelled e.2 = edge.target := Prod.mk.inj hspelled
  refine ⟨hfrom ▸ spelled_mem hsource, hto ▸ spelled_mem htarget, ?_⟩
  rw [hcount, List.count]
  exact List.countP_pos_iff.mpr ⟨_, hpair, BEq.rfl⟩

theorem Built.map_shown (h : g.Built legend) :
    (g.edges.toList.map fun edge => (edge.source.display, edge.target.display, max edge.imports 1)) =
      g.edges.toList.map GraphEdge.shown :=
  List.map_congr_left fun edge he => by rw [Nat.max_eq_left (h.edge_spec he).2.2, GraphEdge.shown]

/-! ## Ends of edges -/

def displays (g : Graph) : List Text :=
  g.paths.map Path.display

def ends (g : Graph) (edge : GraphEdge) : Nat × Nat :=
  (g.paths.idxOf edge.source, g.paths.idxOf edge.target)

theorem map_fst_shown (g : Graph) : (g.nodes.toList.map GraphNode.shown).map Prod.fst = g.displays := by
  unfold displays paths
  rw [List.map_map, List.map_map]
  rfl

/-- Where displayed paths tell nodes apart, a node is found by the path that is displayed. -/
theorem idxOf_display : ∀ {ps : List Path} {p : Path}, (ps.Pairwise fun p q => (p == q) = false) →
    (ps.map Path.display).Nodup → p ∈ ps → ps.idxOf p = (ps.map Path.display).idxOf p.display
  | q :: ps, p, hps, hnodup, hp => by
    obtain ⟨hq, hps⟩ := List.pairwise_cons.mp hps
    obtain ⟨hdisplay, hnodup⟩ := List.nodup_cons.mp hnodup
    rw [List.map_cons, List.idxOf_cons, List.idxOf_cons]
    rcases List.mem_cons.mp hp with rfl | hp
    · rw [BEq.rfl, BEq.rfl]
      rfl
    · have hne : (q.display == p.display) = false := by
        rw [beq_eq_false_iff_ne]
        exact fun he => hdisplay (he ▸ List.mem_map_of_mem hp)
      rw [hq p hp, hne, idxOf_display hps hnodup hp]

theorem Built.map_ends (h : g.Built legend) (hdistinct : g.displays.Nodup) : g.edges.toList.map g.ends =
    (g.edges.toList.map GraphEdge.shown).map fun edge => (g.displays.idxOf edge.1, g.displays.idxOf edge.2.1) := by
  obtain ⟨_, _, hsum⟩ := h.summarizes
  have hps : g.paths.Pairwise fun p q => (p == q) = false := hsum.paths ▸ pairwise_eraseDups _
  rw [List.map_map]
  refine List.map_congr_left fun edge he => ?_
  obtain ⟨hsource, htarget, -⟩ := h.edge_spec he
  exact Prod.ext (idxOf_display hps hdistinct hsource) (idxOf_display hps hdistinct htarget)

/-- Graphs that are written alike have the same nodes and edges, as they are displayed and in the same order, whatever
characters their paths and names hold. If displayed paths tell nodes apart, their edges join the same nodes. -/
theorem same_of_writeDot {limit limit' : Option Nat} {bytes : Bytes} (hg : g.Built legend) (hg' : g'.Built legend')
    (h : g.writeDot limit = ⟨bytes, none⟩) (h' : g'.writeDot limit' = ⟨bytes, none⟩) :
    g.nodes.toList.map GraphNode.shown = g'.nodes.toList.map GraphNode.shown ∧
      g.edges.toList.map GraphEdge.shown = g'.edges.toList.map GraphEdge.shown ∧
      (g.displays.Nodup → g'.displays.Nodup → g.edges.toList.map g.ends = g'.edges.toList.map g'.ends) := by
  have hdot : g.dot = g'.dot := Utf8.encode_injective ((bytes_of_writeDot h).symm.trans (bytes_of_writeDot h'))
  obtain ⟨hnodes, hedges⟩ := dot_legible hdot
  rw [hg.map_shown, hg'.map_shown] at hedges
  refine ⟨hnodes, hedges, fun hdistinct hdistinct' => ?_⟩
  have hdisplays : g.displays = g'.displays := by rw [← map_fst_shown, hnodes, map_fst_shown]
  rw [hg.map_ends hdistinct, hg'.map_ends hdistinct', hedges, hdisplays]

/-- One file imports another twice. Their names hold quotes, backslashes, a line feed and DOT, and that of the second
ends with the given bytes. -/
def strangeNames (last : Bytes) : Report :=
  let importer := Path.ofString "a\" [label=\"b\\"
  let imported : Path := ⟨Utf8.encode "\n\x7d\\".toList ++ last⟩
  ⟨importer, ⟨[]⟩, [imported], [(importer, imported), (importer, imported)], [], []⟩

theorem same_of_writeDot_strangeNames :
    let report := strangeNames [0xFF]
    let report' := strangeNames (Utf8.encode ['\uFFFD'])
    let g := ofReport report {}
    let g' := ofReport report' {}
    let bytes := Utf8.encode g.dot
    g.Built ⟨report.entry, report.base, {}⟩ ∧ g'.Built ⟨report'.entry, report'.base, {}⟩ ∧
      g.writeDot none = ⟨bytes, none⟩ ∧ g'.writeDot (some 1000) = ⟨bytes, none⟩ ∧ g.displays.Nodup ∧
      g'.displays.Nodup ∧ g.nodes.toList.map GraphNode.shown = g'.nodes.toList.map GraphNode.shown ∧
      g.edges.toList.map GraphEdge.shown = g'.edges.toList.map GraphEdge.shown ∧
      g.edges.toList.map g.ends = g'.edges.toList.map g'.ends := by
  intro report report' g g' bytes
  have hg : g.Built ⟨report.entry, report.base, {}⟩ := built_ofReport report {}
  have hg' : g'.Built ⟨report'.entry, report'.base, {}⟩ := built_ofReport report' {}
  have hdot : g'.dot = g.dot := by decide +kernel
  have hfits : (Utf8.encode g.dot).length ≤ 1000 := by decide +kernel
  have hwritten : g.writeDot none = ⟨bytes, none⟩ := rfl
  have hwritten' : g'.writeDot (some 1000) = ⟨bytes, none⟩ := by
    unfold writeDot Written.ofText
    rw [hdot]
    exact if_pos hfits
  have hdistinct : g.displays.Nodup := by decide +kernel
  have hdistinct' : g'.displays.Nodup := by decide +kernel
  obtain ⟨hnodes, hedges, hends⟩ := same_of_writeDot hg hg' hwritten hwritten'
  exact ⟨hg, hg', hwritten, hwritten', hdistinct, hdistinct', hnodes, hedges, hends hdistinct hdistinct'⟩

end Graph

end ElmImports
