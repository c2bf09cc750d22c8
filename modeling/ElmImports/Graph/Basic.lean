import ElmImports.Walk.Report

/-!
# Import graphs

A graph has one node for every path and one edge for every pair of paths, in the order in which they were
first met; an edge counts the imports it stands for. A node is named by the path below the base directory,
with dots for slashes and without its extension, or by the file name alone if it lies elsewhere.
-/

namespace ElmImports

inductive NodeKind
  | entry
  | source
  | native
  deriving DecidableEq

structure GraphNode where
  kind : NodeKind
  path : Path
  name : Text

/-- An edge joins nodes by their paths as the nodes spell them. -/
structure GraphEdge where
  source : Path
  target : Path
  imports : Nat

structure Graph where
  nodes : Array GraphNode := #[]
  edges : Array GraphEdge := #[]

structure Legend where
  entry : Path
  base : Path
  layout : Layout

namespace Legend

def kind (legend : Legend) (p : Path) : NodeKind :=
  if p == legend.entry then .entry else if legend.layout.isSourceFile p then .source else .native

def shown (legend : Legend) (p : Path) : Path :=
  match Path.below? legend.base p with
  | some rest => rest
  | none => (p.fileName?.map Path.mk).getD p

def name (legend : Legend) (p : Path) : Text :=
  ['.'].intercalate ((legend.shown p).withoutExtension.components.map fun c => Utf8.decodeLossy c.spelling)

def node (legend : Legend) (p : Path) : GraphNode :=
  ⟨legend.kind p, p, legend.name p⟩

end Legend

namespace Graph

def node? (g : Graph) (p : Path) : Option GraphNode :=
  g.nodes.find? (·.path == p)

/-- The graph with a node for `p`, and the path that the node spells. -/
def withNode (g : Graph) (legend : Legend) (p : Path) : Graph × Path :=
  match g.node? p with
  | some node => (g, node.path)
  | none => ({ g with nodes := g.nodes.push (legend.node p) }, p)

def countImport (g : Graph) (source target : Path) : Graph :=
  match g.edges.findIdx? fun e => e.source == source && e.target == target with
  | some i => { g with edges := g.edges.modify i fun e => { e with imports := e.imports + 1 } }
  | none => { g with edges := g.edges.push ⟨source, target, 1⟩ }

def addImport (g : Graph) (legend : Legend) (importer imported : Path) : Graph :=
  let (g, source) := g.withNode legend importer
  let (g, target) := g.withNode legend imported
  g.countImport source target

def addNodes (g : Graph) (legend : Legend) (ps : List Path) : Graph :=
  ps.foldl (fun g p => (g.withNode legend p).1) g

def addImports (g : Graph) (legend : Legend) (imports : List (Path × Path)) : Graph :=
  imports.foldl (fun g (importer, imported) => g.addImport legend importer imported) g

def ofReport (report : Report) (layout : Layout) : Graph :=
  let legend : Legend := ⟨report.entry, report.base, layout⟩
  (({} : Graph).addNodes legend (report.entry :: report.dependencies)).addImports legend report.edges

end Graph

end ElmImports
