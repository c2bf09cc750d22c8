import ElmImports.Graph.Basic
import ElmImports.Output.Sink
import ElmImports.Text.Decimal

/-!
# Graphs in the DOT language

Nodes come first, then edges, a line each. Paths and names stand between quotes, in which backslashes and
quotes are escaped.
-/

namespace ElmImports

namespace Dot

def escape (t : Text) : Text :=
  t.flatMap fun c => if c = '\\' ∨ c = '"' then ['\\', c] else [c]

def quoted (t : Text) : Text :=
  '"' :: escape t ++ ['"']

def fill : NodeKind → Text
  | .entry => "gold".toList
  | .source => "lightblue".toList
  | .native => "lightgrey".toList

def nodeLine (node : GraphNode) : Text :=
  "    ".toList ++ quoted node.path.display ++ " [label=".toList ++ quoted node.name ++ ", fillcolor=".toList ++
    fill node.kind ++ "];\n".toList

def edgeLabel (imports : Nat) : Text :=
  if imports > 1 then " [label=\"".toList ++ Decimal.write imports ++ " imports\"]".toList else []

def edgeLine (edge : GraphEdge) : Text :=
  "    ".toList ++ quoted edge.source.display ++ " -> ".toList ++ quoted edge.target.display ++
    edgeLabel edge.imports ++ ";\n".toList

def opening : Text :=
  "digraph dependencies \x7b\n    rankdir=LR;\n    node [shape=box, style=filled];\n\n".toList

end Dot

namespace Graph

def dot (g : Graph) : Text :=
  Dot.opening ++ g.nodes.toList.flatMap Dot.nodeLine ++ ['\n'] ++ g.edges.toList.flatMap Dot.edgeLine ++
    "\x7d\n".toList

def writeDot (limit : Option Nat) (g : Graph) : Written :=
  .ofText limit .full g.dot

end Graph

end ElmImports
