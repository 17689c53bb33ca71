import CallGraph.Analysis.Trim

/-!
# The order of a chart

Before a chart is written, its files are sorted by label, its nodes by name, and its edges by the
names of their sources and, for edges from one node, by the names of their targets. Entries that
this does not tell apart keep their order.
-/

namespace CallGraph

namespace Graph

/-- Pairs nodes with their names. -/
def named (graph : Graph) : List NodeId → Except Fault (List (NodeId × String))
  | [] => .ok []
  | node :: rest => do
      let name ← graph.name node
      let others ← named graph rest
      return (node, name) :: others

/-- Sorts nodes by name; a single node needs no name. -/
def sortNodes (graph : Graph) (nodes : List NodeId) : Except Fault (List NodeId) :=
  if nodes.length < 2 then .ok nodes
  else do
    let named ← graph.named nodes
    return (sortBy (fun a b => decide (a.2 ≤ b.2)) named).map (·.1)

/-- Whether a node comes before another by name. -/
def nodeBefore (graph : Graph) (a b : NodeId) : Except Fault Bool := do
  let first ← graph.name a
  let second ← graph.name b
  return decide (first < second)

/-- Whether an edge comes before another: by the target if they start at one node, else by the
source. -/
def edgeBefore (graph : Graph) (a b : Edge) : Except Fault Bool :=
  if a.source = b.source then graph.nodeBefore a.target b.target
  else graph.nodeBefore a.source b.source

/-- Sorts groups by label. -/
def sortGroups (graph : Graph) (groups : List GroupId) : List GroupId :=
  sortBy (fun a b => decide (graph.groupLabel a ≤ graph.groupLabel b)) groups

/-- An edge with the names of its ends. -/
structure NamedEdge where
  edge : Edge
  source : String
  target : String

/-- Pairs edges with the names of their ends. -/
def namedEdges (graph : Graph) : List Edge → Except Fault (List NamedEdge)
  | [] => .ok []
  | edge :: rest => do
      let source ← graph.name edge.source
      let target ← graph.name edge.target
      let others ← namedEdges graph rest
      return ⟨edge, source, target⟩ :: others

/-- The order of edges on the names of their ends. -/
def NamedEdge.before (a b : NamedEdge) : Bool :=
  if a.edge.source = b.edge.source then decide (a.target < b.target)
  else decide (a.source < b.source)

/-- Sorts edges by the names of their ends. -/
def sortEdges (graph : Graph) (edges : List Edge) : Except Fault (List Edge) :=
  if edges.length < 2 then .ok edges
  else do
    let named ← graph.namedEdges edges
    return (sortBy (fun a b => !NamedEdge.before b a) named).map (·.edge)

end Graph

namespace Chart

/-- The chart in the order in which it is written. -/
def sorted (chart : Chart) : Except Fault Chart := do
  let nodes ← chart.graph.sortNodes chart.nodes
  let edges ← chart.graph.sortEdges chart.edges
  return { chart with
    files := chart.graph.sortGroups chart.files
    nodes := nodes
    edges := edges }

end Chart

end CallGraph
