import CallGraph.Analysis.Trim

/-!
# Numbering

The text of a chart calls nodes and groups by number: `node_` or `cluster_` and eight hexadecimal
digits. The numbers of a chart that is written to a file follow the order in which its nodes and
groups appear; a numbering by order of creation serves for parts of a graph.
-/

namespace CallGraph

/-- Numbers for nodes and groups. -/
structure Numbering where
  node : NodeId → Nat
  group : GroupId → Nat

namespace Numbering

/-- Numbers by order of creation. -/
def byCreation (graph : Graph) : Numbering :=
  { node := fun id => (graph.node id).serial
    group := fun id => (graph.group id).serial }

/-- Numbers by order of appearance: the nodes shown, then the ends of the edges, then the nodes of
the groups; groups each in front of what they contain. -/
def byAppearance (chart : Chart) : Numbering :=
  let groups := chart.graph.groupsOf chart.files
  let nodes := distinct (chart.nodes ++ chart.edges.flatMap (fun edge => [edge.source, edge.target])
    ++ groups.flatMap fun group => (chart.graph.group group).nodes)
  { node := fun id => nodes.idxOf id
    group := fun id => groups.idxOf id }

/-- The identifier of a node. -/
def nodeId (numbering : Numbering) (id : NodeId) : String :=
  "node_" ++ Text.hex 8 (numbering.node id)

/-- The identifier of a group. -/
def groupId (numbering : Numbering) (id : GroupId) : String :=
  "cluster_" ++ Text.hex 8 (numbering.group id)

end Numbering

end CallGraph
