import CallGraph.Graph.Walk
import CallGraph.Ordering

/-!
# Cutting a graph down

A chart is a graph with its files, the nodes shown and the edges. Libraries can be hidden, nodes
that no edge touches are taken out, and groups that have become empty are dropped.
-/

namespace CallGraph

/-- What is drawn: the graph, its files, the nodes shown and the edges. -/
structure Chart where
  graph : Graph
  files : List GroupId
  nodes : List NodeId
  edges : List Edge
  deriving Inhabited

namespace Chart

/-- The nodes that edges touch, in the order in which they come up. -/
def touched (edges : List Edge) : List NodeId :=
  distinct (edges.flatMap fun edge => [edge.source, edge.target])

/-- Whether a group stands for a library. -/
def isLibraryGroup (group : Group) : Bool :=
  group.display == "Library" || group.display == "Built-in Functions"

/-- Takes the groups that stand for libraries out of the subgroups of a file. -/
def dropLibraryGroups (graph : Graph) (file : GroupId) : Graph :=
  graph.modifyGroup file fun entry =>
    { entry with
      subgroups := entry.subgroups.filter fun group => !isLibraryGroup (graph.group group) }

/-- Hides the library nodes, their edges and their groups. -/
def hideLibraries (chart : Chart) : Chart :=
  let isLibrary (node : NodeId) : Bool := (chart.graph.node node).isLibrary
  let libraries := chart.nodes.filter isLibrary
  if libraries.isEmpty then chart
  else
    { graph := chart.files.foldl dropLibraryGroups (chart.graph.removeNodes libraries)
      files := chart.files
      nodes := chart.nodes.filter fun node => !isLibrary node
      edges := chart.edges.filter fun edge =>
        !libraries.contains edge.source && !libraries.contains edge.target }

/-- Takes a group out of its parent if no node is left in it or below it. -/
def dropIfEmpty (graph : Graph) (group : GroupId) : Graph :=
  if (graph.allNodes group).isEmpty then graph.removeGroup group else graph

/-- Takes the groups of a file that have no nodes left out of their parents. -/
def dropEmptyGroups (graph : Graph) (file : GroupId) : Graph :=
  (graph.allGroups file).foldl dropIfEmpty graph

/-- Takes out what no edge touches; the nodes shown are those that edges touch. -/
def trim (chart : Chart) : Chart :=
  let touched := touched chart.edges
  let graph := chart.graph.removeNodes (chart.nodes.filter fun node => !touched.contains node)
  let graph := chart.files.foldl dropEmptyGroups graph
  { graph := graph
    files := chart.files.filter fun file => !(graph.allNodes file).isEmpty
    nodes := touched
    edges := chart.edges }

end Chart

end CallGraph
