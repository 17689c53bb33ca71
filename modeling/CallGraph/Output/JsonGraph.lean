import CallGraph.Output.Numbering
import CallGraph.Value.Writer

/-!
# Charts as JSON texts

A chart is written as one object: the nodes by identifier, each with its identifier, label and name,
and the edges as pairs of identifiers, in order. A node that is listed twice appears once.
-/

namespace CallGraph

namespace JsonGraph

/-- The entry of a node. -/
def node (graph : Graph) (numbering : Numbering) (id : NodeId) : Except Fault (String × Value) := do
  let name ← graph.name id
  return (numbering.nodeId id,
    .table [("uid", .text (numbering.nodeId id)), ("label", .text (graph.label id)),
      ("name", .text name)])

/-- The object of an edge. -/
def edge (numbering : Numbering) (edge : Edge) : Value :=
  .table [("source", .text (numbering.nodeId edge.source)),
    ("target", .text (numbering.nodeId edge.target)), ("directed", .flag true)]

/-- Puts an entry at the end, or in the place of an entry with the same key. -/
def put (key : String) (value : Value) : List (String × Value) → List (String × Value)
  | [] => [(key, value)]
  | entry :: rest =>
      if entry.1 = key then (key, value) :: rest else entry :: put key value rest

/-- The entries of nodes, each identifier once. -/
def nodes (graph : Graph) (numbering : Numbering) (entries : List (String × Value)) :
    List NodeId → Except Fault (List (String × Value))
  | [] => .ok entries
  | id :: rest => do
      let entry ← node graph numbering id
      nodes graph numbering (put entry.1 entry.2 entries) rest

/-- A chart as a JSON value. -/
def ofChart (numbering : Numbering) (chart : Chart) : Except Fault Value := do
  let entries ← nodes chart.graph numbering [] chart.nodes
  return .table [("graph", .table [("directed", .flag true), ("nodes", .table entries),
    ("edges", .list (chart.edges.map (edge numbering)))])]

/-- The text of a chart. -/
def render (numbering : Numbering) (chart : Chart) : Except Fault String := do
  return (← ofChart numbering chart).json

end JsonGraph

end CallGraph
