import CallGraph.Analysis.Trim

/-!
# Subsets

A subset of a chart is centred on one node: it keeps the nodes that can be reached from it within a
number of calls, and those from which it can be reached within a number of calls.

## Main definitions

* `Subset.reached` — the nodes reached in at most so many steps.
* `Chart.restrict` — a chart cut down to a subset.
-/

namespace CallGraph

/-- The choice of a subset. -/
structure Subset where
  target : String
  /-- How many calls to go back from the target. -/
  upward : Nat
  /-- How many calls to follow from the target. -/
  downward : Nat
  deriving DecidableEq, Repr, Inhabited

namespace Subset

/-- The choice that options make, if they make one. -/
def ofOptions? (target : Option String) (upward downward : Int) :
    Except Fault (Option Subset) :=
  match target.filter (· ≠ "") with
  | none =>
      if upward ≠ 0 then .error (.subset .upwardWithoutTarget)
      else if downward ≠ 0 then .error (.subset .downwardWithoutTarget)
      else .ok none
  | some target =>
      if upward = 0 && downward = 0 then .error (.subset .targetWithoutDepth)
      else if upward < 0 then .error (.subset .negativeUpward)
      else if downward < 0 then .error (.subset .negativeDownward)
      else .ok (some ⟨target, upward.toNat, downward.toNat⟩)

/-- Whether a name denotes a node: it is its token, its owned token or its name. -/
def denotes (graph : Graph) (target : String) (node : NodeId) : Except Fault Bool :=
  if (graph.node node).token = target || graph.ownedToken node = target then .ok true
  else do return decide ((← graph.name node) = target)

/-- The nodes that a name denotes. -/
def denoted (graph : Graph) (target : String) : List NodeId → Except Fault (List NodeId)
  | [] => .ok []
  | node :: rest => do
      let here ← denotes graph target node
      let others ← denoted graph target rest
      return if here then node :: others else others

/-- The one node that a name denotes. -/
def targetNode (graph : Graph) (nodes : List NodeId) (target : String) : Except Fault NodeId := do
  match ← denoted graph target nodes with
  | [] => .error (.targetNotFound target)
  | [node] => return node
  | several => .error (.targetAmbiguous target (several.map graph.shownNode))

/-- The nodes one step away from some nodes. -/
def next (step : NodeId → List NodeId) (nodes : List NodeId) : List NodeId :=
  distinct (nodes.flatMap step)

/-- The nodes reached from some nodes in one step, in two steps, and so on. -/
def reached (step : NodeId → List NodeId) : Nat → List NodeId → List NodeId
  | 0, _ => []
  | depth + 1, nodes =>
      match next step nodes with
      | [] => []
      | found => found ++ reached step depth found

/-- The targets of the edges from a node. -/
def callees (edges : List Edge) (node : NodeId) : List NodeId :=
  (edges.filter fun edge => edge.source == node).map (·.target)

/-- The sources of the edges to a node. -/
def callers (edges : List Edge) (node : NodeId) : List NodeId :=
  (edges.filter fun edge => edge.target == node).map (·.source)

/-- The nodes of the subset centred on a node. -/
def nodesAround (edges : List Edge) (upward downward : Nat) (node : NodeId) : List NodeId :=
  distinct (node :: reached (callees edges) downward [node]
    ++ reached (callers edges) upward [node])

end Subset

namespace Chart

/-- The chart with some nodes only. -/
def keepOnly (chart : Chart) (kept : List NodeId) : Chart :=
  let graph := chart.files.foldl (fun graph file =>
    graph.removeNodes ((graph.allNodes file).filter fun node => !kept.contains node)) chart.graph
  let files := chart.files.filter fun file => !(graph.allNodes file).isEmpty
  { graph := files.foldl dropEmptyGroups graph
    files := files
    nodes := kept
    edges := chart.edges.filter fun edge =>
      kept.contains edge.source && kept.contains edge.target }

/-- The chart cut down to a subset. -/
def restrict (chart : Chart) (subset : Subset) : Except Fault Chart := do
  let target ← Subset.targetNode chart.graph chart.nodes subset.target
  return chart.keepOnly
    (Subset.nodesAround chart.edges subset.upward subset.downward target)

end Chart

end CallGraph
