import CallGraph.Output.Numbering

/-!
# Charts as DOT texts

A chart is written as a DOT digraph: an optional legend, a line per node, a line per edge and,
unless nodes are to float freely, a cluster per file with the clusters of its subgroups inside,
indented by four blanks a level.

Labels and names stand between double quotes as they are; only in the label of an edge is a double
quote written behind a backslash.
-/

namespace CallGraph

namespace Dot

/-- The colour of nodes that nothing calls. -/
def trunkColor : String := "#966F33"

/-- The colour of nodes that call nothing. -/
def leafColor : String := "#6db33f"

/-- The colour of all other nodes. -/
def nodeColor : String := "#cccccc"

/-- The colours of edges, chosen by the number of the source. -/
def edgeColors : List String :=
  ["#000000", "#E69F00", "#56B4E9", "#009E73", "#F0E442", "#0072B2", "#D55E00", "#CC79A7"]

/-- The legend; nothing stands between it and what follows. -/
def legend : String :=
  "subgraph legend\x7b\n" ++
  "    rank = min;\n" ++
  "    label = \"legend\";\n" ++
  "    Legend [shape=none, margin=0, label = <\n" ++
  "        <table cellspacing=\"0\" cellpadding=\"0\" border=\"1\">" ++
  "<tr><td>Code2flow Legend</td></tr><tr><td>\n" ++
  "        <table cellspacing=\"0\">\n" ++
  "        <tr><td>Regular function</td><td width=\"50px\" bgcolor='" ++ nodeColor ++
  "'></td></tr>\n" ++
  "        <tr><td>Trunk function (nothing calls this)</td><td bgcolor='" ++ trunkColor ++
  "'></td></tr>\n" ++
  "        <tr><td>Leaf function (this calls nothing else)</td><td bgcolor='" ++ leafColor ++
  "'></td></tr>\n" ++
  "        <tr><td>Function call</td><td><font color='black'>&#8594;</font></td></tr>\n" ++
  "        </table></td></tr></table>\n" ++
  "        >];\n" ++
  "\x7d"

/-- The colour of a node. -/
def colorOf (node : Node) : String :=
  if node.isTrunk then trunkColor else if node.isLeaf then leafColor else nodeColor

/-- A node with its attributes. -/
def node (graph : Graph) (numbering : Numbering) (id : NodeId) : Except Fault String := do
  let name ← graph.name id
  return numbering.nodeId id ++ " [label=\"" ++ graph.label id ++ "\" name=\"" ++ name
    ++ "\" shape=\"rect\" style=\"rounded,filled\" fillcolor=\"" ++ colorOf (graph.node id)
    ++ "\" ]"

/-- A label with each double quote behind a backslash. -/
def escapeQuotes (label : Literal) : Literal :=
  label.flatMap fun point => if point = .char '"' then [.char '\\', .char '"'] else [point]

/-- An edge with its attributes. -/
def edge (numbering : Numbering) (edge : Edge) : Literal :=
  let color := edgeColors.getD (numbering.node edge.source % edgeColors.length) ""
  let label : Literal :=
    match edge.label.filter (· ≠ []) with
    | some label => Literal.ofText " label=\"" ++ escapeQuotes label ++ Literal.ofText "\""
    | none => []
  Literal.ofText (numbering.nodeId edge.source ++ " -> " ++ numbering.nodeId edge.target
    ++ " [color=\"" ++ color ++ "\" penwidth=\"2\"") ++ label ++ Literal.ofText "]"

/-- Whether a character is a blank or a line end. -/
def isBlank (c : Char) : Bool :=
  c == ' ' || c == '\n'

/-- A text without blanks and line ends at both ends. -/
def strip (text : String) : String :=
  String.ofList ((text.toList.dropWhile isBlank).reverse.dropWhile isBlank).reverse

/-- A text indented by four blanks, as it stands inside a cluster. -/
def indent (text : String) : String :=
  "    " ++ strip (Text.joinWith "\n" ((Text.splitAtChar '\n' text).map ("    " ++ ·))) ++ "\n"

/-- The cluster of a group, with the clusters of its subgroups to a given depth. -/
def clusterTo (graph : Graph) (numbering : Numbering) : Nat → GroupId → String
  | 0, _ => ""
  | depth + 1, id =>
      let group := graph.group id
      let nodes :=
        if group.nodes.isEmpty then ""
        else "    " ++ Text.joinWith " " (group.nodes.map numbering.nodeId) ++ ";\n"
      "subgraph " ++ numbering.groupId id ++ " \x7b\n" ++ nodes
        ++ "    label=\"" ++ graph.groupLabel id ++ "\";\n"
        ++ "    name=\"" ++ group.token ++ "\";\n"
        ++ "    style=\"filled\";\n"
        ++ "    graph[style=dotted];\n"
        ++ String.join (group.subgroups.map fun subgroup =>
          indent (clusterTo graph numbering depth subgroup))
        ++ "\x7d;\n"

/-- The cluster of a group. -/
def cluster (graph : Graph) (numbering : Numbering) (id : GroupId) : String :=
  clusterTo graph numbering graph.groups.size id

/-- What a text shows besides nodes and edges. -/
structure Style where
  hideLegend : Bool := false
  noGrouping : Bool := false
  deriving DecidableEq, Repr, Inhabited

/-- Lines for nodes, each with a semicolon. -/
def nodeLines (graph : Graph) (numbering : Numbering) : List NodeId → Except Fault String
  | [] => .ok ""
  | id :: rest => do
      let first ← node graph numbering id
      let others ← nodeLines graph numbering rest
      return first ++ ";\n" ++ others

/-- The text of a chart; the labels of its edges may hold surrogates. -/
def render (style : Style) (numbering : Numbering) (chart : Chart) : Except Fault Literal := do
  let nodes ← nodeLines chart.graph numbering chart.nodes
  let edges := chart.edges.flatMap fun link => edge numbering link ++ Literal.ofText ";\n"
  let clusters :=
    if style.noGrouping then "" else String.join (chart.files.map (cluster chart.graph numbering))
  return Literal.ofText ("digraph G \x7b\nconcentrate=true;\nsplines=\""
    ++ (if 500 ≤ chart.edges.length then "polyline" else "ortho")
    ++ "\";\nrankdir=\"LR\";\n"
    ++ (if style.hideLegend then "" else legend)
    ++ nodes) ++ edges ++ Literal.ofText (clusters ++ "\x7d\n")

end Dot

end CallGraph
