import CallGraph.Graph.Visible

/-!
# Inheritance

A class inherits the nodes of every group whose name ends in the name of one of its bases. Groups
are told apart by their full tokens, which spell the file and the classes around them; groups with
one full token count as one. Inherited nodes are remembered with the class, and each method of the
class also binds their tokens.
-/

namespace CallGraph

namespace Graph

/-- The file and the classes around a group, and the group itself, as one dotted name. -/
def fullToken (graph : Graph) (group : GroupId) : String :=
  let chain := graph.chain group
  let inner := chain.takeWhile fun above => decide ((graph.group above).kind ≠ .file)
  Dotted.join ((chain.take (inner.length + 1)).reverse.map fun above => (graph.group above).token)

/-- Adds nodes under a key: behind those already there, or under a new key at the end. -/
def addUnder (key : String) (nodes : List NodeId) :
    List (String × List NodeId) → List (String × List NodeId)
  | [] => [(key, nodes)]
  | entry :: rest =>
      if entry.1 = key then (key, entry.2 ++ nodes) :: rest
      else entry :: addUnder key nodes rest

/-- The nodes of groups by full token, in the order in which the tokens come up. -/
def nodesByToken (graph : Graph) (groups : List GroupId) : List (String × List NodeId) :=
  groups.foldl (fun table group =>
    addUnder (graph.fullToken group) (graph.group group).nodes table) []

/-- The entries of a list that come up again, as often as they do; `seen` stood in front. -/
def repeatedAfter (seen : List String) : List String → List String
  | [] => []
  | token :: rest =>
      if seen.contains token then token :: repeatedAfter seen rest
      else repeatedAfter (token :: seen) rest

/-- The full tokens that come up again, as often as they do. -/
def repeatedTokens (graph : Graph) (groups : List GroupId) : List String :=
  repeatedAfter [] (groups.map graph.fullToken)

/-- The node lists under the keys that end in one of the bases, base by base. -/
def inheritedLists (table : List (String × List NodeId)) (bases : List String) :
    List (List NodeId) :=
  bases.flatMap fun base =>
    (table.filter fun entry => decide (Dotted.last entry.1 = base)).map (·.2)

/-- Lets a group inherit node lists: it remembers them, and its nodes bind their tokens. -/
def inheritLists (graph : Graph) (group : GroupId) (lists : List (List NodeId)) : Graph :=
  let bindings := lists.flatten.map graph.nodeBinding
  let noted := graph.modifyGroup group fun entry => { entry with inherited := lists }
  (graph.group group).nodes.foldl (fun graph node =>
    graph.modifyNode node fun entry =>
      { entry with bindings := entry.bindings.map (· ++ bindings) }) noted

/-- Lets every group of the files inherit from its bases. -/
def inherit (graph : Graph) (files : List GroupId) : Graph :=
  let groups := graph.groupsOf files
  let table := graph.nodesByToken groups
  groups.foldl (fun graph group =>
    graph.inheritLists group (inheritedLists table (graph.group group).bases)) graph

end Graph

end CallGraph
