import CallGraph.Fault
import CallGraph.Graph.Basic

/-!
# Walking the graph

Groups contain groups, so the nodes of a group are its own and those of everything below it; and a
node is named by what lies above it. Each walk goes along the subgroups or the parents at most as
many times as there are groups (or nodes), which is as deep as they can be nested.

## Main definitions

* `allGroups`, `allNodes` — what a group contains, in order, at every depth.
* `name` — the name of a node, which is what nodes are sorted and found by.
-/

namespace CallGraph

namespace Graph

/-! ## Downwards -/

/-- A group and the groups below it, to a given depth, each in front of what it contains. -/
def groupsBelow (graph : Graph) : Nat → GroupId → List GroupId
  | 0, _ => []
  | depth + 1, group => group :: (graph.group group).subgroups.flatMap (groupsBelow graph depth)

/-- A group and all groups below it, each in front of what it contains. -/
def allGroups (graph : Graph) (group : GroupId) : List GroupId :=
  graph.groupsBelow graph.groups.size group

/-- The nodes of a group and of all groups below it. -/
def allNodes (graph : Graph) (group : GroupId) : List NodeId :=
  (graph.allGroups group).flatMap fun below => (graph.group below).nodes

/-- The imports of a group and of all groups below it. -/
def allImports (graph : Graph) (group : GroupId) : List NodeId :=
  (graph.allGroups group).flatMap fun below => (graph.group below).imports

/-- The groups of some files, at every depth. -/
def groupsOf (graph : Graph) (files : List GroupId) : List GroupId :=
  files.flatMap graph.allGroups

/-- The nodes of some files, at every depth. -/
def nodesOf (graph : Graph) (files : List GroupId) : List NodeId :=
  files.flatMap graph.allNodes

/-- The first constructor of a class. -/
def constructor? (graph : Graph) (group : GroupId) : Option NodeId :=
  if (graph.group group).kind = .classBody then
    (graph.group group).nodes.find? fun node => (graph.node node).isConstructor
  else none

/-! ## Upwards -/

/-- At most `depth` groups upwards from a parent. -/
def upwards (graph : Graph) : Nat → Option GroupId → List GroupId
  | 0, _ => []
  | _, none => []
  | depth + 1, some group => group :: graph.upwards depth (graph.group group).parent

/-- The groups above a group, innermost first. -/
def allParents (graph : Graph) (group : GroupId) : List GroupId :=
  graph.upwards graph.groups.size (graph.group group).parent

/-- A group and the groups above it, innermost first. -/
def chain (graph : Graph) (group : GroupId) : List GroupId :=
  group :: graph.allParents group

/-- The nodes above a node, at most `depth`, and the group above these, if there is one. -/
def nodesUpwards (graph : Graph) : Nat → Parent → List NodeId × Option GroupId
  | _, .group group => ([], some group)
  | _, .nothing => ([], none)
  | 0, .node _ => ([], none)
  | depth + 1, .node node =>
      let above := graph.nodesUpwards depth (graph.node node).parent
      (node :: above.1, above.2)

/-- The group that a node belongs to, directly or through other nodes. -/
def firstGroup? (graph : Graph) (node : NodeId) : Option GroupId :=
  (graph.nodesUpwards graph.nodes.size (graph.node node).parent).2

/-- The topmost group above a node. -/
def topGroup? (graph : Graph) (node : NodeId) : Option GroupId :=
  (graph.firstGroup? node).bind fun group => (graph.chain group).getLast?

/-- The name of the file that a group is in. -/
def fileName? (graph : Graph) (group : GroupId) : Option String :=
  ((graph.chain group).find? fun above => (graph.group above).kind = .file).map
    fun file => (graph.group file).token

/-- The group that is the parent of a node, unless the parent is a node or there is none. -/
def parentGroup? (graph : Graph) (node : NodeId) : Option GroupId :=
  match (graph.node node).parent with
  | .group group => some group
  | _ => none

/-- The token of the parent of a node. -/
def parentToken? (graph : Graph) (node : NodeId) : Option String :=
  match (graph.node node).parent with
  | .group group => some (graph.group group).token
  | .node above => some (graph.node above).token
  | .nothing => none

/-- Whether a node belongs to a class or library rather than to a file. -/
def isMember (graph : Graph) (node : NodeId) : Bool :=
  match graph.parentGroup? node with
  | some group => (graph.group group).kind ≠ .file
  | none => false

/-- The token of a node, behind the name of its class or library if it has one. -/
def ownedToken (graph : Graph) (node : NodeId) : String :=
  match graph.parentGroup? node with
  | some group =>
      if (graph.group group).kind ≠ .file then
        Dotted.join [(graph.group group).token, (graph.node node).token]
      else (graph.node node).token
  | none => (graph.node node).token

/-- The classes around a node, outermost first, as a dotted name. -/
def classPath (graph : Graph) (node : NodeId) : Except Fault String :=
  match (graph.node node).parent with
  | .group group =>
      let classes := (graph.chain group).takeWhile fun above =>
        decide ((graph.group above).kind = .classBody)
      .ok (Dotted.join (classes.reverse.map fun above => (graph.group above).token))
  | .node _ => .error (.nodeLacks "group_type")
  | .nothing => .ok ""

/-- The name of a node: its file and its owned token. -/
def name (graph : Graph) (node : NodeId) : Except Fault String :=
  match graph.firstGroup? node with
  | none => .error (.nothingHas "parent")
  | some group =>
      match graph.fileName? group with
      | none => .error (.nothingHas "filename")
      | some file => .ok (file ++ "::" ++ graph.ownedToken node)

/-! ## Labels -/

/-- What a node is labelled with in the drawing. -/
def label (graph : Graph) (id : NodeId) : String :=
  let node := graph.node id
  let line :=
    match node.line with
    | some line => Text.decimal line ++ ": "
    | none => ""
  if node.isImplicit then line ++ node.token ++ " (implicit constructor)"
  else if node.isMissing then line ++ node.token ++ "() (NotFound)"
  else line ++ node.token ++ "()"

/-- What a group is labelled with in the drawing. -/
def groupLabel (graph : Graph) (id : GroupId) : String :=
  (graph.group id).display ++ ": " ++ (graph.group id).token

/-- A group as messages show it. -/
def shownGroup (graph : Graph) (id : GroupId) : String :=
  "<Group token=" ++ (graph.group id).token ++ " type=" ++ (graph.group id).display ++ ">"

/-- A parent as messages show it, through at most `depth` nodes. -/
def shownParent (graph : Graph) : Nat → Parent → String
  | _, .group group => graph.shownGroup group
  | _, .nothing => "None"
  | 0, .node _ => "None"
  | depth + 1, .node node =>
      "<Node token=" ++ (graph.node node).token ++ " parent="
        ++ graph.shownParent depth (graph.node node).parent ++ ">"

/-- A node as messages show it. -/
def shownNode (graph : Graph) (id : NodeId) : String :=
  graph.shownParent (graph.nodes.size + 1) (.node id)

/-- A target as messages show it. -/
def shownTarget (graph : Graph) : Target → String
  | .name name => Text.quoted name
  | .call call => call.shown
  | .table table => Text.quotedTable table
  | .node node => graph.shownNode node
  | .group group => graph.shownGroup group
  | .value value => value.shown

/-- A binding as messages show it. -/
def shownBinding (graph : Graph) (binding : Binding) : String :=
  "<Variable token=" ++ binding.token ++ " points_to=" ++ graph.shownTarget binding.target

/-- An edge as messages show it. -/
def shownEdge (graph : Graph) (edge : Edge) : String :=
  "<Edge " ++ graph.shownNode edge.source ++ " -> " ++ graph.shownNode edge.target

/-! ## Removing -/

/-- Takes a node out of the list of its group. -/
def removeNode (graph : Graph) (node : NodeId) : Graph :=
  match graph.firstGroup? node with
  | some group =>
      graph.modifyGroup group fun entry =>
        { entry with nodes := entry.nodes.filter (· ≠ node) }
  | none => graph

/-- Takes several nodes out of the lists of their groups. -/
def removeNodes (graph : Graph) (nodes : List NodeId) : Graph :=
  nodes.foldl removeNode graph

/-- Takes a group out of the subgroups of its parent. -/
def removeGroup (graph : Graph) (group : GroupId) : Graph :=
  match (graph.group group).parent with
  | some parent =>
      graph.modifyGroup parent fun entry =>
        { entry with subgroups := entry.subgroups.filter (· ≠ group) }
  | none => graph

end Graph

end CallGraph
