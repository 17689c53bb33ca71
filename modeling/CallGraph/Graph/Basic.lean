import CallGraph.Call
import CallGraph.Outline
import CallGraph.Value

/-!
# The graph of groups and nodes

Functions are the nodes of the graph. Files, classes and libraries are groups: a group lists its
nodes and its subgroups, in order. Nodes and groups refer to each other in both directions, so the
graph keeps them in two tables, and everything refers to them by their place in the table.

A node that the analysis removes leaves the list of its group; it stays in the table, since other
parts of the graph may still refer to it.

Every node and group also has a serial number, counted over both tables together in order of
creation.
-/

namespace CallGraph

/-- The place of a node in the table of nodes. -/
structure NodeId where
  index : Nat
  deriving DecidableEq, Repr, Inhabited

/-- The place of a group in the table of groups. -/
structure GroupId where
  index : Nat
  deriving DecidableEq, Repr, Inhabited

/-- What a name is bound to. A text is a name that has not been settled yet, or stays unknown. -/
inductive Target
  | name (name : String)
  | call (call : Call)
  | table (table : Table)
  | node (node : NodeId)
  | group (group : GroupId)
  | value (value : Value)
  deriving Inhabited

/-- A name bound in a node. -/
structure Binding where
  token : String
  target : Target
  line : Option Int := none
  /-- A mark by which whoever made the binding recognises it; the analysis carries it along. -/
  mark : Option Nat := none
  deriving Inhabited

/-- What a node belongs to. -/
inductive Parent
  | group (group : GroupId)
  | node (node : NodeId)
  | nothing
  deriving DecidableEq, Repr, Inhabited

/-- A function, the code of a file outside its functions, an imported module, or a placeholder. -/
structure Node where
  token : String
  parent : Parent
  line : Option Int := none
  calls : List Call := []
  /-- The names bound in the body; nodes that have no body have none. -/
  bindings : Option (List Binding) := none
  /-- The dotted names under which the node can be imported. -/
  importTokens : List String := []
  isConstructor : Bool := false
  isLibrary : Bool := false
  /-- The node stands for calls whose target was not found. -/
  isMissing : Bool := false
  /-- The node is a constructor that the class does not spell out. -/
  isImplicit : Bool := false
  /-- Nothing is called from here. -/
  isLeaf : Bool := true
  /-- Nothing calls this. -/
  isTrunk : Bool := true
  signature : Option Signature := none
  serial : Nat := 0
  deriving Inhabited

/-- The three kinds of groups. -/
inductive GroupKind
  | file
  | classBody
  | package
  deriving DecidableEq, Repr, Inhabited

/-- The name of a kind of groups. -/
def GroupKind.label : GroupKind → String
  | .file => "FILE"
  | .classBody => "CLASS"
  | .package => "NAMESPACE"

/-- The kind of groups with a given name. -/
def GroupKind.ofLabel? (label : String) : Option GroupKind :=
  [GroupKind.file, .classBody, .package].find? fun kind => kind.label == label

/-- A file, a class or a library. -/
structure Group where
  token : String
  kind : GroupKind
  /-- What the group is called in front of its token. -/
  display : String
  line : Option Int := none
  importTokens : List String := []
  parent : Option GroupId := none
  nodes : List NodeId := []
  /-- The node of the code outside all functions. -/
  root : Option NodeId := none
  subgroups : List GroupId := []
  imports : List NodeId := []
  /-- The base classes by name. -/
  bases : List String := []
  /-- The methods of the base classes that were found, a list for each. -/
  inherited : List (List NodeId) := []
  serial : Nat := 0
  deriving Inhabited

/-- A call from one node to another. -/
structure Edge where
  source : NodeId
  target : NodeId
  label : Option Literal := none
  deriving DecidableEq, Repr, Inhabited

/-- The tables of nodes and groups. -/
structure Graph where
  nodes : Array Node := #[]
  groups : Array Group := #[]
  deriving Inhabited

namespace Graph

/-- A graph without nodes and groups. -/
def empty : Graph := {}

/-- The node at a place. -/
def node (graph : Graph) (id : NodeId) : Node :=
  graph.nodes.getD id.index default

/-- The group at a place. -/
def group (graph : Graph) (id : GroupId) : Group :=
  graph.groups.getD id.index default

/-- The number of nodes and groups made so far. -/
def size (graph : Graph) : Nat :=
  graph.nodes.size + graph.groups.size

/-- Adds a node to the table. -/
def addNode (graph : Graph) (node : Node) : Graph × NodeId :=
  ({ graph with nodes := graph.nodes.push { node with serial := graph.size } },
    ⟨graph.nodes.size⟩)

/-- Adds a group to the table. -/
def addGroup (graph : Graph) (group : Group) : Graph × GroupId :=
  ({ graph with groups := graph.groups.push { group with serial := graph.size } },
    ⟨graph.groups.size⟩)

/-- Changes the node at a place. -/
def modifyNode (graph : Graph) (id : NodeId) (change : Node → Node) : Graph :=
  { graph with nodes := graph.nodes.modify id.index change }

/-- Changes the group at a place. -/
def modifyGroup (graph : Graph) (id : GroupId) (change : Group → Group) : Graph :=
  { graph with groups := graph.groups.modify id.index change }

/-- Puts a node at the end of the list of a group. -/
def appendNode (graph : Graph) (group : GroupId) (node : NodeId) : Graph :=
  graph.modifyGroup group fun entry => { entry with nodes := entry.nodes ++ [node] }

/-- Puts a group at the end of the subgroups of another. -/
def appendSubgroup (graph : Graph) (group subgroup : GroupId) : Graph :=
  graph.modifyGroup group fun entry => { entry with subgroups := entry.subgroups ++ [subgroup] }

/-- Adds a node and, if its parent is a group, puts it at the end of that group. -/
def insertNode (graph : Graph) (node : Node) : Graph × NodeId :=
  let added := graph.addNode node
  match node.parent with
  | .group group => (added.1.appendNode group added.2, added.2)
  | _ => added

/-- Adds a group and puts it at the end of the subgroups of its parent. -/
def insertSubgroup (graph : Graph) (parent : GroupId) (group : Group) : Graph × GroupId :=
  let added := graph.addGroup { group with parent := some parent }
  (added.1.appendSubgroup parent added.2, added.2)

/-- Records an edge at its ends: the source calls something, the target is called. -/
def markEdge (graph : Graph) (edge : Edge) : Graph :=
  (graph.modifyNode edge.source fun node => { node with isLeaf := false }).modifyNode edge.target
    fun node => { node with isTrunk := false }

/-! ## What the operations change -/

@[simp] theorem group_addNode (graph : Graph) (node : Node) (id : GroupId) :
    (graph.addNode node).1.group id = graph.group id := rfl

@[simp] theorem node_addGroup (graph : Graph) (group : Group) (id : NodeId) :
    (graph.addGroup group).1.node id = graph.node id := rfl

@[simp] theorem node_addNode_self (graph : Graph) (node : Node) :
    (graph.addNode node).1.node (graph.addNode node).2 = { node with serial := graph.size } := by
  simp [addNode, Graph.node, Array.getD]

theorem node_addNode_of_lt (graph : Graph) (node : Node) {id : NodeId}
    (h : id.index < graph.nodes.size) : (graph.addNode node).1.node id = graph.node id := by
  simp [addNode, Graph.node, Array.getD, h, Nat.lt_succ_of_lt h, Array.getElem_push_lt h]

@[simp] theorem group_addGroup_self (graph : Graph) (group : Group) :
    (graph.addGroup group).1.group (graph.addGroup group).2 =
      { group with serial := graph.size } := by
  simp [addGroup, Graph.group, Array.getD]

theorem group_addGroup_of_lt (graph : Graph) (group : Group) {id : GroupId}
    (h : id.index < graph.groups.size) : (graph.addGroup group).1.group id = graph.group id := by
  simp [addGroup, Graph.group, Array.getD, h, Nat.lt_succ_of_lt h, Array.getElem_push_lt h]

@[simp] theorem node_modifyGroup (graph : Graph) (id : GroupId) (change : Group → Group)
    (other : NodeId) : (graph.modifyGroup id change).node other = graph.node other := rfl

@[simp] theorem group_modifyNode (graph : Graph) (id : NodeId) (change : Node → Node)
    (other : GroupId) : (graph.modifyNode id change).group other = graph.group other := rfl

theorem node_modifyNode_self (graph : Graph) {id : NodeId} (change : Node → Node)
    (h : id.index < graph.nodes.size) :
    (graph.modifyNode id change).node id = change (graph.node id) := by
  simp [modifyNode, Graph.node, Array.getD, h, Array.getElem_modify]

theorem node_modifyNode_ne (graph : Graph) {id other : NodeId} (change : Node → Node)
    (h : other ≠ id) : (graph.modifyNode id change).node other = graph.node other := by
  have hIndex : id.index ≠ other.index := fun heq => h (by cases id; cases other; simp_all)
  simp [modifyNode, Graph.node, Array.getD, Array.getElem_modify, hIndex]

theorem group_modifyGroup_self (graph : Graph) {id : GroupId} (change : Group → Group)
    (h : id.index < graph.groups.size) :
    (graph.modifyGroup id change).group id = change (graph.group id) := by
  simp [modifyGroup, Graph.group, Array.getD, h, Array.getElem_modify]

theorem group_modifyGroup_ne (graph : Graph) {id other : GroupId} (change : Group → Group)
    (h : other ≠ id) : (graph.modifyGroup id change).group other = graph.group other := by
  have hIndex : id.index ≠ other.index := fun heq => h (by cases id; cases other; simp_all)
  simp [modifyGroup, Graph.group, Array.getD, Array.getElem_modify, hIndex]

end Graph

end CallGraph
