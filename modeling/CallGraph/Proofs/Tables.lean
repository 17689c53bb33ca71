import CallGraph.Graph.Walk

/-!
# Reading the tables after a change

Everything the analysis does to a graph is made of a few operations on its two tables: a node or
group is added at the end, or the entry at a place is changed. Each lemma here says what *every*
place reads afterwards, in one equation, so that later proofs about a larger change split on the
place and never open the tables themselves.

A place behind the end of a table reads the default entry, before and after.

## Main results

* `node_addNode`, `group_addGroup` — the new place reads the new entry, all others what they did.
* `node_modifyNode`, `group_modifyGroup` — the changed place reads the changed entry.
* `node_insertNode`, `group_insertNode` — a node inserted below a group.
-/

namespace CallGraph

namespace Graph

variable (graph : Graph)

theorem nodeId_ext {a b : NodeId} (h : a.index = b.index) : a = b := by
  cases a; cases b; simp_all

theorem groupId_ext {a b : GroupId} (h : a.index = b.index) : a = b := by
  cases a; cases b; simp_all

/-! ## Behind the end -/

theorem node_eq_default {id : NodeId} (h : graph.nodes.size ≤ id.index) :
    graph.node id = default := by
  simp [Graph.node, Array.getD, Nat.not_lt.mpr h]

theorem group_eq_default {id : GroupId} (h : graph.groups.size ≤ id.index) :
    graph.group id = default := by
  simp [Graph.group, Array.getD, Nat.not_lt.mpr h]

/-- A group that lists something is in the table. -/
theorem group_lt_of_nodes {g : GroupId} {n : NodeId} (h : n ∈ (graph.group g).nodes) :
    g.index < graph.groups.size := by
  rcases Nat.lt_or_ge g.index graph.groups.size with hLt | hGe
  · exact hLt
  · rw [graph.group_eq_default hGe] at h
    exact absurd h List.not_mem_nil

/-- A group with a subgroup is in the table. -/
theorem group_lt_of_subgroups {g s : GroupId} (h : s ∈ (graph.group g).subgroups) :
    g.index < graph.groups.size := by
  rcases Nat.lt_or_ge g.index graph.groups.size with hLt | hGe
  · exact hLt
  · rw [graph.group_eq_default hGe] at h
    exact absurd h List.not_mem_nil

/-- A node with a body is in the table. -/
theorem node_lt_of_bindings {n : NodeId} {bindings : List Binding}
    (h : (graph.node n).bindings = some bindings) : n.index < graph.nodes.size := by
  rcases Nat.lt_or_ge n.index graph.nodes.size with hLt | hGe
  · exact hLt
  · rw [graph.node_eq_default hGe] at h
    exact absurd h (by simp [default, instInhabitedNode.default])

/-! ## Adding -/

@[simp] theorem nodes_size_addNode (node : Node) :
    (graph.addNode node).1.nodes.size = graph.nodes.size + 1 := by
  simp [addNode]

@[simp] theorem groups_addNode (node : Node) :
    (graph.addNode node).1.groups = graph.groups := rfl

@[simp] theorem index_addNode (node : Node) :
    (graph.addNode node).2 = ⟨graph.nodes.size⟩ := rfl

@[simp] theorem groups_size_addGroup (group : Group) :
    (graph.addGroup group).1.groups.size = graph.groups.size + 1 := by
  simp [addGroup]

@[simp] theorem nodes_addGroup (group : Group) :
    (graph.addGroup group).1.nodes = graph.nodes := rfl

@[simp] theorem index_addGroup (group : Group) :
    (graph.addGroup group).2 = ⟨graph.groups.size⟩ := rfl

theorem node_addNode (node : Node) (id : NodeId) :
    (graph.addNode node).1.node id =
      if id.index = graph.nodes.size then { node with serial := graph.size }
      else graph.node id := by
  by_cases hNew : id.index = graph.nodes.size
  · rw [if_pos hNew]
    have hId : id = (graph.addNode node).2 := nodeId_ext hNew
    rw [hId]
    exact graph.node_addNode_self node
  · rw [if_neg hNew]
    rcases Nat.lt_or_ge id.index graph.nodes.size with hLt | hGe
    · exact graph.node_addNode_of_lt node hLt
    · have hAfter : (graph.addNode node).1.nodes.size ≤ id.index := by
        rw [nodes_size_addNode]; omega
      rw [node_eq_default _ hAfter, node_eq_default _ hGe]

theorem group_addGroup (group : Group) (id : GroupId) :
    (graph.addGroup group).1.group id =
      if id.index = graph.groups.size then { group with serial := graph.size }
      else graph.group id := by
  by_cases hNew : id.index = graph.groups.size
  · rw [if_pos hNew]
    have hId : id = (graph.addGroup group).2 := groupId_ext hNew
    rw [hId]
    exact graph.group_addGroup_self group
  · rw [if_neg hNew]
    rcases Nat.lt_or_ge id.index graph.groups.size with hLt | hGe
    · exact graph.group_addGroup_of_lt group hLt
    · have hAfter : (graph.addGroup group).1.groups.size ≤ id.index := by
        rw [groups_size_addGroup]; omega
      rw [group_eq_default _ hAfter, group_eq_default _ hGe]

/-! ## Changing -/

@[simp] theorem nodes_size_modifyNode (id : NodeId) (change : Node → Node) :
    (graph.modifyNode id change).nodes.size = graph.nodes.size := by
  simp [modifyNode]

@[simp] theorem groups_modifyNode (id : NodeId) (change : Node → Node) :
    (graph.modifyNode id change).groups = graph.groups := rfl

@[simp] theorem groups_size_modifyGroup (id : GroupId) (change : Group → Group) :
    (graph.modifyGroup id change).groups.size = graph.groups.size := by
  simp [modifyGroup]

@[simp] theorem nodes_modifyGroup (id : GroupId) (change : Group → Group) :
    (graph.modifyGroup id change).nodes = graph.nodes := rfl

theorem node_modifyNode (id other : NodeId) (change : Node → Node) :
    (graph.modifyNode id change).node other =
      if other = id ∧ id.index < graph.nodes.size then change (graph.node id)
      else graph.node other := by
  by_cases hEq : other = id
  · subst hEq
    rcases Nat.lt_or_ge other.index graph.nodes.size with hLt | hGe
    · rw [if_pos ⟨rfl, hLt⟩]
      exact graph.node_modifyNode_self change hLt
    · rw [if_neg (fun h => absurd h.2 (Nat.not_lt.mpr hGe)),
        node_eq_default _ (by rw [nodes_size_modifyNode]; exact hGe), node_eq_default _ hGe]
  · rw [if_neg (fun h => hEq h.1)]
    exact graph.node_modifyNode_ne change hEq

theorem group_modifyGroup (id other : GroupId) (change : Group → Group) :
    (graph.modifyGroup id change).group other =
      if other = id ∧ id.index < graph.groups.size then change (graph.group id)
      else graph.group other := by
  by_cases hEq : other = id
  · subst hEq
    rcases Nat.lt_or_ge other.index graph.groups.size with hLt | hGe
    · rw [if_pos ⟨rfl, hLt⟩]
      exact graph.group_modifyGroup_self change hLt
    · rw [if_neg (fun h => absurd h.2 (Nat.not_lt.mpr hGe)),
        group_eq_default _ (by rw [groups_size_modifyGroup]; exact hGe), group_eq_default _ hGe]
  · rw [if_neg (fun h => hEq h.1)]
    exact graph.group_modifyGroup_ne change hEq

/-! ## A node below a group -/

variable {graph}

theorem insertNode_of_group {node : Node} {p : GroupId} (h : node.parent = .group p) :
    graph.insertNode node =
      ((graph.addNode node).1.appendNode p ⟨graph.nodes.size⟩, ⟨graph.nodes.size⟩) := by
  simp only [insertNode, h]
  rfl

@[simp] theorem index_insertNode (node : Node) :
    (graph.insertNode node).2 = ⟨graph.nodes.size⟩ := by
  unfold insertNode
  split <;> rfl

theorem nodes_insertNode (node : Node) :
    (graph.insertNode node).1.nodes = (graph.addNode node).1.nodes := by
  unfold insertNode
  split <;> rfl

@[simp] theorem nodes_size_insertNode (node : Node) :
    (graph.insertNode node).1.nodes.size = graph.nodes.size + 1 := by
  rw [nodes_insertNode, nodes_size_addNode]

@[simp] theorem groups_size_insertNode (node : Node) :
    (graph.insertNode node).1.groups.size = graph.groups.size := by
  unfold insertNode
  split <;> simp [appendNode]

theorem node_insertNode (node : Node) (id : NodeId) :
    (graph.insertNode node).1.node id =
      if id.index = graph.nodes.size then { node with serial := graph.size }
      else graph.node id := by
  have hTable : (graph.insertNode node).1.node id = (graph.addNode node).1.node id := by
    unfold Graph.node
    rw [nodes_insertNode]
  rw [hTable, node_addNode]

theorem node_insertNode_new (graph : Graph) (node : Node) :
    (graph.insertNode node).1.node ⟨graph.nodes.size⟩ = { node with serial := graph.size } := by
  rw [node_insertNode, if_pos rfl]

theorem group_insertNode {node : Node} {p : GroupId} (h : node.parent = .group p) (g : GroupId) :
    (graph.insertNode node).1.group g =
      if g = p ∧ p.index < graph.groups.size then
        { graph.group p with nodes := (graph.group p).nodes ++ [⟨graph.nodes.size⟩] }
      else graph.group g := by
  rw [insertNode_of_group h]
  exact group_modifyGroup (graph.addNode node).1 p g _

/-! ## Marking an edge -/

@[simp] theorem nodes_size_markEdge (edge : Edge) :
    (graph.markEdge edge).nodes.size = graph.nodes.size := by
  simp [markEdge]

@[simp] theorem groups_markEdge (edge : Edge) : (graph.markEdge edge).groups = graph.groups := rfl

@[simp] theorem group_markEdge (edge : Edge) (g : GroupId) :
    (graph.markEdge edge).group g = graph.group g := rfl

end Graph

end CallGraph
