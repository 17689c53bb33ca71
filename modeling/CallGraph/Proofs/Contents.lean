import CallGraph.Proofs.Preparing
import CallGraph.Text.Dotted
import Mathlib.Data.List.Forall2

/-!
# Contents of loaded files

The group of a file lists the node of its global code, then its functions, then its imports, each in
the order of the outline, and loading further files leaves it so. A class gets a group of its own, and
the group of the file gets it as a subgroup only. Whatever can be imported can be imported under the
name of its group and its own.

Loading is a sequence of three operations on the tables: a group is added, a node is added, a group is
changed. What each does to the entries there are is said once (`Graph.Loads`), and so is what a chain
of them does.

## Main definitions

* `Graph.Loads` — a later state of the tables.
* `Graph.Holds` — a group has the contents of a file.

## Main results

* `insertFiles_holds` — every file is held by its group.
* `tagged_insertFiles` — the names under which nodes can be imported.
-/

namespace CallGraph

namespace Graph

variable {graph before after : Graph} {size : Nat}

/-! ## One operation -/

/-- A node of a group that can be imported under the name of the group and its own only, and not at
all from a class. -/
def Tagged (graph : Graph) (node : Node) : Prop :=
  ∃ g, node.parent = .group g ∧ g.index < graph.groups.size ∧
    ((graph.group g).kind = .classBody → node.importTokens = []) ∧
    ∀ name ∈ node.importTokens, name = Dotted.join [(graph.group g).token, node.token]

/-- A later state of the tables: the nodes are what they were, the groups have the tokens and kinds
they had, new nodes are tagged, and the groups below `size` got subgroups at most. -/
structure Loads (size : Nat) (before after : Graph) : Prop where
  nodes_le : before.nodes.size ≤ after.nodes.size
  groups_le : before.groups.size ≤ after.groups.size
  node_eq : ∀ n : NodeId, n.index < before.nodes.size → after.node n = before.node n
  token_eq : ∀ g : GroupId, g.index < before.groups.size →
    (after.group g).token = (before.group g).token
  kind_eq : ∀ g : GroupId, g.index < before.groups.size →
    (after.group g).kind = (before.group g).kind
  group_eq : ∀ g : GroupId, g.index < size →
    ∃ subgroups, after.group g = { before.group g with subgroups := subgroups }
  tagged : ∀ n : NodeId, before.nodes.size ≤ n.index → n.index < after.nodes.size →
    after.Tagged (after.node n)

theorem Loads.refl (size : Nat) (graph : Graph) : Loads size graph graph where
  nodes_le := Nat.le_refl _
  groups_le := Nat.le_refl _
  node_eq _ _ := rfl
  token_eq _ _ := rfl
  kind_eq _ _ := rfl
  group_eq _ _ := ⟨_, rfl⟩
  tagged n hGe hLt := absurd hLt (by omega)

theorem Tagged.loads {node : Node} (h : before.Tagged node) (hLoads : Loads size before after) :
    after.Tagged node := by
  obtain ⟨g, hParent, hLt, hNames⟩ := h
  refine ⟨g, hParent, Nat.lt_of_lt_of_le hLt hLoads.groups_le, ?_⟩
  rw [hLoads.token_eq g hLt, hLoads.kind_eq g hLt]
  exact hNames

theorem Loads.trans {middle : Graph} (h : Loads size before middle)
    (h' : Loads size middle after) : Loads size before after where
  nodes_le := Nat.le_trans h.nodes_le h'.nodes_le
  groups_le := Nat.le_trans h.groups_le h'.groups_le
  node_eq n hn := by
    rw [h'.node_eq n (Nat.lt_of_lt_of_le hn h.nodes_le), h.node_eq n hn]
  token_eq g hg := by
    rw [h'.token_eq g (Nat.lt_of_lt_of_le hg h.groups_le), h.token_eq g hg]
  kind_eq g hg := by
    rw [h'.kind_eq g (Nat.lt_of_lt_of_le hg h.groups_le), h.kind_eq g hg]
  group_eq g hg := by
    obtain ⟨_, hFirst⟩ := h.group_eq g hg
    obtain ⟨subgroups, hSecond⟩ := h'.group_eq g hg
    exact ⟨subgroups, by rw [hSecond, hFirst]⟩
  tagged n hGe hLt := by
    by_cases hMiddle : n.index < middle.nodes.size
    · rw [h'.node_eq n hMiddle]
      exact (h.tagged n hGe hMiddle).loads h'
    · exact h'.tagged n (by omega) hLt

theorem loads_addGroup (graph : Graph) (group : Group) (hSize : size ≤ graph.groups.size) :
    Loads size graph (graph.addGroup group).1 where
  nodes_le := Nat.le_refl _
  groups_le := by simp
  node_eq _ _ := rfl
  token_eq g hg := by rw [group_addGroup_old group hg]
  kind_eq g hg := by rw [group_addGroup_old group hg]
  group_eq g hg := ⟨_, by rw [group_addGroup_old group (by omega)]⟩
  tagged n hGe hLt := absurd hLt (by simpa using hGe)

theorem loads_addNode {node : Node} (hNode : graph.Tagged node) :
    Loads size graph (graph.addNode node).1 where
  nodes_le := by simp
  groups_le := Nat.le_refl _
  node_eq _ hn := graph.node_addNode_of_lt node hn
  token_eq _ _ := rfl
  kind_eq _ _ := rfl
  group_eq _ _ := ⟨_, rfl⟩
  tagged n hGe hLt := by
    rw [nodes_size_addNode] at hLt
    rw [node_addNode, if_pos (by omega)]
    exact hNode

theorem loads_modifyGroup {g : GroupId} {change : Group → Group}
    (hToken : (change (graph.group g)).token = (graph.group g).token)
    (hKind : (change (graph.group g)).kind = (graph.group g).kind)
    (hOld : g.index < size →
      ∃ subgroups, change (graph.group g) = { graph.group g with subgroups := subgroups }) :
    Loads size graph (graph.modifyGroup g change) where
  nodes_le := Nat.le_refl _
  groups_le := by simp
  node_eq _ _ := rfl
  token_eq other _ := by
    rw [group_modifyGroup]
    split
    · rename_i h
      rw [h.1, hToken]
    · rfl
  kind_eq other _ := by
    rw [group_modifyGroup]
    split
    · rename_i h
      rw [h.1, hKind]
    · rfl
  group_eq other hOther := by
    rw [group_modifyGroup]
    split
    · rename_i h
      rw [h.1] at hOther ⊢
      exact hOld hOther
    · exact ⟨_, rfl⟩
  tagged n hGe hLt := absurd hLt (by simpa using hGe)

/-! ## Nodes at the end of a group -/

theorem loads_insertNode {node : Node} {p : GroupId} (hParent : node.parent = .group p)
    (hSize : size ≤ p.index) (hNode : graph.Tagged node) :
    Loads size graph (graph.insertNode node).1 := by
  rw [insertNode_of_group hParent]
  apply (loads_addNode hNode).trans
  exact loads_modifyGroup rfl rfl fun hLt => absurd hLt (by omega)

/-- The node at a place is a given one, but for its number. -/
def IsAt (graph : Graph) (n : NodeId) (node : Node) : Prop :=
  n.index < graph.nodes.size ∧ ∃ serial, graph.node n = { node with serial := serial }

theorem IsAt.loads {n : NodeId} {node : Node} (h : before.IsAt n node)
    (hLoads : Loads size before after) : after.IsAt n node := by
  obtain ⟨hLt, serial, hNode⟩ := h
  exact ⟨Nat.lt_of_lt_of_le hLt hLoads.nodes_le, serial, by rw [hLoads.node_eq n hLt, hNode]⟩

theorem isAt_insertNode (graph : Graph) (node : Node) :
    (graph.insertNode node).1.IsAt ⟨graph.nodes.size⟩ node := by
  exact ⟨by simp, graph.size, node_insertNode_new graph node⟩

/-- Nodes that are inserted into a group stand at its end, in their order. -/
theorem insertNodes_spec (graph : Graph) {p : GroupId} (hp : p.index < graph.groups.size)
    (hSize : size ≤ p.index) (nodes : List Node) (hNodes : ∀ node ∈ nodes, node.parent = .group p ∧
      ((graph.group p).kind = .classBody → node.importTokens = []) ∧
      ∀ name ∈ node.importTokens, name = Dotted.join [(graph.group p).token, node.token]) :
    Loads size graph (graph.insertNodes nodes) ∧
      (graph.insertNodes nodes).groups.size = graph.groups.size ∧
      ∃ ids, (graph.insertNodes nodes).group p =
          { graph.group p with nodes := (graph.group p).nodes ++ ids } ∧
        List.Forall₂ (graph.insertNodes nodes).IsAt ids nodes := by
  induction nodes generalizing graph with
  | nil => exact ⟨.refl size graph, rfl, [], by simp [insertNodes], .nil⟩
  | cons node rest ih =>
      obtain ⟨hParent, hNames⟩ := hNodes node List.mem_cons_self
      have hFirst := loads_insertNode hParent hSize ⟨p, hParent, hp, hNames⟩
      have hGroup : (graph.insertNode node).1.group p =
          { graph.group p with nodes := (graph.group p).nodes ++ [⟨graph.nodes.size⟩] } := by
        rw [group_insertNode hParent, if_pos ⟨rfl, hp⟩]
      obtain ⟨hRest, hGroups, ids, hIds, hAt⟩ := ih (graph.insertNode node).1
        (by rw [groups_size_insertNode]; exact hp)
        (fun other hOther => by
          rw [hGroup]
          exact hNodes other (List.mem_cons_of_mem _ hOther))
      refine ⟨hFirst.trans hRest, hGroups.trans (groups_size_insertNode node),
        ⟨graph.nodes.size⟩ :: ids, ?_, .cons ((isAt_insertNode graph node).loads hRest) hAt⟩
      show ((graph.insertNode node).1.insertNodes rest).group p = _
      rw [hIds, hGroup, List.append_assoc, List.singleton_append]

/-- Other groups stay as they are. -/
theorem group_insertNodes_of_ne (graph : Graph) {p c : GroupId} (hc : c ≠ p) (nodes : List Node)
    (hNodes : ∀ node ∈ nodes, node.parent = .group p) :
    (graph.insertNodes nodes).group c = graph.group c := by
  induction nodes generalizing graph with
  | nil => rfl
  | cons node rest ih =>
      obtain ⟨hParent, hRest⟩ := List.forall_mem_cons.mp hNodes
      show ((graph.insertNode node).1.insertNodes rest).group c = _
      rw [ih (graph.insertNode node).1 hRest, group_insertNode hParent, if_neg (fun h => hc h.1)]

/-! ## Classes -/

theorem loads_insertSubgroup (graph : Graph) (parent : GroupId) (group : Group)
    (hSize : size ≤ graph.groups.size) :
    Loads size graph (graph.insertSubgroup parent group).1 := by
  refine (loads_addGroup graph { group with parent := some parent } hSize).trans ?_
  exact loads_modifyGroup rfl rfl fun _ => ⟨_, rfl⟩

theorem groups_size_insertSubgroup (graph : Graph) (parent : GroupId) (group : Group) :
    (graph.insertSubgroup parent group).1.groups.size = graph.groups.size + 1 := by
  simp [insertSubgroup, appendSubgroup]

/-- A group has the contents of a class that lies directly in another group. -/
structure HoldsClass (graph : Graph) (definition : ClassOutline) (parent c : GroupId)
    (methods : List NodeId) : Prop where
  lt : c.index < graph.groups.size
  token_eq : (graph.group c).token = definition.token
  parent_eq : (graph.group c).parent = some parent
  nodes_eq : (graph.group c).nodes = methods
  methods_at : List.Forall₂ graph.IsAt methods
    (definition.functions.map (functionNode true c definition.token))

theorem HoldsClass.loads {definition : ClassOutline} {parent c : GroupId} {methods : List NodeId}
    (h : before.HoldsClass definition parent c methods) (hLoads : Loads size before after)
    (hc : c.index < size) : after.HoldsClass definition parent c methods := by
  obtain ⟨_, hGroup⟩ := hLoads.group_eq c hc
  exact
    { lt := Nat.lt_of_lt_of_le h.lt hLoads.groups_le
      token_eq := by rw [hGroup]; exact h.token_eq
      parent_eq := by rw [hGroup]; exact h.parent_eq
      nodes_eq := by rw [hGroup]; exact h.nodes_eq
      methods_at := h.methods_at.imp fun _ _ hAt => hAt.loads hLoads }

/-- The state of the tables when the group of a class has its methods and no classes. -/
def openedClass (graph : Graph) (parent : GroupId) (token : String) (outline : ClassOutline) :
    Graph :=
  (graph.insertSubgroup parent (classGroup token outline)).1.insertNodes
    (outline.functions.map (functionNode true ⟨graph.groups.size⟩ outline.token))

theorem insertClass_eq (graph : Graph) (parent : GroupId) (token : String)
    (outline : ClassOutline) : graph.insertClass parent token outline =
      (graph.openedClass parent token outline).insertClasses ⟨graph.groups.size⟩ outline.token
        outline.classes := by
  cases outline
  rfl

/-- A class is loaded into a new group, to begin with without its classes. -/
theorem openedClass_holds (graph : Graph) (hSize : size ≤ graph.groups.size) (parent : GroupId)
    (token : String) (outline : ClassOutline) :
    Loads size graph (graph.openedClass parent token outline) ∧
      ∃ methods, (graph.openedClass parent token outline).HoldsClass outline parent
        ⟨graph.groups.size⟩ methods := by
  have hGroups := groups_size_insertSubgroup graph parent (classGroup token outline)
  have hNew : ∃ subgroups, (graph.insertSubgroup parent (classGroup token outline)).1.group
      ⟨graph.groups.size⟩ = { classGroup token outline with
        parent := some parent, subgroups := subgroups, serial := graph.size } := by
    rw [insertSubgroup, appendSubgroup, group_modifyGroup]
    split
    · rename_i hSame
      rw [← hSame.1, group_addGroup_new]
      exact ⟨_, rfl⟩
    · rw [group_addGroup_new]
      exact ⟨[], rfl⟩
  obtain ⟨subgroups, hNew⟩ := hNew
  -- Methods cannot be imported.
  obtain ⟨hNodes, hCount, methods, hMethods, hAt⟩ := insertNodes_spec
    (graph.insertSubgroup parent (classGroup token outline)).1
    (p := ⟨graph.groups.size⟩) (by rw [hGroups]; exact Nat.lt_succ_self _) hSize
    (outline.functions.map (functionNode true ⟨graph.groups.size⟩ outline.token)) (by
      intro node hNode
      obtain ⟨function, _, rfl⟩ := List.mem_map.mp hNode
      exact ⟨rfl, fun _ => rfl, fun _ hName => absurd hName List.not_mem_nil⟩)
  rw [hNew] at hMethods
  refine ⟨(loads_insertSubgroup graph parent _ hSize).trans hNodes, methods, ?_⟩
  unfold openedClass
  exact
    { lt := by rw [hCount, hGroups]; exact Nat.lt_succ_self _
      token_eq := by rw [hMethods]; rfl
      parent_eq := by rw [hMethods]
      nodes_eq := by rw [hMethods]; rfl
      methods_at := hAt }

mutual

/-- A class changes no group there is, but for the subgroups of its parent. -/
theorem loads_insertClass {size : Nat} (graph : Graph) (hSize : size ≤ graph.groups.size)
    (parent : GroupId) (token : String) (definition : ClassOutline) :
    Loads size graph (graph.insertClass parent token definition) := by
  match definition with
  | .mk name line bases functions classes =>
      obtain ⟨hOpened, _⟩ := openedClass_holds graph hSize parent token
        (.mk name line bases functions classes)
      exact hOpened.trans (loads_insertClasses _ (Nat.le_trans hSize hOpened.groups_le)
        ⟨graph.groups.size⟩ name classes)

theorem loads_insertClasses {size : Nat} (graph : Graph) (hSize : size ≤ graph.groups.size)
    (parent : GroupId) (token : String) (definitions : List ClassOutline) :
    Loads size graph (graph.insertClasses parent token definitions) := by
  match definitions with
  | [] => exact .refl size graph
  | definition :: rest =>
      have hFirst := loads_insertClass graph hSize parent token definition
      exact hFirst.trans
        (loads_insertClasses _ (Nat.le_trans hSize hFirst.groups_le) parent token rest)

end

/-- A class is loaded into a new group. -/
theorem insertClass_holds (graph : Graph) (parent : GroupId) (token : String)
    (definition : ClassOutline) :
    ∃ methods, (graph.insertClass parent token definition).HoldsClass definition parent
      ⟨graph.groups.size⟩ methods := by
  obtain ⟨_, methods, hHolds⟩ := openedClass_holds graph (Nat.le_refl _) parent token definition
  rw [insertClass_eq]
  exact ⟨methods, hHolds.loads (loads_insertClasses _ (Nat.le_refl _) _ _ _) hHolds.lt⟩

theorem insertClasses_holds (graph : Graph) (parent : GroupId) (token : String)
    (definitions : List ClassOutline) : ∀ definition ∈ definitions, ∃ c methods,
      graph.groups.size ≤ c.index ∧
        (graph.insertClasses parent token definitions).HoldsClass definition parent c methods := by
  induction definitions generalizing graph with
  | nil => exact fun _ hMem => absurd hMem List.not_mem_nil
  | cons first rest ih =>
      intro definition hMem
      rcases List.mem_cons.mp hMem with rfl | hRest
      · obtain ⟨methods, hHolds⟩ := insertClass_holds graph parent token definition
        exact ⟨_, methods, Nat.le_refl _,
          hHolds.loads (loads_insertClasses _ (Nat.le_refl _) parent token rest) hHolds.lt⟩
      · obtain ⟨c, methods, hNew, hHolds⟩ := ih (graph.insertClass parent token first) definition hRest
        have hFirst := loads_insertClass graph (Nat.le_refl _) parent token first
        exact ⟨c, methods, Nat.le_trans hFirst.groups_le hNew, hHolds⟩

/-! ## Files -/

/-- A group has the contents of a file: the node of the global code, the functions, the imports, and
the classes. -/
structure Holds (graph : Graph) (file : FileOutline) (g : GroupId) (root : NodeId)
    (functions imports : List NodeId) : Prop where
  lt : g.index < graph.groups.size
  token_eq : (graph.group g).token = file.token
  nodes_eq : (graph.group g).nodes = root :: (functions ++ imports)
  root_at : graph.IsAt root (rootNode g file)
  functions_at : List.Forall₂ graph.IsAt functions
    (file.functions.map (functionNode false g file.token))
  imports_at : List.Forall₂ graph.IsAt imports (file.imports.map (importNode g file.token))
  classes_at : ∀ definition ∈ file.classes, ∃ c methods, graph.HoldsClass definition g c methods

/-- What a group holds stays in it while others are loaded. -/
theorem Holds.loads {file : FileOutline} {g : GroupId} {root : NodeId}
    {functions imports : List NodeId} (h : before.Holds file g root functions imports)
    (hLoads : Loads before.groups.size before after) :
    after.Holds file g root functions imports := by
  obtain ⟨_, hGroup⟩ := hLoads.group_eq g h.lt
  exact
    { lt := Nat.lt_of_lt_of_le h.lt hLoads.groups_le
      token_eq := by rw [hGroup]; exact h.token_eq
      nodes_eq := by rw [hGroup]; exact h.nodes_eq
      root_at := h.root_at.loads hLoads
      functions_at := h.functions_at.imp fun _ _ hAt => hAt.loads hLoads
      imports_at := h.imports_at.imp fun _ _ hAt => hAt.loads hLoads
      classes_at := fun definition hDefinition => by
        obtain ⟨c, methods, hClass⟩ := h.classes_at definition hDefinition
        exact ⟨c, methods, hClass.loads hLoads hClass.lt⟩ }

theorem map_of_isAt {α : Type _} {ids : List NodeId} {nodes : List Node}
    (h : List.Forall₂ graph.IsAt ids nodes) (field : Node → α)
    (hField : ∀ node serial, field { node with serial := serial } = field node := by
      intros; rfl) :
    ids.map (fun n => field (graph.node n)) = nodes.map field := by
  induction h with
  | nil => rfl
  | cons hAt _ ih =>
      obtain ⟨_, serial, hNode⟩ := hAt
      rw [List.map_cons, List.map_cons, ih, hNode, hField]

section Held

variable {file : FileOutline} {g : GroupId} {root n : NodeId} {functions imports : List NodeId}

theorem Holds.mem_nodes (h : graph.Holds file g root functions imports) (hn : n ∈ functions) :
    n ∈ (graph.group g).nodes := by
  rw [h.nodes_eq]
  exact List.mem_cons_of_mem _ (List.mem_append_left _ hn)

/-- What the nodes of the functions have that was made from the outline. -/
theorem Holds.map_functions {α : Type _} (h : graph.Holds file g root functions imports)
    (field : Node → α)
    (hField : ∀ node serial, field { node with serial := serial } = field node := by
      intros; rfl) :
    functions.map (fun n => field (graph.node n)) =
      file.functions.map fun function => field (functionNode false g file.token function) := by
  rw [map_of_isAt h.functions_at field hField, List.map_map]
  rfl

/-- What all functions have in common. -/
theorem Holds.function_field {α : Type _} (h : graph.Holds file g root functions imports)
    (field : Node → α) {value : α}
    (hValue : ∀ function, field (functionNode false g file.token function) = value)
    (hn : n ∈ functions)
    (hField : ∀ node serial, field { node with serial := serial } = field node := by
      intros; rfl) : field (graph.node n) = value := by
  have hMem := List.mem_map_of_mem (f := fun n => field (graph.node n)) hn
  rw [h.map_functions field hField] at hMem
  obtain ⟨function, _, hSame⟩ := List.mem_map.mp hMem
  rw [← hSame, hValue]

/-- Only functions have signatures. -/
theorem Holds.mem_functions_iff (h : graph.Holds file g root functions imports)
    (hn : n ∈ (graph.group g).nodes) :
    n ∈ functions ↔ (graph.node n).signature.isSome = true := by
  have hImports := map_of_isAt h.imports_at (fun node => node.signature.isSome)
  constructor
  · exact fun hn => h.function_field (fun node => node.signature.isSome) (fun _ => rfl) hn
  · intro hSome
    rw [h.nodes_eq, List.mem_cons, List.mem_append] at hn
    rcases hn with rfl | hMem | hMem
    · obtain ⟨_, _, hRoot⟩ := h.root_at
      rw [hRoot] at hSome
      exact absurd hSome Bool.false_ne_true
    · exact hMem
    · have hField := List.mem_map_of_mem (f := fun n => (graph.node n).signature.isSome) hMem
      rw [hImports, List.map_map] at hField
      obtain ⟨_, _, hNone⟩ := List.mem_map.mp hField
      exact absurd (hNone.trans hSome) Bool.false_ne_true

end Held

/-- The state of the tables when the group of a file has its global code and nothing else. -/
def opened (graph : Graph) (file : FileOutline) : Graph :=
  ((graph.addGroup (fileGroup file)).1.insertNode
      (rootNode ⟨graph.groups.size⟩ file)).1.modifyGroup ⟨graph.groups.size⟩
    fun entry => { entry with root := some ⟨graph.nodes.size⟩ }

theorem insertFile_eq_opened (graph : Graph) (file : FileOutline) :
    graph.insertFile file =
      ((((graph.opened file).insertNodes
          (file.functions.map (functionNode false ⟨graph.groups.size⟩ file.token))).insertClasses
          ⟨graph.groups.size⟩ file.token file.classes).insertNodes
          (file.imports.map (importNode ⟨graph.groups.size⟩ file.token)), ⟨graph.groups.size⟩) := by
  have hRoot : ((graph.addGroup (fileGroup file)).1.insertNode
      (rootNode ⟨graph.groups.size⟩ file)).2 = ⟨graph.nodes.size⟩ := index_insertNode _
  simp only [insertFile, index_addGroup, hRoot]
  rfl

theorem group_opened (graph : Graph) (file : FileOutline) :
    (graph.opened file).group ⟨graph.groups.size⟩ =
      { fileGroup file with
        serial := graph.size, nodes := [⟨graph.nodes.size⟩], root := some ⟨graph.nodes.size⟩ } := by
  rw [opened, group_modifyGroup, if_pos ⟨rfl, by simp⟩, group_insertNode rfl,
    if_pos ⟨rfl, by simp⟩, group_addGroup_new]
  rfl

theorem opened_spec (graph : Graph) (file : FileOutline) :
    Loads graph.groups.size graph (graph.opened file) ∧
      (graph.opened file).groups.size = graph.groups.size + 1 ∧
      ((graph.opened file).group ⟨graph.groups.size⟩).token = file.token ∧
      ((graph.opened file).group ⟨graph.groups.size⟩).kind = .file ∧
      ((graph.opened file).group ⟨graph.groups.size⟩).nodes = [⟨graph.nodes.size⟩] ∧
      (graph.opened file).IsAt ⟨graph.nodes.size⟩ (rootNode ⟨graph.groups.size⟩ file) := by
  have hAdded := loads_addGroup graph (fileGroup file) (Nat.le_refl _)
  have hRoot : (graph.addGroup (fileGroup file)).1.Tagged (rootNode ⟨graph.groups.size⟩ file) :=
    ⟨⟨graph.groups.size⟩, rfl, by simp, fun _ => rfl, fun _ hName => absurd hName List.not_mem_nil⟩
  have hRooted := hAdded.trans (loads_insertNode rfl (Nat.le_refl _) hRoot)
  have hMarked : Loads graph.groups.size
      ((graph.addGroup (fileGroup file)).1.insertNode (rootNode ⟨graph.groups.size⟩ file)).1
      (graph.opened file) :=
    loads_modifyGroup rfl rfl fun hLt => absurd hLt (Nat.lt_irrefl _)
  have hGroup := group_opened graph file
  refine ⟨hRooted.trans hMarked, by simp [opened], ?_, ?_, ?_, ?_⟩
  · rw [hGroup]
    rfl
  · rw [hGroup]
    rfl
  · rw [hGroup]
  · exact (isAt_insertNode (graph.addGroup (fileGroup file)).1 _).loads hMarked

/-- A file is loaded into a new group, and what is there stays. -/
theorem insertFile_holds (graph : Graph) (file : FileOutline) :
    Loads graph.groups.size graph (graph.insertFile file).1 ∧
      ∃ root functions imports, (graph.insertFile file).1.Holds file (graph.insertFile file).2 root
        functions imports := by
  obtain ⟨hOpened, hSize, hToken, hKind, hNodes, hRoot⟩ := opened_spec graph file
  rw [insertFile_eq_opened]
  generalize hg : (⟨graph.groups.size⟩ : GroupId) = g at hToken hKind hNodes hRoot ⊢
  have hIndex : g.index = graph.groups.size := hg ▸ rfl
  generalize graph.opened file = opened at hOpened hSize hToken hKind hNodes hRoot ⊢
  -- The functions stand behind the root.
  obtain ⟨hFunctions, hSize', functions, hGroup, hFunctionsAt⟩ :=
    insertNodes_spec opened (p := g) (by omega) (Nat.le_of_eq hIndex.symm)
      (file.functions.map (functionNode false g file.token)) (by
        intro node hNode
        obtain ⟨function, _, rfl⟩ := List.mem_map.mp hNode
        rw [hToken, hKind]
        exact ⟨rfl, by simp, fun _ hName => List.mem_singleton.mp hName⟩)
  generalize opened.insertNodes (file.functions.map (functionNode false g file.token)) = loaded
    at hFunctions hSize' hGroup hFunctionsAt ⊢
  -- The classes leave the list alone.
  have hClasses := loads_insertClasses loaded (show g.index + 1 ≤ _ by omega) g file.token
    file.classes
  have hClasses' := loads_insertClasses loaded (show graph.groups.size ≤ _ by omega) g file.token
    file.classes
  obtain ⟨subgroups, hSame⟩ := hClasses.group_eq g (Nat.lt_succ_self _)
  have hClassesAt := insertClasses_holds loaded g file.token file.classes
  generalize loaded.insertClasses g file.token file.classes = filled
    at hClasses hClasses' hSame hClassesAt ⊢
  have hTokenFilled : (filled.group g).token = file.token := by
    rw [hSame, hGroup]
    exact hToken
  have hKindFilled : (filled.group g).kind = .file := by
    rw [hSame, hGroup]
    exact hKind
  have hFilled : g.index < filled.groups.size := by
    have := hClasses.groups_le
    omega
  -- The imports come last.
  obtain ⟨hImports, hSize'', imports, hLast, hImportsAt⟩ :=
    insertNodes_spec filled hFilled (Nat.le_of_eq hIndex.symm)
      (file.imports.map (importNode g file.token)) (by
        intro node hNode
        obtain ⟨item, _, rfl⟩ := List.mem_map.mp hNode
        rw [hTokenFilled, hKindFilled]
        exact ⟨rfl, by simp, fun _ hName => List.mem_singleton.mp hName⟩)
  have hLater := hClasses'.trans hImports
  refine ⟨(hOpened.trans hFunctions).trans hLater, ⟨graph.nodes.size⟩, functions, imports, ?_⟩
  exact
    { lt := by rw [hSize'']; exact hFilled
      token_eq := by rw [hLast]; exact hTokenFilled
      nodes_eq := by rw [hLast, hSame, hGroup, hNodes]; rfl
      root_at := hRoot.loads (hFunctions.trans hLater)
      functions_at := hFunctionsAt.imp fun _ _ hAt => hAt.loads hLater
      imports_at := hImportsAt
      classes_at := fun definition hDefinition => by
        obtain ⟨c, methods, hNew, hClass⟩ := hClassesAt definition hDefinition
        have hOther : c ≠ g := by
          rintro rfl
          omega
        have hGroup := group_insertNodes_of_ne filled hOther
          (file.imports.map (importNode g file.token)) (by
            intro node hNode
            obtain ⟨item, _, rfl⟩ := List.mem_map.mp hNode
            rfl)
        exact ⟨c, methods,
          { lt := by rw [hSize'']; exact hClass.lt
            token_eq := by rw [hGroup]; exact hClass.token_eq
            parent_eq := by rw [hGroup]; exact hClass.parent_eq
            nodes_eq := by rw [hGroup]; exact hClass.nodes_eq
            methods_at := hClass.methods_at.imp fun _ _ hAt => hAt.loads hImports }⟩ }

theorem loads_insertFiles (graph : Graph) (files : List FileOutline) :
    Loads graph.groups.size graph (graph.insertFiles files).1 := by
  induction files generalizing graph with
  | nil => exact .refl _ graph
  | cons file rest ih =>
      have hFirst := (insertFile_holds graph file).1
      have hRest := ih (graph.insertFile file).1
      exact hFirst.trans
        { hRest with
          group_eq := fun g hg => hRest.group_eq g (Nat.lt_of_lt_of_le hg hFirst.groups_le) }

/-- Every file is held by its group. -/
theorem insertFiles_holds (graph : Graph) (files : List FileOutline) :
    List.Forall₂ (fun file g => ∃ root functions imports,
      (graph.insertFiles files).1.Holds file g root functions imports) files
      (graph.insertFiles files).2 := by
  induction files generalizing graph with
  | nil => exact .nil
  | cons file rest ih =>
      obtain ⟨_, root, functions, imports, hHolds⟩ := insertFile_holds graph file
      exact .cons ⟨root, functions, imports, hHolds.loads (loads_insertFiles _ rest)⟩
        (ih (graph.insertFile file).1)

/-- Whatever is loaded can be imported under the name of its group and its own only, if at all. -/
theorem tagged_insertFiles (files : List FileOutline) {n : NodeId}
    (hn : n.index < (Graph.loaded files).1.nodes.size) :
    (Graph.loaded files).1.Tagged ((Graph.loaded files).1.node n) :=
  (loads_insertFiles Graph.empty files).tagged n (Nat.zero_le _) hn

end Graph

end CallGraph
