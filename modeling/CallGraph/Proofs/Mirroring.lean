import CallGraph.Proofs.Contents
import CallGraph.Proofs.Separating

/-!
# The group tree mirrors the definition tree

A file is loaded into a group that lists its functions and has a subgroup for each class, and so on
inside the classes. What is listed where is read off the syntax tree alone: the functions and classes
that are reached through bodies, in source order, each once.

Loading goes on after a class has been put into the tables. Whatever is loaded later leaves the groups
of the class alone, so the lemmas about loading speak of every later state of the tables
(`Graph.Extends`) at once, and the tree of groups never has to be followed through an operation.

What the nodes of functions are like is a parameter of the mirror. So one induction over the classes
serves for the shape of the nodes here and for their calls elsewhere.

## Main definitions

* `Graph.MirrorsClass`, `Graph.MirrorsFile` — a group mirrors a class, or a file.
* `Graph.IsFunction` — a node has what its definition says.

## Main results

* `insertClass_mirrors`, `insertFile_mirrors` — what is loaded is mirrored.
* `insertFile_mirrors_definitions` — with the tokens, lines and parents of the definitions.
-/

namespace CallGraph

/-! ## Definitions in a tree -/

namespace Tree

variable {lists : List Field} {tree t : Tree}

/-- The functions of a namespace, in source order. -/
def functions (tree : Tree) : List Tree :=
  (tree.statements [.body]).filter definesFunction

/-- The classes of a namespace, in source order. -/
def classes (tree : Tree) : List Tree :=
  (tree.statements [.body]).filter definesClass

/-- The import statements that stand directly in a module, in source order. -/
def imports (tree : Tree) : List Tree :=
  (tree.trees .body).filter importsModules

/-- The name that a definition gives. -/
def definedName (definition : Tree) : String :=
  (definition.text? "name").getD ""

theorem height_lt_of_mem_classes (h : t ∈ tree.classes) : t.height < tree.height := by
  obtain ⟨inner, hInner, hMem⟩ := List.mem_flatMap.mp (List.mem_filter.mp h).1
  have hLt := height_lt_of_mem_subtrees (mem_subtrees_of_mem_trees hInner)
  have hLe := (of_mem_flat hMem).1.height_le
  omega

/-- Induction on a definition along the classes in it. -/
theorem classes_induction {motive : Tree → Prop}
    (step : ∀ tree : Tree, (∀ t ∈ tree.classes, motive t) → motive tree) (tree : Tree) :
    motive tree :=
  (measure height).wf.induction tree fun tree ih =>
    step tree fun t ht => ih t (height_lt_of_mem_classes ht)

end Tree

/-- The scope in which functions at a depth are read: classes inside classes see none. -/
def Scope.atDepth (moduleScope : Scope) (depth : Nat) : Scope :=
  if depth ≤ 1 then moduleScope else []

namespace ClassOutline

theorem nested_eq_map (definitions : List ClassMembers) :
    nested definitions = definitions.map (ofMembers []) := by
  induction definitions with
  | nil => rfl
  | cons first rest ih => rw [nested, ih, List.map_cons]

/-- Reads a class definition. -/
def ofTree (scope : Scope) (definition : Tree) : ClassOutline :=
  ofMembers scope (.mk definition (Members.ofTree definition))

theorem ofTree_eq (scope : Scope) (definition : Tree) : ofTree scope definition =
    .mk definition.definedName definition.line (basesOf definition)
      (definition.functions.map (FunctionOutline.ofTree true scope))
      (definition.classes.map (ofTree [])) := by
  rw [ofTree, Members.ofTree_eq, ofMembers, nested_eq_map, List.map_map]
  rfl

end ClassOutline

namespace FileOutline

theorem functions_ofTree (tree : Tree) (path : String) : (ofTree tree path).functions =
    tree.functions.map (FunctionOutline.ofTree false (ofTree tree path).scope) := by
  have hMembers : (Members.ofTree tree).functions = tree.functions := by
    rw [Members.ofTree_eq]
    rfl
  rw [← hMembers]
  rfl

theorem classes_ofTree (tree : Tree) (path : String) : (ofTree tree path).classes =
    tree.classes.map (.ofTree (ofTree tree path).scope) := by
  have hMembers : (Members.ofTree tree).classes =
      tree.classes.map fun c => .mk c (Members.ofTree c) := by
    rw [Members.ofTree_eq]
    rfl
  show (Members.ofTree tree).classes.map (ClassOutline.ofMembers (ofTree tree path).scope) = _
  rw [hMembers, List.map_map]
  rfl

theorem imports_ofTree (tree : Tree) (path : String) : (ofTree tree path).imports =
    tree.imports.map ImportOutline.ofTree := by
  have hMembers : (Members.ofTree tree).imports = tree.imports := Members.imports_ofTree tree
  rw [← hMembers]
  rfl

end FileOutline

/-! ## Rising numbers -/

/-- Numbers that rise from `low` on and stay below `high`. -/
def Rises (low high : Nat) (numbers : List Nat) : Prop :=
  numbers.Pairwise (· < ·) ∧ ∀ i ∈ numbers, low ≤ i ∧ i < high

namespace Rises

variable {low middle high : Nat} {front back : List Nat}

theorem nil (low high : Nat) : Rises low high [] :=
  ⟨.nil, fun _ h => absurd h List.not_mem_nil⟩

theorem singleton {i : Nat} (hLow : low ≤ i) (hHigh : i < high) : Rises low high [i] := by
  refine ⟨List.pairwise_singleton _ _, fun j hj => ?_⟩
  rw [List.mem_singleton.mp hj]
  exact ⟨hLow, hHigh⟩

theorem mono (h : Rises low middle front) (hHigh : middle ≤ high) : Rises low high front :=
  ⟨h.1, fun i hi => ⟨(h.2 i hi).1, Nat.lt_of_lt_of_le (h.2 i hi).2 hHigh⟩⟩

theorem append (hFront : Rises low middle front) (hBack : Rises middle high back)
    (hLow : low ≤ middle) (hHigh : middle ≤ high) : Rises low high (front ++ back) := by
  constructor
  · rw [List.pairwise_append]
    refine ⟨hFront.1, hBack.1, fun i hi j hj => ?_⟩
    have := hFront.2 i hi
    have := hBack.2 j hj
    omega
  · intro i hi
    rcases List.mem_append.mp hi with hi | hi
    · have := hFront.2 i hi
      omega
    · have := hBack.2 i hi
      omega

theorem nodup_of_map {α : Type} {index : α → Nat} {items : List α}
    (h : Rises low high (items.map index)) : items.Nodup :=
  List.Nodup.of_map index (h.1.imp fun hLt => Nat.ne_of_lt hLt)

end Rises

namespace Graph

variable {graph before middle after : Graph} {low : Nat}

/-! ## Later states of the tables -/

/-- A later state of the tables, in which the groups from `low` on are what they were. -/
structure Extends (low : Nat) (before after : Graph) : Prop where
  nodes_le : before.nodes.size ≤ after.nodes.size
  groups_le : before.groups.size ≤ after.groups.size
  node_eq : ∀ n : NodeId, n.index < before.nodes.size → after.node n = before.node n
  group_eq : ∀ g : GroupId, low ≤ g.index → g.index < before.groups.size →
    after.group g = before.group g

theorem Extends.trans (h : Extends low before middle) (h' : Extends low middle after) :
    Extends low before after where
  nodes_le := Nat.le_trans h.nodes_le h'.nodes_le
  groups_le := Nat.le_trans h.groups_le h'.groups_le
  node_eq n hn := by
    rw [h'.node_eq n (Nat.lt_of_lt_of_le hn h.nodes_le), h.node_eq n hn]
  group_eq g hLow hg := by
    rw [h'.group_eq g hLow (Nat.lt_of_lt_of_le hg h.groups_le), h.group_eq g hLow hg]

theorem Extends.mono {low' : Nat} (h : Extends low before after) (hLow : low ≤ low') :
    Extends low' before after :=
  { h with group_eq := fun g hg => h.group_eq g (Nat.le_trans hLow hg) }

theorem IsAt.extend {n : NodeId} {node : Node} (h : before.IsAt n node)
    (hLater : Extends low before after) : after.IsAt n node := by
  obtain ⟨hLt, serial, hNode⟩ := h
  exact ⟨Nat.lt_of_lt_of_le hLt hLater.nodes_le, serial, by rw [hLater.node_eq n hLt, hNode]⟩

/-- Groups are put below a parent: the other groups stay, and the parent gets these at the end of its
subgroups. -/
structure Inserts (parent : GroupId) (ids : List GroupId) (before after : Graph) : Prop where
  loads : Loads before.groups.size before after
  others : ∀ g : GroupId, g.index < before.groups.size → g ≠ parent →
    after.group g = before.group g
  parent_eq : after.group parent =
    { before.group parent with subgroups := (before.group parent).subgroups ++ ids }
  rises : Rises before.groups.size after.groups.size (ids.map GroupId.index)

namespace Inserts

variable {parent : GroupId} {ids more : List GroupId}

theorem toExtends (h : Inserts parent ids before after) (hParent : parent.index < low) :
    Extends low before after where
  nodes_le := h.loads.nodes_le
  groups_le := h.loads.groups_le
  node_eq := h.loads.node_eq
  group_eq g hLow hg := h.others g hg (by rintro rfl; omega)

theorem append (h : Inserts parent ids before middle) (h' : Inserts parent more middle after) :
    Inserts parent (ids ++ more) before after where
  loads := h.loads.trans { h'.loads with
    group_eq := fun g hg => h'.loads.group_eq g (Nat.lt_of_lt_of_le hg h.loads.groups_le) }
  others g hg hne := by
    rw [h'.others g (Nat.lt_of_lt_of_le hg h.loads.groups_le) hne, h.others g hg hne]
  parent_eq := by rw [h'.parent_eq, h.parent_eq, List.append_assoc]
  rises := by
    rw [List.map_append]
    exact h.rises.append h'.rises h.loads.groups_le h'.loads.groups_le

/-- What is put below a new group changes nothing for its parent. -/
theorem inside {new : GroupId} (h : Inserts parent [new] before middle)
    (h' : Inserts new more middle after) (hNew : before.groups.size ≤ new.index)
    (hParent : parent.index < before.groups.size) : Inserts parent [new] before after := by
  have hMore := h'.loads.groups_le
  have hNewLt : new.index < middle.groups.size := (h.rises.2 new.index (by simp)).2
  have hKept : ∀ g : GroupId, g.index < before.groups.size → after.group g = middle.group g :=
    fun g hg => h'.others g (by omega) (by rintro rfl; omega)
  refine ⟨h.loads.trans { h'.loads with group_eq := ?_ }, ?_, ?_, ?_⟩
  · exact fun g hg => h'.loads.group_eq g (by omega)
  · intro g hg hne
    rw [hKept g hg, h.others g hg hne]
  · rw [hKept parent hParent, h.parent_eq]
  · exact .singleton hNew (by omega)

end Inserts

theorem group_insertSubgroup (graph : Graph) {parent : GroupId} (group : Group)
    (hParent : parent.index < graph.groups.size) (g : GroupId) :
    (graph.insertSubgroup parent group).1.group g =
      if g = parent then
        { graph.group parent with
          subgroups := (graph.group parent).subgroups ++ [⟨graph.groups.size⟩] }
      else (graph.addGroup { group with parent := some parent }).1.group g := by
  rw [insertSubgroup, appendSubgroup, group_modifyGroup, group_addGroup_old _ hParent]
  have hLt : parent.index < (graph.addGroup { group with parent := some parent }).1.groups.size := by
    rw [groups_size_addGroup]
    omega
  simp only [hLt, and_true]
  rfl

/-- One group is put below a parent. -/
theorem insertSubgroup_inserts (graph : Graph) {parent : GroupId} (group : Group)
    (hParent : parent.index < graph.groups.size) :
    Inserts parent [⟨graph.groups.size⟩] graph (graph.insertSubgroup parent group).1 ∧
      (graph.insertSubgroup parent group).1.group ⟨graph.groups.size⟩ =
        { group with parent := some parent, serial := graph.size } := by
  have hSize := groups_size_insertSubgroup graph parent group
  refine ⟨⟨loads_insertSubgroup graph parent group (Nat.le_refl _), ?_, ?_, ?_⟩, ?_⟩
  · intro g hg hne
    rw [group_insertSubgroup graph group hParent, if_neg hne, group_addGroup_old _ hg]
  · rw [group_insertSubgroup graph group hParent, if_pos rfl]
  · rw [hSize]
    exact .singleton (Nat.le_refl _) (Nat.lt_succ_self _)
  · have hNew : (⟨graph.groups.size⟩ : GroupId) ≠ parent := by
      rintro rfl
      exact Nat.lt_irrefl _ hParent
    rw [group_insertSubgroup graph group hParent, if_neg hNew, group_addGroup_new]

/-- Nodes that are inserted into a group get rising numbers. -/
theorem insertNodes_rises (graph : Graph) {p : GroupId} (hp : p.index < graph.groups.size)
    (nodes : List Node) (hNodes : ∀ node ∈ nodes, node.parent = .group p) :
    graph.nodes.size ≤ (graph.insertNodes nodes).nodes.size ∧
    ∃ ids, ((graph.insertNodes nodes).group p).nodes = (graph.group p).nodes ++ ids ∧
      Rises graph.nodes.size (graph.insertNodes nodes).nodes.size (ids.map NodeId.index) := by
  induction nodes generalizing graph with
  | nil => exact ⟨Nat.le_refl _, [], by simp [insertNodes], .nil _ _⟩
  | cons node rest ih =>
      obtain ⟨hParent, hRest⟩ := List.forall_mem_cons.mp hNodes
      obtain ⟨hLe, ids, hIds, hRises⟩ := ih (graph.insertNode node).1
        (by rw [groups_size_insertNode]; exact hp) hRest
      have hSize : (graph.insertNode node).1.nodes.size = graph.nodes.size + 1 := by simp
      rw [hSize] at hLe hRises
      have hFirst : Rises graph.nodes.size (graph.nodes.size + 1) [graph.nodes.size] :=
        .singleton (Nat.le_refl _) (Nat.lt_succ_self _)
      refine ⟨Nat.le_of_succ_le hLe, ⟨graph.nodes.size⟩ :: ids, ?_,
        hFirst.append hRises (Nat.le_succ _) hLe⟩
      show (((graph.insertNode node).1.insertNodes rest).group p).nodes = _
      rw [hIds, group_insertNode hParent, if_pos ⟨rfl, hp⟩, List.append_assoc,
        List.singleton_append]

/-- Nodes are put at the end of a group: the other groups stay. -/
structure Appends (p : GroupId) (ids : List NodeId) (nodes : List Node) (before after : Graph) :
    Prop where
  loads : Loads p.index before after
  groups_size : after.groups.size = before.groups.size
  group_eq : after.group p = { before.group p with nodes := (before.group p).nodes ++ ids }
  others : ∀ g ≠ p, after.group g = before.group g
  nodes_at : List.Forall₂ after.IsAt ids nodes
  rises : Rises before.nodes.size after.nodes.size (ids.map NodeId.index)

theorem Appends.inserts {p parent : GroupId} {ids : List NodeId} {nodes : List Node}
    {subgroups : List GroupId} {graph : Graph} (h : Appends p ids nodes before after)
    (hp : graph.groups.size ≤ p.index) (hParent : parent.index < graph.groups.size)
    (hBefore : Inserts parent subgroups graph before) : Inserts parent subgroups graph after := by
  have hOther : ∀ g : GroupId, g.index < graph.groups.size → g ≠ p := by
    rintro g hg rfl
    omega
  refine ⟨hBefore.loads.trans { h.loads with group_eq := ?_ }, ?_, ?_, ?_⟩
  · exact fun g hg => h.loads.group_eq g (by omega)
  · intro g hg hne
    rw [h.others g (hOther g hg), hBefore.others g hg hne]
  · rw [h.others parent (hOther parent hParent), hBefore.parent_eq]
  · rw [h.groups_size]
    exact hBefore.rises

theorem Appends.toExtends {p : GroupId} {ids : List NodeId} {nodes : List Node}
    (h : Appends p ids nodes before after) (hp : p.index < low) : Extends low before after where
  nodes_le := h.loads.nodes_le
  groups_le := h.loads.groups_le
  node_eq := h.loads.node_eq
  group_eq g hLow _ := h.others g (by rintro rfl; omega)

theorem insertNodes_appends (graph : Graph) {p : GroupId} (hp : p.index < graph.groups.size)
    (nodes : List Node) (hNodes : ∀ node ∈ nodes, node.parent = .group p ∧
      ((graph.group p).kind = .classBody → node.importTokens = []) ∧
      ∀ name ∈ node.importTokens, name = Dotted.join [(graph.group p).token, node.token]) :
    ∃ ids, Appends p ids nodes graph (graph.insertNodes nodes) := by
  have hParents := fun node hNode => (hNodes node hNode).1
  obtain ⟨hLoads, hSize, ids, hGroup, hAt⟩ := insertNodes_spec graph hp (Nat.le_refl _) nodes hNodes
  obtain ⟨_, ids', hIds, hRises⟩ := insertNodes_rises graph hp nodes hParents
  rw [hGroup] at hIds
  obtain rfl : ids = ids' := List.append_cancel_left hIds
  exact ⟨ids, hLoads, hSize, hGroup, fun g hg => group_insertNodes_of_ne graph hg nodes hParents,
    hAt, hRises⟩

/-! ## Mirrors -/

/-- A group has what a class definition says. -/
structure IsClass (graph : Graph) (g : GroupId) (definition : Tree) : Prop where
  kind_eq : (graph.group g).kind = .classBody
  token_eq : (graph.group g).token = definition.definedName
  line_eq : (graph.group g).line = definition.line

/-- A group mirrors a class, at a depth and with nodes of a given kind: it lists the methods and has a
subgroup for each class inside, in source order and each once. -/
inductive MirrorsClass (graph : Graph) (isFunction : Nat → GroupId → NodeId → Tree → Prop) :
    Nat → GroupId → Tree → Prop
  | mk {depth : Nat} {g : GroupId} {definition : Tree}
      (isClass : graph.IsClass g definition)
      (methods : List.Forall₂ (isFunction depth g) (graph.group g).nodes definition.functions)
      (nodup : (graph.group g).nodes.Nodup ∧ (graph.group g).subgroups.Nodup)
      (parents : ∀ s ∈ (graph.group g).subgroups, (graph.group s).parent = some g)
      (count : (graph.group g).subgroups.length = definition.classes.length)
      (inside : ∀ pair ∈ (graph.group g).subgroups.zip definition.classes,
        MirrorsClass graph isFunction (depth + 1) pair.1 pair.2) :
      MirrorsClass graph isFunction depth g definition

/-- A node is read from a function definition at a depth, in the scope that is seen there. -/
def IsRead (graph : Graph) (scope : Scope) (depth : Nat) (g : GroupId) (n : NodeId)
    (definition : Tree) : Prop :=
  graph.IsAt n (functionNode (decide (0 < depth)) g (graph.group g).token
    (FunctionOutline.ofTree (decide (0 < depth)) (scope.atDepth depth) definition))

/-- Loading a class puts a group below the parent, which mirrors the class in every later state of the
tables. -/
def LoadsMirrored (scope : Scope) (depth : Nat) (definition : Tree) : Prop :=
  ∀ (graph : Graph) (parent : GroupId) (token : String), parent.index < graph.groups.size →
    Inserts parent [⟨graph.groups.size⟩] graph
        (graph.insertClass parent token (.ofTree (scope.atDepth depth) definition)) ∧
      ∀ after, Extends graph.groups.size
        (graph.insertClass parent token (.ofTree (scope.atDepth depth) definition)) after →
        (after.group ⟨graph.groups.size⟩).parent = some parent ∧
          after.MirrorsClass (after.IsRead scope) depth ⟨graph.groups.size⟩ definition

theorem insertClasses_mirrors (scope : Scope) (depth : Nat) (definitions : List Tree)
    (h : ∀ definition ∈ definitions, LoadsMirrored scope depth definition)
    (graph : Graph) (parent : GroupId) (token : String) (hParent : parent.index < graph.groups.size) :
    ∃ ids, Inserts parent ids graph
        (graph.insertClasses parent token (definitions.map (.ofTree (scope.atDepth depth)))) ∧
      ∀ after, Extends graph.groups.size
        (graph.insertClasses parent token (definitions.map (.ofTree (scope.atDepth depth)))) after →
        List.Forall₂ (fun s definition => (after.group s).parent = some parent ∧
          after.MirrorsClass (after.IsRead scope) depth s definition) ids definitions := by
  induction definitions generalizing graph with
  | nil =>
      refine ⟨[], ⟨.refl _ _, fun _ _ _ => rfl, ?_, .nil _ _⟩, fun _ _ => .nil⟩
      rw [List.append_nil]
      rfl
  | cons first rest ih =>
      obtain ⟨hFirst, hMirror⟩ := h first (List.mem_cons_self ..) graph parent token hParent
      have hSizes := hFirst.loads.groups_le
      obtain ⟨ids, hRest, hMirrors⟩ := ih (fun d hd => h d (List.mem_cons_of_mem _ hd))
        (graph.insertClass parent token (.ofTree (scope.atDepth depth) first))
        (Nat.lt_of_lt_of_le hParent hSizes)
      refine ⟨_ :: ids, hFirst.append hRest, fun after hAfter => .cons ?_ ?_⟩
      · exact hMirror after ((hRest.toExtends hParent).trans hAfter)
      · exact hMirrors after (hAfter.mono hSizes)

theorem openedClass_spec (graph : Graph) {parent : GroupId} (token : String)
    (outline : ClassOutline) (hParent : parent.index < graph.groups.size) :
    Inserts parent [⟨graph.groups.size⟩] graph (graph.openedClass parent token outline) ∧
      (graph.openedClass parent token outline).groups.size = graph.groups.size + 1 ∧
      ∃ methods, (graph.openedClass parent token outline).group ⟨graph.groups.size⟩ =
          { classGroup token outline with
            parent := some parent, serial := graph.size, nodes := methods } ∧
        List.Forall₂ (graph.openedClass parent token outline).IsAt methods
          (outline.functions.map (functionNode true ⟨graph.groups.size⟩ outline.token)) ∧
        methods.Nodup := by
  obtain ⟨hInserts, hGroup⟩ := insertSubgroup_inserts graph (classGroup token outline) hParent
  have hSize := groups_size_insertSubgroup graph parent (classGroup token outline)
  obtain ⟨methods, hAppends⟩ := insertNodes_appends
    (graph.insertSubgroup parent (classGroup token outline)).1 (p := ⟨graph.groups.size⟩)
    (by rw [hSize]; exact Nat.lt_succ_self _)
    (outline.functions.map (functionNode true ⟨graph.groups.size⟩ outline.token)) (by
      intro node hNode
      obtain ⟨function, _, rfl⟩ := List.mem_map.mp hNode
      exact ⟨rfl, fun _ => rfl, fun _ hName => absurd hName List.not_mem_nil⟩)
  refine ⟨hAppends.inserts (Nat.le_refl _) hParent hInserts, hAppends.groups_size.trans hSize,
    methods, ?_, hAppends.nodes_at, hAppends.rises.nodup_of_map⟩
  rw [openedClass, hAppends.group_eq, hGroup]
  rfl

/-- A class is mirrored by the group it is loaded into. -/
theorem insertClass_mirrors (scope : Scope) (definition : Tree) :
    ∀ depth, 0 < depth → LoadsMirrored scope depth definition := by
  induction definition using Tree.classes_induction with
  | step definition ih =>
      intro depth hDepth graph parent token hParent
      have hInner : scope.atDepth (depth + 1) = [] := if_neg (by omega)
      have hOutline := ClassOutline.ofTree_eq (scope.atDepth depth) definition
      rw [← hInner] at hOutline
      generalize ClassOutline.ofTree (scope.atDepth depth) definition = outline at hOutline ⊢
      have hClasses : outline.classes =
          definition.classes.map (.ofTree (scope.atDepth (depth + 1))) := by rw [hOutline]; rfl
      obtain ⟨hOpened, hSize, methods, hGroup, hMethods, hNodup⟩ :=
        openedClass_spec graph token outline hParent
      rw [insertClass_eq, hClasses]
      generalize hNew : (⟨graph.groups.size⟩ : GroupId) = new at hOpened hGroup hMethods ⊢
      have hIndex : new.index = graph.groups.size := hNew ▸ rfl
      obtain ⟨subgroups, hInserts, hMirrors⟩ := insertClasses_mirrors scope (depth + 1)
        definition.classes
        (fun c hc => ih c hc (depth + 1) (Nat.succ_pos _))
        (graph.openedClass parent token outline) new outline.token (by omega)
      refine ⟨hOpened.inside hInserts (by omega) hParent, fun after hAfter => ?_⟩
      have hGroups := hInserts.loads.groups_le
      have hLast : after.group new = { classGroup token outline with
          parent := some parent, serial := graph.size, nodes := methods,
          subgroups := subgroups } := by
        rw [hAfter.group_eq new (by omega) (by omega), hInserts.parent_eq, hGroup]
        rfl
      have hNodes : Extends (new.index + 1) (graph.openedClass parent token outline) after :=
        (hInserts.toExtends (Nat.lt_succ_self _)).trans (hAfter.mono (by omega))
      obtain ⟨hParents, hInside⟩ := (List.forall₂_and_left _ _).mp
        (hMirrors after (hAfter.mono (by omega)))
      obtain ⟨hCount, hZip⟩ := List.forall₂_iff_zip.mp hInside
      refine ⟨by rw [hLast], .mk ⟨?_, ?_, ?_⟩ ?_ ⟨?_, ?_⟩ ?_ ?_ ?_⟩ <;> rw [hLast]
      · rfl
      · rw [hOutline]
        rfl
      · rw [hOutline]
        rfl
      · have hFunctions : outline.functions = definition.functions.map
            (FunctionOutline.ofTree true (scope.atDepth depth)) := by rw [hOutline]; rfl
        rw [hFunctions, List.map_map, List.forall₂_map_right_iff] at hMethods
        refine hMethods.imp fun n function hAt => ?_
        rw [IsRead, hLast, decide_eq_true hDepth]
        exact hAt.extend hNodes
      · exact hNodup
      · exact hInserts.rises.nodup_of_map
      · exact hParents
      · exact hCount
      · exact fun pair hPair => hZip hPair

/-! ## Files -/

/-- The node of the code outside all functions. -/
structure IsRoot (graph : Graph) (g : GroupId) (n : NodeId) : Prop where
  token_eq : (graph.node n).token = "(global)"
  line_eq : (graph.node n).line = some 0
  parent_eq : (graph.node n).parent = .group g
  signature_eq : (graph.node n).signature = none
  not_constructor : (graph.node n).isConstructor = false
  not_library : (graph.node n).isLibrary = false

/-- A node has what an import statement says: it stands for the first module that is named. -/
structure IsImport (graph : Graph) (g : GroupId) (n : NodeId) (statement : Tree) : Prop where
  token_eq : (graph.node n).token =
    ((statement.trees .names).head?.bind (Tree.text? · "name")).getD ""
  line_eq : (graph.node n).line = statement.line
  parent_eq : (graph.node n).parent = .group g
  signature_eq : (graph.node n).signature = none
  not_constructor : (graph.node n).isConstructor = false
  isLibrary : (graph.node n).isLibrary = true

/-- A group mirrors a module, with nodes of a given kind for the functions: it lists the node of the
global code, the functions and the import statements, and has a subgroup for each class. -/
structure MirrorsFile (graph : Graph) (isFunction : Nat → GroupId → NodeId → Tree → Prop)
    (g : GroupId) (tree : Tree) (path : String) : Prop where
  kind_eq : (graph.group g).kind = .file
  token_eq : (graph.group g).token = FileOutline.importToken path
  line_eq : (graph.group g).line = some 0
  parent_eq : (graph.group g).parent = none
  nodes : ∃ root functions imports, (graph.group g).nodes = root :: (functions ++ imports) ∧
    (graph.group g).root = some root ∧ graph.IsRoot g root ∧
    List.Forall₂ (isFunction 0 g) functions tree.functions ∧
    List.Forall₂ (graph.IsImport g) imports tree.imports
  nodup : (graph.group g).nodes.Nodup ∧ (graph.group g).subgroups.Nodup
  parents : ∀ s ∈ (graph.group g).subgroups, (graph.group s).parent = some g
  classes : List.Forall₂ (graph.MirrorsClass isFunction 1) (graph.group g).subgroups tree.classes

theorem isRoot_of_isAt {g : GroupId} {n : NodeId} {file : FileOutline}
    (h : graph.IsAt n (rootNode g file)) : graph.IsRoot g n := by
  obtain ⟨_, serial, hNode⟩ := h
  constructor <;> rw [hNode] <;> rfl

theorem isImport_of_isAt {g : GroupId} {n : NodeId} {token : String} {statement : Tree}
    (h : graph.IsAt n (importNode g token (.ofTree statement))) : graph.IsImport g n statement := by
  obtain ⟨_, serial, hNode⟩ := h
  constructor <;> rw [hNode] <;> rfl

/-- A file is loaded in four steps: its group with the global code, the functions, the classes, which
are mirrored, and the imports. -/
theorem insertFile_spec (graph : Graph) (file : FileOutline) (definitions : List Tree)
    (hClasses : file.classes = definitions.map (.ofTree file.scope)) :
    ∃ root functions imports subgroups,
      (graph.insertFile file).1.group (graph.insertFile file).2 = { fileGroup file with
        serial := graph.size, root := some root, nodes := root :: (functions ++ imports),
        subgroups := subgroups } ∧
      (root :: (functions ++ imports)).Nodup ∧ subgroups.Nodup ∧
      (graph.insertFile file).1.IsAt root (rootNode (graph.insertFile file).2 file) ∧
      List.Forall₂ (graph.insertFile file).1.IsAt functions
        (file.functions.map (functionNode false (graph.insertFile file).2 file.token)) ∧
      List.Forall₂ (graph.insertFile file).1.IsAt imports
        (file.imports.map (importNode (graph.insertFile file).2 file.token)) ∧
      List.Forall₂ (fun s definition =>
        ((graph.insertFile file).1.group s).parent = some (graph.insertFile file).2 ∧
          (graph.insertFile file).1.MirrorsClass ((graph.insertFile file).1.IsRead file.scope) 1 s
            definition) subgroups definitions := by
  obtain ⟨_, hSize, _, _, _, hRoot⟩ := opened_spec graph file
  have hOpened := group_opened graph file
  rw [insertFile_eq_opened]
  generalize hNew : (⟨graph.groups.size⟩ : GroupId) = g at hRoot hOpened ⊢
  have hIndex : g.index = graph.groups.size := hNew ▸ rfl
  generalize graph.opened file = opened at hSize hRoot hOpened ⊢
  -- the functions stand behind the global code
  obtain ⟨functions, hFilled⟩ := insertNodes_appends opened (p := g) (by omega)
    (file.functions.map (functionNode false g file.token)) (by
      intro node hNode
      obtain ⟨function, _, rfl⟩ := List.mem_map.mp hNode
      rw [hOpened]
      exact ⟨rfl, by simp [fileGroup], fun _ hName => List.mem_singleton.mp hName⟩)
  have hFilledSize := hFilled.groups_size
  generalize opened.insertNodes (file.functions.map (functionNode false g file.token)) = filled
    at hFilled hFilledSize ⊢
  -- the classes are put below the group
  obtain ⟨subgroups, hInserts, hMirrors⟩ := insertClasses_mirrors file.scope 1 definitions
    (fun c _ => insertClass_mirrors file.scope c 1 Nat.one_pos) filled g file.token
    (by omega)
  rw [show file.scope.atDepth 1 = file.scope from rfl, ← hClasses] at hInserts hMirrors
  have hMore := hInserts.loads.groups_le
  generalize filled.insertClasses g file.token file.classes = nested at hInserts hMirrors hMore ⊢
  have hNested : nested.group g = { fileGroup file with
      serial := graph.size, root := some ⟨graph.nodes.size⟩,
      nodes := ⟨graph.nodes.size⟩ :: functions, subgroups := subgroups } := by
    rw [hInserts.parent_eq, hFilled.group_eq, hOpened]
    rfl
  -- the imports come last
  obtain ⟨imports, hLast⟩ := insertNodes_appends nested (p := g) (by omega)
    (file.imports.map (importNode g file.token)) (by
      intro node hNode
      obtain ⟨item, _, rfl⟩ := List.mem_map.mp hNode
      rw [hNested]
      exact ⟨rfl, by simp [fileGroup], fun _ hName => List.mem_singleton.mp hName⟩)
  generalize nested.insertNodes (file.imports.map (importNode g file.token)) = after at hLast ⊢
  have hGroup : after.group g = { fileGroup file with
      serial := graph.size, root := some ⟨graph.nodes.size⟩,
      nodes := ⟨graph.nodes.size⟩ :: (functions ++ imports), subgroups := subgroups } := by
    rw [hLast.group_eq, hNested]
    rfl
  have hLater : Extends (g.index + 1) filled after :=
    (hInserts.toExtends (Nat.lt_succ_self _)).trans (hLast.toExtends (Nat.lt_succ_self _))
  refine ⟨⟨graph.nodes.size⟩, functions, imports, subgroups, hGroup, ?_,
    hInserts.rises.nodup_of_map, ?_, ?_, hLast.nodes_at, ?_⟩
  · have hFirst : Rises graph.nodes.size opened.nodes.size [graph.nodes.size] :=
      .singleton (Nat.le_refl _) hRoot.1
    have hFront := hFirst.append hFilled.rises (Nat.le_of_lt hRoot.1) hFilled.loads.nodes_le
    have hAll := (hFront.mono hInserts.loads.nodes_le).append hLast.rises
      (Nat.le_trans (Nat.le_trans (Nat.le_of_lt hRoot.1) hFilled.loads.nodes_le)
        hInserts.loads.nodes_le) hLast.loads.nodes_le
    rw [List.append_assoc, ← List.map_append] at hAll
    exact Rises.nodup_of_map (show Rises _ _
      ((⟨graph.nodes.size⟩ :: (functions ++ imports)).map NodeId.index) from hAll)
  · exact (hRoot.loads hFilled.loads).extend hLater
  · exact hFilled.nodes_at.imp fun _ _ hAt => hAt.extend hLater
  · exact hMirrors after (hLast.toExtends (by omega))

/-- A file is mirrored by the group it is loaded into. -/
theorem insertFile_mirrors (graph : Graph) (tree : Tree) (path : String) :
    (graph.insertFile (.ofTree tree path)).1.MirrorsFile
      ((graph.insertFile (.ofTree tree path)).1.IsRead (FileOutline.ofTree tree path).scope)
      (graph.insertFile (.ofTree tree path)).2 tree path := by
  obtain ⟨root, functions, imports, subgroups, hGroup, hNodes, hSubgroups, hRoot, hFunctions,
    hImports, hClasses⟩ := insertFile_spec graph (.ofTree tree path) tree.classes
      (FileOutline.classes_ofTree tree path)
  rw [FileOutline.functions_ofTree, List.map_map, List.forall₂_map_right_iff] at hFunctions
  rw [FileOutline.imports_ofTree, List.map_map, List.forall₂_map_right_iff] at hImports
  obtain ⟨hParents, hMirrors⟩ := (List.forall₂_and_left _ _).mp hClasses
  refine ⟨?_, ?_, ?_, ?_, ⟨root, functions, imports, ?_, ?_, isRoot_of_isAt hRoot, ?_, ?_⟩, ?_, ?_,
    ?_⟩
  · rw [hGroup]; rfl
  · rw [hGroup]; rfl
  · rw [hGroup]; rfl
  · rw [hGroup]; rfl
  · rw [hGroup]
  · rw [hGroup]
  · refine hFunctions.imp fun n function hAt => ?_
    rw [IsRead, hGroup]
    exact hAt
  · exact hImports.imp fun _ _ hAt => isImport_of_isAt hAt
  · rw [hGroup]
    exact ⟨hNodes, hSubgroups⟩
  · rw [hGroup]
    exact hParents
  · rw [hGroup]
    exact hMirrors

/-! ## The nodes of functions -/

/-- A node has what a function definition at a depth says; methods may be constructors. -/
structure IsFunction (graph : Graph) (depth : Nat) (g : GroupId) (n : NodeId) (definition : Tree) :
    Prop where
  token_eq : (graph.node n).token = definition.definedName
  line_eq : (graph.node n).line = definition.line
  parent_eq : (graph.node n).parent = .group g
  isConstructor_iff : (graph.node n).isConstructor = true ↔
    0 < depth ∧ (definition.definedName = "__init__" ∨ definition.definedName = "__new__")
  not_library : (graph.node n).isLibrary = false

theorem IsRead.isFunction {scope : Scope} {depth : Nat} {g : GroupId} {n : NodeId}
    {definition : Tree} (h : graph.IsRead scope depth g n definition) :
    graph.IsFunction depth g n definition := by
  obtain ⟨_, serial, hNode⟩ := h
  refine ⟨?_, ?_, ?_, ?_, ?_⟩ <;> rw [hNode]
  · rfl
  · rfl
  · rfl
  · simp [functionNode, FunctionOutline.isConstructor, FunctionOutline.ofTree, Tree.definedName]
  · rfl

section Imp

variable {isFunction isFunction' : Nat → GroupId → NodeId → Tree → Prop}
  (h : ∀ depth g n definition, isFunction depth g n definition → isFunction' depth g n definition)
include h

theorem MirrorsClass.imp {depth : Nat} {g : GroupId} {definition : Tree}
    (hMirrors : graph.MirrorsClass isFunction depth g definition) :
    graph.MirrorsClass isFunction' depth g definition := by
  induction hMirrors with
  | mk isClass methods nodup parents count _ ih =>
      exact .mk isClass (methods.imp fun n function => h _ _ n function) nodup parents count ih

theorem MirrorsFile.imp {g : GroupId} {tree : Tree} {path : String}
    (hMirrors : graph.MirrorsFile isFunction g tree path) :
    graph.MirrorsFile isFunction' g tree path := by
  obtain ⟨root, functions, imports, hNodes, hRoot, hIsRoot, hFunctions, hImports⟩ := hMirrors.nodes
  exact
    { hMirrors with
      nodes := ⟨root, functions, imports, hNodes, hRoot, hIsRoot,
        hFunctions.imp fun n function => h _ _ n function, hImports⟩
      classes := hMirrors.classes.imp fun _ _ hClass => hClass.imp h }

end Imp

/-- **The group tree mirrors the definition tree.** The group of a file lists the global code, a node
for each function and a library node for each import statement, and at every depth the group of a
class lists its methods and its classes, as they stand in the source: each has the token and line of
its definition and the group around it as its parent, and the constructors are the methods named so. -/
theorem insertFile_mirrors_definitions (graph : Graph) (tree : Tree) (path : String) :
    (graph.insertFile (.ofTree tree path)).1.MirrorsFile
      (graph.insertFile (.ofTree tree path)).1.IsFunction (graph.insertFile (.ofTree tree path)).2
      tree path :=
  (insertFile_mirrors graph tree path).imp fun _ _ _ _ hRead => hRead.isFunction

end Graph

end CallGraph
