import CallGraph.Analysis.Trim
import CallGraph.Proofs.Building

/-!
# Graphs that grow

From the moment bindings are settled until the chart is cut, a graph only grows: nodes are put at
the ends of groups, groups are added and hung below others, and edges leave a mark at their ends.
`Graph.Sound` is what holds all the while, `Graph.Grows` is what one state of the graph has to do
with a later one, and each operation is described once, by the two together.

A group that is added stands at the top until it is hung somewhere. So the roots of the forest are
the files and, for a while, the packages that have no place yet, and `Roots` and `Covered` hold
through the whole of it.

## Main definitions

* `Node.Regular` — a node without a body calls nothing and returns nothing.
* `Node.isInvented` — the node was made up to resolve a call.
* `Graph.Sound` — the invariant.
* `Graph.Grows` — a later state of a graph.
-/

namespace CallGraph

/-- Old nodes with new ones behind them are different if each of the two lists has no node twice. -/
theorem nodup_append_of_index {first last : List NodeId} {bound : Nat} (hFirst : first.Nodup)
    (hLast : last.Nodup) (hOld : ∀ n ∈ first, n.index < bound)
    (hNew : ∀ n ∈ last, bound ≤ n.index) : (first ++ last).Nodup := by
  refine List.nodup_append.mpr ⟨hFirst, hLast, ?_⟩
  rintro n hn m hm rfl
  have hLt := hOld n hn
  have hLe := hNew n hm
  omega

/-- What every node keeps to, whatever it was made for. -/
structure Node.Regular (node : Node) : Prop where
  calls_nil : node.bindings = none → node.calls = []
  signature_none : node.bindings = none → node.signature = none
  library_bodiless : node.isLibrary = true → node.bindings = none
  missing_bodiless : node.isMissing = true → node.bindings = none ∧ node.isLibrary = false

/-- Being regular does not depend on what names a body binds. -/
theorem Node.Regular.rebind {node : Node} (h : node.Regular) {bindings : Option (List Binding)}
    (hSome : bindings.isSome = node.bindings.isSome) :
    { node with bindings := bindings }.Regular := by
  have hNone : bindings = none ↔ node.bindings = none := by
    rw [← Option.not_isSome_iff_eq_none, hSome, Option.not_isSome_iff_eq_none]
  exact ⟨fun hNil => h.calls_nil (hNone.mp hNil), fun hNil => h.signature_none (hNone.mp hNil),
    fun hLibrary => hNone.mpr (h.library_bodiless hLibrary),
    fun hMissing => ⟨hNone.mpr (h.missing_bodiless hMissing).1, (h.missing_bodiless hMissing).2⟩⟩

/--
Whether a node was made up while a call was resolved: a constructor that the class does not spell
out, or the anonymous function that a function returns. It has no body, like a library node or a
placeholder, and is neither of them.
-/
def Node.isInvented (node : Node) : Bool :=
  node.bindings.isNone && !node.isLibrary && !node.isMissing

theorem Node.not_invented_of_library {node : Node} (h : node.isLibrary = true) :
    node.isInvented = false := by
  simp [Node.isInvented, h]

/-- A node that was made up and can be seen: it has a name, but no line. -/
structure Node.Lineless (node : Node) : Prop where
  invented : node.isInvented = true
  token_ne : node.token ≠ ""
  line_none : node.line = none

/-- A binding that stands for a node stands for a listed one. -/
def Target.Within (graph : Graph) : Target → Prop
  | .node n => graph.Listed n
  | _ => True

namespace Graph

open Chart (isLibraryGroup)

/-- What holds of a graph from settling its bindings to cutting it down. -/
structure Sound (graph : Graph) : Prop extends WellFormed graph where
  regular : ∀ n : NodeId, n.index < graph.nodes.size → (graph.node n).Regular
  bound : ∀ {n bindings binding}, (graph.node n).bindings = some bindings → binding ∈ bindings →
    binding.target.Within graph
  inherited_listed : ∀ {g nodes n}, nodes ∈ (graph.group g).inherited → n ∈ nodes → graph.Listed n
  /-- Only packages stand for libraries. -/
  library_kind : ∀ {g}, isLibraryGroup (graph.group g) = true → (graph.group g).kind = .package
  library_flat : ∀ {g}, isLibraryGroup (graph.group g) = true → (graph.group g).subgroups = []
  library_nodes : ∀ {g n}, isLibraryGroup (graph.group g) = true → n ∈ (graph.group g).nodes →
    (graph.node n).isLibrary = true
  /-- Only files contain anything but classes. -/
  inner_class : ∀ {g s}, s ∈ (graph.group g).subgroups → (graph.group g).kind ≠ .file →
    (graph.group s).kind = .classBody
  /-- Only files have root nodes, which have a body and are no functions. -/
  root_spec : ∀ {g r}, (graph.group g).root = some r → (graph.group g).kind = .file ∧
    (graph.node r).bindings.isSome ∧ (graph.node r).signature = none

/-- A later state of a graph: entries stay, lists become longer, marks may appear. -/
structure Grows (before after : Graph) : Prop where
  nodes_le : before.nodes.size ≤ after.nodes.size
  groups_le : before.groups.size ≤ after.groups.size
  /-- A node keeps everything but its marks. -/
  node_eq : ∀ n : NodeId, n.index < before.nodes.size →
    ∃ leaf trunk, after.node n = { before.node n with isLeaf := leaf, isTrunk := trunk }
  /-- A group keeps everything but its place and the ends of its lists. -/
  group_eq : ∀ g : GroupId, g.index < before.groups.size →
    ∃ parent nodes subgroups, after.group g =
      { before.group g with
        parent := parent
        nodes := (before.group g).nodes ++ nodes
        subgroups := (before.group g).subgroups ++ subgroups }
  /-- What is new calls nothing and has no body. -/
  calls_of_new : ∀ n : NodeId, before.nodes.size ≤ n.index → (after.node n).calls = []
  bodiless_of_new : ∀ n : NodeId, before.nodes.size ≤ n.index →
    (after.node n).bindings = none ∧ (after.node n).signature = none
  rootless_of_new : ∀ g : GroupId, before.groups.size ≤ g.index → (after.group g).root = none
  /-- Only packages are hung into groups. -/
  library_of_hung : ∀ {g s}, s ∈ (after.group g).subgroups → s ∈ (before.group g).subgroups ∨
    isLibraryGroup (after.group s) = true
  /-- A node comes into a group with a root only beside a function, and it has no line. -/
  beside_function : ∀ {g n}, (after.group g).root.isSome → n ∈ (after.group g).nodes →
    n ∈ (before.group g).nodes ∨ ((after.node n).Lineless ∧
      ∃ m ∈ (before.group g).nodes, (before.node m).signature.isSome)

namespace Grows

variable {before middle after : Graph}

theorem refl (graph : Graph) : graph.Grows graph where
  nodes_le := Nat.le_refl _
  groups_le := Nat.le_refl _
  node_eq n _ := ⟨(graph.node n).isLeaf, (graph.node n).isTrunk, rfl⟩
  group_eq g _ := ⟨(graph.group g).parent, [], [], by simp⟩
  calls_of_new n h := by rw [graph.node_eq_default h]; rfl
  bodiless_of_new n h := by rw [graph.node_eq_default h]; exact ⟨rfl, rfl⟩
  rootless_of_new g h := by rw [graph.group_eq_default h]; rfl
  library_of_hung hs := Or.inl hs
  beside_function _ hn := Or.inl hn

theorem trans (hFirst : before.Grows middle) (hLast : middle.Grows after) :
    before.Grows after where
  nodes_le := Nat.le_trans hFirst.nodes_le hLast.nodes_le
  groups_le := Nat.le_trans hFirst.groups_le hLast.groups_le
  node_eq n hn := by
    obtain ⟨_, _, hMiddle⟩ := hFirst.node_eq n hn
    obtain ⟨leaf, trunk, hAfter⟩ := hLast.node_eq n (Nat.lt_of_lt_of_le hn hFirst.nodes_le)
    exact ⟨leaf, trunk, by rw [hAfter, hMiddle]⟩
  group_eq g hg := by
    obtain ⟨_, nodes, subgroups, hMiddle⟩ := hFirst.group_eq g hg
    obtain ⟨parent, nodes', subgroups', hAfter⟩ :=
      hLast.group_eq g (Nat.lt_of_lt_of_le hg hFirst.groups_le)
    exact ⟨parent, nodes ++ nodes', subgroups ++ subgroups', by simp [hAfter, hMiddle]⟩
  calls_of_new n hn := by
    rcases Nat.lt_or_ge n.index middle.nodes.size with hLt | hGe
    · obtain ⟨_, _, hAfter⟩ := hLast.node_eq n hLt
      rw [hAfter]
      exact hFirst.calls_of_new n hn
    · exact hLast.calls_of_new n hGe
  bodiless_of_new n hn := by
    rcases Nat.lt_or_ge n.index middle.nodes.size with hLt | hGe
    · obtain ⟨_, _, hAfter⟩ := hLast.node_eq n hLt
      rw [hAfter]
      exact hFirst.bodiless_of_new n hn
    · exact hLast.bodiless_of_new n hGe
  rootless_of_new g hg := by
    rcases Nat.lt_or_ge g.index middle.groups.size with hLt | hGe
    · obtain ⟨_, _, _, hAfter⟩ := hLast.group_eq g hLt
      rw [hAfter]
      exact hFirst.rootless_of_new g hg
    · exact hLast.rootless_of_new g hGe
  library_of_hung {g s} hs := by
    refine (hLast.library_of_hung hs).elim (fun hs => (hFirst.library_of_hung hs).imp_right ?_)
      Or.inr
    intro hLibrary
    have hLt : s.index < middle.groups.size := by
      by_contra hGe
      rw [middle.group_eq_default (Nat.not_lt.mp hGe)] at hLibrary
      exact absurd hLibrary (by decide)
    obtain ⟨_, _, _, hAfter⟩ := hLast.group_eq s hLt
    rw [hAfter]
    exact hLibrary
  beside_function {g n} hRoot hn := by
    have hMiddleRoot : (middle.group g).nodes ≠ [] → (middle.group g).root.isSome := by
      intro hNodes
      obtain ⟨m, hm⟩ := List.exists_mem_of_ne_nil _ hNodes
      obtain ⟨_, _, _, hAfter⟩ := hLast.group_eq g (middle.group_lt_of_nodes hm)
      rw [hAfter] at hRoot
      exact hRoot
    rcases hLast.beside_function hRoot hn with hn | ⟨hLineless, m, hm, hSignature⟩
    · refine (hFirst.beside_function (hMiddleRoot (List.ne_nil_of_mem hn)) hn).imp_right
        (And.imp_left fun hLineless => ?_)
      have hLt : n.index < middle.nodes.size := by
        by_contra hGe
        rw [middle.node_eq_default (Nat.not_lt.mp hGe)] at hLineless
        exact hLineless.token_ne rfl
      obtain ⟨_, _, hAfter⟩ := hLast.node_eq n hLt
      rw [hAfter]
      exact { hLineless with }
    · -- The function was there before: what is new has no signature.
      refine Or.inr ⟨hLineless, ?_⟩
      have hOld : m.index < before.nodes.size := by
        by_contra hGe
        rw [(hFirst.bodiless_of_new m (Nat.not_lt.mp hGe)).2] at hSignature
        exact absurd hSignature Bool.false_ne_true
      obtain ⟨_, _, hMiddle⟩ := hFirst.node_eq m hOld
      rw [hMiddle] at hSignature
      rcases hFirst.beside_function (hMiddleRoot (List.ne_nil_of_mem hm)) hm with hm | ⟨_, hOther⟩
      · exact ⟨m, hm, hSignature⟩
      · exact hOther

/-- A place that could be read reads the same token, parent, body and so on. -/
theorem node_field {α : Type _} (h : before.Grows after) (field : Node → α) {n : NodeId}
    (hn : n.index < before.nodes.size)
    (hField : ∀ node leaf trunk,
      field { node with isLeaf := leaf, isTrunk := trunk } = field node := by intros; rfl) :
    field (after.node n) = field (before.node n) := by
  obtain ⟨leaf, trunk, hNode⟩ := h.node_eq n hn
  rw [hNode, hField]

/-- No node comes to call anything else. -/
theorem calls_eq (h : before.Grows after) (n : NodeId) :
    (after.node n).calls = (before.node n).calls := by
  rcases Nat.lt_or_ge n.index before.nodes.size with hLt | hGe
  · exact h.node_field Node.calls hLt
  · rw [h.calls_of_new n hGe, before.node_eq_default hGe]
    rfl

/-- A group that could be read reads the same token, kind, display and so on. -/
theorem group_field {α : Type _} (h : before.Grows after) (field : Group → α) {g : GroupId}
    (hg : g.index < before.groups.size)
    (hField : ∀ group parent nodes subgroups,
      field { group with parent := parent, nodes := nodes, subgroups := subgroups } =
        field group := by intros; rfl) :
    field (after.group g) = field (before.group g) := by
  obtain ⟨parent, nodes, subgroups, hGroup⟩ := h.group_eq g hg
  rw [hGroup, hField]

theorem mem_nodes (h : before.Grows after) {g : GroupId} {n : NodeId}
    (hn : n ∈ (before.group g).nodes) : n ∈ (after.group g).nodes := by
  obtain ⟨_, nodes, _, hGroup⟩ := h.group_eq g (before.group_lt_of_nodes hn)
  rw [hGroup]
  exact List.mem_append_left _ hn

theorem mem_subgroups (h : before.Grows after) {g s : GroupId}
    (hs : s ∈ (before.group g).subgroups) : s ∈ (after.group g).subgroups := by
  obtain ⟨_, _, subgroups, hGroup⟩ := h.group_eq g (before.group_lt_of_subgroups hs)
  rw [hGroup]
  exact List.mem_append_left _ hs

theorem listed (h : before.Grows after) {n : NodeId} (hn : before.Listed n) : after.Listed n := by
  obtain ⟨g, hn⟩ := hn
  exact ⟨g, h.mem_nodes hn⟩

theorem within (h : before.Grows after) {target : Target} (hTarget : target.Within before) :
    target.Within after := by
  cases target with
  | node n => exact h.listed hTarget
  | _ => trivial

end Grows

theorem WellFormed.lt_of_listed {graph : Graph} (h : graph.WellFormed) {n : NodeId}
    (hn : graph.Listed n) : n.index < graph.nodes.size := by
  obtain ⟨g, hn⟩ := hn
  exact h.listed_lt hn

/-- The group of a listed node lists it. -/
theorem WellFormed.parent_of {graph : Graph} (h : graph.WellFormed) {n : NodeId}
    (hn : graph.Listed n) : ∃ g, (graph.node n).parent = .group g ∧ n ∈ (graph.group g).nodes := by
  obtain ⟨g, hn⟩ := hn
  exact ⟨g, h.parent_of_listed hn, hn⟩

theorem Sound.root_lt {graph : Graph} (h : graph.Sound) {g : GroupId} {r : NodeId}
    (hr : (graph.group g).root = some r) : r.index < graph.nodes.size := by
  obtain ⟨bindings, hBindings⟩ := Option.isSome_iff_exists.mp (h.root_spec hr).2.1
  exact graph.node_lt_of_bindings hBindings

variable {graph : Graph}

/-! ## A node without a body -/

/-- A node that the analysis may put into a group: it has no body. -/
structure Insertable (graph : Graph) (p : GroupId) (node : Node) : Prop where
  parent : node.parent = .group p
  bodiless : node.bindings = none
  calls_nil : node.calls = []
  signature_none : node.signature = none
  missing : node.isMissing = true → node.isLibrary = false
  /-- Library groups hold library nodes only. -/
  library : isLibraryGroup (graph.group p) = true → node.isLibrary = true
  /-- In a group with a root, the node has its place beside a function. -/
  beside : (graph.group p).root.isSome → node.Lineless ∧
    ∃ m ∈ (graph.group p).nodes, (graph.node m).signature.isSome

theorem grows_insertNode {node : Node} {p : GroupId} (hNode : graph.Insertable p node) :
    graph.Grows (graph.insertNode node).1 where
  nodes_le := by simp
  groups_le := by simp
  node_eq n hn := ⟨(graph.node n).isLeaf, (graph.node n).isTrunk, node_insertNode_of_lt node hn⟩
  group_eq g hg := by
    rw [group_insertNode hNode.parent]
    split
    · rename_i h
      exact ⟨(graph.group g).parent, [⟨graph.nodes.size⟩], [], by simp [h.1]⟩
    · exact ⟨(graph.group g).parent, [], [], by simp⟩
  calls_of_new n hn := by
    rw [node_insertNode]
    split
    · exact hNode.calls_nil
    · rw [graph.node_eq_default hn]
      rfl
  bodiless_of_new n hn := by
    rw [node_insertNode]
    split
    · exact ⟨hNode.bodiless, hNode.signature_none⟩
    · rw [graph.node_eq_default hn]
      exact ⟨rfl, rfl⟩
  rootless_of_new g hg := by
    rw [group_field_insertNode hNode.parent Group.root, graph.group_eq_default hg]
    rfl
  library_of_hung hs := Or.inl (by rwa [subgroups_insertNode hNode.parent] at hs)
  beside_function {g n} hRoot hn := by
    rw [group_field_insertNode hNode.parent Group.root] at hRoot
    refine ((mem_nodes_insertNode hNode.parent).mp hn).imp_right ?_
    rintro ⟨⟨rfl, _⟩, rfl⟩
    rw [node_insertNode_new]
    obtain ⟨hLineless, hBeside⟩ := hNode.beside hRoot
    exact ⟨{ hLineless with }, hBeside⟩

theorem listed_insertNode {node : Node} {p : GroupId} (hParent : node.parent = .group p)
    (hp : p.index < graph.groups.size) {n : NodeId} :
    (graph.insertNode node).1.Listed n ↔ graph.Listed n ∨ n = ⟨graph.nodes.size⟩ := by
  constructor
  · rintro ⟨g, hn⟩
    rcases (mem_nodes_insertNode hParent).mp hn with hOld | ⟨_, hNew⟩
    · exact Or.inl ⟨g, hOld⟩
    · exact Or.inr hNew
  · rintro (⟨g, hn⟩ | rfl)
    · exact ⟨g, (mem_nodes_insertNode hParent).mpr (Or.inl hn)⟩
    · exact ⟨p, (mem_nodes_insertNode hParent).mpr (Or.inr ⟨⟨rfl, hp⟩, rfl⟩)⟩

theorem Sound.insertNode (h : graph.Sound) {node : Node} {p : GroupId}
    (hNode : graph.Insertable p node) : (graph.insertNode node).1.Sound := by
  have hGrows : graph.Grows (graph.insertNode node).1 := grows_insertNode hNode
  have hDisplay : ∀ g, isLibraryGroup ((graph.insertNode node).1.group g) =
      isLibraryGroup (graph.group g) :=
    group_field_insertNode hNode.parent isLibraryGroup
  have hKind : ∀ g, ((graph.insertNode node).1.group g).kind = (graph.group g).kind :=
    group_field_insertNode hNode.parent Group.kind
  refine { h.toWellFormed.insertNode hNode.parent with
    regular := ?_, bound := ?_, inherited_listed := ?_, library_kind := ?_, library_flat := ?_,
    library_nodes := ?_, inner_class := ?_, root_spec := ?_ }
  · intro n hn
    rw [node_insertNode]
    split
    · exact ⟨fun _ => hNode.calls_nil, fun _ => hNode.signature_none, fun _ => hNode.bodiless,
        fun hMissing => ⟨hNode.bodiless, hNode.missing hMissing⟩⟩
    · rw [nodes_size_insertNode] at hn
      exact h.regular n (by omega)
  · intro n bindings binding hBindings hMem
    rw [node_insertNode] at hBindings
    split at hBindings
    · exact absurd (hNode.bodiless.symm.trans hBindings) (by simp)
    · exact hGrows.within (h.bound hBindings hMem)
  · intro g nodes n hNodes hMem
    rw [group_field_insertNode hNode.parent Group.inherited] at hNodes
    exact hGrows.listed (h.inherited_listed hNodes hMem)
  · intro g hg
    rw [hKind]
    exact h.library_kind (by rwa [hDisplay] at hg)
  · intro g hg
    rw [subgroups_insertNode hNode.parent]
    exact h.library_flat (by rwa [hDisplay] at hg)
  · intro g n hg hn
    rw [hDisplay] at hg
    rcases (mem_nodes_insertNode hNode.parent).mp hn with hOld | ⟨⟨rfl, _⟩, rfl⟩
    · rw [node_insertNode_of_lt node (h.listed_lt hOld)]
      exact h.library_nodes hg hOld
    · rw [node_insertNode_new]
      exact hNode.library hg
  · intro g s hs hOuter
    rw [subgroups_insertNode hNode.parent] at hs
    rw [hKind] at hOuter ⊢
    exact h.inner_class hs hOuter
  · intro g r hr
    rw [group_field_insertNode hNode.parent Group.root] at hr
    rw [hKind, node_insertNode_of_lt node (h.root_lt hr)]
    exact h.root_spec hr

/-! ## A group at the top -/

/-- A group that the analysis may add: it contains nothing yet. -/
structure Group.Blank (group : Group) : Prop where
  nodes_nil : group.nodes = []
  subgroups_nil : group.subgroups = []
  inherited_nil : group.inherited = []
  parent_none : group.parent = none
  root_none : group.root = none
  library : isLibraryGroup group = true → group.kind = .package

theorem grows_addGroup {group : Group} (hGroup : Group.Blank group) :
    graph.Grows (graph.addGroup group).1 where
  nodes_le := by simp
  groups_le := by simp
  node_eq n _ := ⟨(graph.node n).isLeaf, (graph.node n).isTrunk, by simp⟩
  group_eq g hg := by
    rw [group_addGroup_old group hg]
    exact ⟨(graph.group g).parent, [], [], by simp⟩
  calls_of_new n hn := by
    rw [node_addGroup, graph.node_eq_default hn]
    rfl
  bodiless_of_new n hn := by
    rw [node_addGroup, graph.node_eq_default hn]
    exact ⟨rfl, rfl⟩
  rootless_of_new g hg := by
    rw [group_addGroup]
    split
    · exact hGroup.root_none
    · rw [graph.group_eq_default hg]
      rfl
  library_of_hung hs := Or.inl (by rwa [subgroups_of_addGroup hGroup.subgroups_nil] at hs)
  beside_function _ hn := Or.inl (by rwa [nodes_of_addGroup hGroup.nodes_nil] at hn)

theorem listed_addGroup {group : Group} (hNodes : group.nodes = []) {n : NodeId} :
    (graph.addGroup group).1.Listed n ↔ graph.Listed n := by
  simp only [Listed, nodes_of_addGroup hNodes]

theorem Sound.addGroup (h : graph.Sound) {group : Group} (hGroup : Group.Blank group) :
    (graph.addGroup group).1.Sound := by
  have hGrows : graph.Grows (graph.addGroup group).1 := grows_addGroup hGroup
  refine { h.toWellFormed.addGroup hGroup.nodes_nil hGroup.subgroups_nil with
    regular := h.regular, bound := ?_, inherited_listed := ?_, library_kind := ?_,
    library_flat := ?_, library_nodes := ?_, inner_class := ?_, root_spec := ?_ }
  · intro n bindings binding hBindings hMem
    exact hGrows.within (h.bound hBindings hMem)
  · intro g nodes n hNodes hMem
    rw [group_addGroup] at hNodes
    split at hNodes
    · exact absurd (hGroup.inherited_nil ▸ hNodes) List.not_mem_nil
    · exact hGrows.listed (h.inherited_listed hNodes hMem)
  · intro g hg
    rw [group_addGroup] at hg ⊢
    split at hg
    · rename_i hNew
      rw [if_pos hNew]
      exact hGroup.library hg
    · rename_i hOld
      rw [if_neg hOld]
      exact h.library_kind hg
  · intro g hg
    rw [subgroups_of_addGroup hGroup.subgroups_nil]
    rw [group_addGroup] at hg
    split at hg
    · rename_i hNew
      rw [graph.group_eq_default (Nat.le_of_eq hNew.symm)]
      rfl
    · exact h.library_flat hg
  · intro g n hg hn
    rw [nodes_of_addGroup hGroup.nodes_nil] at hn
    rw [group_addGroup_old group (graph.group_lt_of_nodes hn)] at hg
    exact h.library_nodes hg hn
  · intro g s hs hOuter
    rw [subgroups_of_addGroup hGroup.subgroups_nil] at hs
    rw [group_addGroup_old group (graph.group_lt_of_subgroups hs)] at hOuter
    rw [group_addGroup_old group (h.subgroup_lt hs)]
    exact h.inner_class hs hOuter
  · intro g r hr
    rw [group_addGroup] at hr ⊢
    split at hr
    · exact absurd (hGroup.root_none.symm.trans hr) (by simp)
    · rename_i hOld
      rw [if_neg hOld]
      exact h.root_spec hr

/-! ## Hanging a package -/

section Hang

variable {file package : GroupId}

theorem grows_hang (hFile : file.index < graph.groups.size)
    (hPackage : package.index < graph.groups.size) (hne : file ≠ package)
    (hLibrary : isLibraryGroup (graph.group package) = true) :
    graph.Grows (Libraries.hang graph file package) where
  nodes_le := by simp
  groups_le := by simp
  node_eq n _ := ⟨(graph.node n).isLeaf, (graph.node n).isTrunk, rfl⟩
  group_eq g _ := by
    rw [group_hang hFile hPackage hne]
    split
    · rename_i hg
      exact ⟨some file, [], [], by simp [hg]⟩
    · split
      · rename_i hg
        exact ⟨(graph.group g).parent, [], [package], by simp [hg]⟩
      · exact ⟨(graph.group g).parent, [], [], by simp⟩
  calls_of_new n hn := by
    rw [node_hang, graph.node_eq_default hn]
    rfl
  bodiless_of_new n hn := by
    rw [node_hang, graph.node_eq_default hn]
    exact ⟨rfl, rfl⟩
  rootless_of_new g hg := by
    rw [group_field_hang hFile hPackage hne Group.root, graph.group_eq_default hg]
    rfl
  library_of_hung {g s} hs := by
    refine ((mem_subgroups_hang hFile hPackage hne).mp hs).imp_right ?_
    rintro ⟨_, rfl⟩
    rw [group_field_hang hFile hPackage hne isLibraryGroup]
    exact hLibrary
  beside_function _ hn := Or.inl (by rwa [nodes_of_hang hFile hPackage hne] at hn)

theorem Sound.hang (h : graph.Sound) (hFile : file.index < graph.groups.size)
    (hPackage : package.index < graph.groups.size) (hne : file ≠ package)
    (hKind : (graph.group file).kind = .file) (hTop : (graph.group package).parent = none)
    (hLibrary : isLibraryGroup (graph.group package) = true) :
    (Libraries.hang graph file package).Sound := by
  have hGrows : graph.Grows (Libraries.hang graph file package) :=
    grows_hang hFile hPackage hne hLibrary
  have hDisplay : ∀ g, isLibraryGroup ((Libraries.hang graph file package).group g) =
      isLibraryGroup (graph.group g) :=
    group_field_hang hFile hPackage hne isLibraryGroup
  have hKinds : ∀ g, ((Libraries.hang graph file package).group g).kind = (graph.group g).kind :=
    group_field_hang hFile hPackage hne Group.kind
  refine { h.toWellFormed.hang hFile hPackage hne hTop (h.library_flat hLibrary) with
    regular := h.regular, bound := ?_, inherited_listed := ?_, library_kind := ?_,
    library_flat := ?_, library_nodes := ?_, inner_class := ?_, root_spec := ?_ }
  · intro n bindings binding hBindings hMem
    exact hGrows.within (h.bound hBindings hMem)
  · intro g nodes n hNodes hMem
    rw [group_field_hang hFile hPackage hne Group.inherited] at hNodes
    exact hGrows.listed (h.inherited_listed hNodes hMem)
  · intro g hg
    rw [hKinds]
    exact h.library_kind (by rwa [hDisplay] at hg)
  · intro g hg
    rw [hDisplay] at hg
    rw [List.eq_nil_iff_forall_not_mem]
    intro s hs
    rcases (mem_subgroups_hang hFile hPackage hne).mp hs with hOld | ⟨rfl, _⟩
    · rw [h.library_flat hg] at hOld
      exact absurd hOld List.not_mem_nil
    · exact absurd ((h.library_kind hg).symm.trans hKind) (by simp)
  · intro g n hg hn
    rw [nodes_of_hang hFile hPackage hne] at hn
    exact h.library_nodes (by rwa [hDisplay] at hg) hn
  · intro g s hs hOuter
    rw [hKinds] at hOuter ⊢
    rcases (mem_subgroups_hang hFile hPackage hne).mp hs with hOld | ⟨rfl, _⟩
    · exact h.inner_class hOld hOuter
    · exact absurd hKind hOuter
  · intro g r hr
    rw [group_field_hang hFile hPackage hne Group.root] at hr
    rw [hKinds]
    exact h.root_spec hr

end Hang

/-! ## The marks of an edge -/

/-- An edge takes one mark from its source and one from its target. -/
theorem node_markEdge (edge : Edge) {n : NodeId} (hn : n.index < graph.nodes.size) :
    (graph.markEdge edge).node n =
      { graph.node n with
        isLeaf := (graph.node n).isLeaf && decide (n ≠ edge.source)
        isTrunk := (graph.node n).isTrunk && decide (n ≠ edge.target) } := by
  simp only [markEdge, node_modifyNode, nodes_size_modifyNode]
  by_cases hSource : n = edge.source <;> by_cases hTarget : n = edge.target
  · simp [← hSource, ← hTarget, hn]
  · simp [← hSource, hTarget, hn]
  · simp [hSource, ← hTarget, hn]
  · simp [hSource, hTarget]

theorem grows_markEdge (edge : Edge) : graph.Grows (graph.markEdge edge) where
  nodes_le := by simp
  groups_le := by simp
  node_eq n hn := ⟨_, _, node_markEdge edge hn⟩
  group_eq g _ := ⟨(graph.group g).parent, [], [], by simp⟩
  calls_of_new n hn := by
    rw [node_eq_default _ (by simpa using hn)]
    rfl
  bodiless_of_new n hn := by
    rw [node_eq_default _ (by simpa using hn)]
    exact ⟨rfl, rfl⟩
  rootless_of_new g hg := by
    rw [group_markEdge, graph.group_eq_default hg]
    rfl
  library_of_hung hs := Or.inl hs
  beside_function _ hn := Or.inl hn

theorem Sound.markEdge (h : graph.Sound) (edge : Edge) : (graph.markEdge edge).Sound := by
  have hGrows : graph.Grows (graph.markEdge edge) := grows_markEdge edge
  refine
    { parent_of_listed := ?_, listed_lt := ?_, nodes_nodup := h.nodes_nodup
      parent_of_subgroup := h.parent_of_subgroup, subgroup_lt := h.subgroup_lt
      subgroups_nodup := h.subgroups_nodup, acyclic := h.acyclic
      regular := ?_, bound := ?_, inherited_listed := h.inherited_listed
      library_kind := h.library_kind, library_flat := h.library_flat
      library_nodes := ?_, inner_class := h.inner_class, root_spec := ?_ }
  · intro g n hn
    rw [node_markEdge edge (h.listed_lt hn)]
    exact h.parent_of_listed hn
  · intro g n hn
    rw [nodes_size_markEdge]
    exact h.listed_lt hn
  · intro n hn
    rw [nodes_size_markEdge] at hn
    rw [node_markEdge edge hn]
    have hNode := h.regular n hn
    exact ⟨hNode.calls_nil, hNode.signature_none, hNode.library_bodiless, hNode.missing_bodiless⟩
  · intro n bindings binding hBindings hMem
    have hn : n.index < graph.nodes.size := by
      have := node_lt_of_bindings _ hBindings
      simpa using this
    rw [node_markEdge edge hn] at hBindings
    exact hGrows.within (h.bound hBindings hMem)
  · intro g n hg hn
    rw [node_markEdge edge (h.listed_lt hn)]
    exact h.library_nodes hg hn
  · intro g r hr
    rw [group_markEdge] at hr
    rw [node_markEdge edge (h.root_lt hr)]
    exact h.root_spec hr

end Graph

end CallGraph
