import CallGraph.Analysis.Limits
import CallGraph.Proofs.Building

/-!
# Graphs that shrink

Nodes and groups are taken out of the graph in several places: what the user does not want, what
belongs to libraries, what no edge touches, what has become empty. In each of them entries leave
the lists of groups, and nothing else changes. `Graph.Shrinks` says so, and a forest that shrinks
stays a forest.

A node is taken out of the list of the first group above it. In a forest this is the only group
that can list it, so taking nodes out filters every list (`group_removeNodes`).

## Main definitions

* `Graph.Shrinks` — entries were taken out of lists.

## Main results

* `Shrinks.wellFormed` — a forest stays one.
* `group_removeNodes` — what taking nodes out leaves in each group.
* `limitNamespaces_eq_removeNodes`, `limitFunctions_eq_removeNodes` — leaving something out by name
  is taking nodes out.
-/

namespace CallGraph

namespace Graph

/-- One graph is another with entries taken out of the lists of its groups. -/
structure Shrinks (before after : Graph) : Prop where
  nodes_eq : after.nodes = before.nodes
  size_eq : after.groups.size = before.groups.size
  group_eq : ∀ g, ∃ nodes subgroups,
    nodes.Sublist (before.group g).nodes ∧ subgroups.Sublist (before.group g).subgroups ∧
    after.group g = { before.group g with nodes := nodes, subgroups := subgroups }

namespace Shrinks

variable {before middle after : Graph}

theorem refl (graph : Graph) : graph.Shrinks graph where
  nodes_eq := rfl
  size_eq := rfl
  group_eq _ := ⟨_, _, List.Sublist.refl _, List.Sublist.refl _, rfl⟩

theorem trans (hFirst : before.Shrinks middle) (hLast : middle.Shrinks after) :
    before.Shrinks after where
  nodes_eq := hLast.nodes_eq.trans hFirst.nodes_eq
  size_eq := hLast.size_eq.trans hFirst.size_eq
  group_eq g := by
    obtain ⟨_, _, hNodes, hSubgroups, hMiddle⟩ := hFirst.group_eq g
    obtain ⟨nodes, subgroups, hNodes', hSubgroups', hAfter⟩ := hLast.group_eq g
    rw [hMiddle] at hNodes' hSubgroups' hAfter
    exact ⟨nodes, subgroups, hNodes'.trans hNodes, hSubgroups'.trans hSubgroups, hAfter⟩

theorem node_eq (h : before.Shrinks after) (n : NodeId) : after.node n = before.node n := by
  rw [Graph.node, Graph.node, h.nodes_eq]

theorem nodes_sublist (h : before.Shrinks after) (g : GroupId) :
    (after.group g).nodes.Sublist (before.group g).nodes := by
  obtain ⟨_, _, hNodes, _, hGroup⟩ := h.group_eq g
  rw [hGroup]
  exact hNodes

theorem subgroups_sublist (h : before.Shrinks after) (g : GroupId) :
    (after.group g).subgroups.Sublist (before.group g).subgroups := by
  obtain ⟨_, _, _, hSubgroups, hGroup⟩ := h.group_eq g
  rw [hGroup]
  exact hSubgroups

/-- A group keeps everything but its lists. -/
theorem group_field {α : Type _} (h : before.Shrinks after) (field : Group → α)
    (hField : ∀ group nodes subgroups,
      field { group with nodes := nodes, subgroups := subgroups } = field group := by
      intros; rfl) (g : GroupId) :
    field (after.group g) = field (before.group g) := by
  obtain ⟨_, _, _, _, hGroup⟩ := h.group_eq g
  rw [hGroup, hField]

theorem mem_subgroups (h : before.Shrinks after) {g s : GroupId}
    (hs : s ∈ (after.group g).subgroups) : s ∈ (before.group g).subgroups :=
  (h.subgroups_sublist g).subset hs

theorem listed (h : before.Shrinks after) {n : NodeId} (hn : after.Listed n) : before.Listed n := by
  obtain ⟨g, hn⟩ := hn
  exact ⟨g, (h.nodes_sublist g).subset hn⟩

theorem below (h : before.Shrinks after) {a b : GroupId} (hBelow : after.Below a b) :
    before.Below a b :=
  hBelow.mono fun _ _ hs => h.mem_subgroups hs

theorem wellFormed (h : before.Shrinks after) (hGraph : before.WellFormed) :
    after.WellFormed where
  parent_of_listed {g n} hn := by
    rw [h.node_eq]
    exact hGraph.parent_of_listed ((h.nodes_sublist g).subset hn)
  listed_lt {g n} hn := by
    rw [h.nodes_eq]
    exact hGraph.listed_lt ((h.nodes_sublist g).subset hn)
  nodes_nodup g := (hGraph.nodes_nodup g).sublist (h.nodes_sublist g)
  parent_of_subgroup {g s} hs := by
    rw [h.group_field Group.parent]
    exact hGraph.parent_of_subgroup (h.mem_subgroups hs)
  subgroup_lt {g s} hs := by
    rw [h.size_eq]
    exact hGraph.subgroup_lt (h.mem_subgroups hs)
  subgroups_nodup g := (hGraph.subgroups_nodup g).sublist (h.subgroups_sublist g)
  acyclic := by
    obtain ⟨level, hLevel⟩ := hGraph.acyclic
    exact ⟨level, fun g s hs => hLevel g s (h.mem_subgroups hs)⟩

theorem roots (h : before.Shrinks after) {roots : List GroupId} (hRoots : before.Roots roots) :
    after.Roots roots :=
  hRoots.of_eq h.size_eq (h.group_field Group.parent)

end Shrinks

variable {graph : Graph}

/-- Changing one group by filtering its lists shrinks the graph. -/
theorem shrinks_modifyGroup {g : GroupId} {change : Group → Group}
    (hChange : ∀ group, ∃ nodes subgroups,
      nodes.Sublist group.nodes ∧ subgroups.Sublist group.subgroups ∧
      change group = { group with nodes := nodes, subgroups := subgroups }) :
    graph.Shrinks (graph.modifyGroup g change) where
  nodes_eq := rfl
  size_eq := groups_size_modifyGroup ..
  group_eq other := by
    rw [group_modifyGroup]
    split
    · rename_i hg
      rw [hg.1]
      exact hChange _
    · exact ⟨_, _, List.Sublist.refl _, List.Sublist.refl _, rfl⟩

/-! ## Taking nodes out -/

theorem shrinks_removeNode (graph : Graph) (n : NodeId) : graph.Shrinks (graph.removeNode n) := by
  unfold removeNode
  split
  · exact shrinks_modifyGroup fun group =>
      ⟨group.nodes.filter (· ≠ n), group.subgroups, List.filter_sublist, List.Sublist.refl _, rfl⟩
  · exact Shrinks.refl _

theorem shrinks_removeNodes (graph : Graph) (ns : List NodeId) :
    graph.Shrinks (graph.removeNodes ns) := by
  induction ns generalizing graph with
  | nil => exact Shrinks.refl _
  | cons n rest ih => exact (shrinks_removeNode graph n).trans (ih _)

theorem firstGroup?_of_parent {n : NodeId} {g : GroupId}
    (h : (graph.node n).parent = .group g) : graph.firstGroup? n = some g := by
  rw [firstGroup?, h]
  cases graph.nodes.size <;> rfl

theorem group_removeNode (hGraph : graph.WellFormed) (n : NodeId) (g : GroupId) :
    (graph.removeNode n).group g =
      { graph.group g with nodes := (graph.group g).nodes.filter (· ≠ n) } := by
  -- Only the group above the node is changed; filtering any other list takes nothing out.
  have hOther : n ∉ (graph.group g).nodes →
      { graph.group g with nodes := (graph.group g).nodes.filter (· ≠ n) } = graph.group g := by
    intro hn
    rw [List.filter_eq_self.mpr]
    intro m hm
    exact decide_eq_true fun heq => hn (heq ▸ hm)
  unfold removeNode
  cases hFirst : graph.firstGroup? n with
  | none =>
      refine (hOther fun hn => ?_).symm
      rw [firstGroup?_of_parent (hGraph.parent_of_listed hn)] at hFirst
      exact absurd hFirst (by simp)
  | some above =>
      rw [group_modifyGroup]
      by_cases hg : g = above ∧ above.index < graph.groups.size
      · rw [if_pos hg, hg.1]
      · rw [if_neg hg]
        refine (hOther fun hn => hg ?_).symm
        rw [firstGroup?_of_parent (hGraph.parent_of_listed hn)] at hFirst
        cases hFirst
        exact ⟨rfl, graph.group_lt_of_nodes hn⟩

/-- What taking nodes out leaves in each group. -/
theorem group_removeNodes (hGraph : graph.WellFormed) (ns : List NodeId) (g : GroupId) :
    (graph.removeNodes ns).group g =
      { graph.group g with nodes := (graph.group g).nodes.filter (· ∉ ns) } := by
  induction ns generalizing graph with
  | nil => simp [removeNodes]
  | cons n rest ih =>
      have hNext := ih ((shrinks_removeNode graph n).wellFormed hGraph)
      rw [group_removeNode hGraph] at hNext
      refine hNext.trans ?_
      simp only [List.filter_filter, List.mem_cons, not_or, Bool.decide_and, Bool.and_comm]

theorem mem_nodes_removeNodes (hGraph : graph.WellFormed) {ns : List NodeId} {g : GroupId}
    {n : NodeId} :
    n ∈ ((graph.removeNodes ns).group g).nodes ↔ n ∈ (graph.group g).nodes ∧ n ∉ ns := by
  rw [group_removeNodes hGraph]
  simp

theorem listed_removeNodes (hGraph : graph.WellFormed) {ns : List NodeId} {n : NodeId} :
    (graph.removeNodes ns).Listed n ↔ graph.Listed n ∧ n ∉ ns := by
  constructor
  · rintro ⟨g, hn⟩
    obtain ⟨hOld, hOut⟩ := (mem_nodes_removeNodes hGraph).mp hn
    exact ⟨⟨g, hOld⟩, hOut⟩
  · rintro ⟨⟨g, hn⟩, hOut⟩
    exact ⟨g, (mem_nodes_removeNodes hGraph).mpr ⟨hn, hOut⟩⟩

theorem subgroups_removeNodes (hGraph : graph.WellFormed) (ns : List NodeId) (g : GroupId) :
    ((graph.removeNodes ns).group g).subgroups = (graph.group g).subgroups := by
  rw [group_removeNodes hGraph]

theorem Covered.removeNodes (hGraph : graph.WellFormed) {roots : List GroupId}
    (h : graph.Covered roots) (ns : List NodeId) : (graph.removeNodes ns).Covered roots :=
  h.of_eq (shrinks_removeNodes graph ns).size_eq (subgroups_removeNodes hGraph ns)

/-! ## Leaving out by name -/

theorem removeNodes_append (graph : Graph) (first last : List NodeId) :
    graph.removeNodes (first ++ last) = (graph.removeNodes first).removeNodes last :=
  List.foldl_append

/-- A fold of steps that take nodes out takes nodes out. -/
theorem foldl_eq_removeNodes {α : Type _} {step : Graph → α → Graph}
    (hStep : ∀ graph a, ∃ ns, step graph a = graph.removeNodes ns) (graph : Graph)
    (items : List α) : ∃ ns, items.foldl step graph = graph.removeNodes ns := by
  induction items generalizing graph with
  | nil => exact ⟨[], rfl⟩
  | cons item rest ih =>
      obtain ⟨first, hFirst⟩ := hStep graph item
      obtain ⟨last, hLast⟩ := ih (step graph item)
      exact ⟨first ++ last, by rw [List.foldl_cons, hLast, hFirst, removeNodes_append]⟩

/-- A node list is taken out, or the graph stays. -/
theorem ite_eq_removeNodes (condition : Prop) [Decidable condition] (graph : Graph)
    (nodes : List NodeId) :
    ∃ ns, (if condition then graph.removeNodes nodes else graph) = graph.removeNodes ns := by
  split
  · exact ⟨nodes, rfl⟩
  · exact ⟨[], rfl⟩

theorem limitGroup_eq_removeNodes (exclude only : List Value) (graph : Graph) (g : GroupId) :
    ∃ ns, Limits.limitGroup exclude only graph g = graph.removeNodes ns := by
  unfold Limits.limitGroup
  obtain ⟨first, hFirst⟩ := ite_eq_removeNodes
    (Limits.mentions exclude (graph.group g).token = true) graph (graph.allNodes g)
  rw [hFirst]
  obtain ⟨last, hLast⟩ := ite_eq_removeNodes
    (Limits.isUnwanted (graph.removeNodes first) only g = true) (graph.removeNodes first)
    ((graph.removeNodes first).group g).nodes
  exact ⟨first ++ last, by rw [removeNodes_append]; exact hLast⟩

theorem limitFile_eq_removeNodes (exclude only : List Value) (graph : Graph) (file : GroupId) :
    ∃ ns, Limits.limitFile exclude only graph file = graph.removeNodes ns := by
  unfold Limits.limitFile
  obtain ⟨first, hFirst⟩ := ite_eq_removeNodes
    (Limits.mentions exclude (graph.group file).token = true) graph (graph.allNodes file)
  rw [hFirst]
  obtain ⟨middle, hMiddle⟩ := ite_eq_removeNodes
    (Limits.isUnwantedFile (graph.removeNodes first) only file = true) (graph.removeNodes first)
    ((graph.removeNodes first).group file).nodes
  simp only [hMiddle]
  obtain ⟨last, hLast⟩ := foldl_eq_removeNodes (limitGroup_eq_removeNodes exclude only)
    ((graph.removeNodes first).removeNodes middle)
    (((graph.removeNodes first).removeNodes middle).allGroups file)
  exact ⟨first ++ (middle ++ last), by rw [removeNodes_append, removeNodes_append]; exact hLast⟩

theorem limitNamespaces_eq_removeNodes (graph : Graph) (files : List GroupId)
    (exclude only : List Value) :
    ∃ ns, Limits.limitNamespaces graph files exclude only = graph.removeNodes ns :=
  foldl_eq_removeNodes (limitFile_eq_removeNodes exclude only) graph files

theorem limitFunctions_eq_removeNodes (graph : Graph) (files : List GroupId)
    (exclude only : List Value) :
    ∃ ns, Limits.limitFunctions graph files exclude only = graph.removeNodes ns :=
  foldl_eq_removeNodes (fun _ _ => ⟨_, rfl⟩) graph files

/-- Without names, no namespace is left out. -/
theorem limitNamespaces_nil (graph : Graph) (files : List GroupId) :
    Limits.limitNamespaces graph files [] [] = graph := by
  have hGroup : ∀ g, Limits.limitGroup [] [] graph g = graph := fun _ => rfl
  refine List.foldl_fixed' (fun file => ?_) files
  show (graph.allGroups file).foldl (Limits.limitGroup [] []) graph = graph
  exact List.foldl_fixed' hGroup _

/-- Without names, no function is left out. -/
theorem limitFunctions_nil (graph : Graph) (files : List GroupId) :
    Limits.limitFunctions graph files [] [] = graph := by
  refine List.foldl_fixed' (fun file => ?_) files
  have hNone : (graph.allNodes file).filter (Limits.isLeftOut graph [] []) = [] :=
    List.filter_eq_nil_iff.mpr fun n _ => Bool.false_ne_true
  rw [hNone]
  rfl

end Graph

end CallGraph
