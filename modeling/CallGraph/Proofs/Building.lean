import CallGraph.Analysis.Library
import CallGraph.Proofs.Forest

/-!
# Building a forest

A forest is built by three operations: a node is put at the end of a group, a group is added at the
top, and a group at the top is hung below another. This module proves that each of them leaves the
tables well formed, and what it does to the roots.

Adding a class below its parent is adding it at the top and hanging it there
(`insertSubgroup_eq_hang`), so that one argument about levels covers classes and packages.

## Main results

* `WellFormed.insertNode`, `WellFormed.addGroup`, `WellFormed.hang`.
* `Roots.hang`, `Covered.hang` — the group that is hung is no root any more, and the others still
  cover the table.
-/

namespace CallGraph

namespace Graph

variable {graph : Graph}

/-! ## What the invariants read -/

/-- Being well formed depends on parents, lists of nodes and subgroups only. -/
theorem WellFormed.of_eq {before after : Graph} (h : before.WellFormed)
    (hNodes : after.nodes.size = before.nodes.size)
    (hGroups : after.groups.size = before.groups.size)
    (hParent : ∀ n, (after.node n).parent = (before.node n).parent)
    (hGroup : ∀ g, (after.group g).nodes = (before.group g).nodes ∧
      (after.group g).subgroups = (before.group g).subgroups ∧
      (after.group g).parent = (before.group g).parent) : after.WellFormed where
  parent_of_listed {g n} hn := by
    rw [(hGroup g).1] at hn
    rw [hParent]
    exact h.parent_of_listed hn
  listed_lt {g n} hn := by
    rw [(hGroup g).1] at hn
    rw [hNodes]
    exact h.listed_lt hn
  nodes_nodup g := by
    rw [(hGroup g).1]
    exact h.nodes_nodup g
  parent_of_subgroup {g s} hs := by
    rw [(hGroup g).2.1] at hs
    rw [(hGroup s).2.2]
    exact h.parent_of_subgroup hs
  subgroup_lt {g s} hs := by
    rw [(hGroup g).2.1] at hs
    rw [hGroups]
    exact h.subgroup_lt hs
  subgroups_nodup g := by
    rw [(hGroup g).2.1]
    exact h.subgroups_nodup g
  acyclic := by
    obtain ⟨level, hLevel⟩ := h.acyclic
    exact ⟨level, fun g s hs => hLevel g s (by rwa [(hGroup g).2.1] at hs)⟩

/-- Roots depend on the parents only. -/
theorem Roots.of_eq {before after : Graph} {roots : List GroupId} (h : before.Roots roots)
    (hSize : after.groups.size = before.groups.size)
    (hParent : ∀ g, (after.group g).parent = (before.group g).parent) : after.Roots roots where
  nodup := h.nodup
  lt r hr := by rw [hSize]; exact h.lt r hr
  no_parent r hr := by rw [hParent]; exact h.no_parent r hr

theorem Roots.perm {graph : Graph} {roots roots' : List GroupId} (h : graph.Roots roots)
    (hPerm : roots.Perm roots') : graph.Roots roots' where
  nodup := hPerm.nodup h.nodup
  lt r hr := h.lt r (hPerm.mem_iff.mpr hr)
  no_parent r hr := h.no_parent r (hPerm.mem_iff.mpr hr)

theorem Covered.perm {graph : Graph} {roots roots' : List GroupId} (h : graph.Covered roots)
    (hPerm : roots.Perm roots') : graph.Covered roots' := by
  intro g hg
  obtain ⟨r, hr, hBelow⟩ := h g hg
  exact ⟨r, hPerm.mem_iff.mp hr, hBelow⟩

/-- What the roots cover depends on the subgroups only. -/
theorem Covered.of_eq {before after : Graph} {roots : List GroupId} (h : before.Covered roots)
    (hSize : after.groups.size = before.groups.size)
    (hSubgroups : ∀ g, (after.group g).subgroups = (before.group g).subgroups) :
    after.Covered roots := by
  intro g hg
  obtain ⟨r, hr, hBelow⟩ := h g (by rwa [hSize] at hg)
  exact ⟨r, hr, hBelow.mono fun a s hs => by rwa [hSubgroups]⟩

/-! ## Nodes -/

theorem mem_nodes_insertNode {node : Node} {p g : GroupId} {n : NodeId}
    (hParent : node.parent = .group p) :
    n ∈ ((graph.insertNode node).1.group g).nodes ↔
      n ∈ (graph.group g).nodes ∨
        ((g = p ∧ p.index < graph.groups.size) ∧ n = ⟨graph.nodes.size⟩) := by
  rw [group_insertNode hParent]
  by_cases h : g = p ∧ p.index < graph.groups.size
  · rw [if_pos h]
    simp [h.1, h.2]
  · rw [if_neg h]
    simp [h]

/-- A new node changes nothing about a group but its list of nodes. -/
theorem group_field_insertNode {α : Type _} {node : Node} {p : GroupId}
    (hParent : node.parent = .group p) (field : Group → α)
    (hField : ∀ group nodes, field { group with nodes := nodes } = field group := by
      intros; rfl) (g : GroupId) :
    field ((graph.insertNode node).1.group g) = field (graph.group g) := by
  rw [group_insertNode hParent]
  split
  · rename_i h
    rw [hField, h.1]
  · rfl

theorem subgroups_insertNode {node : Node} {p : GroupId} (hParent : node.parent = .group p)
    (g : GroupId) :
    ((graph.insertNode node).1.group g).subgroups = (graph.group g).subgroups :=
  group_field_insertNode hParent Group.subgroups (g := g)

theorem node_insertNode_of_lt (node : Node) {n : NodeId} (hn : n.index < graph.nodes.size) :
    (graph.insertNode node).1.node n = graph.node n := by
  rw [node_insertNode, if_neg (by omega)]

theorem WellFormed.insertNode (h : graph.WellFormed) {node : Node} {p : GroupId}
    (hParent : node.parent = .group p) : (graph.insertNode node).1.WellFormed where
  parent_of_listed {g n} hn := by
    rcases (mem_nodes_insertNode hParent).mp hn with hOld | ⟨⟨rfl, _⟩, rfl⟩
    · rw [node_insertNode_of_lt node (h.listed_lt hOld)]
      exact h.parent_of_listed hOld
    · rw [node_insertNode_new]
      exact hParent
  listed_lt {g n} hn := by
    rw [nodes_size_insertNode]
    rcases (mem_nodes_insertNode hParent).mp hn with hOld | ⟨_, rfl⟩
    · exact Nat.lt_succ_of_lt (h.listed_lt hOld)
    · exact Nat.lt_succ_self _
  nodes_nodup g := by
    rw [group_insertNode hParent]
    split
    · rename_i hg
      have hFresh : (⟨graph.nodes.size⟩ : NodeId) ∉ (graph.group p).nodes := fun hMem =>
        absurd (h.listed_lt hMem) (Nat.lt_irrefl _)
      exact List.nodup_append.mpr ⟨h.nodes_nodup p, List.nodup_singleton _, by
        intro a ha b hb
        rw [List.mem_singleton.mp hb]
        exact fun heq => hFresh (heq ▸ ha)⟩
    · exact h.nodes_nodup g
  parent_of_subgroup {g s} hs := by
    rw [subgroups_insertNode hParent] at hs
    rw [group_field_insertNode hParent Group.parent]
    exact h.parent_of_subgroup hs
  subgroup_lt {g s} hs := by
    rw [subgroups_insertNode hParent] at hs
    rw [groups_size_insertNode]
    exact h.subgroup_lt hs
  subgroups_nodup g := by
    rw [subgroups_insertNode hParent]
    exact h.subgroups_nodup g
  acyclic := by
    obtain ⟨level, hLevel⟩ := h.acyclic
    exact ⟨level, fun g s hs => hLevel g s (by rwa [subgroups_insertNode hParent] at hs)⟩

theorem Roots.insertNode {roots : List GroupId} (h : graph.Roots roots) {node : Node} {p : GroupId}
    (hParent : node.parent = .group p) : (graph.insertNode node).1.Roots roots :=
  h.of_eq (groups_size_insertNode node)
    (group_field_insertNode hParent Group.parent)

theorem Covered.insertNode {roots : List GroupId} (h : graph.Covered roots) {node : Node}
    {p : GroupId} (hParent : node.parent = .group p) : (graph.insertNode node).1.Covered roots :=
  h.of_eq (groups_size_insertNode node) (subgroups_insertNode hParent)

/-! ## Groups at the top -/

section AddGroup

variable {group : Group}

theorem nodes_of_addGroup (hNodes : group.nodes = []) (g : GroupId) :
    ((graph.addGroup group).1.group g).nodes = (graph.group g).nodes := by
  rw [group_addGroup]
  split
  · rename_i hNew
    rw [graph.group_eq_default (Nat.le_of_eq hNew.symm)]
    exact hNodes
  · rfl

theorem subgroups_of_addGroup (hSubgroups : group.subgroups = []) (g : GroupId) :
    ((graph.addGroup group).1.group g).subgroups = (graph.group g).subgroups := by
  rw [group_addGroup]
  split
  · rename_i hNew
    rw [graph.group_eq_default (Nat.le_of_eq hNew.symm)]
    exact hSubgroups
  · rfl

theorem group_addGroup_new (graph : Graph) (group : Group) :
    (graph.addGroup group).1.group ⟨graph.groups.size⟩ = { group with serial := graph.size } := by
  rw [group_addGroup, if_pos rfl]

theorem group_addGroup_old (group : Group) {g : GroupId} (hg : g.index < graph.groups.size) :
    (graph.addGroup group).1.group g = graph.group g := by
  rw [group_addGroup, if_neg (by omega)]

theorem WellFormed.addGroup (h : graph.WellFormed) (hNodes : group.nodes = [])
    (hSubgroups : group.subgroups = []) : (graph.addGroup group).1.WellFormed where
  parent_of_listed {g n} hn := by
    rw [nodes_of_addGroup hNodes] at hn
    exact h.parent_of_listed hn
  listed_lt {g n} hn := by
    rw [nodes_of_addGroup hNodes] at hn
    exact h.listed_lt hn
  nodes_nodup g := by
    rw [nodes_of_addGroup hNodes]
    exact h.nodes_nodup g
  parent_of_subgroup {g s} hs := by
    rw [subgroups_of_addGroup hSubgroups] at hs
    rw [group_addGroup_old group (h.subgroup_lt hs)]
    exact h.parent_of_subgroup hs
  subgroup_lt {g s} hs := by
    rw [subgroups_of_addGroup hSubgroups] at hs
    rw [groups_size_addGroup]
    exact Nat.lt_succ_of_lt (h.subgroup_lt hs)
  subgroups_nodup g := by
    rw [subgroups_of_addGroup hSubgroups]
    exact h.subgroups_nodup g
  acyclic := by
    obtain ⟨level, hLevel⟩ := h.acyclic
    exact ⟨level, fun g s hs => hLevel g s (by rwa [subgroups_of_addGroup hSubgroups] at hs)⟩

theorem Roots.addGroup {roots : List GroupId} (h : graph.Roots roots)
    (hParent : group.parent = none) :
    (graph.addGroup group).1.Roots (roots ++ [⟨graph.groups.size⟩]) where
  nodup := by
    refine List.nodup_append.mpr ⟨h.nodup, List.nodup_singleton _, ?_⟩
    intro a ha b hb
    rw [List.mem_singleton.mp hb]
    intro heq
    exact absurd (h.lt a ha) (by simp [heq])
  lt r hr := by
    rw [groups_size_addGroup]
    rcases List.mem_append.mp hr with hOld | hNew
    · exact Nat.lt_succ_of_lt (h.lt r hOld)
    · rw [List.mem_singleton.mp hNew]
      exact Nat.lt_succ_self _
  no_parent r hr := by
    rcases List.mem_append.mp hr with hOld | hNew
    · rw [group_addGroup_old group (h.lt r hOld)]
      exact h.no_parent r hOld
    · rw [List.mem_singleton.mp hNew, group_addGroup_new]
      exact hParent

theorem Covered.addGroup {roots : List GroupId} (h : graph.Covered roots)
    (hSubgroups : group.subgroups = []) :
    (graph.addGroup group).1.Covered (roots ++ [⟨graph.groups.size⟩]) := by
  intro g hg
  rw [groups_size_addGroup] at hg
  rcases Nat.lt_succ_iff_lt_or_eq.mp hg with hOld | hNew
  · obtain ⟨r, hr, hBelow⟩ := h g hOld
    refine ⟨r, List.mem_append_left _ hr, hBelow.mono fun a s hs => ?_⟩
    rwa [subgroups_of_addGroup hSubgroups]
  · have hId : g = ⟨graph.groups.size⟩ := groupId_ext hNew
    subst hId
    exact ⟨_, List.mem_append_right _ (List.mem_singleton_self _), Below.refl _⟩

end AddGroup

/-! ## Hanging -/

section Hang

variable {file package : GroupId}

theorem group_hang (hFile : file.index < graph.groups.size)
    (hPackage : package.index < graph.groups.size) (hne : file ≠ package) (g : GroupId) :
    (Libraries.hang graph file package).group g =
      if g = package then { graph.group package with parent := some file }
      else if g = file then
        { graph.group file with subgroups := (graph.group file).subgroups ++ [package] }
      else graph.group g := by
  simp only [Libraries.hang, appendSubgroup, group_modifyGroup, groups_size_modifyGroup, hFile,
    hPackage, and_true]
  by_cases hg : g = package
  · simp [hg, Ne.symm hne]
  · simp [hg]

@[simp] theorem groups_size_hang (graph : Graph) (file package : GroupId) :
    (Libraries.hang graph file package).groups.size = graph.groups.size := by
  simp [Libraries.hang, appendSubgroup]

@[simp] theorem nodes_hang (graph : Graph) (file package : GroupId) :
    (Libraries.hang graph file package).nodes = graph.nodes := rfl

@[simp] theorem node_hang (graph : Graph) (file package : GroupId) (n : NodeId) :
    (Libraries.hang graph file package).node n = graph.node n := rfl

theorem mem_subgroups_hang (hFile : file.index < graph.groups.size)
    (hPackage : package.index < graph.groups.size) (hne : file ≠ package) {g s : GroupId} :
    s ∈ ((Libraries.hang graph file package).group g).subgroups ↔
      s ∈ (graph.group g).subgroups ∨ (g = file ∧ s = package) := by
  rw [group_hang hFile hPackage hne]
  by_cases hg : g = package
  · subst hg
    simp [Ne.symm hne]
  · by_cases hgFile : g = file
    · simp [hgFile, hne]
    · simp [hg, hgFile]

/-- Only the file that a package is hung below gets a subgroup. -/
theorem subgroups_of_hang_ne {g : GroupId} (hg : g ≠ file) :
    ((Libraries.hang graph file package).group g).subgroups = (graph.group g).subgroups := by
  rw [Libraries.hang, group_modifyGroup]
  split
  · rename_i hPackage
    rw [← hPackage.1, appendSubgroup, group_modifyGroup, if_neg (fun h => hg h.1)]
  · rw [appendSubgroup, group_modifyGroup, if_neg (fun h => hg h.1)]

/-- Hanging changes nothing about a group but its parent and subgroups. -/
theorem group_field_hang {α : Type _} (hFile : file.index < graph.groups.size)
    (hPackage : package.index < graph.groups.size) (hne : file ≠ package) (field : Group → α)
    (hField : ∀ group parent subgroups,
      field { group with parent := parent, subgroups := subgroups } = field group := by
      intros; rfl) (g : GroupId) :
    field ((Libraries.hang graph file package).group g) = field (graph.group g) := by
  rw [group_hang hFile hPackage hne]
  split
  · rename_i hg
    rw [hg]
    exact hField _ (some file) (graph.group package).subgroups
  · split
    · rename_i hg
      rw [hg]
      exact hField _ (graph.group file).parent _
    · rfl

theorem nodes_of_hang (hFile : file.index < graph.groups.size)
    (hPackage : package.index < graph.groups.size) (hne : file ≠ package) (g : GroupId) :
    ((Libraries.hang graph file package).group g).nodes = (graph.group g).nodes :=
  group_field_hang hFile hPackage hne Group.nodes (g := g)

theorem parent_of_hang_ne (hFile : file.index < graph.groups.size)
    (hPackage : package.index < graph.groups.size) (hne : file ≠ package) {g : GroupId}
    (hg : g ≠ package) :
    ((Libraries.hang graph file package).group g).parent = (graph.group g).parent := by
  rw [group_hang hFile hPackage hne, if_neg hg]
  split
  · rename_i hgFile
    rw [hgFile]
  · rfl

/-- A group without a parent is nobody's subgroup. -/
theorem WellFormed.not_mem_subgroups (h : graph.WellFormed) {g s : GroupId}
    (hs : (graph.group s).parent = none) : s ∉ (graph.group g).subgroups := fun hMem => by
  rw [h.parent_of_subgroup hMem] at hs
  exact absurd hs (by simp)

theorem WellFormed.hang (h : graph.WellFormed) (hFile : file.index < graph.groups.size)
    (hPackage : package.index < graph.groups.size) (hne : file ≠ package)
    (hRoot : (graph.group package).parent = none) (hFlat : (graph.group package).subgroups = []) :
    (Libraries.hang graph file package).WellFormed where
  parent_of_listed {g n} hn := by
    rw [nodes_of_hang hFile hPackage hne] at hn
    exact h.parent_of_listed hn
  listed_lt {g n} hn := by
    rw [nodes_of_hang hFile hPackage hne] at hn
    exact h.listed_lt hn
  nodes_nodup g := by
    rw [nodes_of_hang hFile hPackage hne]
    exact h.nodes_nodup g
  parent_of_subgroup {g s} hs := by
    rcases (mem_subgroups_hang hFile hPackage hne).mp hs with hOld | ⟨rfl, rfl⟩
    · have hs' : s ≠ package := by
        rintro rfl
        exact h.not_mem_subgroups hRoot hOld
      rw [parent_of_hang_ne hFile hPackage hne hs']
      exact h.parent_of_subgroup hOld
    · rw [group_hang hFile hPackage hne, if_pos rfl]
  subgroup_lt {g s} hs := by
    rw [groups_size_hang]
    rcases (mem_subgroups_hang hFile hPackage hne).mp hs with hOld | ⟨_, rfl⟩
    · exact h.subgroup_lt hOld
    · exact hPackage
  subgroups_nodup g := by
    rw [group_hang hFile hPackage hne]
    split
    · exact h.subgroups_nodup package
    · split
      · refine List.nodup_append.mpr ⟨h.subgroups_nodup file, List.nodup_singleton _, ?_⟩
        intro a ha b hb
        rw [List.mem_singleton.mp hb]
        rintro rfl
        exact h.not_mem_subgroups hRoot ha
      · exact h.subgroups_nodup g
  acyclic := by
    obtain ⟨level, hLevel⟩ := h.acyclic
    -- The package contains nothing, so its level can be moved below that of the file.
    refine ⟨fun g => if g = package then level file + 1 else level g, fun g s hs => ?_⟩
    rcases (mem_subgroups_hang hFile hPackage hne).mp hs with hOld | ⟨rfl, rfl⟩
    · have hs' : s ≠ package := by
        rintro rfl
        exact h.not_mem_subgroups hRoot hOld
      have hg' : g ≠ package := by
        rintro rfl
        rw [hFlat] at hOld
        exact absurd hOld List.not_mem_nil
      simp only [if_neg hs', if_neg hg']
      exact hLevel g s hOld
    · simp only [if_neg hne, if_true]
      exact Nat.lt_succ_self _

theorem Roots.hang {roots rest : List GroupId} (h : graph.Roots roots)
    (hPerm : roots.Perm (package :: rest)) (hFile : file.index < graph.groups.size)
    (hne : file ≠ package) : (Libraries.hang graph file package).Roots rest := by
  have hPackage : package.index < graph.groups.size :=
    h.lt package (hPerm.mem_iff.mpr List.mem_cons_self)
  have hNodup := List.nodup_cons.mp (hPerm.nodup h.nodup)
  refine ⟨hNodup.2, ?_, ?_⟩
  · intro r hr
    rw [groups_size_hang]
    exact h.lt r (hPerm.mem_iff.mpr (List.mem_cons_of_mem _ hr))
  · intro r hr
    have hr' : r ≠ package := by
      rintro rfl
      exact hNodup.1 hr
    rw [parent_of_hang_ne hFile hPackage hne hr']
    exact h.no_parent r (hPerm.mem_iff.mpr (List.mem_cons_of_mem _ hr))

theorem Covered.hang {roots rest : List GroupId} (h : graph.Covered roots)
    (hRoots : graph.Roots roots) (hPerm : roots.Perm (package :: rest))
    (hFile : file.index < graph.groups.size) (hne : file ≠ package)
    (hTop : ∃ r ∈ rest, graph.Below r file) :
    (Libraries.hang graph file package).Covered rest := by
  have hPackage : package.index < graph.groups.size :=
    hRoots.lt package (hPerm.mem_iff.mpr List.mem_cons_self)
  have hMono : ∀ a s, s ∈ (graph.group a).subgroups →
      s ∈ ((Libraries.hang graph file package).group a).subgroups := fun a s hs =>
    (mem_subgroups_hang hFile hPackage hne).mpr (Or.inl hs)
  intro g hg
  rw [groups_size_hang] at hg
  obtain ⟨r, hr, hBelow⟩ := h g hg
  rcases List.mem_cons.mp (hPerm.mem_iff.mp hr) with rfl | hr
  · -- What lay below the package now lies below the file, hence below the root of the file.
    obtain ⟨top, hTopMem, hTopBelow⟩ := hTop
    have hStep : r ∈ ((Libraries.hang graph file r).group file).subgroups :=
      (mem_subgroups_hang hFile hPackage hne).mpr (Or.inr ⟨rfl, rfl⟩)
    exact ⟨top, hTopMem, ((hTopBelow.mono hMono).tail hStep).trans (hBelow.mono hMono)⟩
  · exact ⟨r, hr, hBelow.mono hMono⟩

end Hang

/-! ## Classes -/

/-- Graphs that read the same everywhere are the same. -/
private theorem ext_of_reads {a b : Graph} (hNodes : a.nodes = b.nodes)
    (hSize : a.groups.size = b.groups.size) (hGroup : ∀ g, a.group g = b.group g) : a = b := by
  obtain ⟨aNodes, aGroups⟩ := a
  obtain ⟨bNodes, bGroups⟩ := b
  have hGroups : aGroups = bGroups := by
    apply Array.ext hSize
    intro i hi hi'
    have hRead := hGroup ⟨i⟩
    simpa [Graph.group, Array.getD, hi, hi'] using hRead
  simp_all

theorem insertSubgroup_eq_hang {parent : GroupId} {group : Group}
    (hParent : parent.index < graph.groups.size) :
    (graph.insertSubgroup parent group).1 =
      Libraries.hang (graph.addGroup group).1 parent ⟨graph.groups.size⟩ := by
  have hne : parent ≠ ⟨graph.groups.size⟩ := by
    rintro rfl
    exact Nat.lt_irrefl _ hParent
  refine ext_of_reads rfl (by simp [insertSubgroup, appendSubgroup]) fun g => ?_
  rw [group_hang (by simp; omega) (by simp) hne, group_addGroup_new, group_addGroup_old _ hParent,
    insertSubgroup, appendSubgroup, group_modifyGroup, group_addGroup_old _ hParent,
    group_addGroup, group_addGroup]
  by_cases hNew : g = ⟨graph.groups.size⟩
  · simp [hNew, Ne.symm hne]
  · have hIndex : g.index ≠ graph.groups.size := fun h => hNew (groupId_ext h)
    by_cases hg : g = parent
    · simp [hg, hne, Nat.lt_succ_of_lt hParent]
    · simp [hNew, hg, hIndex]

end Graph

end CallGraph
