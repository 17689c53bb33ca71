import CallGraph.Analysis.ArgumentFlow
import CallGraph.Analysis.Inheritance
import CallGraph.Analysis.Settle
import CallGraph.Proofs.Building

/-!
# Settling bindings

Inheriting, settling names and passing functions as arguments change what names are bound to, and
nothing else: `Graph.Rebinds`. What they bind names to is narrow: a node that some group lists, a
group, or the name of the unknown module. So a property of bindings that does not mind these
changes (`Graph.Rebindable`) is kept by all of them.

## Main definitions

* `Graph.Rebinds` — names were bound anew.
* `Graph.Bound` — all names that bodies bind have a property.
* `Graph.Rebindable` — the property does not mind how names are bound anew.

## Main results

* `inherit_spec`, `settle_spec`, `passArguments_spec` — the three passes bind names anew and keep
  properties of bindings.
* `settle_isOk` — names that the source bound can be settled.
-/

namespace CallGraph

/-- Whether a binding can be settled: the source never binds a name to a plain value. -/
def Binding.Settleable (b : Binding) : Prop :=
  ∀ value, b.target ≠ .value value

namespace Graph

/-- One graph is another with names bound anew and methods inherited anew. -/
structure Rebinds (before after : Graph) : Prop where
  nodes_size : after.nodes.size = before.nodes.size
  groups_size : after.groups.size = before.groups.size
  /-- Whether a node has a body does not change. -/
  node_eq : ∀ n, ∃ bindings, bindings.isSome = (before.node n).bindings.isSome ∧
    after.node n = { before.node n with bindings := bindings }
  group_eq : ∀ g, ∃ lists, after.group g = { before.group g with inherited := lists }

namespace Rebinds

variable {before middle after : Graph}

theorem refl (graph : Graph) : graph.Rebinds graph where
  nodes_size := rfl
  groups_size := rfl
  node_eq _ := ⟨_, rfl, rfl⟩
  group_eq _ := ⟨_, rfl⟩

theorem trans (hFirst : before.Rebinds middle) (hLast : middle.Rebinds after) :
    before.Rebinds after where
  nodes_size := hLast.nodes_size.trans hFirst.nodes_size
  groups_size := hLast.groups_size.trans hFirst.groups_size
  node_eq n := by
    obtain ⟨_, hSome, hMiddle⟩ := hFirst.node_eq n
    obtain ⟨bindings, hSome', hAfter⟩ := hLast.node_eq n
    rw [hMiddle] at hSome' hAfter
    exact ⟨bindings, hSome'.trans hSome, hAfter⟩
  group_eq g := by
    obtain ⟨_, hMiddle⟩ := hFirst.group_eq g
    obtain ⟨lists, hAfter⟩ := hLast.group_eq g
    exact ⟨lists, by rw [hAfter, hMiddle]⟩

theorem node_field {α : Type _} (h : before.Rebinds after) (field : Node → α)
    (hField : ∀ node bindings, field { node with bindings := bindings } = field node := by
      intros; rfl) (n : NodeId) : field (after.node n) = field (before.node n) := by
  obtain ⟨_, _, hNode⟩ := h.node_eq n
  rw [hNode, hField]

theorem group_field {α : Type _} (h : before.Rebinds after) (field : Group → α)
    (hField : ∀ group lists, field { group with inherited := lists } = field group := by
      intros; rfl) (g : GroupId) : field (after.group g) = field (before.group g) := by
  obtain ⟨_, hGroup⟩ := h.group_eq g
  rw [hGroup, hField]

theorem bindings_isSome (h : before.Rebinds after) (n : NodeId) :
    (after.node n).bindings.isSome = (before.node n).bindings.isSome := by
  obtain ⟨_, hSome, hNode⟩ := h.node_eq n
  rw [hNode, hSome]

theorem nodes_of_group (h : before.Rebinds after) (g : GroupId) :
    (after.group g).nodes = (before.group g).nodes :=
  h.group_field Group.nodes (g := g)

theorem subgroups_of_group (h : before.Rebinds after) (g : GroupId) :
    (after.group g).subgroups = (before.group g).subgroups :=
  h.group_field Group.subgroups (g := g)

theorem listed (h : before.Rebinds after) {n : NodeId} : after.Listed n ↔ before.Listed n := by
  simp only [Listed, h.nodes_of_group]

theorem wellFormed (h : before.Rebinds after) (hGraph : before.WellFormed) : after.WellFormed :=
  hGraph.of_eq h.nodes_size h.groups_size (h.node_field Node.parent) fun g =>
    ⟨h.nodes_of_group g, h.subgroups_of_group g, h.group_field Group.parent (g := g)⟩

theorem roots (h : before.Rebinds after) {roots : List GroupId} (hRoots : before.Roots roots) :
    after.Roots roots :=
  hRoots.of_eq h.groups_size (h.group_field Group.parent)

theorem covered (h : before.Rebinds after) {roots : List GroupId}
    (hCovered : before.Covered roots) : after.Covered roots :=
  hCovered.of_eq h.groups_size h.subgroups_of_group

/-- The walks see the same groups. -/
theorem allGroups_eq (h : before.Rebinds after) : after.allGroups = before.allGroups :=
  allGroups_congr h.groups_size h.subgroups_of_group

theorem allNodes_eq (h : before.Rebinds after) (g : GroupId) :
    after.allNodes g = before.allNodes g := by
  rw [allNodes, allNodes, h.allGroups_eq]
  exact List.flatMap_congr fun s _ => h.nodes_of_group s

theorem nodesOf_eq (h : before.Rebinds after) (files : List GroupId) :
    after.nodesOf files = before.nodesOf files :=
  List.flatMap_congr fun file _ => h.allNodes_eq file

theorem nodeBinding_eq (h : before.Rebinds after) (n : NodeId) :
    after.nodeBinding n = before.nodeBinding n := by
  simp only [nodeBinding, h.node_field Node.token, h.node_field Node.line]

end Rebinds

/-- All names that bodies bind have a property. -/
def Bound (graph : Graph) (hold : Binding → Prop) : Prop :=
  ∀ n bindings, (graph.node n).bindings = some bindings → ∀ b ∈ bindings, hold b

/-- A property of bindings that does not mind how the analysis binds names anew. -/
structure Rebindable (graph : Graph) (hold : Binding → Prop) : Prop where
  node : ∀ {b n}, hold b → graph.Listed n → hold { b with target := .node n }
  group : ∀ {b g}, hold b → hold { b with target := .group g }
  unknown : ∀ {b}, hold b → hold { b with target := .name unknownModule }
  inherited : ∀ {n}, graph.Listed n → hold (graph.nodeBinding n)

variable {graph : Graph} {hold : Binding → Prop}

theorem Rebinds.rebindable {after : Graph} (h : graph.Rebinds after)
    (hClosed : graph.Rebindable hold) : after.Rebindable hold where
  node hb hn := hClosed.node hb (h.listed.mp hn)
  group := hClosed.group
  unknown := hClosed.unknown
  inherited hn := by
    rw [h.nodeBinding_eq]
    exact hClosed.inherited (h.listed.mp hn)

/-- What bindings are like does not matter for what the passes keep. -/
theorem rebindable_any (graph : Graph) : graph.Rebindable fun _ => True :=
  ⟨fun _ _ => trivial, fun _ => trivial, fun _ => trivial, fun _ => trivial⟩

theorem bound_any (graph : Graph) : graph.Bound fun _ => True := fun _ _ _ _ _ => trivial

/-- Changing the bindings of one node. -/
theorem rebinds_modifyNode {n : NodeId} {change : Node → Node}
    (hChange : ∃ bindings, bindings.isSome = (graph.node n).bindings.isSome ∧
      change (graph.node n) = { graph.node n with bindings := bindings }) :
    graph.Rebinds (graph.modifyNode n change) where
  nodes_size := nodes_size_modifyNode ..
  groups_size := rfl
  node_eq other := by
    rw [node_modifyNode]
    split
    · rename_i hn
      rw [hn.1]
      exact hChange
    · exact ⟨_, rfl, rfl⟩
  group_eq _ := ⟨_, rfl⟩

theorem bound_modifyNode (h : graph.Bound hold) {n : NodeId} {change : Node → Node}
    (hChange : ∀ bindings, (change (graph.node n)).bindings = some bindings →
      ∀ b ∈ bindings, hold b) : (graph.modifyNode n change).Bound hold := by
  intro other bindings hBindings
  rw [node_modifyNode] at hBindings
  split at hBindings
  · exact hChange bindings hBindings
  · exact h other bindings hBindings

/-! ## Inheritance -/

/-- The lists under the keys are made of what groups list. -/
theorem mem_addUnder {key : String} {nodes : List NodeId} {table : List (String × List NodeId)}
    {entry : String × List NodeId} {n : NodeId} (hEntry : entry ∈ addUnder key nodes table)
    (hn : n ∈ entry.2) : n ∈ nodes ∨ ∃ other ∈ table, n ∈ other.2 := by
  induction table with
  | nil =>
      rw [List.mem_singleton.mp hEntry] at hn
      exact Or.inl hn
  | cons head rest ih =>
      rw [addUnder] at hEntry
      split at hEntry
      · rcases List.mem_cons.mp hEntry with rfl | hRest
        · rcases List.mem_append.mp hn with hHead | hNew
          · exact Or.inr ⟨head, List.mem_cons_self, hHead⟩
          · exact Or.inl hNew
        · exact Or.inr ⟨entry, List.mem_cons_of_mem _ hRest, hn⟩
      · rcases List.mem_cons.mp hEntry with rfl | hRest
        · exact Or.inr ⟨entry, List.mem_cons_self, hn⟩
        · rcases ih hRest with hNew | ⟨other, hOther, hMem⟩
          · exact Or.inl hNew
          · exact Or.inr ⟨other, List.mem_cons_of_mem _ hOther, hMem⟩

theorem listed_of_mem_nodesByToken {groups : List GroupId} {entry : String × List NodeId}
    {n : NodeId} (hEntry : entry ∈ graph.nodesByToken groups) (hn : n ∈ entry.2) :
    graph.Listed n := by
  have key : ∀ (groups : List GroupId) (table : List (String × List NodeId)),
      (∀ other ∈ table, ∀ m ∈ other.2, graph.Listed m) →
      ∀ other ∈ groups.foldl (fun table g =>
        addUnder (graph.fullToken g) (graph.group g).nodes table) table,
      ∀ m ∈ other.2, graph.Listed m := by
    intro groups
    induction groups with
    | nil => exact fun _ hTable => hTable
    | cons g rest ih =>
        intro table hTable
        refine ih _ fun other hOther m hm => ?_
        rcases mem_addUnder hOther hm with hNew | ⟨old, hOld, hMem⟩
        · exact ⟨g, hNew⟩
        · exact hTable old hOld m hMem
  exact key groups [] (by simp) entry hEntry n hn

theorem listed_of_mem_inheritedLists {groups : List GroupId} {bases : List String}
    {nodes : List NodeId} {n : NodeId}
    (hNodes : nodes ∈ inheritedLists (graph.nodesByToken groups) bases) (hn : n ∈ nodes) :
    graph.Listed n := by
  obtain ⟨base, _, hNodes⟩ := List.mem_flatMap.mp hNodes
  obtain ⟨entry, hEntry, rfl⟩ := List.mem_map.mp hNodes
  exact listed_of_mem_nodesByToken (List.mem_filter.mp hEntry).1 hn

/-- All inherited methods have a property. -/
def Inherits (graph : Graph) (holdNode : NodeId → Prop) : Prop :=
  ∀ g, ∀ nodes ∈ (graph.group g).inherited, ∀ n ∈ nodes, holdNode n

/-- The nodes of a group bind further names. -/
theorem foldl_extend (graph : Graph) (nodes : List NodeId) (extra : List Binding)
    (h : graph.Bound hold) (hExtra : ∀ b ∈ extra, hold b) :
    let after := nodes.foldl (fun graph node => graph.modifyNode node fun entry =>
      { entry with bindings := entry.bindings.map (· ++ extra) }) graph
    graph.Rebinds after ∧ after.Bound hold ∧ ∀ g, after.group g = graph.group g := by
  induction nodes generalizing graph with
  | nil => exact ⟨Rebinds.refl _, h, fun _ => rfl⟩
  | cons n rest ih =>
      have hFirst : (graph.modifyNode n fun entry =>
          { entry with bindings := entry.bindings.map (· ++ extra) }).Bound hold := by
        refine bound_modifyNode h fun bindings hBindings b hb => ?_
        obtain ⟨old, hOld, rfl⟩ := Option.map_eq_some_iff.mp hBindings
        rcases List.mem_append.mp hb with hb | hb
        · exact h n old hOld b hb
        · exact hExtra b hb
      obtain ⟨hRebinds, hBound, hGroups⟩ := ih _ hFirst
      exact ⟨(rebinds_modifyNode ⟨_, Option.isSome_map, rfl⟩).trans hRebinds, hBound, hGroups⟩

theorem inheritLists_spec (h : graph.Bound hold) (g : GroupId) {lists : List (List NodeId)}
    {holdNode : NodeId → Prop} (hLists : ∀ nodes ∈ lists, ∀ n ∈ nodes, holdNode n)
    (hBindings : ∀ n, holdNode n → hold (graph.nodeBinding n))
    (hInherits : graph.Inherits holdNode) :
    graph.Rebinds (graph.inheritLists g lists) ∧ (graph.inheritLists g lists).Bound hold ∧
      (graph.inheritLists g lists).Inherits holdNode := by
  have hNoted : graph.Rebinds (graph.modifyGroup g fun entry =>
      { entry with inherited := lists }) :=
    { nodes_size := rfl, groups_size := groups_size_modifyGroup ..
      node_eq := fun n => ⟨_, rfl, rfl⟩
      group_eq := fun other => by
        rw [group_modifyGroup]
        split
        · rename_i hg
          exact ⟨lists, by rw [hg.1]⟩
        · exact ⟨_, rfl⟩ }
  obtain ⟨hRebinds, hBound, hGroups⟩ := foldl_extend
    (graph.modifyGroup g fun entry => { entry with inherited := lists }) (graph.group g).nodes
    (lists.flatten.map graph.nodeBinding) h (by
      intro b hb
      obtain ⟨n, hn, rfl⟩ := List.mem_map.mp hb
      obtain ⟨nodes, hNodes, hn⟩ := List.mem_flatten.mp hn
      exact hBindings n (hLists nodes hNodes n hn))
  refine ⟨hNoted.trans hRebinds, hBound, ?_⟩
  intro other nodes hNodes
  have hGroup := hGroups other
  rw [group_modifyGroup] at hGroup
  rw [inheritLists, hGroup] at hNodes
  split at hNodes
  · exact hLists nodes hNodes
  · exact hInherits other nodes hNodes

/-- What inheriting does to the graph. -/
theorem inherit_spec (hClosed : graph.Rebindable hold) (h : graph.Bound hold)
    (hInherits : graph.Inherits graph.Listed) (files : List GroupId) :
    graph.Rebinds (graph.inherit files) ∧ (graph.inherit files).Bound hold ∧
      (graph.inherit files).Inherits graph.Listed := by
  have key : ∀ (groups : List GroupId) (current : Graph), graph.Rebinds current →
      current.Bound hold → current.Inherits graph.Listed →
      let after := groups.foldl (fun current g => current.inheritLists g
        (inheritedLists (graph.nodesByToken (graph.groupsOf files)) (current.group g).bases))
          current
      graph.Rebinds after ∧ after.Bound hold ∧ after.Inherits graph.Listed := by
    intro groups
    induction groups with
    | nil => exact fun _ hRebinds hBound hInherits => ⟨hRebinds, hBound, hInherits⟩
    | cons g rest ih =>
        intro current hRebinds hBound hInherits
        obtain ⟨hNext, hBound', hInherits'⟩ := inheritLists_spec hBound g
          (fun nodes hNodes n hn => listed_of_mem_inheritedLists hNodes hn)
          (fun n hn => by rw [hRebinds.nodeBinding_eq]; exact hClosed.inherited hn) hInherits
        exact ih _ (hRebinds.trans hNext) hBound' hInherits'
  exact key (graph.groupsOf files) graph (Rebinds.refl _) h hInherits

/-! ## Names -/

theorem importedFrom?_cases {name : String} {file : GroupId} {target : Target}
    (h : graph.importedFrom? name file = some target) :
    (∃ n, target = .node n ∧ graph.Listed n) ∨ ∃ g, target = .group g := by
  unfold importedFrom? at h
  split at h
  · rename_i n hFind
    cases h
    exact Or.inl ⟨n, rfl, listed_of_mem_allNodes (List.mem_of_find?_eq_some hFind)⟩
  · obtain ⟨g, _, rfl⟩ := Option.map_eq_some_iff.mp h
    exact Or.inr ⟨g, rfl⟩

/-- What a binding can be settled to. -/
theorem hold_settleTarget (hClosed : graph.Rebindable hold) {files : List GroupId} {b : Binding}
    {target : Target} (hb : hold b) (h : graph.settleTarget files b.target = .ok target) :
    hold { b with target := target } := by
  unfold settleTarget at h
  split at h
  · rename_i name hTarget
    cases h
    unfold settleName
    cases hFound : files.findSome? (graph.importedFrom? name) with
    | none => exact hClosed.unknown hb
    | some found =>
        obtain ⟨file, _, hFrom⟩ := List.exists_of_findSome?_eq_some hFound
        rcases importedFrom?_cases hFrom with ⟨n, rfl, hn⟩ | ⟨g, rfl⟩
        · exact hClosed.node hb hn
        · exact hClosed.group hb
  · rename_i call hTarget
    split at h
    · cases h
      rwa [← hTarget]
    · split at h
      · cases h
        exact hClosed.group hb
      · cases h
        rwa [← hTarget]
  · rename_i hTarget
    cases h
    rwa [← hTarget]
  · rename_i hTarget
    cases h
    rwa [← hTarget]
  · rename_i hTarget
    cases h
    rwa [← hTarget]
  · exact absurd h (by simp)

theorem hold_settleBindings (hClosed : graph.Rebindable hold) (files : List GroupId)
    {bindings : List Binding} (h : ∀ b ∈ bindings, hold b) :
    ∀ b ∈ (graph.settleBindings files bindings).1, hold b := by
  induction bindings with
  | nil => exact h
  | cons first rest ih =>
      rw [settleBindings]
      split
      · exact h
      · rename_i target hTarget
        intro b hb
        rcases List.mem_cons.mp hb with rfl | hb
        · exact hold_settleTarget hClosed (h first List.mem_cons_self) hTarget
        · exact ih (fun c hc => h c (List.mem_cons_of_mem _ hc)) b hb

/-- What settling the bindings of one node does to the graph. -/
theorem settleNode_spec (hClosed : graph.Rebindable hold) (h : graph.Bound hold)
    (files : List GroupId) (n : NodeId) :
    graph.Rebinds (graph.settleNode files n).1 ∧ (graph.settleNode files n).1.Bound hold := by
  unfold settleNode
  split
  · exact ⟨Rebinds.refl _, h⟩
  · rename_i bindings hBindings
    refine ⟨rebinds_modifyNode ⟨_, by rw [hBindings]; rfl, rfl⟩, bound_modifyNode h ?_⟩
    intro settled hSettled
    cases hSettled
    exact hold_settleBindings hClosed files (h n bindings hBindings)

theorem group_settleNode (graph : Graph) (files : List GroupId) (n : NodeId) (g : GroupId) :
    (graph.settleNode files n).1.group g = graph.group g := by
  unfold settleNode
  split <;> rfl

/-- What settling all bindings does to the graph. -/
theorem settle_spec (hClosed : graph.Rebindable hold) (h : graph.Bound hold)
    {files : List GroupId} {nodes : List NodeId} {settled : Graph}
    (hSettle : graph.settle files nodes = .ok settled) :
    graph.Rebinds settled ∧ settled.Bound hold ∧ ∀ g, settled.group g = graph.group g := by
  induction nodes generalizing graph with
  | nil =>
      cases hSettle
      exact ⟨Rebinds.refl _, h, fun _ => rfl⟩
  | cons n rest ih =>
      rw [settle] at hSettle
      split at hSettle
      · exact ih hClosed h hSettle
      · split at hSettle
        · rename_i next hNext
          obtain ⟨hRebinds, hBound⟩ := settleNode_spec hClosed h files n
          have hGroup := group_settleNode graph files n
          rw [hNext] at hRebinds hBound hGroup
          obtain ⟨hRebinds', hBound', hGroup'⟩ := ih (hRebinds.rebindable hClosed) hBound hSettle
          exact ⟨hRebinds.trans hRebinds', hBound', fun g => (hGroup' g).trans (hGroup g)⟩
        · exact absurd hSettle (by simp)

/-! ## Settling succeeds -/

theorem rebindable_settleable (graph : Graph) : graph.Rebindable Binding.Settleable where
  node _ _ _ h := by cases h
  group _ _ h := by cases h
  unknown _ _ h := by cases h
  inherited _ _ h := by cases h

theorem settleTarget_isOk (graph : Graph) (files : List GroupId) {b : Binding}
    (h : b.Settleable) :
    ∃ target, graph.settleTarget files b.target = .ok target := by
  unfold settleTarget
  split
  · exact ⟨_, rfl⟩
  · split
    · exact ⟨_, rfl⟩
    · split <;> exact ⟨_, rfl⟩
  · exact ⟨_, rfl⟩
  · exact ⟨_, rfl⟩
  · exact ⟨_, rfl⟩
  · rename_i value hValue
    exact absurd hValue (h value)

theorem settleBindings_isOk (files : List GroupId) {bindings : List Binding}
    (h : ∀ b ∈ bindings, b.Settleable) : (graph.settleBindings files bindings).2 = .ok () := by
  induction bindings with
  | nil => rfl
  | cons first rest ih =>
      obtain ⟨target, hTarget⟩ := settleTarget_isOk graph files (h first List.mem_cons_self)
      rw [settleBindings, hTarget]
      exact ih fun b hb => h b (List.mem_cons_of_mem _ hb)

/-- Bindings that the source made can all be settled. -/
theorem settle_isOk (h : graph.Bound Binding.Settleable) (files : List GroupId)
    (nodes : List NodeId) : ∃ settled, graph.settle files nodes = .ok settled := by
  induction nodes generalizing graph with
  | nil => exact ⟨graph, rfl⟩
  | cons n rest ih =>
      rw [settle]
      split
      · exact ih h
      · rename_i hBody
        have hSome : (graph.node n).bindings ≠ none := fun hNone => hBody (by rw [hNone]; rfl)
        obtain ⟨bindings, hBindings⟩ := Option.ne_none_iff_exists'.mp hSome
        have hNext := (settleNode_spec (rebindable_settleable graph) h files n).2
        have hOk : (graph.settleNode files n).2 = .ok () := by
          rw [settleNode, hBindings]
          exact settleBindings_isOk files (h n bindings hBindings)
        rw [show graph.settleNode files n = ((graph.settleNode files n).1, .ok ()) from
          Prod.ext rfl hOk]
        exact ih hNext

/-! ## Passing functions as arguments -/

theorem mem_rebindFirst {token : String} {target : Target} {bindings : List Binding} {b : Binding}
    (h : b ∈ rebindFirst token target bindings) :
    b ∈ bindings ∨ ∃ old ∈ bindings, b = { old with target := target } := by
  induction bindings with
  | nil => exact Or.inl h
  | cons first rest ih =>
      rw [rebindFirst] at h
      split at h
      · rcases List.mem_cons.mp h with rfl | h
        · exact Or.inr ⟨first, List.mem_cons_self, rfl⟩
        · exact Or.inl (List.mem_cons_of_mem _ h)
      · rcases List.mem_cons.mp h with rfl | h
        · exact Or.inl List.mem_cons_self
        · rcases ih h with hRest | ⟨old, hOld, hEq⟩
          · exact Or.inl (List.mem_cons_of_mem _ hRest)
          · exact Or.inr ⟨old, List.mem_cons_of_mem _ hOld, hEq⟩

/-- What is passed is one of the nodes. -/
theorem passed_mem_of_mem_flows {nodes : List NodeId} {flow : ArgumentFlow}
    (h : flow ∈ graph.flows nodes) : flow.passed ∈ nodes := by
  obtain ⟨n, _, h⟩ := List.mem_flatMap.mp h
  obtain ⟨call, _, h⟩ := List.mem_flatMap.mp h
  unfold flowsOfCall at h
  split at h
  · exact absurd h List.not_mem_nil
  · obtain ⟨pair, _, hFlow⟩ := List.mem_filterMap.mp h
    obtain ⟨passed, hPassed, rfl⟩ := Option.map_eq_some_iff.mp hFlow
    exact List.mem_of_find?_eq_some hPassed

theorem applyFlow_spec (hClosed : graph.Rebindable hold) (h : graph.Bound hold)
    {flow : ArgumentFlow} (hPassed : graph.Listed flow.passed) :
    graph.Rebinds (graph.applyFlow flow) ∧ (graph.applyFlow flow).Bound hold := by
  refine ⟨rebinds_modifyNode ⟨_, Option.isSome_map, rfl⟩, bound_modifyNode h ?_⟩
  intro bindings hBindings b hb
  obtain ⟨old, hOld, rfl⟩ := Option.map_eq_some_iff.mp hBindings
  rcases mem_rebindFirst hb with hb | ⟨former, hFormer, rfl⟩
  · exact h _ old hOld b hb
  · exact hClosed.node (h _ old hOld former hFormer) hPassed

/-- What passing functions as arguments does to the graph. -/
theorem passArguments_spec (hClosed : graph.Rebindable hold) (h : graph.Bound hold)
    {nodes : List NodeId} (hNodes : ∀ n ∈ nodes, graph.Listed n) :
    graph.Rebinds (graph.passArguments nodes) ∧ (graph.passArguments nodes).Bound hold ∧
      ∀ g, (graph.passArguments nodes).group g = graph.group g := by
  have key : ∀ (flows : List ArgumentFlow) (current : Graph), graph.Rebinds current →
      current.Bound hold → (∀ flow ∈ flows, graph.Listed flow.passed) →
      graph.Rebinds (flows.foldl applyFlow current) ∧ (flows.foldl applyFlow current).Bound hold ∧
        ∀ g, (flows.foldl applyFlow current).group g = current.group g := by
    intro flows
    induction flows with
    | nil => exact fun _ hRebinds hBound _ => ⟨hRebinds, hBound, fun _ => rfl⟩
    | cons flow rest ih =>
        intro current hRebinds hBound hFlows
        obtain ⟨hNext, hBound'⟩ := applyFlow_spec (hRebinds.rebindable hClosed) hBound
          (hRebinds.listed.mpr (hFlows flow List.mem_cons_self))
        exact ih _ (hRebinds.trans hNext) hBound'
          fun other hOther => hFlows other (List.mem_cons_of_mem _ hOther)
  exact key _ graph (Rebinds.refl _) h fun flow hFlow =>
    hNodes _ (passed_mem_of_mem_flows hFlow)

end Graph

end CallGraph
