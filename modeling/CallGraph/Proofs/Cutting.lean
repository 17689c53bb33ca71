import CallGraph.Analysis.Subset
import CallGraph.Proofs.Growth
import CallGraph.Proofs.Pruning
import CallGraph.Proofs.Scoping

/-!
# Cutting a chart down

A chart has three parts that speak of the same nodes: the list of the nodes shown, the edges, and
the forest below the files. They agree before anything is cut, up to nodes that only edges lead to
(`Chart.Consistent`). Hiding libraries keeps that, and taking out what no edge touches makes the
agreement exact (`Chart.Coherent`).

Groups are dropped because nothing is left below them. So no path that leads to a node goes through
a dropped group, and the walk from the files reaches the same nodes as before (`Graph.Drops`).

## Main definitions

* `Chart.Consistent` — the three parts agree, up to nodes that only edges lead to.
* `Chart.Complete` — a chart from which nothing has been cut.
* `Chart.Coherent` — the three parts agree exactly, and no group is empty.

## Main results

* `Complete.hideLibraries` — a chart stays consistent when libraries are hidden.
* `Consistent.trim` — a consistent chart becomes coherent when it is trimmed.
* `Complete.edges_hideLibraries` — hiding libraries takes out the edges that touch them.
* `restrict_spec` — what a subset shows.
-/

namespace CallGraph

open Chart (isLibraryGroup)

namespace Graph

/-- The way down from some roots leads to every group that lists a node. -/
def Reached (graph : Graph) (roots : List GroupId) : Prop :=
  ∀ g n, n ∈ (graph.group g).nodes → ∃ r ∈ roots, graph.Below r g

/-- Groups below which there is nothing were dropped. -/
structure Drops (before after : Graph) : Prop where
  shrinks : before.Shrinks after
  nodes_eq : ∀ g, (after.group g).nodes = (before.group g).nodes
  /-- The way down to a node stays. -/
  below : ∀ {a g n}, before.Below a g → n ∈ (before.group g).nodes → after.Below a g

variable {graph before middle after : Graph}

theorem mem_nodesOf_of_reached (hGraph : graph.WellFormed) {roots : List GroupId}
    (hRoots : graph.Roots roots) (hReached : graph.Reached roots) {n : NodeId} :
    n ∈ graph.nodesOf roots ↔ graph.Listed n := by
  refine ⟨listed_of_mem_nodesOf, ?_⟩
  rintro ⟨g, hn⟩
  obtain ⟨r, hr, hBelow⟩ := hReached g n hn
  exact (mem_nodesOf hGraph hRoots).mpr ⟨r, hr, g, hBelow, hn⟩

namespace Drops

theorem refl (graph : Graph) : graph.Drops graph where
  shrinks := Shrinks.refl _
  nodes_eq _ := rfl
  below h _ := h

theorem trans (hFirst : before.Drops middle) (hLast : middle.Drops after) :
    before.Drops after where
  shrinks := hFirst.shrinks.trans hLast.shrinks
  nodes_eq g := (hLast.nodes_eq g).trans (hFirst.nodes_eq g)
  below {a g n} h hn := hLast.below (hFirst.below h hn) (by rw [hFirst.nodes_eq]; exact hn)

theorem listed (h : before.Drops after) {n : NodeId} : after.Listed n ↔ before.Listed n := by
  simp only [Listed, h.nodes_eq]

theorem reached (h : before.Drops after) {roots : List GroupId} (hReached : before.Reached roots) :
    after.Reached roots := by
  intro g n hn
  rw [h.nodes_eq] at hn
  obtain ⟨r, hr, hBelow⟩ := hReached g n hn
  exact ⟨r, hr, h.below hBelow hn⟩

/-- Nothing becomes empty that was not. -/
theorem allNodes_nil (h : before.Drops after) (hBefore : before.WellFormed) {g : GroupId}
    (hg : g.index < before.groups.size) :
    after.allNodes g = [] ↔ before.allNodes g = [] := by
  have hAfter := h.shrinks.wellFormed hBefore
  have hSame : ∀ n, n ∈ after.allNodes g ↔ n ∈ before.allNodes g := by
    intro n
    rw [hAfter.mem_allNodes (by rw [h.shrinks.size_eq]; exact hg), hBefore.mem_allNodes hg]
    constructor
    · rintro ⟨d, hBelow, hn⟩
      rw [h.nodes_eq] at hn
      exact ⟨d, h.shrinks.below hBelow, hn⟩
    · rintro ⟨d, hBelow, hn⟩
      exact ⟨d, h.below hBelow hn, by rw [h.nodes_eq]; exact hn⟩
  simp only [List.eq_nil_iff_forall_not_mem, hSame]

end Drops

/-! ## Dropping empty groups -/

theorem shrinks_removeGroup (graph : Graph) (s : GroupId) :
    graph.Shrinks (graph.removeGroup s) := by
  unfold removeGroup
  split
  · exact shrinks_modifyGroup fun group =>
      ⟨group.nodes, group.subgroups.filter (· ≠ s), List.Sublist.refl _, List.filter_sublist, rfl⟩
  · exact Shrinks.refl _

theorem nodes_removeGroup (graph : Graph) (s g : GroupId) :
    ((graph.removeGroup s).group g).nodes = (graph.group g).nodes := by
  unfold removeGroup
  split
  · rw [group_modifyGroup]
    split
    · rename_i hg
      rw [hg.1]
    · rfl
  · rfl

/-- Only the group that is taken out is missing afterwards, wherever one looks. -/
theorem mem_subgroups_removeGroup (hGraph : graph.WellFormed) {g s t : GroupId} :
    t ∈ ((graph.removeGroup s).group g).subgroups ↔ t ∈ (graph.group g).subgroups ∧ t ≠ s := by
  -- Where the parent of `s` is not `g`, the list of `g` does not have it.
  have hOther : (graph.group s).parent ≠ some g →
      (t ∈ (graph.group g).subgroups ↔ t ∈ (graph.group g).subgroups ∧ t ≠ s) := by
    intro hParent
    refine ⟨fun ht => ⟨ht, ?_⟩, And.left⟩
    rintro rfl
    exact hParent (hGraph.parent_of_subgroup ht)
  unfold removeGroup
  cases hParent : (graph.group s).parent with
  | none => exact hOther (by simp [hParent])
  | some p =>
      rw [group_modifyGroup]
      by_cases hg : g = p
      · subst hg
        split
        · simp
        · rename_i hOut
          refine ⟨fun ht => absurd ⟨rfl, graph.group_lt_of_subgroups ht⟩ hOut, And.left⟩
      · rw [if_neg fun h => hg h.1]
        refine hOther ?_
        rw [hParent]
        exact fun h => hg (Option.some.inj h).symm

theorem drops_removeGroup (hGraph : graph.WellFormed) {s : GroupId}
    (hs : s.index < graph.groups.size) (hEmpty : graph.allNodes s = []) :
    graph.Drops (graph.removeGroup s) where
  shrinks := shrinks_removeGroup graph s
  nodes_eq g := nodes_removeGroup graph s g
  below {a g n} hBelow hn := by
    -- Along the way down to the node: a step into `s` would put the node below `s`.
    induction hBelow using Relation.ReflTransGen.head_induction_on with
    | refl => exact Below.refl _
    | head hStep hRest ih =>
        refine ih.head ((mem_subgroups_removeGroup hGraph).mpr ⟨hStep, ?_⟩)
        rintro rfl
        have hMem := (hGraph.mem_allNodes hs).mpr ⟨g, hRest, hn⟩
        rw [hEmpty] at hMem
        exact absurd hMem List.not_mem_nil

theorem drops_dropIfEmpty (hGraph : graph.WellFormed) {s : GroupId}
    (hs : s.index < graph.groups.size) : graph.Drops (Chart.dropIfEmpty graph s) := by
  unfold Chart.dropIfEmpty
  split
  · rename_i hEmpty
    exact drops_removeGroup hGraph hs (List.isEmpty_iff.mp hEmpty)
  · exact Drops.refl _

/-- Groups are dropped where they are empty, and stay where they are not. -/
theorem foldl_dropIfEmpty (hGraph : graph.WellFormed) {groups : List GroupId}
    (hGroups : ∀ s ∈ groups, s.index < graph.groups.size) :
    graph.Drops (groups.foldl Chart.dropIfEmpty graph) ∧
      ∀ s ∈ groups, graph.allNodes s = [] →
        ∀ g, s ∉ ((groups.foldl Chart.dropIfEmpty graph).group g).subgroups := by
  induction groups generalizing graph with
  | nil => exact ⟨Drops.refl _, fun s hs => absurd hs List.not_mem_nil⟩
  | cons first rest ih =>
      have hFirst := hGroups first List.mem_cons_self
      have hStep := drops_dropIfEmpty hGraph hFirst
      have hRange : ∀ s ∈ rest, s.index < graph.groups.size :=
        fun s hs => hGroups s (List.mem_cons_of_mem _ hs)
      obtain ⟨hDrops, hGone⟩ := ih (hStep.shrinks.wellFormed hGraph)
        (fun s hs => by rw [hStep.shrinks.size_eq]; exact hRange s hs)
      refine ⟨hStep.trans hDrops, fun s hs hEmpty g hMem => ?_⟩
      rcases List.mem_cons.mp hs with rfl | hs
      · have hMem := hDrops.shrinks.mem_subgroups hMem
        rw [Chart.dropIfEmpty, if_pos (List.isEmpty_iff.mpr hEmpty)] at hMem
        exact ((mem_subgroups_removeGroup hGraph).mp hMem).2 rfl
      · exact hGone s hs ((hStep.allNodes_nil hGraph (hRange s hs)).mpr hEmpty) g hMem

/-- Below the files whose groups were gone through, no subgroup is empty. -/
theorem foldl_dropEmptyGroups (hGraph : graph.WellFormed) {files : List GroupId}
    (hFiles : ∀ f ∈ files, f.index < graph.groups.size) :
    graph.Drops (files.foldl Chart.dropEmptyGroups graph) ∧
      ∀ f ∈ files, ∀ g s, (files.foldl Chart.dropEmptyGroups graph).Below f g →
        s ∈ ((files.foldl Chart.dropEmptyGroups graph).group g).subgroups →
        (files.foldl Chart.dropEmptyGroups graph).allNodes s ≠ [] := by
  induction files generalizing graph with
  | nil => exact ⟨Drops.refl _, fun f hf => absurd hf List.not_mem_nil⟩
  | cons first rest ih =>
      have hFirst := hFiles first List.mem_cons_self
      have hRange : ∀ s ∈ graph.allGroups first, s.index < graph.groups.size := fun s hs =>
        hGraph.below_lt (below_of_mem_groupsBelow hs) hFirst
      obtain ⟨hStep, hGone⟩ := foldl_dropIfEmpty hGraph hRange
      obtain ⟨hDrops, hRest⟩ := ih (hStep.shrinks.wellFormed hGraph) (fun f hf => by
        rw [hStep.shrinks.size_eq]
        exact hFiles f (List.mem_cons_of_mem _ hf))
      have hAll := hStep.trans hDrops
      refine ⟨hAll, fun f hf g s hBelow hs hEmpty => ?_⟩
      rcases List.mem_cons.mp hf with rfl | hf
      · -- A group that is empty now was empty when its file was gone through.
        have hMem : s ∈ graph.allGroups f :=
          (hGraph.mem_allGroups hFirst).mpr (hAll.shrinks.below (hBelow.tail hs))
        refine hGone s hMem ((hAll.allNodes_nil hGraph (hRange s hMem)).mp hEmpty) g ?_
        exact hDrops.shrinks.mem_subgroups hs
      · exact hRest f hf g s hBelow hs hEmpty

/-! ## Dropping library groups -/

theorem shrinks_dropLibraryGroups (graph : Graph) (file : GroupId) :
    graph.Shrinks (Chart.dropLibraryGroups graph file) :=
  shrinks_modifyGroup fun group =>
    ⟨group.nodes, group.subgroups.filter fun s => !isLibraryGroup (graph.group s),
      List.Sublist.refl _, List.filter_sublist, rfl⟩

theorem nodes_dropLibraryGroups (graph : Graph) (file g : GroupId) :
    ((Chart.dropLibraryGroups graph file).group g).nodes = (graph.group g).nodes := by
  rw [Chart.dropLibraryGroups, group_modifyGroup]
  split
  · rename_i hg
    rw [hg.1]
  · rfl

theorem mem_subgroups_dropLibraryGroups {file g s : GroupId}
    (hs : s ∈ (graph.group g).subgroups) (hLibrary : isLibraryGroup (graph.group s) = false) :
    s ∈ ((Chart.dropLibraryGroups graph file).group g).subgroups := by
  rw [Chart.dropLibraryGroups, group_modifyGroup]
  split
  · rename_i hg
    rw [hg.1] at hs
    exact List.mem_filter.mpr ⟨hs, by rw [hLibrary]; rfl⟩
  · exact hs

/-- Only library groups are lost, and no list of nodes changes. -/
theorem foldl_dropLibraryGroups (graph : Graph) (files : List GroupId) :
    graph.Shrinks (files.foldl Chart.dropLibraryGroups graph) ∧
      (∀ g, ((files.foldl Chart.dropLibraryGroups graph).group g).nodes = (graph.group g).nodes) ∧
      ∀ g s, s ∈ (graph.group g).subgroups → isLibraryGroup (graph.group s) = false →
        s ∈ ((files.foldl Chart.dropLibraryGroups graph).group g).subgroups := by
  induction files generalizing graph with
  | nil => exact ⟨Shrinks.refl _, fun _ => rfl, fun _ _ hs _ => hs⟩
  | cons file rest ih =>
      have hStep := shrinks_dropLibraryGroups graph file
      obtain ⟨hShrinks, hNodes, hSubgroups⟩ := ih (Chart.dropLibraryGroups graph file)
      refine ⟨hStep.trans hShrinks,
        fun g => (hNodes g).trans (nodes_dropLibraryGroups graph file g), fun g s hs hLibrary => ?_⟩
      refine hSubgroups g s (mem_subgroups_dropLibraryGroups hs hLibrary) ?_
      rw [hStep.group_field isLibraryGroup]
      exact hLibrary

/-- The way down to a group that stands for no library does not lead through one that does. -/
theorem Below.avoid_library
    (hFlat : ∀ g, isLibraryGroup (before.group g) = true → (before.group g).subgroups = [])
    (hKept : ∀ g s, s ∈ (before.group g).subgroups → isLibraryGroup (before.group s) = false →
      s ∈ (after.group g).subgroups) {a g : GroupId} (h : before.Below a g)
    (hg : isLibraryGroup (before.group g) = false) : after.Below a g := by
  induction h with
  | refl => exact Below.refl _
  | @tail mid last _ hStep ih =>
      refine (ih ?_).tail (hKept mid last hStep hg)
      -- A library group has no subgroups, so none is on the way.
      by_contra hLibrary
      have hNil := hFlat mid (by simpa using hLibrary)
      rw [HasSubgroup, hNil] at hStep
      exact absurd hStep List.not_mem_nil

end Graph

/-! ## Charts -/

namespace Chart

open CallGraph.Graph

/-- The parts of a chart agree, up to nodes that only edges lead to. -/
structure Consistent (chart : Chart) : Prop where
  wellFormed : chart.graph.WellFormed
  rooted : chart.graph.Roots chart.files
  reached : chart.graph.Reached chart.files
  nodes_listed : ∀ n ∈ chart.nodes, chart.graph.Listed n
  listed_cases : ∀ n, chart.graph.Listed n →
    n ∈ chart.nodes ∨ ∃ edge ∈ chart.edges, edge.target = n
  source_listed : ∀ edge ∈ chart.edges, chart.graph.Listed edge.source
  target_listed : ∀ edge ∈ chart.edges, chart.graph.Listed edge.target

/-- A chart from which nothing has been cut: the nodes not shown are those made up to resolve a
call. -/
structure Complete (chart : Chart) : Prop extends Consistent chart where
  sound : chart.graph.Sound
  mem_nodes_iff : ∀ n, chart.graph.Listed n →
    (n ∈ chart.nodes ↔ (chart.graph.node n).isInvented = false)
  source_body : ∀ edge ∈ chart.edges, (chart.graph.node edge.source).bindings.isSome

/-- The nodes shown, the ends of the edges and the nodes of the forest are the same, each in one
place of it, and no group of the forest is empty. -/
structure Coherent (chart : Chart) : Prop where
  nodes_nodup : chart.nodes.Nodup
  mem_nodes_iff : ∀ n, n ∈ chart.nodes ↔
    ∃ edge ∈ chart.edges, n = edge.source ∨ n = edge.target
  mem_forest_iff : ∀ n, n ∈ chart.nodes ↔
    ∃ g ∈ chart.graph.groupsOf chart.files, n ∈ (chart.graph.group g).nodes
  groups_nodup : (chart.graph.groupsOf chart.files).Nodup
  /-- The group that lists a node lists it once, and is the only one. -/
  one_place : ∀ n ∈ chart.nodes, ∃ g ∈ chart.graph.groupsOf chart.files,
    (chart.graph.group g).nodes.count n = 1 ∧
    ∀ other ∈ chart.graph.groupsOf chart.files, n ∈ (chart.graph.group other).nodes → other = g
  no_empty_group : ∀ g ∈ chart.graph.groupsOf chart.files, chart.graph.allNodes g ≠ []

variable {chart : Chart}

theorem mem_touched {edges : List Edge} {n : NodeId} :
    n ∈ touched edges ↔ ∃ edge ∈ edges, n = edge.source ∨ n = edge.target := by
  simp [touched, mem_distinct]

theorem Consistent.mem_forest (h : chart.Consistent) {n : NodeId} :
    (∃ g ∈ chart.graph.groupsOf chart.files, n ∈ (chart.graph.group g).nodes) ↔
      chart.graph.Listed n := by
  constructor
  · rintro ⟨g, _, hn⟩
    exact ⟨g, hn⟩
  · rintro ⟨g, hn⟩
    exact ⟨g, (mem_groupsOf h.wellFormed h.rooted).mpr (h.reached g n hn), hn⟩

/-- A listed node has one place in the forest. -/
theorem Consistent.one_place (h : chart.Consistent) {n : NodeId} (hn : chart.graph.Listed n) :
    ∃ g ∈ chart.graph.groupsOf chart.files, (chart.graph.group g).nodes.count n = 1 ∧
      ∀ other ∈ chart.graph.groupsOf chart.files, n ∈ (chart.graph.group other).nodes →
        other = g := by
  obtain ⟨g, hg, hn⟩ := h.mem_forest.mpr hn
  exact ⟨g, hg, List.count_eq_one_of_mem (h.wellFormed.nodes_nodup g) hn,
    fun other _ hOther => h.wellFormed.group_eq_of_listed hOther hn⟩

/-! ## Trimming -/

/-- Of a consistent chart exactly the nodes that edges touch stay listed. -/
theorem Consistent.listed_untouched (h : chart.Consistent) {n : NodeId} :
    (chart.graph.removeNodes
      (chart.nodes.filter fun n => !(touched chart.edges).contains n)).Listed n ↔
      n ∈ touched chart.edges := by
  rw [listed_removeNodes h.wellFormed]
  simp only [List.mem_filter, List.contains_eq_mem, Bool.not_eq_true', decide_eq_false_iff_not,
    not_and, not_not]
  constructor
  · rintro ⟨hListed, hShown⟩
    rcases h.listed_cases n hListed with hMem | ⟨edge, hEdge, rfl⟩
    · exact hShown hMem
    · exact mem_touched.mpr ⟨edge, hEdge, Or.inr rfl⟩
  · intro hTouched
    refine ⟨?_, fun _ => hTouched⟩
    obtain ⟨edge, hEdge, rfl | rfl⟩ := mem_touched.mp hTouched
    · exact h.source_listed edge hEdge
    · exact h.target_listed edge hEdge

/-- The graph of a trimmed chart: nodes are taken out of lists, and then groups are dropped. -/
theorem Consistent.drops_trim (h : chart.Consistent) :
    (chart.graph.removeNodes
      (chart.nodes.filter fun n => !(touched chart.edges).contains n)).Drops chart.trim.graph ∧
      ∀ f ∈ chart.files, ∀ g s, chart.trim.graph.Below f g →
        s ∈ (chart.trim.graph.group g).subgroups → chart.trim.graph.allNodes s ≠ [] :=
  have hShrinks := shrinks_removeNodes chart.graph
    (chart.nodes.filter fun n => !(touched chart.edges).contains n)
  foldl_dropEmptyGroups (hShrinks.wellFormed h.wellFormed) (hShrinks.roots h.rooted).lt

theorem Consistent.shrinks_trim (h : chart.Consistent) : chart.graph.Shrinks chart.trim.graph :=
  (shrinks_removeNodes _ _).trans h.drops_trim.1.shrinks

theorem Consistent.listed_trim (h : chart.Consistent) {n : NodeId} :
    chart.trim.graph.Listed n ↔ n ∈ chart.trim.nodes :=
  h.drops_trim.1.listed.trans h.listed_untouched

theorem mem_files_trim {f : GroupId} :
    f ∈ chart.trim.files ↔ f ∈ chart.files ∧ chart.trim.graph.allNodes f ≠ [] := by
  simp [trim]

theorem Consistent.trim_consistent (h : chart.Consistent) : chart.trim.Consistent := by
  have hGraph := h.shrinks_trim.wellFormed h.wellFormed
  have hRoots := h.shrinks_trim.roots h.rooted
  have hReached : chart.trim.graph.Reached chart.files := by
    refine h.drops_trim.1.reached fun g n hn => ?_
    obtain ⟨r, hr, hBelow⟩ := h.reached g n ((mem_nodes_removeNodes h.wellFormed).mp hn).1
    refine ⟨r, hr, hBelow.mono fun g s hs => ?_⟩
    rw [subgroups_removeNodes h.wellFormed]
    exact hs
  have hEnds : ∀ edge ∈ chart.edges, edge.source ∈ chart.trim.nodes ∧
      edge.target ∈ chart.trim.nodes := fun edge hEdge =>
    ⟨mem_touched.mpr ⟨edge, hEdge, Or.inl rfl⟩, mem_touched.mpr ⟨edge, hEdge, Or.inr rfl⟩⟩
  exact
    { wellFormed := hGraph
      rooted :=
        { nodup := hRoots.nodup.filter _
          lt := fun r hr => hRoots.lt r (mem_files_trim.mp hr).1
          no_parent := fun r hr => hRoots.no_parent r (mem_files_trim.mp hr).1 }
      reached := by
        -- A file that leads to a node is not empty, so it stays.
        intro g n hn
        obtain ⟨r, hr, hBelow⟩ := hReached g n hn
        have hMem := (hGraph.mem_allNodes (hRoots.lt r hr)).mpr ⟨g, hBelow, hn⟩
        exact ⟨r, mem_files_trim.mpr ⟨hr, List.ne_nil_of_mem hMem⟩, hBelow⟩
      nodes_listed := fun n hn => h.listed_trim.mpr hn
      listed_cases := fun n hn => Or.inl (h.listed_trim.mp hn)
      source_listed := fun edge hEdge => h.listed_trim.mpr (hEnds edge hEdge).1
      target_listed := fun edge hEdge => h.listed_trim.mpr (hEnds edge hEdge).2 }

/-- A consistent chart becomes coherent when it is trimmed. -/
theorem Consistent.trim (h : chart.Consistent) : chart.trim.Coherent := by
  have hTrim := h.trim_consistent
  refine
    { nodes_nodup := nodup_distinct _
      mem_nodes_iff := fun n => mem_touched
      mem_forest_iff := fun n => h.listed_trim.symm.trans hTrim.mem_forest.symm
      groups_nodup := nodup_groupsOf hTrim.wellFormed hTrim.rooted
      one_place := fun n hn => hTrim.one_place (hTrim.nodes_listed n hn)
      no_empty_group := ?_ }
  intro g hg
  obtain ⟨r, hr, hBelow⟩ := (mem_groupsOf hTrim.wellFormed hTrim.rooted).mp hg
  obtain ⟨hFile, hFull⟩ := mem_files_trim.mp hr
  cases hBelow with
  | refl => exact hFull
  | tail hStart hStep => exact h.drops_trim.2 r hFile _ g hStart hStep

/-! ## Hiding libraries -/

/-- The library nodes of a chart from which nothing has been cut are all shown. -/
theorem Complete.mem_libraries (h : chart.Complete) {n : NodeId} (hn : chart.graph.Listed n) :
    n ∈ chart.nodes.filter (fun n => (chart.graph.node n).isLibrary) ↔
      (chart.graph.node n).isLibrary = true := by
  rw [List.mem_filter]
  refine ⟨And.right, fun hLibrary => ⟨?_, hLibrary⟩⟩
  exact (h.mem_nodes_iff n hn).mpr (Node.not_invented_of_library hLibrary)

/-- Hiding libraries takes out the edges that touch them. -/
theorem Complete.edges_hideLibraries (h : chart.Complete) :
    chart.hideLibraries.edges = chart.edges.filter fun edge =>
      !(chart.graph.node edge.source).isLibrary && !(chart.graph.node edge.target).isLibrary := by
  have hContains : ∀ n, chart.graph.Listed n →
      (chart.nodes.filter fun n => (chart.graph.node n).isLibrary).contains n =
        (chart.graph.node n).isLibrary := by
    intro n hn
    rw [Bool.eq_iff_iff, List.contains_iff_mem, h.mem_libraries hn]
  have hEdges : ∀ edge ∈ chart.edges,
      (!(chart.nodes.filter fun n => (chart.graph.node n).isLibrary).contains edge.source &&
        !(chart.nodes.filter fun n => (chart.graph.node n).isLibrary).contains edge.target) =
      (!(chart.graph.node edge.source).isLibrary && !(chart.graph.node edge.target).isLibrary) := by
    intro edge hEdge
    rw [hContains _ (h.source_listed edge hEdge), hContains _ (h.target_listed edge hEdge)]
  unfold hideLibraries
  dsimp only
  split
  · rename_i hNone
    refine (List.filter_eq_self.mpr fun edge hEdge => ?_).symm
    rw [← hEdges edge hEdge, List.isEmpty_iff.mp hNone]
    rfl
  · exact List.filter_congr hEdges

/-- One chart is another without what belongs to libraries. -/
structure Hides (before after : Chart) : Prop where
  shrinks : before.graph.Shrinks after.graph
  files_eq : after.files = before.files
  mem_nodes : ∀ n, n ∈ after.nodes ↔
    n ∈ before.nodes ∧ (before.graph.node n).isLibrary = false
  mem_group : ∀ g n, n ∈ (after.graph.group g).nodes ↔
    n ∈ (before.graph.group g).nodes ∧ (before.graph.node n).isLibrary = false
  subgroups_kept : ∀ g s, s ∈ (before.graph.group g).subgroups →
    isLibraryGroup (before.graph.group s) = false → s ∈ (after.graph.group g).subgroups

theorem Complete.hides (h : chart.Complete) : Hides chart chart.hideLibraries := by
  unfold hideLibraries
  dsimp only
  split
  · rename_i hNone
    have hFree : ∀ n, chart.graph.Listed n → (chart.graph.node n).isLibrary = false := by
      intro n hn
      by_contra hLibrary
      have hMem := (h.mem_libraries hn).mpr (by simpa using hLibrary)
      rw [List.isEmpty_iff.mp hNone] at hMem
      exact absurd hMem List.not_mem_nil
    exact
      { shrinks := Shrinks.refl _, files_eq := rfl
        mem_nodes := fun n => ⟨fun hn => ⟨hn, hFree n (h.nodes_listed n hn)⟩, And.left⟩
        mem_group := fun g n => ⟨fun hn => ⟨hn, hFree n ⟨g, hn⟩⟩, And.left⟩
        subgroups_kept := fun _ _ hs _ => hs }
  · obtain ⟨hShrinks, hNodes, hSubgroups⟩ := foldl_dropLibraryGroups
      (chart.graph.removeNodes (chart.nodes.filter fun n => (chart.graph.node n).isLibrary))
      chart.files
    have hRemove := shrinks_removeNodes chart.graph
      (chart.nodes.filter fun n => (chart.graph.node n).isLibrary)
    refine
      { shrinks := hRemove.trans hShrinks, files_eq := rfl
        mem_nodes := fun n => by simp
        mem_group := fun g n => ?_
        subgroups_kept := fun g s hs hLibrary => ?_ }
    · rw [hNodes, mem_nodes_removeNodes h.wellFormed]
      refine and_congr_right fun hn => ?_
      rw [h.mem_libraries ⟨g, hn⟩, Bool.not_eq_true]
    · refine hSubgroups g s ?_ ?_
      · rw [subgroups_removeNodes h.wellFormed]
        exact hs
      · rw [hRemove.group_field isLibraryGroup]
        exact hLibrary

theorem Hides.listed {before after : Chart} (h : Hides before after) {n : NodeId} :
    after.graph.Listed n ↔ before.graph.Listed n ∧ (before.graph.node n).isLibrary = false := by
  simp only [Listed, h.mem_group, exists_and_right]

/-- A node that calls something belongs to no library. -/
theorem Complete.source_not_library (h : chart.Complete) {edge : Edge}
    (hEdge : edge ∈ chart.edges) :
    (chart.graph.node edge.source).isLibrary = false := by
  by_contra hLibrary
  have hListed := h.source_listed edge hEdge
  have hNone := (h.sound.regular _ (h.sound.lt_of_listed hListed)).library_bodiless
    (by simpa using hLibrary)
  have hBody := h.source_body edge hEdge
  rw [hNone] at hBody
  exact absurd hBody Bool.false_ne_true

/-- A chart stays consistent when libraries are hidden. -/
theorem Complete.hideLibraries (h : chart.Complete) : chart.hideLibraries.Consistent := by
  have hHides := h.hides
  have hEdge : ∀ {edge}, edge ∈ chart.hideLibraries.edges ↔ edge ∈ chart.edges ∧
      (chart.graph.node edge.source).isLibrary = false ∧
      (chart.graph.node edge.target).isLibrary = false := by
    intro edge
    rw [h.edges_hideLibraries, List.mem_filter]
    simp
  refine
    { wellFormed := hHides.shrinks.wellFormed h.wellFormed
      rooted := by rw [hHides.files_eq]; exact hHides.shrinks.roots h.rooted
      reached := ?_, nodes_listed := ?_, listed_cases := ?_, source_listed := ?_
      target_listed := ?_ }
  · intro g n hn
    rw [hHides.mem_group] at hn
    obtain ⟨r, hr, hBelow⟩ := h.reached g n hn.1
    refine ⟨r, by rw [hHides.files_eq]; exact hr, hBelow.avoid_library
      (fun g hg => h.sound.library_flat hg) hHides.subgroups_kept ?_⟩
    by_contra hLibrary
    rw [h.sound.library_nodes (by simpa using hLibrary) hn.1] at hn
    exact absurd hn.2 Bool.noConfusion
  · intro n hn
    rw [hHides.mem_nodes] at hn
    exact hHides.listed.mpr ⟨h.nodes_listed n hn.1, hn.2⟩
  · intro n hn
    obtain ⟨hListed, hLibrary⟩ := hHides.listed.mp hn
    rcases h.listed_cases n hListed with hMem | ⟨edge, hMem, rfl⟩
    · exact Or.inl ((hHides.mem_nodes n).mpr ⟨hMem, hLibrary⟩)
    · exact Or.inr ⟨edge, hEdge.mpr ⟨hMem, h.source_not_library hMem, hLibrary⟩, rfl⟩
  · intro edge hMem
    obtain ⟨hMem, hSource, _⟩ := hEdge.mp hMem
    exact hHides.listed.mpr ⟨h.source_listed edge hMem, hSource⟩
  · intro edge hMem
    obtain ⟨hMem, _, hTarget⟩ := hEdge.mp hMem
    exact hHides.listed.mpr ⟨h.target_listed edge hMem, hTarget⟩

/-- No library is left when libraries are hidden and the chart is trimmed: a library group lists
library nodes only, so it would be empty. -/
theorem Complete.no_library_trim (h : chart.Complete) :
    (∀ n, chart.hideLibraries.trim.graph.Listed n →
      (chart.hideLibraries.trim.graph.node n).isLibrary = false) ∧
    ∀ g ∈ chart.hideLibraries.trim.graph.groupsOf chart.hideLibraries.trim.files,
      isLibraryGroup (chart.hideLibraries.trim.graph.group g) = false := by
  have hHides := h.hides
  have hTrim := h.hideLibraries.shrinks_trim
  have hAll := hHides.shrinks.trans hTrim
  have hNodes : ∀ n, chart.hideLibraries.trim.graph.Listed n →
      (chart.hideLibraries.trim.graph.node n).isLibrary = false := by
    intro n hn
    rw [hAll.node_eq]
    exact (hHides.listed.mp (hTrim.listed hn)).2
  refine ⟨hNodes, fun g hg => ?_⟩
  by_contra hLibrary
  have hBefore : isLibraryGroup (chart.graph.group g) = true := by
    rw [← hAll.group_field isLibraryGroup]
    simpa using hLibrary
  have hEmpty : chart.hideLibraries.trim.graph.allNodes g = [] := by
    rw [List.eq_nil_iff_forall_not_mem]
    intro n hMem
    obtain ⟨d, hd, hn⟩ := List.mem_flatMap.mp hMem
    have hSelf : d = g :=
      (hAll.below (below_of_mem_groupsBelow hd)).eq_of_flat (h.sound.library_flat hBefore)
    subst hSelf
    have hLibraryNode := h.sound.library_nodes hBefore ((hAll.nodes_sublist d).subset hn)
    rw [← hAll.node_eq, hNodes n ⟨d, hn⟩] at hLibraryNode
    exact absurd hLibraryNode Bool.false_ne_true
  exact h.hideLibraries.trim.no_empty_group g hg hEmpty

end Chart

/-! ## Subsets -/

namespace Graph

theorem shrinks_foldl {α : Type _} {step : Graph → α → Graph}
    (hStep : ∀ (graph : Graph) a, graph.Shrinks (step graph a)) (graph : Graph) (items : List α) :
    graph.Shrinks (items.foldl step graph) := by
  induction items generalizing graph with
  | nil => exact Shrinks.refl _
  | cons item rest ih => exact (hStep graph item).trans (ih _)

theorem shrinks_dropEmptyGroups (graph : Graph) (file : GroupId) :
    graph.Shrinks (Chart.dropEmptyGroups graph file) := by
  refine shrinks_foldl (fun graph g => ?_) graph _
  unfold Chart.dropIfEmpty
  split
  · exact shrinks_removeGroup graph g
  · exact Shrinks.refl _

end Graph

namespace Subset

theorem mem_of_mem_denoted {graph : Graph} {target : String} {nodes found : List NodeId}
    (h : denoted graph target nodes = .ok found) {n : NodeId} (hn : n ∈ found) : n ∈ nodes := by
  induction nodes generalizing found with
  | nil =>
      cases h
      exact hn
  | cons node rest ih =>
      obtain ⟨here, _, h⟩ := exists_of_bind_eq_ok h
      obtain ⟨others, hOthers, h⟩ := exists_of_bind_eq_ok h
      cases h
      split at hn
      · exact (List.mem_cons.mp hn).elim (fun h => h ▸ List.mem_cons_self)
          fun hn => List.mem_cons_of_mem _ (ih hOthers hn)
      · exact List.mem_cons_of_mem _ (ih hOthers hn)

theorem mem_of_targetNode {graph : Graph} {target : String} {nodes : List NodeId} {n : NodeId}
    (h : targetNode graph nodes target = .ok n) : n ∈ nodes := by
  obtain ⟨found, hFound, h⟩ := exists_of_bind_eq_ok h
  match found, h with
  | [_], h =>
      cases h
      exact mem_of_mem_denoted hFound List.mem_cons_self

/-- What is reached is one step away from something. -/
theorem exists_step_of_mem_reached {step : NodeId → List NodeId} {depth : Nat}
    {nodes : List NodeId} {n : NodeId} (h : n ∈ reached step depth nodes) : ∃ m, n ∈ step m := by
  induction depth generalizing nodes with
  | zero => exact absurd h List.not_mem_nil
  | succ depth ih =>
      have hNext : ∀ m ∈ next step nodes, ∃ k, m ∈ step k := by
        intro m hm
        obtain ⟨k, _, hk⟩ := List.mem_flatMap.mp (mem_distinct.mp hm)
        exact ⟨k, hk⟩
      rw [reached] at h
      split at h
      · exact absurd h List.not_mem_nil
      · rcases List.mem_append.mp h with h | h
        · exact hNext n h
        · exact ih h

/-- Around a node there is the node itself, and what edges touch. -/
theorem mem_nodesAround_cases {edges : List Edge} {upward downward : Nat} {n node : NodeId}
    (h : n ∈ nodesAround edges upward downward node) :
    n = node ∨ ∃ edge ∈ edges, n = edge.source ∨ n = edge.target := by
  rw [nodesAround, mem_distinct] at h
  rcases List.mem_append.mp h with h | h
  · rcases List.mem_cons.mp h with rfl | h
    · exact Or.inl rfl
    · obtain ⟨m, hm⟩ := exists_step_of_mem_reached h
      obtain ⟨edge, hEdge, rfl⟩ := List.mem_map.mp hm
      exact Or.inr ⟨edge, (List.mem_filter.mp hEdge).1, Or.inr rfl⟩
  · obtain ⟨m, hm⟩ := exists_step_of_mem_reached h
    obtain ⟨edge, hEdge, rfl⟩ := List.mem_map.mp hm
    exact Or.inr ⟨edge, (List.mem_filter.mp hEdge).1, Or.inl rfl⟩

end Subset

namespace Chart

open CallGraph.Graph

theorem shrinks_keepOnly (chart : Chart) (kept : List NodeId) :
    chart.graph.Shrinks (chart.keepOnly kept).graph :=
  (shrinks_foldl (fun graph _ => shrinks_removeNodes graph _) chart.graph chart.files).trans
    (shrinks_foldl shrinks_dropEmptyGroups _ _)

/-- A subset shows nodes that were shown, and such that edges touch. -/
theorem restrict_spec {chart shown : Chart} {subset : Subset}
    (h : chart.restrict subset = .ok shown) :
    chart.graph.Shrinks shown.graph ∧ ∀ n ∈ shown.nodes,
      n ∈ chart.nodes ∨ ∃ edge ∈ chart.edges, n = edge.source ∨ n = edge.target := by
  obtain ⟨target, hTarget, h⟩ := exists_of_bind_eq_ok h
  cases h
  refine ⟨chart.shrinks_keepOnly _, fun n hn => ?_⟩
  rcases Subset.mem_nodesAround_cases hn with rfl | hEdge
  · exact Or.inl (Subset.mem_of_targetNode hTarget)
  · exact Or.inr hEdge

end Chart

end CallGraph
