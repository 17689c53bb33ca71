import CallGraph.Proofs.Pruning

/-!
# What leaving out by name leaves

Namespaces are left out file by file, and in each file group by group; functions are left out file
by file. Each step takes nodes out of the graph that the steps before it left. A node that is still
listed at the end was listed at every step, so the step at its group, or at a group around it, did
not name it; this is all that is needed to see that nothing named is left. The other way round, if
nothing is asked for by name, every node that a step takes out is named.

## Main definitions

* `Graph.InNamed` — a node stands in a group that is named, or below one.

## Main results

* `not_inNamed_of_listed`, `listed_limitNamespaces` — what leaving out namespaces leaves.
* `not_mentions_of_listed`, `listed_limitFunctions` — what leaving out functions leaves.
-/

namespace CallGraph

namespace Graph

open Limits

variable {graph : Graph} {files : List GroupId} {exclude only : List Value} {n : NodeId}

/-- A node stands in a group that is named, or in one below it. -/
def InNamed (graph : Graph) (names : List Value) (n : NodeId) : Prop :=
  ∃ g p, mentions names (graph.group g).token = true ∧ graph.Below g p ∧
    n ∈ (graph.group p).nodes

/-! ## Folds that take nodes out -/

/-- A node that a fold leaves was left by each of its steps. -/
theorem listed_step_of_foldl {α : Type _} {step : Graph → α → Graph}
    (hStep : ∀ graph a, ∃ ns, step graph a = graph.removeNodes ns) {items : List α}
    (hn : (items.foldl step graph).Listed n) {item : α} (hItem : item ∈ items) :
    ∃ ms, (step (graph.removeNodes ms) item).Listed n := by
  obtain ⟨front, back, rfl⟩ := List.append_of_mem hItem
  obtain ⟨ms, hFront⟩ := foldl_eq_removeNodes hStep graph front
  obtain ⟨ns, hBack⟩ := foldl_eq_removeNodes hStep (step (graph.removeNodes ms) item) back
  rw [List.foldl_append, List.foldl_cons, hFront, hBack] at hn
  exact ⟨ms, (shrinks_removeNodes _ _).listed hn⟩

/-- A fold takes out only what its steps take out. -/
theorem foldl_removes {α : Type _} (step : Graph → α → Graph) {want : NodeId → Prop}
    (hStep : ∀ ms a, ∃ ns, step (graph.removeNodes ms) a = graph.removeNodes (ms ++ ns) ∧
      ∀ n ∈ ns, want n) (items : List α) (ms : List NodeId) :
    ∃ ns, items.foldl step (graph.removeNodes ms) = graph.removeNodes (ms ++ ns) ∧
      ∀ n ∈ ns, want n := by
  induction items generalizing ms with
  | nil => exact ⟨[], by simp, by simp⟩
  | cons item rest ih =>
      obtain ⟨first, hFirst, hWant⟩ := hStep ms item
      obtain ⟨last, hLast, hWant'⟩ := ih (ms ++ first)
      refine ⟨first ++ last, ?_, List.forall_mem_append.mpr ⟨hWant, hWant'⟩⟩
      rw [List.foldl_cons, hFirst, hLast, List.append_assoc]

/-! ## Namespaces -/

theorem below_removeNodes (hGraph : graph.WellFormed) {ms : List NodeId} {a b : GroupId}
    (h : graph.Below a b) : (graph.removeNodes ms).Below a b :=
  h.mono fun g s hs => by rwa [subgroups_removeNodes hGraph]

/-- A node that is left still stands where it stood. -/
theorem mem_allNodes_removeNodes (hGraph : graph.WellFormed) {ms : List NodeId} {g p : GroupId}
    (hBelow : graph.Below g p) (hMem : n ∈ (graph.group p).nodes)
    (hn : (graph.removeNodes ms).Listed n) : n ∈ (graph.removeNodes ms).allNodes g := by
  have hShrinks := shrinks_removeNodes graph ms
  have hg : g.index < (graph.removeNodes ms).groups.size := by
    rw [hShrinks.size_eq]
    exact hBelow.lt (graph.group_lt_of_nodes hMem)
  refine ((hShrinks.wellFormed hGraph).mem_allNodes hg).mpr ⟨p, below_removeNodes hGraph hBelow, ?_⟩
  exact (mem_nodes_removeNodes hGraph).mpr ⟨hMem, ((listed_removeNodes hGraph).mp hn).2⟩

/-- The step at a group that is named leaves nothing inside it. -/
theorem not_mem_of_listed_limitGroup (hGraph : graph.WellFormed) {g : GroupId}
    (hName : mentions exclude (graph.group g).token = true)
    (hn : (limitGroup exclude only graph g).Listed n) : n ∉ graph.allNodes g := by
  unfold limitGroup at hn
  rw [if_pos hName] at hn
  have hFirst : (graph.removeNodes (graph.allNodes g)).Listed n := by
    dsimp only at hn
    split at hn
    · exact (shrinks_removeNodes _ _).listed hn
    · exact hn
  exact ((listed_removeNodes hGraph).mp hFirst).2

/-- The steps of one file go through all its groups. -/
theorem listed_limitGroup_of_limitFile (hGraph : graph.WellFormed) {file g : GroupId}
    (hFile : file.index < graph.groups.size) (hBelow : graph.Below file g)
    (hn : (limitFile exclude only graph file).Listed n) :
    ∃ ms, (limitGroup exclude only (graph.removeNodes ms) g).Listed n := by
  unfold limitFile at hn
  obtain ⟨first, hFirst⟩ := ite_eq_removeNodes
    (mentions exclude (graph.group file).token = true) graph (graph.allNodes file)
  rw [hFirst] at hn
  obtain ⟨last, hLast⟩ := ite_eq_removeNodes
    (isUnwantedFile (graph.removeNodes first) only file = true) (graph.removeNodes first)
    ((graph.removeNodes first).group file).nodes
  simp only [hLast] at hn
  rw [← removeNodes_append] at hn
  have hShrinks := shrinks_removeNodes graph (first ++ last)
  have hMem : g ∈ (graph.removeNodes (first ++ last)).allGroups file :=
    ((hShrinks.wellFormed hGraph).mem_allGroups (by rw [hShrinks.size_eq]; exact hFile)).mpr
      (below_removeNodes hGraph hBelow)
  obtain ⟨ms, hms⟩ := listed_step_of_foldl (limitGroup_eq_removeNodes exclude only) hn hMem
  exact ⟨first ++ last ++ ms, by rw [removeNodes_append]; exact hms⟩

/-- What is left does not stand in a namespace that is named. -/
theorem not_inNamed_of_listed (hGraph : graph.WellFormed) (hRoots : graph.Roots files)
    (hCovered : graph.Covered files)
    (hn : (limitNamespaces graph files exclude only).Listed n) : ¬graph.InNamed exclude n := by
  rintro ⟨g, p, hName, hBelow, hMem⟩
  obtain ⟨file, hFile, hFileBelow⟩ := hCovered p (graph.group_lt_of_nodes hMem)
  have hInside : graph.Below file g := by
    rcases hGraph.below_total hFileBelow hBelow with h | h
    · exact h
    · rw [hGraph.eq_of_below_root h (hRoots.no_parent file hFile)]
      exact Below.refl _
  obtain ⟨ms, hStep⟩ := listed_step_of_foldl (limitFile_eq_removeNodes exclude only) hn hFile
  have hShrinks := shrinks_removeNodes graph ms
  obtain ⟨ks, hStep⟩ := listed_limitGroup_of_limitFile (hShrinks.wellFormed hGraph)
    (by rw [hShrinks.size_eq]; exact hRoots.lt file hFile) (below_removeNodes hGraph hInside) hStep
  rw [← removeNodes_append] at hStep
  have hAll := shrinks_removeNodes graph (ms ++ ks)
  obtain ⟨ns, hGroup⟩ := limitGroup_eq_removeNodes exclude only (graph.removeNodes (ms ++ ks)) g
  have hListed : (graph.removeNodes (ms ++ ks)).Listed n := by
    rw [hGroup] at hStep
    exact (shrinks_removeNodes _ _).listed hStep
  refine not_mem_of_listed_limitGroup (hAll.wellFormed hGraph) ?_ hStep
    (mem_allNodes_removeNodes hGraph hBelow hMem hListed)
  rw [hAll.group_field Group.token]
  exact hName

/-- What stands in a namespace that is named, when some nodes were taken out, did so before. -/
theorem inNamed_of_mem_allNodes {ms : List NodeId} {g : GroupId}
    (hName : mentions exclude ((graph.removeNodes ms).group g).token = true)
    (hn : n ∈ (graph.removeNodes ms).allNodes g) : graph.InNamed exclude n := by
  have hShrinks := shrinks_removeNodes graph ms
  obtain ⟨p, hp, hMem⟩ := List.mem_flatMap.mp hn
  refine ⟨g, p, ?_, hShrinks.below (below_of_mem_groupsBelow hp),
    (hShrinks.nodes_sublist p).subset hMem⟩
  rw [hShrinks.group_field Group.token] at hName
  exact hName

/-- If no namespace is asked for, a step at a group takes out what stands in one that is named. -/
theorem limitGroup_removes (graph : Graph) (exclude : List Value) (ms : List NodeId)
    (g : GroupId) :
    ∃ ns, limitGroup exclude [] (graph.removeNodes ms) g = graph.removeNodes (ms ++ ns) ∧
      ∀ n ∈ ns, graph.InNamed exclude n := by
  unfold limitGroup
  simp only [isUnwanted, List.isEmpty_nil, Bool.not_true, Bool.false_and, Bool.false_eq_true,
    if_false]
  split
  · rename_i hName
    exact ⟨_, (removeNodes_append _ _ _).symm, fun n hn => inNamed_of_mem_allNodes hName hn⟩
  · exact ⟨[], by simp, by simp⟩

theorem limitFile_removes (graph : Graph) (exclude : List Value) (ms : List NodeId)
    (file : GroupId) :
    ∃ ns, limitFile exclude [] (graph.removeNodes ms) file = graph.removeNodes (ms ++ ns) ∧
      ∀ n ∈ ns, graph.InNamed exclude n := by
  have hFirst : ∃ first, (if mentions exclude ((graph.removeNodes ms).group file).token then
      (graph.removeNodes ms).removeNodes ((graph.removeNodes ms).allNodes file)
      else graph.removeNodes ms) = graph.removeNodes (ms ++ first) ∧
      ∀ n ∈ first, graph.InNamed exclude n := by
    split
    · rename_i hName
      exact ⟨_, (removeNodes_append _ _ _).symm, fun n hn => inNamed_of_mem_allNodes hName hn⟩
    · exact ⟨[], by simp, by simp⟩
  obtain ⟨first, hFirst, hWant⟩ := hFirst
  unfold limitFile
  simp only [isUnwantedFile, List.isEmpty_nil, Bool.not_true, Bool.false_and, Bool.false_eq_true,
    if_false, hFirst]
  obtain ⟨last, hLast, hWant'⟩ := foldl_removes _ (limitGroup_removes graph exclude)
    ((graph.removeNodes (ms ++ first)).allGroups file) (ms ++ first)
  exact ⟨first ++ last, by rw [hLast, List.append_assoc],
    List.forall_mem_append.mpr ⟨hWant, hWant'⟩⟩

/-- If no namespace is asked for, what stands in none that is named is left. -/
theorem listed_limitNamespaces (hGraph : graph.WellFormed) (files : List GroupId)
    (hn : graph.Listed n) (hNot : ¬graph.InNamed exclude n) :
    (limitNamespaces graph files exclude []).Listed n := by
  obtain ⟨ns, hEq, hNamed⟩ := foldl_removes _ (limitFile_removes graph exclude) files []
  rw [limitNamespaces, show graph = graph.removeNodes [] from rfl, hEq, List.nil_append,
    listed_removeNodes hGraph]
  exact ⟨hn, fun hMem => hNot (hNamed n hMem)⟩

/-! ## Functions -/

/-- What is left has no token that is named. -/
theorem not_mentions_of_listed (hGraph : graph.WellFormed) (hCovered : graph.Covered files)
    (hn : (limitFunctions graph files exclude only).Listed n) :
    mentions exclude (graph.node n).token = false := by
  obtain ⟨ns, hEq⟩ := limitFunctions_eq_removeNodes graph files exclude only
  have hBefore : graph.Listed n := (shrinks_removeNodes graph ns).listed (hEq ▸ hn)
  obtain ⟨p, hMem⟩ := hBefore
  obtain ⟨file, hFile, hBelow⟩ := hCovered p (graph.group_lt_of_nodes hMem)
  obtain ⟨ms, hStep⟩ := listed_step_of_foldl (fun _ _ => ⟨_, rfl⟩) hn hFile
  have hShrinks := shrinks_removeNodes graph ms
  obtain ⟨hListed, hOut⟩ := (listed_removeNodes (hShrinks.wellFormed hGraph)).mp hStep
  have hThere := mem_allNodes_removeNodes hGraph hBelow hMem hListed
  rw [← Bool.not_eq_true]
  intro hName
  refine hOut (List.mem_filter.mpr ⟨hThere, ?_⟩)
  rw [isLeftOut, hShrinks.node_eq, hName, Bool.true_or]

/-- If no function is asked for, what has no token that is named is left. -/
theorem listed_limitFunctions (hGraph : graph.WellFormed) (files : List GroupId)
    (hn : graph.Listed n) (hNot : mentions exclude (graph.node n).token = false) :
    (limitFunctions graph files exclude []).Listed n := by
  -- Each file's step takes out what has a token that is named.
  have hStep : ∀ ms (file : GroupId), ∃ ns, (graph.removeNodes ms).removeNodes
      (((graph.removeNodes ms).allNodes file).filter
        (isLeftOut (graph.removeNodes ms) exclude [])) = graph.removeNodes (ms ++ ns) ∧
      ∀ n ∈ ns, mentions exclude (graph.node n).token = true := by
    intro ms file
    refine ⟨_, (removeNodes_append _ _ _).symm, fun m hm => ?_⟩
    have hLeft := (List.mem_filter.mp hm).2
    rw [isLeftOut, (shrinks_removeNodes graph ms).node_eq] at hLeft
    simpa using hLeft
  obtain ⟨ns, hEq, hNamed⟩ := foldl_removes
    (fun left file => left.removeNodes ((left.allNodes file).filter (isLeftOut left exclude [])))
    hStep files []
  rw [limitFunctions, show graph = graph.removeNodes [] from rfl, hEq, List.nil_append,
    listed_removeNodes hGraph]
  refine ⟨hn, fun hMem => ?_⟩
  rw [hNamed n hMem] at hNot
  exact absurd hNot (by simp)

end Graph

end CallGraph
