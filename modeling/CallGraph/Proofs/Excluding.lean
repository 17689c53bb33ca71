import CallGraph.Program
import CallGraph.Proofs.Landing
import CallGraph.Proofs.Limiting
import CallGraph.Proofs.Untrimmed

/-!
# What is shown although it is excluded

Namespaces and functions are excluded by name when the files are loaded, before any call is linked.
Of what the files define, nothing that is named is left, and what is not named stays. But linking
makes further nodes: a placeholder for a call that is not found has the token of the call, the
constructor that a class does not spell out stands in the class, and library nodes have the tokens
of the functions they stand for. Nothing looks at the names of these, so a function that is excluded
and still called comes back as a placeholder.

A node that is shown although it is excluded is always one of these. For the placeholders and the
nodes made up there is an exact condition on the calls; library nodes are shown only on demand.

## Main definitions

* `CallMap.Options.Excludes` — a node is excluded by its token or by a group it stands in.

## Main results

* `Prepares.mem_start_iff` — of what the files define, exactly what is not excluded is left.
* `Run.made_of_excludes` — what is excluded and still there was made while calls were linked.
* `Run.missing_excluded_iff`, `Run.invented_excluded_iff` — when such nodes are shown.
* `exclusions_of_prepare` — all of this for the chart that is written.
-/

namespace CallGraph

open CallGraph.Graph

namespace CallMap

/-- A node is excluded by name: its token is named, or that of a group in which it stands. -/
def Options.Excludes (options : Options) (graph : Graph) (node : Node) : Prop :=
  Limits.mentions options.excludeFunctions node.token = true ∨
    ∃ p g, node.parent = .group p ∧ graph.Around p g ∧
      Limits.mentions options.excludeNamespaces (graph.group g).token = true

variable {files : FileSystem} {options : Options} {sources : List String}
variable {read : List FileOutline} {prepared : Prepared} {linked : Linking}

theorem excludes_congr {graph : Graph} {a b : Node} (hToken : a.token = b.token)
    (hParent : a.parent = b.parent) : options.Excludes graph a ↔ options.Excludes graph b := by
  rw [Options.Excludes, Options.Excludes, hToken, hParent]

/-- Taking entries out of the lists of groups moves nothing. -/
theorem excludes_of_shrinks {before after : Graph} (h : before.Shrinks after) (node : Node) :
    options.Excludes after node ↔ options.Excludes before node := by
  have hParent : ∀ g, (after.group g).parent = (before.group g).parent :=
    h.group_field Group.parent
  have hToken : ∀ g, (after.group g).token = (before.group g).token :=
    h.group_field Group.token
  unfold Options.Excludes
  simp only [around_congr hParent, hToken]

/-! ## What limiting leaves -/

section Limit

variable {graph limited : Graph} {roots : List GroupId} {n : NodeId}

/-- In a forest, a node is excluded by its token or by what is above it. -/
theorem excludes_iff_inNamed (hGraph : graph.WellFormed) (hRoots : graph.Roots roots)
    (hCovered : graph.Covered roots) (hn : graph.Listed n) :
    options.Excludes graph (graph.node n) ↔
      Limits.mentions options.excludeFunctions (graph.node n).token = true ∨
        graph.InNamed options.excludeNamespaces n := by
  refine or_congr_right ⟨?_, ?_⟩
  · rintro ⟨p, g, hParent, hAround, hName⟩
    obtain ⟨q, hSame, hMem⟩ := hGraph.parent_of hn
    rw [hParent] at hSame
    cases hSame
    exact ⟨g, p, hName, (hGraph.around_iff_below hRoots hCovered).mp hAround, hMem⟩
  · rintro ⟨g, p, hName, hBelow, hMem⟩
    exact ⟨p, g, hGraph.parent_of_listed hMem,
      (hGraph.around_iff_below hRoots hCovered).mpr hBelow, hName⟩

/-- What limiting leaves is not excluded. -/
theorem not_excludes_of_limit (hGraph : graph.WellFormed) (hRoots : graph.Roots roots)
    (hCovered : graph.Covered roots) (h : (limit options graph roots).result = .ok limited)
    (hn : limited.Listed n) : ¬options.Excludes graph (graph.node n) := by
  obtain ⟨first, hFirst⟩ := limitNamespaces_eq_removeNodes graph roots options.excludeNamespaces
    options.onlyNamespaces
  obtain ⟨last, hLast⟩ := limitFunctions_eq_removeNodes (graph.removeNodes first) roots
    options.excludeFunctions options.onlyFunctions
  have hShrinks := shrinks_removeNodes graph first
  rw [eq_of_limit h, hFirst] at hn
  have hMiddle : (graph.removeNodes first).Listed n :=
    (shrinks_removeNodes _ last).listed (hLast ▸ hn)
  have hToken := not_mentions_of_listed (hShrinks.wellFormed hGraph)
    (hCovered.removeNodes hGraph first) hn
  have hNamed := not_inNamed_of_listed hGraph hRoots hCovered (hFirst ▸ hMiddle)
  rw [hShrinks.node_eq] at hToken
  rw [excludes_iff_inNamed hGraph hRoots hCovered (hShrinks.listed hMiddle), hToken]
  simpa using hNamed

/-- If nothing is asked for by name, what is not excluded stays. -/
theorem listed_of_limit (hGraph : graph.WellFormed) (hRoots : graph.Roots roots)
    (hCovered : graph.Covered roots) (hNamespaces : options.onlyNamespaces = [])
    (hFunctions : options.onlyFunctions = [])
    (h : (limit options graph roots).result = .ok limited) (hn : graph.Listed n)
    (hNot : ¬options.Excludes graph (graph.node n)) : limited.Listed n := by
  rw [excludes_iff_inNamed hGraph hRoots hCovered hn, not_or, Bool.not_eq_true] at hNot
  have hMiddle := listed_limitNamespaces hGraph roots hn hNot.2
  obtain ⟨first, hFirst⟩ := limitNamespaces_eq_removeNodes graph roots options.excludeNamespaces []
  have hShrinks := shrinks_removeNodes graph first
  rw [eq_of_limit h, hNamespaces, hFunctions, hFirst]
  refine listed_limitFunctions (hShrinks.wellFormed hGraph) roots (hFirst ▸ hMiddle) ?_
  rw [hShrinks.node_eq]
  exact hNot.1

end Limit

/-- Of what the files define, exactly what is not excluded is left, unless something is asked for
by name. -/
theorem Prepares.mem_start_iff {ns : List NodeId} {settled : Graph}
    (h : Prepares options read ns settled prepared) (hNamespaces : options.onlyNamespaces = [])
    (hFunctions : options.onlyFunctions = []) {n : NodeId}
    (hn : (Graph.loaded read).1.Listed n) :
    n ∈ prepared.start.nodes ↔ ¬options.Excludes (Graph.loaded read).1
      ((Graph.loaded read).1.node n) := by
  have hLoaded := loading_insertFiles read
  obtain ⟨hRebinds, hReady⟩ := h.ready
  obtain ⟨others, hLined⟩ := h.lined
  constructor
  · intro hMem
    have hOwn := hReady.mem_nodesOf.mp (hLined.mem_own hMem hn)
    exact not_excludes_of_limit hLoaded.toWellFormed hLoaded.rooted hLoaded.covered h.limits
      (hRebinds.listed.mp hOwn)
  · intro hNot
    have hLeft := listed_of_limit hLoaded.toWellFormed hLoaded.rooted hLoaded.covered hNamespaces
      hFunctions h.limits hn hNot
    rw [hLined.nodes_eq]
    exact List.mem_append_left _ (hReady.mem_nodesOf.mpr (hRebinds.listed.mpr hLeft))

/-- A chart that is trimmed shows what its edges touch. -/
theorem nodes_cut (hTrim : options.noTrimming = false) (chart : Chart) :
    (cut options chart).nodes = Chart.touched (cut options chart).edges := by
  unfold cut
  rw [hTrim, if_neg Bool.false_ne_true]
  split <;> rfl

/-! ## What linking makes -/

section Run

variable (h : Run files options sources read prepared linked)
include h

/-- What stands around a group of the files stood there when they were loaded. -/
theorem Run.below_of_around
    {ns : List NodeId} {settled : Graph} (hPrepares : Prepares options read ns settled prepared)
    {p g : GroupId} (hp : p.index < (Graph.loaded read).1.groups.size)
    (hAround : linked.graph.Around p g) : (Graph.loaded read).1.Below g p ∧
      (linked.graph.group g).token = ((Graph.loaded read).1.group g).token := by
  have hLoaded := loading_insertFiles read
  obtain ⟨hRebinds, _⟩ := hPrepares.ready
  obtain ⟨_, hStarted, _⟩ := hPrepares.started
  obtain ⟨_, hProgress, _⟩ := h.links.progress
  have hGrows := hStarted.grows.trans hProgress.grows
  obtain ⟨r, hr, hBelow⟩ := hLoaded.covered p hp
  have hSubgroups : ∀ a s, s ∈ ((Graph.loaded read).1.group a).subgroups →
      s ∈ (linked.graph.group a).subgroups := by
    intro a s hs
    apply hGrows.mem_subgroups
    rw [hRebinds.subgroups_of_group, subgroups_removeNodes hLoaded.toWellFormed]
    exact hs
  have hRoot : (linked.graph.group r).parent = none := by
    apply h.links.valid.stocked.rooted.no_parent
    have hFile := hProgress.files_prefix.subset (hStarted.files_prefix.subset hr)
    simp [hFile]
  obtain ⟨_, hOuter⟩ := h.links.valid.sound.toWellFormed.below_of_around hSubgroups hRoot hBelow
    hAround
  have hg : g.index < settled.groups.size := by
    rw [hRebinds.groups_size, (shrinks_removeNodes _ ns).size_eq]
    exact hOuter.lt hp
  refine ⟨hOuter, ?_⟩
  rw [hGrows.group_field Group.token hg, group_field_settled hRebinds Group.token]

/-- A node of the files that is excluded when all calls are linked was so when they were loaded. -/
theorem Run.excludes_loaded
    {ns : List NodeId} {settled : Graph} (hPrepares : Prepares options read ns settled prepared)
    {n : NodeId} (hn : (Graph.loaded read).1.Listed n)
    (hExcludes : options.Excludes linked.graph (linked.graph.node n)) :
    options.Excludes (Graph.loaded read).1
      ((Graph.loaded read).1.node n) := by
  have hLoaded := loading_insertFiles read
  obtain ⟨_, hProgress, _⟩ := h.links.progress
  have hLt := hLoaded.lt_of_listed hn
  rcases hExcludes with hName | ⟨p, g, hParent, hAround, hName⟩
  · left
    rw [hPrepares.node_field hProgress.grows Node.token hLt] at hName
    exact hName
  · right
    rw [hPrepares.node_field hProgress.grows Node.parent hLt] at hParent
    obtain ⟨q, hSame, hMem⟩ := hLoaded.toWellFormed.parent_of hn
    rw [hParent] at hSame
    cases hSame
    obtain ⟨hBelow, hToken⟩ := h.below_of_around hPrepares (group_lt_of_nodes _ hMem) hAround
    rw [hToken] at hName
    exact ⟨p, g, hParent,
      (hLoaded.toWellFormed.around_iff_below hLoaded.rooted hLoaded.covered).mpr hBelow, hName⟩

/-- What is there of the files when all calls are linked was not left out. -/
theorem Run.listed_settled
    {ns : List NodeId} {settled : Graph} (hPrepares : Prepares options read ns settled prepared)
    {n : NodeId} (hn : linked.graph.Listed n) (hOld : n.index < settled.nodes.size) :
    settled.Listed n := by
  obtain ⟨hRebinds, _⟩ := hPrepares.ready
  obtain ⟨direct, hStarted, _⟩ := hPrepares.started
  obtain ⟨_, hProgress, _⟩ := h.links.progress
  have hProper := not_invented_settled (loading_insertFiles read) hRebinds hOld
  rw [← (hStarted.grows.trans hProgress.grows).node_field Node.isInvented hOld,
    ← h.mem_nodes_iff hn] at hProper
  obtain ⟨added, hAdded, _, hNewer⟩ := hProgress.nodes_eq
  obtain ⟨all, hStart, hDirect, _, hNew⟩ := hStarted.nodes_eq
  have hLe := hStarted.grows.nodes_le
  rw [hAdded, hStart] at hProper
  simp only [List.mem_append] at hProper
  rcases hProper with ((hMem | hMem) | hMem) | hMem
  · exact listed_of_mem_nodesOf hMem
  · have := hNew n (hDirect n hMem)
    omega
  · have := hNew n hMem
    omega
  · have := hNewer n hMem
    omega

/-- What is excluded and still there was made while calls were linked. -/
theorem Run.made_of_excludes {n : NodeId} (hn : linked.graph.Listed n)
    (hExcludes : options.Excludes linked.graph (linked.graph.node n)) :
    ¬(Graph.loaded read).1.Listed n ∧
      ((linked.graph.node n).isMissing = true ∨ (linked.graph.node n).isInvented = true ∨
        (linked.graph.node n).isLibrary = true) := by
  have hLoaded := loading_insertFiles read
  obtain ⟨ns, settled, hPrepares⟩ := exists_of_prepare h.prepares
  obtain ⟨hRebinds, _⟩ := hPrepares.ready
  obtain ⟨_, hStarted, _⟩ := hPrepares.started
  obtain ⟨_, hProgress, _⟩ := h.links.progress
  have hSize := hPrepares.nodes_size
  have hNew : settled.nodes.size ≤ n.index := by
    by_contra hLt
    have hLimited := hRebinds.listed.mp (h.listed_settled hPrepares hn (by omega))
    have hBefore := (shrinks_removeNodes _ ns).listed hLimited
    exact not_excludes_of_limit hLoaded.toWellFormed hLoaded.rooted hLoaded.covered
      hPrepares.limits hLimited (h.excludes_loaded hPrepares hBefore hExcludes)
  constructor
  · intro hOld
    have hLt := hLoaded.lt_of_listed hOld
    omega
  · -- A node without a body is a placeholder, a library node or made up.
    have hBody := ((hStarted.grows.trans hProgress.grows).bodiless_of_new n hNew).1
    simp only [Node.isInvented, hBody]
    cases (linked.graph.node n).isMissing <;> cases (linked.graph.node n).isLibrary <;> simp

/-! ## What is shown -/

theorem Run.shrinks : linked.graph.Shrinks (cut options (chartOf linked.withMissing)).graph := by
  have hShrinks := shrinks_cut h.complete options
  rwa [show (chartOf linked.withMissing).graph = linked.graph from linked.graph_withMissing]
    at hShrinks

/-- What is shown, and where edges lead, is in the graph in which calls are linked. -/
theorem Run.listed_of_shown {n : NodeId}
    (hn : n ∈ (cut options (chartOf linked.withMissing)).nodes ∨
      ∃ edge ∈ (cut options (chartOf linked.withMissing)).edges,
        n = edge.source ∨ n = edge.target) : linked.graph.Listed n := by
  have hConsistent := consistent_cut h.complete options
  apply h.shrinks.listed
  rcases hn with hn | ⟨edge, hEdge, rfl | rfl⟩
  · exact hConsistent.nodes_listed n hn
  · exact hConsistent.source_listed edge hEdge
  · exact hConsistent.target_listed edge hEdge

/-- Where libraries are hidden, none of their nodes is shown. -/
theorem Run.not_library_of_shown
    (hTrim : options.noTrimming = false) (hHide : options.showLibraries = false) {n : NodeId}
    (hn : n ∈ (cut options (chartOf linked.withMissing)).nodes ∨
      ∃ edge ∈ (cut options (chartOf linked.withMissing)).edges,
        n = edge.source ∨ n = edge.target) : (linked.graph.node n).isLibrary = false := by
  rw [nodes_cut hTrim, Chart.mem_touched, or_self] at hn
  obtain ⟨edge, hEdge, hEnd⟩ := hn
  rw [edges_cut h.complete, if_neg (by simp [hTrim, hHide])] at hEdge
  have hLibrary := (List.mem_filter.mp hEdge).2
  rw [show (chartOf linked.withMissing).graph = linked.graph from linked.graph_withMissing,
    Bool.and_eq_true, Bool.not_eq_true', Bool.not_eq_true'] at hLibrary
  rcases hEnd with rfl | rfl
  · exact hLibrary.1
  · exact hLibrary.2

/-- A node that edges lead to is shown, unless it belongs to a library, or nothing is trimmed and it
was made up. -/
theorem Run.target_shown {edge : Edge} (hEdge : edge ∈ linked.edges)
    (hLibrary : (linked.graph.node edge.target).isLibrary = false)
    (hProper : options.noTrimming = false ∨
      (linked.graph.node edge.target).isInvented = false) :
    edge.target ∈ (cut options (chartOf linked.withMissing)).nodes := by
  by_cases hTrim : options.noTrimming = false
  · rw [nodes_cut hTrim, Chart.mem_touched]
    exact ⟨edge, (h.mem_edges_cut_iff hEdge).mpr (Or.inl hLibrary), Or.inr rfl⟩
  · have hMem := (h.mem_nodes_iff (h.links.valid.target_listed edge hEdge)).mpr
      (hProper.resolve_left hTrim)
    rw [cut, if_pos (by simpa using hTrim)]
    rw [← linked.nodes_withMissing] at hMem
    exact hMem

/-! ## Placeholders -/

/-- The placeholders stand in a group of their own. -/
theorem Run.token_missingGroup :
    (linked.graph.group linked.missingGroup).token = missingFile.token := by
  obtain ⟨ns, settled, hPrepares⟩ := exists_of_prepare h.prepares
  obtain ⟨_, hStarted, _⟩ := hPrepares.started
  obtain ⟨_, hProgress, _⟩ := h.links.progress
  have hLt := hStarted.valid.stocked.rooted.lt prepared.start.missingGroup (by simp)
  rw [hProgress.missingGroup_eq, hProgress.grows.group_field Group.token hLt, hPrepares.start_eq]
  unfold startWith
  rw [group_addGroup_self]

/-- A placeholder is excluded by its token, or all of them are. -/
theorem Run.excludes_missing_iff {e : String × NodeId} (he : e ∈ linked.missing) :
    options.Excludes linked.graph (linked.graph.node e.2) ↔
      Limits.mentions options.excludeFunctions (linked.graph.node e.2).token = true ∨
        Limits.mentions options.excludeNamespaces missingFile.token = true := by
  have hParent := (h.landed.lacks.placed e he).2
  have hRoot : (linked.graph.group linked.missingGroup).parent = none :=
    h.links.valid.stocked.rooted.no_parent _ (by simp)
  rw [← h.token_missingGroup]
  refine or_congr_right ⟨?_, fun hName => ⟨_, _, hParent, .refl, hName⟩⟩
  rintro ⟨p, g, hGroup, hAround, hName⟩
  rw [hParent] at hGroup
  cases hGroup
  rwa [hAround.eq_of_root hRoot] at hName

/-- The placeholders are the nodes of the calls that were not found. -/
theorem Run.mem_missing_iff {n : NodeId} : n ∈ (cut options (chartOf linked.withMissing)).nodes ∧
        (linked.graph.node n).isMissing = true ↔ ∃ e ∈ linked.missing, e.2 = n := by
  have hNodes := h.landed.lacks.nodes_eq
  constructor
  · rintro ⟨hShown, hMissing⟩
    have hListed := h.listed_of_shown (Or.inl hShown)
    have hMem : n ∈ linked.nodes := by
      rw [h.mem_nodes_iff hListed, Node.isInvented, hMissing]
      simp
    have hFilter : n ∈ linked.nodes.filter fun n => (linked.graph.node n).isMissing :=
      List.mem_filter.mpr ⟨hMem, hMissing⟩
    rw [hNodes] at hFilter
    exact List.mem_map.mp hFilter
  · rintro ⟨e, he, rfl⟩
    have hFilter : e.2 ∈ linked.nodes.filter fun n => (linked.graph.node n).isMissing := by
      rw [hNodes]
      exact List.mem_map_of_mem he
    obtain ⟨hMem, hMissing⟩ := List.mem_filter.mp hFilter
    refine ⟨?_, hMissing⟩
    obtain ⟨ns, settled, hPrepares⟩ := exists_of_prepare h.prepares
    obtain ⟨edge, hEdge, hTarget⟩ := (h.landed.called e he).resolve_left fun hOld => by
      rw [hPrepares.missing_start] at hOld
      exact absurd hOld List.not_mem_nil
    have hLt := h.links.valid.node_lt e.2 hMem
    rw [← hTarget] at hMem hMissing hLt ⊢
    exact h.target_shown hEdge
      ((h.links.valid.sound.regular _ hLt).missing_bodiless hMissing).2
      (Or.inr (h.links.valid.nodes_proper _ hMem))

/-- A placeholder that is excluded is shown exactly if a call that was not found has a token that is
excluded, or there is such a call and the group of the placeholders is excluded. -/
theorem Run.missing_excluded_iff : (∃ n ∈ (cut options (chartOf linked.withMissing)).nodes,
        (linked.graph.node n).isMissing = true ∧
          options.Excludes linked.graph (linked.graph.node n)) ↔
      ∃ entry ∈ lacking (missedCalls (prepared.asked options)),
        Limits.mentions options.excludeFunctions entry.2 = true ∨
          Limits.mentions options.excludeNamespaces missingFile.token = true := by
  have hTable := h.landed.lacks.table
  rw [List.nil_append] at hTable
  rw [← hTable]
  constructor
  · rintro ⟨n, hn, hMissing, hExcludes⟩
    obtain ⟨e, he, rfl⟩ := h.mem_missing_iff.mp ⟨hn, hMissing⟩
    exact ⟨_, List.mem_map_of_mem he, (h.excludes_missing_iff he).mp hExcludes⟩
  · rintro ⟨entry, hEntry, hName⟩
    obtain ⟨e, he, rfl⟩ := List.mem_map.mp hEntry
    obtain ⟨hShown, hMissing⟩ := h.mem_missing_iff.mpr ⟨e, he, rfl⟩
    exact ⟨e.2, hShown, hMissing, (h.excludes_missing_iff he).mpr hName⟩

/-! ## Nodes made up -/

/-- A node made up for a call is shown where the chart is trimmed. -/
theorem Run.invented_excluded_iff : (∃ n ∈ (cut options (chartOf linked.withMissing)).nodes,
        (linked.graph.node n).isInvented = true ∧
          options.Excludes linked.graph (linked.graph.node n)) ↔
      options.noTrimming = false ∧ ∃ query ∈ prepared.asked options, ∃ node via,
        query.resolve = .ok (.create node via) ∧ options.Excludes linked.graph node := by
  obtain ⟨_, _, _, hStarted, _, _⟩ := started_of_prepare h.prepares
  obtain ⟨_, hProgress, _⟩ := h.links.progress
  constructor
  · rintro ⟨n, hn, hInvented, hExcludes⟩
    have hListed := h.listed_of_shown (Or.inl hn)
    refine ⟨?_, ?_⟩
    · by_contra hTrim
      rw [cut, if_pos (by simpa using hTrim)] at hn
      have hMem : n ∈ linked.nodes := linked.nodes_withMissing ▸ hn
      rw [h.links.valid.nodes_proper n hMem] at hInvented
      exact absurd hInvented (by simp)
    · rcases h.landed.made n hListed hInvented with
        hOld | ⟨query, hQuery, node, via, hCreate, hBears⟩
      · rw [hProgress.grows.node_field Node.isInvented
          (hStarted.valid.lt_of_listed hOld)] at hInvented
        exact absurd ⟨n, hOld, hInvented⟩ hStarted.not_hasInvented
      · exact ⟨query, hQuery, node, via, hCreate,
          (excludes_congr hBears.token hBears.parent).mp hExcludes⟩
  · rintro ⟨hTrim, query, hQuery, node, via, hCreate, hExcludes⟩
    obtain ⟨first, rest, hAsked⟩ := List.append_of_mem hQuery
    obtain ⟨edge, hEdge, _, hLands⟩ := h.exists_edge_at hAsked
    have hBears := hLands.created node via hCreate
    have hLibrary : (linked.graph.node edge.target).isLibrary = false := by
      have hInvented := hBears.invented
      simp only [Node.isInvented, Bool.and_eq_true, Bool.not_eq_true'] at hInvented
      exact hInvented.1.2
    exact ⟨edge.target, h.target_shown (List.mem_of_getElem? hEdge) hLibrary (Or.inl hTrim),
      hBears.invented, (excludes_congr hBears.token hBears.parent).mpr hExcludes⟩

end Run

end CallMap

/-! ## The chart that is written -/

namespace Program

open CallMap (Run missingFile)

variable {environment : Environment} {sources : List String} {destination : Destination}
variable {options : Options} {ready : Prepared}

/-- The chart that is written: that of the sources, cut down to a subset and sorted. -/
theorem exists_build_of_prepare
    (h : (prepare environment sources destination options).result = .ok ready) :
    ∃ chosen language paths chart shown, mapOptions options = .ok chosen ∧
      (CallMap.build environment.files chosen language paths).result = .ok chart ∧
      (restrict options.subset chart).result = .ok shown ∧ shown.sorted = .ok ready.chart := by
  simp only [prepare, Reported.result_bind, Reported.result_liftM] at h
  obtain ⟨chosen, hChosen, h⟩ := exists_of_bind_eq_ok h
  obtain ⟨⟨paths, language⟩, _, h⟩ := exists_of_bind_eq_ok h
  obtain ⟨output, _, h⟩ := exists_of_bind_eq_ok h
  obtain ⟨chart, hChart, h⟩ := exists_of_bind_eq_ok h
  obtain ⟨shown, hShown, h⟩ := exists_of_bind_eq_ok h
  obtain ⟨sorted, hSorted, h⟩ := exists_of_bind_eq_ok h
  obtain ⟨_, _, h⟩ := exists_of_bind_eq_ok h
  cases h
  exact ⟨chosen, language, paths, chart, shown, hChosen, hChart, hShown, hSorted⟩

/-- What is written of a chart: nodes that it shows or that its edges touch, each where it was. -/
structure Writes (chart written : Chart) : Prop where
  shrinks : chart.graph.Shrinks written.graph
  shown : ∀ n ∈ written.nodes,
    n ∈ chart.nodes ∨ ∃ edge ∈ chart.edges, n = edge.source ∨ n = edge.target

theorem writes_of_restrict {subset : Option Subset} {chart shown written : Chart}
    (hShown : (restrict subset chart).result = .ok shown) (hSorted : shown.sorted = .ok written) :
    Writes chart written ∧ (subset = none → ∀ n, n ∈ written.nodes ↔ n ∈ chart.nodes) := by
  have hGraph : written.graph = shown.graph := by
    obtain ⟨_, _, hSorted⟩ := exists_of_bind_eq_ok hSorted
    obtain ⟨_, _, hSorted⟩ := exists_of_bind_eq_ok hSorted
    cases hSorted
    rfl
  have hNodes : ∀ n, n ∈ written.nodes ↔ n ∈ shown.nodes := fun n =>
    (Chart.perm_of_sorted hSorted).1.mem_iff
  cases subset with
  | none =>
      cases hShown
      exact ⟨⟨hGraph ▸ Shrinks.refl _, fun n hn => Or.inl ((hNodes n).mp hn)⟩, fun _ => hNodes⟩
  | some subset =>
      simp only [restrict, Reported.result_bind, Reported.result_liftM] at hShown
      obtain ⟨_, _, hShown⟩ := exists_of_bind_eq_ok hShown
      obtain ⟨hShrinks, hCases⟩ := Chart.restrict_spec hShown
      exact ⟨⟨hGraph ▸ hShrinks, fun n hn => hCases n ((hNodes n).mp hn)⟩, nofun⟩

/--
Of what the files define, nothing that is excluded is in the chart that is written, and if nothing
is asked for by name, everything else takes part in linking. A node that is excluded and still shown
was made while calls were linked: it is a placeholder, a node made up, or a library node, and none
of the last kind is shown unless libraries are asked for or nothing is trimmed. In a chart that is
not cut down to a subset there is such a placeholder exactly if some call that was not found has an
excluded token, or there is such a call and the group of the placeholders is excluded; and there is
such a node made up exactly if the chart is trimmed and some call makes one up that is excluded.
-/
theorem exclusions_of_prepare
    (h : (prepare environment sources destination options).result = .ok ready) :
    ∃ chosen paths read prepared linked, mapOptions options = .ok chosen ∧
      Run environment.files chosen paths read prepared linked ∧
      (chosen.onlyNamespaces = [] → chosen.onlyFunctions = [] →
        ∀ n, (Graph.loaded read).1.Listed n →
          (n ∈ prepared.start.nodes ↔ ¬chosen.Excludes (Graph.loaded read).1
            ((Graph.loaded read).1.node n))) ∧
      (∀ n ∈ ready.chart.nodes,
        chosen.Excludes ready.chart.graph (ready.chart.graph.node n) →
          ¬(Graph.loaded read).1.Listed n ∧
            ((ready.chart.graph.node n).isMissing = true ∨
              (ready.chart.graph.node n).isInvented = true ∨
              (ready.chart.graph.node n).isLibrary = true)) ∧
      (chosen.noTrimming = false → chosen.showLibraries = false →
        ∀ n ∈ ready.chart.nodes, (ready.chart.graph.node n).isLibrary = false) ∧
      (options.subset = none →
        ((∃ n ∈ ready.chart.nodes, (ready.chart.graph.node n).isMissing = true ∧
            chosen.Excludes ready.chart.graph (ready.chart.graph.node n)) ↔
          ∃ entry ∈ lacking (missedCalls (prepared.asked chosen)),
            Limits.mentions chosen.excludeFunctions entry.2 = true ∨
              Limits.mentions chosen.excludeNamespaces missingFile.token = true) ∧
        ((∃ n ∈ ready.chart.nodes, (ready.chart.graph.node n).isInvented = true ∧
            chosen.Excludes ready.chart.graph (ready.chart.graph.node n)) ↔
          chosen.noTrimming = false ∧ ∃ query ∈ prepared.asked chosen, ∃ node via,
            query.resolve = .ok (.create node via) ∧ chosen.Excludes linked.graph node)) := by
  obtain ⟨chosen, _, paths, chart, shown, hChosen, hChart, hShown, hSorted⟩ :=
    exists_build_of_prepare h
  obtain ⟨read, prepared, linked, hRun, rfl⟩ := CallMap.exists_run_of_build hChart
  obtain ⟨hWrites, hAll⟩ := writes_of_restrict hShown hSorted
  have hShrinks := hRun.shrinks.trans hWrites.shrinks
  refine ⟨chosen, paths, read, prepared, linked, hChosen, hRun, ?_, fun n hn hExcludes => ?_,
    fun hTrim hHide n hn => ?_, fun hSubset => ?_⟩
  · intro hNamespaces hFunctions n hn
    obtain ⟨ns, settled, hPrepares⟩ := CallMap.exists_of_prepare hRun.prepares
    exact hPrepares.mem_start_iff hNamespaces hFunctions hn
  · rw [CallMap.excludes_of_shrinks hShrinks, hShrinks.node_eq] at hExcludes
    rw [hShrinks.node_eq]
    exact hRun.made_of_excludes (hRun.listed_of_shown (hWrites.shown n hn)) hExcludes
  · rw [hShrinks.node_eq]
    exact hRun.not_library_of_shown hTrim hHide (hWrites.shown n hn)
  · simp only [hAll hSubset, hShrinks.node_eq, CallMap.excludes_of_shrinks hShrinks]
    exact ⟨hRun.missing_excluded_iff, hRun.invented_excluded_iff⟩

/-- A class with a class in it that one of its functions makes an instance of, and two functions of
which one calls the other. -/
def nestedModule : Tree :=
  .moduleOf
    [.classAt 1 "C"
       [.classAt 2 "D" [.functionAt 3 "m" [.passAt 4]],
        .functionAt 5 "n" [.statementAt 6 (.callAt 6 (.memberAt 6 (.nameAt 6 "self") "D"))]],
     .functionAt 7 "a" [.passAt 8],
     .functionAt 9 "b" [.statementAt 10 (.callAt 10 (.nameAt 10 "a"))]]

def nestedEnvironment : Environment :=
  { files := { entries := [(["a.py"], .file { content := .ok nestedModule })] }, searchPath := "" }

/-- The inner class and the function that is called are excluded. -/
def nestedOptions : Options :=
  { excludeNamespaces := .list [.text "D"], excludeFunctions := .list [.text "a"] }

/-- Both are shown all the same: a placeholder has the token of the function, and the constructor
that was made up stands in the class. -/
theorem exclusions_of_prepare_nested :
    ∃ ready chosen paths read prepared linked,
      (prepare nestedEnvironment ["a.py"] .stream nestedOptions).result = .ok ready ∧
      Run nestedEnvironment.files chosen paths read prepared linked ∧
      ready.chart.nodes.length = 4 ∧
      (∃ n ∈ ready.chart.nodes, (ready.chart.graph.node n).isMissing = true ∧
        chosen.Excludes ready.chart.graph (ready.chart.graph.node n) ∧
        ¬(Graph.loaded read).1.Listed n) ∧
      (∃ entry ∈ lacking (missedCalls (prepared.asked chosen)),
        Limits.mentions chosen.excludeFunctions entry.2 = true ∨
          Limits.mentions chosen.excludeNamespaces missingFile.token = true) ∧
      ∃ query ∈ prepared.asked chosen, ∃ node via,
        query.resolve = .ok (.create node via) ∧ chosen.Excludes linked.graph node := by
  obtain ⟨ready, hReady, hTest⟩ := CallMap.exists_ok_of_any
    (show (prepare nestedEnvironment ["a.py"] .stream nestedOptions).result.toOption.any
      (fun ready => ready.chart.nodes.length == 4 &&
        (ready.chart.nodes.any fun n => (ready.chart.graph.node n).isMissing &&
          (ready.chart.graph.node n).token == "a") &&
        (ready.chart.nodes.any fun n => (ready.chart.graph.node n).isInvented &&
          (ready.chart.graph.parentGroup? n).any fun p =>
            (ready.chart.graph.group p).token == "D")) = true by decide +kernel)
  obtain ⟨chosen, paths, read, prepared, linked, hChosen, hRun, _, hMade, _, hShown⟩ :=
    exclusions_of_prepare hReady
  obtain ⟨hMissing, hInvented⟩ := hShown rfl
  have hNames : chosen.excludeFunctions = [.text "a"] ∧ chosen.excludeNamespaces = [.text "D"] := by
    cases hChosen
    exact ⟨rfl, rfl⟩
  simp only [Bool.and_eq_true, List.any_eq_true, Option.any_eq_true, beq_iff_eq] at hTest
  obtain ⟨⟨hLength, n, hn, hPlaceholder, hToken⟩, m, hm, hConstructor, hInner⟩ := hTest
  have hFirst : chosen.Excludes ready.chart.graph (ready.chart.graph.node n) := by
    left
    rw [hNames.1, hToken]
    decide
  have hSecond : chosen.Excludes ready.chart.graph (ready.chart.graph.node m) := by
    obtain ⟨p, hp, hInner⟩ := hInner
    refine Or.inr ⟨p, p, parent_of_parentGroup? hp, .refl, ?_⟩
    rw [hNames.2, hInner]
    decide
  exact ⟨ready, chosen, paths, read, prepared, linked, hReady, hRun, hLength,
    ⟨n, hn, hPlaceholder, hFirst, (hMade n hn hFirst).1⟩,
    hMissing.mp ⟨n, hn, hPlaceholder, hFirst⟩, (hInvented.mp ⟨m, hm, hConstructor, hSecond⟩).2⟩

/-- A function and another one that calls it. -/
def calledModule : Tree :=
  .moduleOf
    [.functionAt 1 "a" [.passAt 2],
     .functionAt 3 "b" [.statementAt 4 (.callAt 4 (.nameAt 4 "a"))]]

def calledEnvironment : Environment :=
  { files := { entries := [(["a.py"], .file { content := .ok calledModule })] }, searchPath := "" }

/-- A function that is excluded and called has its name in what is written. -/
theorem excluded_shown_called :
    ∃ ready, (prepare calledEnvironment ["a.py"] .stream
        { excludeFunctions := .list [.text "a"] }).result = .ok ready ∧
      ∃ n ∈ ready.chart.nodes,
        Limits.mentions [.text "a"] (ready.chart.graph.node n).token = true := by
  obtain ⟨ready, hReady, hTest⟩ := CallMap.exists_ok_of_any
    (show (prepare calledEnvironment ["a.py"] .stream
        { excludeFunctions := .list [.text "a"] }).result.toOption.any
      (fun ready => ready.chart.nodes.any fun n =>
        Limits.mentions [.text "a"] (ready.chart.graph.node n).token) = true by decide +kernel)
  exact ⟨ready, hReady, List.any_eq_true.mp hTest⟩

end Program

end CallGraph
