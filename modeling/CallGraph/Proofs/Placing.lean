import CallGraph.Proofs.Sorting

/-!
# Every node has a place

A node is named by what lies above it: the walks go from the node to its group, and from group to
group up to a file. A walk that met a group without a parent on its way, or did not meet a file,
would leave the node without a name, and a chart with such a node can be neither sorted nor written.

That this does not happen is a fact about the forest. The files are at the top, a package that is
made while calls are linked is hung into a file at once, and what is taken out is taken out of the
list that leads to it. So the way up from a group is the way down to it, read backwards, and it ends
in a file of the chart (`Graph.WellFormed.exists_chain`). No other group on it is a file
(`Graph.NoInnerFile`), so that file is also the one that names are taken from.

## Main definitions

* `Graph.NoInnerFile` — what lies inside something is no file.
* `Chart.Founded` — a consistent chart whose forest stands on files.
* `Chart.Forest` — parents and lists agree, nothing occurs twice, files are at the top.
* `Chart.Placed` — where a node stands, and what the walks upwards from it come to.

## Main results

* `Chart.Founded.forest`, `Chart.Founded.placed` — a founded chart is a forest in which every node
  has a place.
* `Chart.Founded.keepOnly` — a subset of a founded chart is founded.
* `CallMap.wellPlaced_of_build` — so it is for every chart of some sources, while calls are linked
  and until it is written.
-/

namespace CallGraph

namespace Graph

variable {graph before after : Graph}

/-! ## The way up -/

/-- The groups of the table with a level below that of `g`. -/
private def lower (graph : Graph) (level : GroupId → Nat) (g : GroupId) : Finset Nat :=
  (Finset.range graph.groups.size).filter fun i => level ⟨i⟩ < level g

private theorem lower_lt_of_subgroup {level : GroupId → Nat}
    (hLevel : ∀ g s, s ∈ (graph.group g).subgroups → level g < level s) {g s : GroupId}
    (hs : s ∈ (graph.group g).subgroups) :
    (lower graph level g).card < (lower graph level s).card := by
  apply Finset.card_lt_card
  constructor
  · intro i hi
    simp only [lower, Finset.mem_filter] at hi ⊢
    exact ⟨hi.1, Nat.lt_trans hi.2 (hLevel g s hs)⟩
  · intro hSub
    have hMem : g.index ∈ lower graph level s := by
      simp only [lower, Finset.mem_filter, Finset.mem_range]
      exact ⟨graph.group_lt_of_subgroups hs, hLevel g s hs⟩
    have hSelf := hSub hMem
    simp [lower] at hSelf

private theorem lower_le_size {level : GroupId → Nat} {g : GroupId} :
    (lower graph level g).card ≤ graph.groups.size := by
  have hAll := Finset.card_le_card (Finset.filter_subset (fun i => level ⟨i⟩ < level g)
    (Finset.range graph.groups.size))
  rwa [Finset.card_range] at hAll

theorem upwards_none (depth : Nat) : graph.upwards depth none = [] := by
  cases depth <;> rfl

/-- The way up from a group goes back on the way down to it. Every step leads to a lower level, so
the walk needs no more depth than there are levels. -/
private theorem exists_upwards (hGraph : graph.WellFormed) {level : GroupId → Nat}
    (hLevel : ∀ g s, s ∈ (graph.group g).subgroups → level g < level s) {r g : GroupId}
    (hRoot : (graph.group r).parent = none) (h : graph.Below r g) {depth : Nat}
    (hDepth : (lower graph level g).card < depth) :
    ∃ inner, graph.upwards depth (some g) = inner ++ [r] ∧
      ∀ x ∈ inner, ∃ outer, x ∈ (graph.group outer).subgroups := by
  induction h generalizing depth with
  | refl =>
      obtain ⟨depth, rfl⟩ := Nat.exists_eq_succ_of_ne_zero (Nat.ne_zero_of_lt hDepth)
      refine ⟨[], ?_, by simp⟩
      rw [upwards, hRoot, upwards_none, List.nil_append]
  | @tail outer last _ hStep ih =>
      obtain ⟨depth, rfl⟩ := Nat.exists_eq_succ_of_ne_zero (Nat.ne_zero_of_lt hDepth)
      have hLower := lower_lt_of_subgroup hLevel hStep
      obtain ⟨inner, hInner, hInside⟩ := ih (show (lower graph level outer).card < depth by omega)
      refine ⟨last :: inner, ?_, ?_⟩
      · rw [upwards, hGraph.parent_of_subgroup hStep, hInner, List.cons_append]
      · intro x hx
        rcases List.mem_cons.mp hx with rfl | hx
        · exact ⟨outer, hStep⟩
        · exact hInside x hx

/-- Above a group that a root leads to, there are groups that lie inside something, and then the
root. -/
theorem WellFormed.exists_chain (hGraph : graph.WellFormed) {r g : GroupId}
    (hRoot : (graph.group r).parent = none) (h : graph.Below r g) :
    ∃ inner, graph.chain g = inner ++ [r] ∧
      ∀ x ∈ inner, ∃ outer, x ∈ (graph.group outer).subgroups := by
  obtain ⟨level, hLevel⟩ := hGraph.acyclic
  -- A group and the groups above it are a walk that starts one step earlier.
  change ∃ inner, graph.upwards (graph.groups.size + 1) (some g) = _ ∧ _
  exact exists_upwards hGraph hLevel hRoot h (Nat.lt_succ_of_le lower_le_size)

/-! ## Files are at the top only -/

/-- What lies inside something is no file. -/
def NoInnerFile (graph : Graph) : Prop :=
  ∀ g s, s ∈ (graph.group g).subgroups → (graph.group s).kind ≠ .file

theorem NoInnerFile.shrinks (h : before.NoInnerFile) (hShrinks : before.Shrinks after) :
    after.NoInnerFile := by
  intro g s hs
  rw [hShrinks.group_field Group.kind]
  exact h g s (hShrinks.mem_subgroups hs)

/-- Only packages are hung into something later. -/
theorem NoInnerFile.grows (h : before.NoInnerFile) (hBefore : before.WellFormed)
    (hGrows : before.Grows after) (hAfter : after.Sound) : after.NoInnerFile := by
  intro g s hs
  rcases hGrows.library_of_hung hs with hOld | hLibrary
  · rw [hGrows.group_field Group.kind (hBefore.subgroup_lt hOld)]
    exact h g s hOld
  · rw [hAfter.library_kind hLibrary]
    simp

section Upwards

variable {r g : GroupId} {n : NodeId}

/-- Below a file, the file itself is the only file. -/
theorem NoInnerFile.kind_eq_file_iff (h : graph.NoInnerFile) (hFile : (graph.group r).kind = .file)
    (hBelow : graph.Below r g) : (graph.group g).kind = .file ↔ g = r := by
  constructor
  · intro hKind
    cases hBelow with
    | refl => rfl
    | tail _ hStep => exact absurd hKind (h _ g hStep)
  · rintro rfl
    exact hFile

/-- The name of the file around a group is that of the file that leads to it. -/
theorem NoInnerFile.fileName?_eq (h : graph.NoInnerFile) (hGraph : graph.WellFormed)
    (hFile : (graph.group r).kind = .file) (hRoot : (graph.group r).parent = none)
    (hBelow : graph.Below r g) : graph.fileName? g = some (graph.group r).token := by
  obtain ⟨inner, hChain, hInside⟩ := hGraph.exists_chain hRoot hBelow
  have hNone : inner.find? (fun above => decide ((graph.group above).kind = .file)) = none := by
    rw [List.find?_eq_none]
    intro x hx
    obtain ⟨outer, hOuter⟩ := hInside x hx
    simpa using h outer x hOuter
  rw [fileName?, hChain, List.find?_append, hNone, Option.none_or]
  simp [hFile]

theorem topGroup?_eq (hGraph : graph.WellFormed) (hRoot : (graph.group r).parent = none)
    (hBelow : graph.Below r g) (hn : (graph.node n).parent = .group g) :
    graph.topGroup? n = some r := by
  obtain ⟨inner, hChain, _⟩ := hGraph.exists_chain hRoot hBelow
  rw [topGroup?, firstGroup?_of_parent hn, Option.bind_some, hChain, List.getLast?_concat]

/-- Only what is not directly in a file is owned by something that its name tells. -/
theorem NoInnerFile.ownedToken_eq (h : graph.NoInnerFile) (hFile : (graph.group r).kind = .file)
    (hBelow : graph.Below r g) (hn : (graph.node n).parent = .group g) :
    graph.ownedToken n =
      if g = r then (graph.node n).token
      else Dotted.join [(graph.group g).token, (graph.node n).token] := by
  have hParent : graph.parentGroup? n = some g := by rw [parentGroup?, hn]
  rw [ownedToken, hParent]
  dsimp only
  by_cases hSelf : g = r
  · rw [if_pos hSelf, if_neg (not_not.mpr ((h.kind_eq_file_iff hFile hBelow).mpr hSelf))]
  · rw [if_neg hSelf, if_pos fun hKind => hSelf ((h.kind_eq_file_iff hFile hBelow).mp hKind)]

end Upwards

end Graph

namespace Chart

open CallGraph.Graph

/-! ## Charts on files -/

/-- The parts of a chart agree, and its forest stands on files. -/
structure Founded (chart : Chart) : Prop extends Consistent chart where
  file_kind : ∀ f ∈ chart.files, (chart.graph.group f).kind = .file
  no_inner_file : chart.graph.NoInnerFile

/-- Parents and lists agree in everything that the files lead to, no group and no node occurs twice,
and at the top there are files. -/
structure Forest (chart : Chart) : Prop where
  top : ∀ f ∈ chart.files, (chart.graph.group f).kind = .file ∧ (chart.graph.group f).parent = none
  /-- The walk from the files goes wherever they lead. -/
  mem_groups_iff : ∀ g, g ∈ chart.graph.groupsOf chart.files ↔
    ∃ f ∈ chart.files, chart.graph.Below f g
  parent_of_subgroup : ∀ g ∈ chart.graph.groupsOf chart.files, ∀ s ∈ (chart.graph.group g).subgroups,
    (chart.graph.group s).parent = some g
  parent_of_node : ∀ g ∈ chart.graph.groupsOf chart.files, ∀ n ∈ (chart.graph.group g).nodes,
    (chart.graph.node n).parent = .group g
  groups_nodup : (chart.graph.groupsOf chart.files).Nodup
  nodes_nodup : (chart.graph.nodesOf chart.files).Nodup

/-- A node stands in the group `g`, below the file `f`, and every walk upwards from it ends there. -/
structure Placed (chart : Chart) (n : NodeId) (g f : GroupId) : Prop where
  file_mem : f ∈ chart.files
  below : chart.graph.Below f g
  mem_nodes : n ∈ (chart.graph.group g).nodes
  firstGroup : chart.graph.firstGroup? n = some g
  topGroup : chart.graph.topGroup? n = some f
  fileName : chart.graph.fileName? g = some (chart.graph.group f).token
  ownedToken : chart.graph.ownedToken n =
    if g = f then (chart.graph.node n).token
    else Dotted.join [(chart.graph.group g).token, (chart.graph.node n).token]
  name : chart.graph.name n =
    .ok ((chart.graph.group f).token ++ "::" ++ chart.graph.ownedToken n)

/-- The forest is in order, and every node that the chart mentions has a place in it. -/
structure WellPlaced (chart : Chart) : Prop where
  forest : chart.Forest
  placed : ∀ n ∈ chart.mentioned, ∃ g f, chart.Placed n g f

namespace Founded

variable {chart other : Chart}

theorem forest (h : chart.Founded) : chart.Forest where
  top f hf := ⟨h.file_kind f hf, h.rooted.no_parent f hf⟩
  mem_groups_iff _ := mem_groupsOf h.wellFormed h.rooted
  parent_of_subgroup _ _ _ hs := h.wellFormed.parent_of_subgroup hs
  parent_of_node _ _ _ hn := h.wellFormed.parent_of_listed hn
  groups_nodup := nodup_groupsOf h.wellFormed h.rooted
  nodes_nodup := nodup_nodesOf h.wellFormed h.rooted

theorem placed (h : chart.Founded) {n : NodeId} (hn : chart.graph.Listed n) :
    ∃ g f, chart.Placed n g f := by
  obtain ⟨g, hn⟩ := hn
  obtain ⟨f, hf, hBelow⟩ := h.reached g n hn
  have hParent := h.wellFormed.parent_of_listed hn
  have hKind := h.file_kind f hf
  have hRoot := h.rooted.no_parent f hf
  have hFirst := firstGroup?_of_parent hParent
  have hFile := h.no_inner_file.fileName?_eq h.wellFormed hKind hRoot hBelow
  exact ⟨g, f,
    { file_mem := hf, below := hBelow, mem_nodes := hn, firstGroup := hFirst
      topGroup := topGroup?_eq h.wellFormed hRoot hBelow hParent
      fileName := hFile
      ownedToken := h.no_inner_file.ownedToken_eq hKind hBelow hParent
      name := by rw [Graph.name, hFirst]; dsimp only; rw [hFile] }⟩

theorem listed (h : chart.Founded) {n : NodeId} (hn : n ∈ chart.mentioned) :
    chart.graph.Listed n := by
  rcases mem_mentioned.mp hn with hShown | ⟨edge, hEdge, rfl | rfl⟩
  · exact h.nodes_listed n hShown
  · exact h.source_listed edge hEdge
  · exact h.target_listed edge hEdge

theorem wellPlaced (h : chart.Founded) : chart.WellPlaced :=
  ⟨h.forest, fun _ hn => h.placed (h.listed hn)⟩

/-- Every node that a founded chart mentions has a name. -/
theorem exists_named (h : chart.Founded) : ∃ name, chart.Named name := by
  have hName : ∀ n, ∃ name, n ∈ chart.mentioned → chart.graph.name n = .ok name := by
    intro n
    by_cases hn : n ∈ chart.mentioned
    · obtain ⟨g, f, hPlaced⟩ := h.placed (h.listed hn)
      exact ⟨_, fun _ => hPlaced.name⟩
    · exact ⟨"", fun hMem => absurd hMem hn⟩
  choose name hName using hName
  exact ⟨name, hName⟩

/-- A chart that is cut out of a founded one is founded if its parts agree. -/
theorem shrinks (h : chart.Founded) (hOther : other.Consistent)
    (hShrinks : chart.graph.Shrinks other.graph) (hFiles : ∀ f ∈ other.files, f ∈ chart.files) :
    other.Founded :=
  { hOther with
    file_kind := fun f hf => by
      rw [hShrinks.group_field Group.kind]
      exact h.file_kind f (hFiles f hf)
    no_inner_file := h.no_inner_file.shrinks hShrinks }

/-- Sorting a founded chart succeeds, and the result is founded. -/
theorem exists_sorted (h : chart.Founded) :
    ∃ sorted, chart.sorted = .ok sorted ∧ sorted.Founded := by
  obtain ⟨name, hName⟩ := h.exists_named
  refine ⟨_, sorted_eq hName, ?_⟩
  have hFiles := perm_sortBy
    (fun a b => decide (chart.graph.groupLabel a ≤ chart.graph.groupLabel b)) chart.files
  have hNodes := perm_sortBy (byKey name) chart.nodes
  have hEdges := perm_sortBy (fun a b => !Graph.namesBefore name b a) chart.edges
  exact
    { wellFormed := h.wellFormed
      rooted :=
        { nodup := hFiles.nodup_iff.mpr h.rooted.nodup
          lt := fun r hr => h.rooted.lt r (hFiles.mem_iff.mp hr)
          no_parent := fun r hr => h.rooted.no_parent r (hFiles.mem_iff.mp hr) }
      reached := fun g n hn => by
        obtain ⟨r, hr, hBelow⟩ := h.reached g n hn
        exact ⟨r, hFiles.mem_iff.mpr hr, hBelow⟩
      nodes_listed := fun n hn => h.nodes_listed n (hNodes.mem_iff.mp hn)
      listed_cases := fun n hn => by
        rcases h.listed_cases n hn with hMem | ⟨edge, hEdge, hTarget⟩
        · exact Or.inl (hNodes.mem_iff.mpr hMem)
        · exact Or.inr ⟨edge, hEdges.mem_iff.mpr hEdge, hTarget⟩
      source_listed := fun edge hEdge => h.source_listed edge (hEdges.mem_iff.mp hEdge)
      target_listed := fun edge hEdge => h.target_listed edge (hEdges.mem_iff.mp hEdge)
      file_kind := fun f hf => h.file_kind f (hFiles.mem_iff.mp hf)
      no_inner_file := h.no_inner_file }

/-- The text of a founded chart can be written down. -/
theorem exists_text (h : chart.Founded) (options : Program.Options) (output : Program.Output) :
    ∃ text, Program.textOf options output chart = .ok text := by
  obtain ⟨name, hName⟩ := h.exists_named
  exact textOf_isOk (fun n hn => hName n (mentioned_of_node hn)) options output

end Founded

/-! ## Subsets -/

/-- One step of keeping some nodes only: of what lies below a file, the others are taken out. -/
def keepBelow (kept : List NodeId) (graph : Graph) (file : GroupId) : Graph :=
  graph.removeNodes ((graph.allNodes file).filter fun node => !kept.contains node)

/-- Taking out below some files what is not kept leaves what is kept, and leaves below these files
nothing else. -/
theorem foldl_keepBelow {graph : Graph} (hGraph : graph.WellFormed) (kept : List NodeId)
    {files : List GroupId} (hFiles : ∀ f ∈ files, f.index < graph.groups.size) :
    graph.Shrinks (files.foldl (keepBelow kept) graph) ∧
      (∀ g, ((files.foldl (keepBelow kept) graph).group g).subgroups = (graph.group g).subgroups) ∧
      (∀ g, ∀ n ∈ (graph.group g).nodes, n ∈ kept →
        n ∈ ((files.foldl (keepBelow kept) graph).group g).nodes) ∧
      ∀ f ∈ files, ∀ g, graph.Below f g →
        ∀ n ∈ ((files.foldl (keepBelow kept) graph).group g).nodes, n ∈ kept := by
  induction files generalizing graph with
  | nil => exact ⟨Shrinks.refl _, fun _ => rfl, fun _ _ hn _ => hn, by simp⟩
  | cons first rest ih =>
      have hStep : graph.Shrinks (keepBelow kept graph first) := shrinks_removeNodes graph _
      have hSubgroups : ∀ g,
          ((keepBelow kept graph first).group g).subgroups = (graph.group g).subgroups :=
        subgroups_removeNodes hGraph _
      have hMem : ∀ {g n}, n ∈ ((keepBelow kept graph first).group g).nodes ↔
          n ∈ (graph.group g).nodes ∧ (n ∈ graph.allNodes first → n ∈ kept) := by
        intro g n
        rw [keepBelow, mem_nodes_removeNodes hGraph]
        simp
      obtain ⟨hShrinks, hSame, hKept, hOnly⟩ := ih (hStep.wellFormed hGraph) fun f hf => by
        rw [hStep.size_eq]
        exact hFiles f (List.mem_cons_of_mem _ hf)
      refine ⟨hStep.trans hShrinks, fun g => (hSame g).trans (hSubgroups g), ?_, ?_⟩
      · intro g n hn hk
        exact hKept g n (hMem.mpr ⟨hn, fun _ => hk⟩) hk
      · intro f hf g hBelow n hn
        rcases List.mem_cons.mp hf with rfl | hf
        · have hFirst := hMem.mp ((hShrinks.nodes_sublist g).subset hn)
          exact hFirst.2 ((hGraph.mem_allNodes (hFiles f List.mem_cons_self)).mpr
            ⟨g, hBelow, hFirst.1⟩)
        · refine hOnly f hf g (hBelow.mono fun g s hs => ?_) n hn
          rw [hSubgroups]
          exact hs

variable {chart : Chart} {kept : List NodeId}

theorem Consistent.keepOnly (h : chart.Consistent) (hListed : ∀ n ∈ kept, chart.graph.Listed n) :
    (chart.keepOnly kept).Consistent := by
  obtain ⟨hTaken, hSubgroups, hKept, hOnly⟩ := foldl_keepBelow h.wellFormed kept h.rooted.lt
  have hGraph := hTaken.wellFormed h.wellFormed
  have hRoots := hTaken.roots h.rooted
  generalize hMiddle : chart.files.foldl (keepBelow kept) chart.graph = middle at *
  have hFiles : ∀ f, f ∈ (chart.keepOnly kept).files ↔ f ∈ chart.files ∧ middle.allNodes f ≠ [] := by
    subst hMiddle
    intro f
    refine List.mem_filter.trans (and_congr_right fun _ => ?_)
    rw [Bool.not_eq_true', List.isEmpty_eq_false_iff]
    rfl
  have hDrops : middle.Drops (chart.keepOnly kept).graph := by
    subst hMiddle
    exact (foldl_dropEmptyGroups hGraph fun f hf => hRoots.lt f (List.mem_filter.mp hf).1).1
  have hReached : middle.Reached (chart.keepOnly kept).files := by
    intro g n hn
    obtain ⟨r, hr, hBelow⟩ := h.reached g n ((hTaken.nodes_sublist g).subset hn)
    have hBelow' : middle.Below r g := hBelow.mono fun g s hs => by rwa [hSubgroups]
    have hMem := (hGraph.mem_allNodes (hRoots.lt r hr)).mpr ⟨g, hBelow', hn⟩
    exact ⟨r, (hFiles r).mpr ⟨hr, List.ne_nil_of_mem hMem⟩, hBelow'⟩
  have hNodes : ∀ n, (chart.keepOnly kept).graph.Listed n ↔ n ∈ kept := by
    intro n
    rw [hDrops.listed]
    constructor
    · rintro ⟨g, hn⟩
      obtain ⟨r, hr, hBelow⟩ := h.reached g n ((hTaken.nodes_sublist g).subset hn)
      exact hOnly r hr g hBelow n hn
    · intro hk
      obtain ⟨g, hn⟩ := hListed n hk
      exact ⟨g, hKept g n hn hk⟩
  have hEnds : ∀ edge ∈ (chart.keepOnly kept).edges, edge.source ∈ kept ∧ edge.target ∈ kept := by
    intro edge hEdge
    simpa using (List.mem_filter.mp hEdge).2
  have hAfter := hDrops.shrinks.roots hRoots
  exact
    { wellFormed := hDrops.shrinks.wellFormed hGraph
      rooted :=
        { nodup := h.rooted.nodup.filter _
          lt := fun r hr => hAfter.lt r ((hFiles r).mp hr).1
          no_parent := fun r hr => hAfter.no_parent r ((hFiles r).mp hr).1 }
      reached := hDrops.reached hReached
      nodes_listed := fun n hn => (hNodes n).mpr hn
      listed_cases := fun n hn => Or.inl ((hNodes n).mp hn)
      source_listed := fun edge hEdge => (hNodes _).mpr (hEnds edge hEdge).1
      target_listed := fun edge hEdge => (hNodes _).mpr (hEnds edge hEdge).2 }

theorem Founded.keepOnly (h : chart.Founded) (hListed : ∀ n ∈ kept, chart.graph.Listed n) :
    (chart.keepOnly kept).Founded :=
  h.shrinks (h.toConsistent.keepOnly hListed) (chart.shrinks_keepOnly kept) fun _ hf =>
    (List.mem_filter.mp hf).1

/-- Where nodes have names, asking which of them a name denotes is answered. -/
theorem exists_denoted {graph : Graph} {nodes : List NodeId} {name : NodeId → String}
    (h : ∀ n ∈ nodes, graph.name n = .ok (name n)) (target : String) :
    ∃ found, Subset.denoted graph target nodes = .ok found := by
  induction nodes with
  | nil => exact ⟨[], rfl⟩
  | cons n rest ih =>
      obtain ⟨others, hOthers⟩ := ih fun m hm => h m (List.mem_cons_of_mem n hm)
      have hHere : ∃ here, Subset.denotes graph target n = .ok here := by
        unfold Subset.denotes
        split
        · exact ⟨true, rfl⟩
        · rw [h n List.mem_cons_self]
          exact ⟨_, rfl⟩
      obtain ⟨here, hHere⟩ := hHere
      rw [Subset.denoted, hHere, hOthers]
      exact ⟨_, rfl⟩

namespace Founded

variable {subset : Subset}

/-- A subset of a founded chart is founded. -/
theorem restrict {shown : Chart} (h : chart.Founded) (hShown : chart.restrict subset = .ok shown) :
    shown.Founded := by
  obtain ⟨target, hTarget, hShown⟩ := exists_of_bind_eq_ok hShown
  cases hShown
  apply h.keepOnly
  intro n hn
  rcases Subset.mem_nodesAround_cases hn with rfl | hEdge
  · exact h.nodes_listed n (Subset.mem_of_targetNode hTarget)
  · exact h.listed (mem_mentioned.mpr (Or.inr hEdge))

/-- There is no subset only if the name of the target denotes no node, or several. -/
theorem fault_of_restrict {fault : Fault} (h : chart.Founded)
    (hFault : chart.restrict subset = .error fault) :
    fault = .targetNotFound subset.target ∨
      ∃ several : List NodeId, 1 < several.length ∧
        fault = .targetAmbiguous subset.target (several.map chart.graph.shownNode) := by
  obtain ⟨name, hName⟩ := h.exists_named
  obtain ⟨found, hFound⟩ :=
    exists_denoted (fun n hn => hName n (mentioned_of_node hn)) subset.target
  rw [Chart.restrict, Subset.targetNode, hFound] at hFault
  rcases found with _ | ⟨first, _ | ⟨second, rest⟩⟩
  · exact Or.inl (Except.error.inj hFault).symm
  · cases hFault
  · exact Or.inr ⟨first :: second :: rest, by simp, (Except.error.inj hFault).symm⟩

end Founded

end Chart

namespace CallMap

open CallGraph.Graph

variable {files : FileSystem} {options : Options} {sources : List String}
variable {outlines : List FileOutline} {prepared : Prepared}

/-! ## The charts of some sources -/

/-- Before anything is linked, classes are all that lies inside something. -/
theorem Prepares.noInnerFile {ns : List NodeId} {settled : Graph}
    (h : Prepares options outlines ns settled prepared) : settled.NoInnerFile := by
  intro g s hs
  have hRebinds := h.ready.1
  have hLoaded := loading_insertFiles outlines
  rw [hRebinds.subgroups_of_group] at hs
  rw [group_field_settled hRebinds Group.kind,
    hLoaded.inner_class ((shrinks_removeNodes _ ns).mem_subgroups hs)]
  simp

/-- While calls are linked, the chart of what is linked so far is founded. -/
theorem founded_of_linkAll {callers : List NodeId} {state : Linking} {linkOptions : LinkOptions}
    (h : (prepare options outlines).result = .ok prepared)
    (hCallers : callers <+: prepared.start.nodes)
    (hState : prepared.start.linkAll linkOptions prepared.imports callers = .ok state) :
    (chartOf state.withMissing).Founded := by
  obtain ⟨ns, settled, hPrepares⟩ := exists_of_prepare h
  obtain ⟨direct, hStarted, _⟩ := hPrepares.started
  have hLinked := Linking.linkAll_spec (hPrepares.linkable hCallers) hState
  obtain ⟨_, hProgress, _⟩ := hLinked.progress
  have hInner := hPrepares.noInnerFile.grows hPrepares.ready.2.sound.toWellFormed
    (hStarted.grows.trans hProgress.grows) hLinked.valid.sound
  have hGraph : (chartOf state.withMissing).graph = state.graph := state.graph_withMissing
  refine { hLinked.valid.complete.toConsistent with file_kind := ?_, no_inner_file := ?_ }
  · intro f hf
    rw [hGraph]
    apply hLinked.valid.file_kind
    change f ∈ state.withMissing.files at hf
    unfold Linking.withMissing at hf
    split at hf
    · exact List.mem_append_left _ hf
    · exact hf
  · rw [hGraph]
    exact hInner

theorem mem_files_of_cut {chart : Chart} {f : GroupId} (h : chart.Complete)
    (hf : f ∈ (cut options chart).files) : f ∈ chart.files := by
  unfold cut at hf
  split at hf
  · exact hf
  · split at hf
    · exact (Chart.mem_files_trim.mp hf).1
    · rw [← h.hides.files_eq]
      exact (Chart.mem_files_trim.mp hf).1

/-- The chart of some sources is founded. -/
theorem founded_of_build {language : Value} {chart : Chart}
    (h : (build files options language sources).result = .ok chart) : chart.Founded := by
  obtain ⟨_, _, linked, hRun, rfl⟩ := exists_run_of_build h
  have hFounded := founded_of_linkAll hRun.prepares List.prefix_rfl hRun.finishes
  exact hFounded.shrinks (consistent_cut hRun.complete options) (shrinks_cut hRun.complete options)
    fun _ hf => mem_files_of_cut hRun.complete hf

/-- What can be linked can be linked up to any caller. -/
theorem exists_linkAll_of_prefix {linkOptions : LinkOptions} {imports callers all : List NodeId}
    {state next : Linking} (hPrefix : callers <+: all)
    (h : state.linkAll linkOptions imports all = .ok next) :
    ∃ middle, state.linkAll linkOptions imports callers = .ok middle := by
  induction callers generalizing state all with
  | nil => exact ⟨state, rfl⟩
  | cons caller rest ih =>
      obtain ⟨others, rfl⟩ := hPrefix
      obtain ⟨linked, hLinked, hRest⟩ := exists_of_bind_eq_ok h
      obtain ⟨middle, hMiddle⟩ := ih (List.prefix_append rest others) hRest
      refine ⟨middle, ?_⟩
      rw [Linking.linkAll, hLinked]
      exact hMiddle

end CallMap

theorem Program.founded_of_restrict {subset : Option Subset} {chart shown : Chart}
    (h : chart.Founded) (hShown : (Program.restrict subset chart).result = .ok shown) :
    shown.Founded := by
  cases subset with
  | none =>
      cases hShown
      exact h
  | some subset =>
      rw [Program.restrict, Reported.result_bind] at hShown
      exact h.restrict hShown

namespace CallMap

/--
The forest is in order, and all walks upwards end in a file of it: for what is linked so far,
whichever nodes have had their calls linked; for the chart of the sources, trimmed or not; for a
subset of it, which can only be refused because the name of its target denotes no node or several;
and for what is handed on to be written. That can always be sorted and written down, since no name
is missing.
-/
theorem wellPlaced_of_build {files : FileSystem} {options : Options} {language : Value}
    {sources : List String} {chart : Chart}
    (h : (build files options language sources).result = .ok chart) :
    (∃ read prepared, (outlines files options sources).result = .ok read ∧
      (prepare options read).result = .ok prepared ∧
      ∀ callers, callers <+: prepared.start.nodes → ∃ state,
        prepared.start.linkAll ⟨options.heuristics, options.aliasLabels⟩ prepared.imports callers =
          .ok state ∧ (chartOf state.withMissing).WellPlaced) ∧
    (∀ subset fault, chart.restrict subset = .error fault →
      fault = .targetNotFound subset.target ∨ ∃ several : List NodeId, 1 < several.length ∧
        fault = .targetAmbiguous subset.target (several.map chart.graph.shownNode)) ∧
    ∀ subset shown, (Program.restrict subset chart).result = .ok shown →
      shown.WellPlaced ∧ ∃ sorted, shown.sorted = .ok sorted ∧ sorted.WellPlaced ∧
        ∀ style output, ∃ text, Program.textOf style output sorted = .ok text := by
  have hFounded := founded_of_build h
  refine ⟨?_, fun _ _ => hFounded.fault_of_restrict, ?_⟩
  · obtain ⟨read, prepared, _, hRun, _⟩ := exists_run_of_build h
    refine ⟨read, prepared, hRun.reads, hRun.prepares, fun callers hCallers => ?_⟩
    obtain ⟨state, hState⟩ := exists_linkAll_of_prefix hCallers hRun.finishes
    exact ⟨state, hState, (founded_of_linkAll hRun.prepares hCallers hState).wellPlaced⟩
  · intro subset shown hShown
    have hShown := Program.founded_of_restrict hFounded hShown
    obtain ⟨sorted, hSorted, hResult⟩ := hShown.exists_sorted
    exact ⟨hShown.wellPlaced, sorted, hSorted, hResult.wellPlaced, hResult.exists_text⟩

theorem wellPlaced_of_build_sample :
    ∃ chart shown sorted, (build sampleFiles {} (.text "py") ["a.py"]).result = .ok chart ∧
      (Program.restrict (some ⟨"main", 0, 1⟩) chart).result = .ok shown ∧
      shown.nodes.length = 3 ∧ shown.WellPlaced ∧
      shown.sorted = .ok sorted ∧ sorted.WellPlaced ∧
      ∃ text, Program.textOf {} { path := some "out.gv" } sorted = .ok text := by
  obtain ⟨chart, hChart, hShown⟩ := exists_ok_of_any
    (show (build sampleFiles {} (.text "py") ["a.py"]).result.toOption.any (fun chart =>
      (Program.restrict (some ⟨"main", 0, 1⟩) chart).result.toOption.any fun shown =>
        shown.nodes.length == 3) = true by decide +kernel)
  obtain ⟨shown, hShown, hLength⟩ := exists_ok_of_any hShown
  obtain ⟨_, _, hHanded⟩ := wellPlaced_of_build hChart
  obtain ⟨hPlaced, sorted, hSorted, hResult, hText⟩ := hHanded _ shown hShown
  exact ⟨chart, shown, sorted, hChart, hShown, by simpa using hLength, hPlaced, hSorted, hResult,
    hText _ _⟩

end CallMap

end CallGraph
