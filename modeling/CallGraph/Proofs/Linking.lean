import CallGraph.Proofs.Stocking

/-!
# Linking calls

Linking takes the nodes one after the other, resolves the calls of each and then draws their edges.
`Linking.Valid` is what holds in between, and also halfway through a node: `pending` are the links
whose edges are still to be drawn, and `extra` is the package of the names that every program can
call while it has no place yet.

The invariant says which nodes stand in the graph. They are those that the state lists, and those
that were made up to resolve a call; the latter are not listed, but each of them has its call. The
marks of a node say whether an edge starts or ends there.

`Linking.Progress` says what linking adds to a state: nodes at the end of its list, and edges.

## Main definitions

* `Linking.Valid` — the invariant.
* `Linking.Progress` — a later state, and the edges drawn in between.
* `Linking.Drawable`, `Linking.Linkable` — what drawing edges and linking nodes start from.

## Main results

* `connect_spec` — one edge is drawn.
* `link_spec` — one edge is drawn for each call of a node.
* `linkAll_spec` — one edge is drawn for each call of each node.
-/

namespace CallGraph

namespace Linking

open Chart (isLibraryGroup)
open CallGraph.Graph

/-- What holds while calls are linked. -/
structure Valid (state : Linking) (extra : List GroupId) (pending : List Link) : Prop where
  stocked : state.libraries.Stocked state.graph (state.files ++ [state.missingGroup] ++ extra)
  file_kind : ∀ f ∈ state.files ++ [state.missingGroup], (state.graph.group f).kind = .file
  missing_flat : (state.graph.group state.missingGroup).subgroups = []
  missing_rootless : (state.graph.group state.missingGroup).root = none
  missing_mem : ∀ e ∈ state.missing, e.2 ∈ state.nodes
  nodes_listed : ∀ n ∈ state.nodes, state.graph.Listed n
  nodes_proper : ∀ n ∈ state.nodes, (state.graph.node n).isInvented = false
  listed_cases : ∀ n, state.graph.Listed n → n ∈ state.nodes ∨
    ((state.graph.node n).isInvented = true ∧
      ((∃ edge ∈ state.edges, edge.target = n) ∨ ∃ link ∈ pending, link.target = some n))
  source_listed : ∀ edge ∈ state.edges, state.graph.Listed edge.source
  source_body : ∀ edge ∈ state.edges, (state.graph.node edge.source).bindings.isSome
  target_listed : ∀ edge ∈ state.edges, state.graph.Listed edge.target
  leaf_iff : ∀ n, state.graph.Listed n →
    ((state.graph.node n).isLeaf = true ↔ ∀ edge ∈ state.edges, edge.source ≠ n)
  trunk_iff : ∀ n, state.graph.Listed n →
    ((state.graph.node n).isTrunk = true ↔ ∀ edge ∈ state.edges, edge.target ≠ n)
  pending_listed : ∀ link ∈ pending, ∀ n, link.target = some n → state.graph.Listed n

variable {state state' : Linking} {extra extra' : List GroupId} {pending pending' : List Link}

theorem Valid.sound (h : state.Valid extra pending) : state.graph.Sound := h.stocked.sound

theorem Valid.lt_of_listed (h : state.Valid extra pending) {n : NodeId}
    (hn : state.graph.Listed n) : n.index < state.graph.nodes.size :=
  h.sound.lt_of_listed hn

/-- A node that is new in the graph: it has its marks, and the state accounts for it. -/
structure Fresh (state : Linking) (pending : List Link) (size : Nat) (n : NodeId) : Prop where
  new : size ≤ n.index
  isLeaf : (state.graph.node n).isLeaf = true
  isTrunk : (state.graph.node n).isTrunk = true
  known : n ∈ state.nodes ∨
    ((state.graph.node n).isInvented = true ∧ ∃ link ∈ pending, link.target = some n)

/-- How a state may change without an edge being drawn. -/
structure Keeps (state : Linking) (pending : List Link) (state' : Linking)
    (pending' : List Link) : Prop where
  file_kind : ∀ f ∈ state'.files ++ [state'.missingGroup], (state'.graph.group f).kind = .file
  missing_flat : (state'.graph.group state'.missingGroup).subgroups = []
  missing_rootless : (state'.graph.group state'.missingGroup).root = none
  missing_mem : ∀ e ∈ state'.missing, e.2 ∈ state'.nodes
  grows : state.graph.Grows state'.graph
  node_eq : ∀ n : NodeId, n.index < state.graph.nodes.size →
    state'.graph.node n = state.graph.node n
  listed : ∀ n, state'.graph.Listed n → state.graph.Listed n ∨
    Fresh state' pending' state.graph.nodes.size n
  nodes_kept : ∀ n ∈ state.nodes, n ∈ state'.nodes
  nodes_new : ∀ n ∈ state'.nodes, n ∈ state.nodes ∨
    (state'.graph.Listed n ∧ (state'.graph.node n).isInvented = false)
  edges_eq : state'.edges = state.edges
  pending_kept : ∀ link ∈ pending, link ∈ pending'
  pending_listed : ∀ link ∈ pending', ∀ n, link.target = some n → state'.graph.Listed n

theorem Valid.keep (h : state.Valid extra pending) (hKeep : Keeps state pending state' pending')
    (hStocked : state'.libraries.Stocked state'.graph
      (state'.files ++ [state'.missingGroup] ++ extra')) : state'.Valid extra' pending' := by
  have hListed := @hKeep.grows.listed
  refine
    { stocked := hStocked, file_kind := hKeep.file_kind, missing_flat := hKeep.missing_flat
      missing_rootless := hKeep.missing_rootless
      missing_mem := hKeep.missing_mem, nodes_listed := ?_, nodes_proper := ?_
      listed_cases := ?_, source_listed := ?_, source_body := ?_, target_listed := ?_
      leaf_iff := ?_, trunk_iff := ?_, pending_listed := hKeep.pending_listed }
  · intro n hn
    rcases hKeep.nodes_new n hn with hOld | hNew
    · exact hListed (h.nodes_listed n hOld)
    · exact hNew.1
  · intro n hn
    rcases hKeep.nodes_new n hn with hOld | hNew
    · rw [hKeep.node_eq n (h.lt_of_listed (h.nodes_listed n hOld))]
      exact h.nodes_proper n hOld
    · exact hNew.2
  · intro n hn
    rcases hKeep.listed n hn with hOld | hFresh
    · rw [hKeep.node_eq n (h.lt_of_listed hOld), hKeep.edges_eq]
      rcases h.listed_cases n hOld with hMem | ⟨hInvented, hTarget | ⟨link, hLink, hTarget⟩⟩
      · exact Or.inl (hKeep.nodes_kept n hMem)
      · exact Or.inr ⟨hInvented, Or.inl hTarget⟩
      · exact Or.inr ⟨hInvented, Or.inr ⟨link, hKeep.pending_kept link hLink, hTarget⟩⟩
    · rcases hFresh.known with hMem | ⟨hInvented, hTarget⟩
      · exact Or.inl hMem
      · exact Or.inr ⟨hInvented, Or.inr hTarget⟩
  · intro edge hEdge
    rw [hKeep.edges_eq] at hEdge
    exact hListed (h.source_listed edge hEdge)
  · intro edge hEdge
    rw [hKeep.edges_eq] at hEdge
    rw [hKeep.node_eq _ (h.lt_of_listed (h.source_listed edge hEdge))]
    exact h.source_body edge hEdge
  · intro edge hEdge
    rw [hKeep.edges_eq] at hEdge
    exact hListed (h.target_listed edge hEdge)
  · intro n hn
    rw [hKeep.edges_eq]
    rcases hKeep.listed n hn with hOld | hFresh
    · rw [hKeep.node_eq n (h.lt_of_listed hOld)]
      exact h.leaf_iff n hOld
    · refine ⟨fun _ edge hEdge hSame => ?_, fun _ => hFresh.isLeaf⟩
      have hLt := h.lt_of_listed (h.source_listed edge hEdge)
      rw [hSame] at hLt
      exact Nat.not_lt.mpr hFresh.new hLt
  · intro n hn
    rw [hKeep.edges_eq]
    rcases hKeep.listed n hn with hOld | hFresh
    · rw [hKeep.node_eq n (h.lt_of_listed hOld)]
      exact h.trunk_iff n hOld
    · refine ⟨fun _ edge hEdge hSame => ?_, fun _ => hFresh.isTrunk⟩
      have hLt := h.lt_of_listed (h.target_listed edge hEdge)
      rw [hSame] at hLt
      exact Nat.not_lt.mpr hFresh.new hLt

/-! ## Progress -/

/-- A later state, and the edges drawn in between. -/
structure Progress (before after : Linking) (drawn : List Edge) : Prop where
  grows : before.graph.Grows after.graph
  /-- Nodes are listed behind those that were, each once. -/
  nodes_eq : ∃ added, after.nodes = before.nodes ++ added ∧ added.Nodup ∧
    ∀ n ∈ added, before.graph.nodes.size ≤ n.index
  edges_eq : after.edges = before.edges ++ drawn
  files_prefix : before.files <+: after.files
  missingGroup_eq : after.missingGroup = before.missingGroup
  /-- Only the names that every program can call may need a package that is not there yet. -/
  packages_new : ∀ p ∈ after.libraries.packages,
    p ∈ before.libraries.packages ∨ p.1 = builtinModule
  /-- The tables of placeholders and library nodes keep what they say. -/
  missing_kept : before.missing ⊆ after.missing
  libraries_kept : before.libraries.nodes ⊆ after.libraries.nodes

theorem Progress.refl (state : Linking) : Progress state state [] where
  grows := Grows.refl _
  nodes_eq := ⟨[], by simp, List.nodup_nil, by simp⟩
  edges_eq := by simp
  files_prefix := List.prefix_rfl
  missingGroup_eq := rfl
  packages_new _ hp := Or.inl hp
  missing_kept := List.Subset.refl _
  libraries_kept := List.Subset.refl _

theorem Progress.trans {before middle after : Linking} {first last : List Edge}
    (hFirst : Progress before middle first) (hLast : Progress middle after last)
    (hMiddle : ∀ n ∈ middle.nodes, n.index < middle.graph.nodes.size) :
    Progress before after (first ++ last) where
  grows := hFirst.grows.trans hLast.grows
  nodes_eq := by
    obtain ⟨added, hAdded, hNodup, hNew⟩ := hFirst.nodes_eq
    obtain ⟨added', hAdded', hNodup', hNew'⟩ := hLast.nodes_eq
    refine ⟨added ++ added', by rw [hAdded', hAdded, List.append_assoc], ?_, ?_⟩
    · refine nodup_append_of_index hNodup hNodup' (fun n hn => hMiddle n ?_) hNew'
      rw [hAdded]
      exact List.mem_append_right _ hn
    · intro n hn
      rcases List.mem_append.mp hn with hn | hn
      · exact hNew n hn
      · exact Nat.le_trans hFirst.grows.nodes_le (hNew' n hn)
  edges_eq := by rw [hLast.edges_eq, hFirst.edges_eq, List.append_assoc]
  files_prefix := hFirst.files_prefix.trans hLast.files_prefix
  missingGroup_eq := hLast.missingGroup_eq.trans hFirst.missingGroup_eq
  packages_new p hp := (hLast.packages_new p hp).elim (hFirst.packages_new p) Or.inr
  missing_kept := List.Subset.trans hFirst.missing_kept hLast.missing_kept
  libraries_kept := List.Subset.trans hFirst.libraries_kept hLast.libraries_kept

theorem Valid.node_lt (h : state.Valid extra pending) :
    ∀ n ∈ state.nodes, n.index < state.graph.nodes.size :=
  fun n hn => h.lt_of_listed (h.nodes_listed n hn)

/-! ## Resolving the calls of a node -/

/-- Resolving the calls of a node leaves links whose edges are to be drawn. -/
theorem Valid.resolved (h : state.Valid extra []) {asked : List Query} {calls : List Call}
    {after : Graph} {links : List Link} {new : List NodeId}
    (hResolved : Resolved state.graph asked calls after links new) :
    { state with graph := after }.Valid extra links := by
  have hInvents := hResolved.invents
  have hSound := h.sound
  refine h.keep ?_ (h.stocked.invents hInvents)
  refine
    { file_kind := ?_, missing_flat := ?_, missing_rootless := ?_, missing_mem := h.missing_mem
      grows := hInvents.grows hSound
      node_eq := fun n hn => hInvents.node_eq hn, listed := ?_, nodes_kept := fun _ hn => hn
      nodes_new := fun _ hn => Or.inl hn, edges_eq := rfl, pending_kept := by simp
      pending_listed := hResolved.listed }
  · intro f hf
    rw [hInvents.group_field hSound Group.kind]
    exact h.file_kind f hf
  · rw [hInvents.group_field hSound Group.subgroups]
    exact h.missing_flat
  · rw [hInvents.group_field hSound Group.root]
    exact h.missing_rootless
  · intro n hn
    rcases (hInvents.listed hSound).mp hn with hOld | hNew
    · exact Or.inl hOld
    · obtain ⟨hIndex, hInvented, hLeaf, hTrunk⟩ := hInvents.new_spec hSound n hNew
      exact Or.inr ⟨hIndex, hLeaf, hTrunk, Or.inr ⟨hInvented, hResolved.targeted n hNew⟩⟩

/-! ## Calls that were not resolved -/

/-- Making library nodes, which are listed behind the others. -/
theorem Valid.stock (h : state.Valid [] pending) {libraries : Libraries} {after : Graph}
    {new : List NodeId}
    (hStocks : Libraries.Stocks state.libraries state.graph (state.files ++ [state.missingGroup])
      libraries after new extra)
    (hPackages : ∀ p ∈ libraries.packages,
      p ∈ state.libraries.packages ∨ p.1 = builtinModule)
    (hKept : state.libraries.nodes ⊆ libraries.nodes) :
    { state with graph := after, libraries := libraries, nodes := state.nodes ++ new }.Valid extra
        pending ∧
      Progress state
        { state with graph := after, libraries := libraries, nodes := state.nodes ++ new } [] := by
  have hRoots : ∀ f ∈ state.files ++ [state.missingGroup], f.index < state.graph.groups.size :=
    fun f hf => h.stocked.rooted.lt f (List.mem_append_left _ hf)
  refine ⟨h.keep ?_ hStocks.stocked, ?_⟩
  · refine
      { file_kind := ?_, missing_flat := ?_, missing_rootless := ?_
        missing_mem := fun e he => List.mem_append_left _ (h.missing_mem e he)
        grows := hStocks.grows
        node_eq := hStocks.node_eq, listed := ?_
        nodes_kept := fun _ hn => List.mem_append_left _ hn, nodes_new := ?_, edges_eq := rfl
        pending_kept := fun _ hLink => hLink, pending_listed := ?_ }
    · intro f hf
      rw [hStocks.grows.group_field Group.kind (hRoots f hf)]
      exact h.file_kind f hf
    · rw [hStocks.subgroups_eq]
      exact h.missing_flat
    · rw [hStocks.grows.group_field Group.root (hRoots _ (by simp))]
      exact h.missing_rootless
    · intro n hn
      rcases hStocks.listed.mp hn with hOld | hNew
      · exact Or.inl hOld
      · obtain ⟨_, hLeaf, hTrunk⟩ := hStocks.library n hNew
        exact Or.inr ⟨hStocks.fresh n hNew, hLeaf, hTrunk, Or.inl (List.mem_append_right _ hNew)⟩
    · intro n hn
      rcases List.mem_append.mp hn with hOld | hNew
      · exact Or.inl hOld
      · exact Or.inr ⟨hStocks.listed.mpr (Or.inr hNew),
          Node.not_invented_of_library (hStocks.library n hNew).1⟩
    · intro link hLink n hn
      exact hStocks.grows.listed (h.pending_listed link hLink n hn)
  · exact ⟨hStocks.grows, ⟨new, rfl, hStocks.nodup, hStocks.fresh⟩, by simp, List.prefix_rfl, rfl,
      hPackages, List.Subset.refl _, hKept⟩

/-- Library nodes are all listed by the state. -/
theorem Valid.mem_of_library (h : state.Valid extra pending) {n : NodeId}
    (hn : state.graph.Listed n) (hLibrary : (state.graph.node n).isLibrary = true) :
    n ∈ state.nodes := by
  rcases h.listed_cases n hn with hMem | ⟨hInvented, _⟩
  · exact hMem
  · rw [Node.not_invented_of_library hLibrary] at hInvented
    exact absurd hInvented Bool.false_ne_true

/-- The node for a call that every program can make, and its package. -/
theorem Valid.builtinTarget (h : state.Valid [] pending) (call : Call) :
    ∃ package extra, (state.builtinTarget call).1.Valid extra pending ∧
      (state.builtinTarget call).2 ∈ (state.builtinTarget call).1.nodes ∧
      Progress state (state.builtinTarget call).1 [] ∧
      (state.builtinTarget call).1.libraries.package? builtinModule = some package ∧
      (extra = [] ∨ extra = [package]) := by
  have hStocked : state.libraries.Stocked state.graph (state.files ++ [state.missingGroup]) := by
    simpa using h.stocked
  obtain ⟨extra, hFound, hExtra⟩ := Libraries.stocks_ensurePackage hStocked builtinModule
  have hPackage := Libraries.package?_ensurePackage state.graph state.libraries builtinModule
  have hPackages := Libraries.mem_packages_ensurePackage state.graph state.libraries builtinModule
  have hKept : state.libraries.nodes ⊆
      (Libraries.ensurePackage state.graph state.libraries builtinModule).2.1.nodes := by
    rw [Libraries.nodes_of_ensurePackage]
    exact List.Subset.refl _
  refine ⟨(Libraries.ensurePackage state.graph state.libraries builtinModule).2.2, extra, ?_⟩
  unfold Linking.builtinTarget
  dsimp only
  split
  · rename_i n hn
    obtain ⟨hValid, hProgress⟩ := h.stock hFound hPackages hKept
    rw [List.append_nil] at hValid hProgress
    refine ⟨hValid, hValid.mem_of_library ?_ ?_, hProgress, hPackage, hExtra⟩
    · exact hFound.stocked.node_listed _ (mem_of_lookup hn)
    · exact hFound.stocked.node_library _ (mem_of_lookup hn)
  · -- The package is there by now, so only the node is added.
    have hAdded := hFound.trans (Libraries.stocks_insertNode hFound.stocked
      (mem_of_lookup hPackage) (Dotted.join [builtinModule, call.token]) call
      ⟨builtinModule, rfl⟩)
    rw [List.nil_append, List.append_nil] at hAdded
    obtain ⟨hValid, hProgress⟩ := h.stock hAdded hPackages
      fun e he => List.mem_append_left _ (hKept he)
    rw [Libraries.addNode_of_package? hPackage]
    dsimp only
    rw [index_insertNode] at hValid hProgress ⊢
    exact ⟨hValid, List.mem_append_right _ List.mem_cons_self, hProgress, hPackage, hExtra⟩

/-- A change of the roots alone. -/
theorem Valid.hung (h : state.Valid extra pending) {after : Graph} {files : List GroupId}
    (hHung : Libraries.Hung state.libraries state.graph after (files ++ [state.missingGroup]))
    (hKind : ∀ f ∈ files ++ [state.missingGroup], (after.group f).kind = .file)
    (hFlat : (after.group state.missingGroup).subgroups = []) (hFiles : state.files <+: files) :
    { state with graph := after, files := files }.Valid [] pending ∧
      Progress state { state with graph := after, files := files } [] := by
  have hListed : ∀ n, after.Listed n → state.graph.Listed n := by
    rintro n ⟨g, hn⟩
    rw [hHung.nodes_of_group] at hn
    exact ⟨g, hn⟩
  have hMissing := h.stocked.rooted.lt state.missingGroup (by simp)
  refine ⟨h.keep ?_ (by simpa using hHung.stocked), ?_⟩
  · exact
      { file_kind := hKind, missing_flat := hFlat
        missing_rootless :=
          (hHung.grows.group_field Group.root hMissing).trans h.missing_rootless
        missing_mem := h.missing_mem
        grows := hHung.grows
        node_eq := fun n _ => by rw [Graph.node, hHung.nodes_eq]; rfl
        listed := fun n hn => Or.inl (hListed n hn), nodes_kept := fun _ hn => hn
        nodes_new := fun _ hn => Or.inl hn, edges_eq := rfl
        pending_kept := fun _ hLink => hLink
        pending_listed := fun link hLink n hn =>
          hHung.grows.listed (h.pending_listed link hLink n hn) }
  · exact ⟨hHung.grows, ⟨[], by simp, List.nodup_nil, by simp⟩, by simp, hFiles, rfl,
      fun _ hp => Or.inl hp, List.Subset.refl _, List.Subset.refl _⟩

/-- A package stands at the top exactly as long as it waits for its place. -/
theorem Valid.package_waits (h : state.Valid extra pending) {name : String} {package : GroupId}
    (hPackage : (name, package) ∈ state.libraries.packages) :
    (state.graph.group package).parent = none ↔ package ∈ extra := by
  constructor
  · intro hTop
    obtain ⟨r, hr, hBelow⟩ := h.stocked.covered package (h.stocked.package_lt _ hPackage)
    obtain rfl := h.sound.eq_of_below_root hBelow hTop
    rcases List.mem_append.mp hr with hFile | hExtra
    · have hLibrary := h.sound.library_kind (h.stocked.package_library _ hPackage)
      exact absurd (hLibrary.symm.trans (h.file_kind _ hFile)) (by simp)
    · exact hExtra
  · intro hExtra
    exact h.stocked.rooted.no_parent package (List.mem_append_right _ hExtra)

/-- Files stay files. -/
theorem Valid.kind_of_grows (h : state.Valid extra pending) {after : Graph}
    (hGrows : state.graph.Grows after) :
    ∀ f ∈ state.files ++ [state.missingGroup], (after.group f).kind = .file := by
  intro f hf
  rw [hGrows.group_field Group.kind (h.stocked.rooted.lt f (List.mem_append_left _ hf))]
  exact h.file_kind f hf

section Hang

variable {package : GroupId}

/-- The package that waits is hung below a file that is there. -/
theorem Valid.hangBelow (h : state.Valid [package] pending)
    (hLibrary : isLibraryGroup (state.graph.group package) = true) {file : GroupId}
    (hFile : file ∈ state.files) :
    let after := { state with graph := Libraries.hang state.graph file package }
    after.Valid [] pending ∧ Progress state after [] := by
  have hTop : state.libraries.Stocked state.graph
      (package :: (state.files ++ [state.missingGroup])) := h.stocked.perm List.perm_append_comm
  have hMem : file ∈ state.files ++ [state.missingGroup] := List.mem_append_left _ hFile
  have hHung := hTop.hang hMem (h.file_kind file hMem) hLibrary
  have hne : state.missingGroup ≠ file := by
    rintro rfl
    have hNodup := (List.nodup_cons.mp hTop.rooted.nodup).2
    exact (List.nodup_append.mp hNodup).2.2 _ hFile _ List.mem_cons_self rfl
  exact h.hung hHung (h.kind_of_grows hHung.grows)
    (by rw [subgroups_of_hang_ne hne]; exact h.missing_flat) List.prefix_rfl

/-- The package that waits is hung below a file made for it. -/
theorem Valid.hangBelowNew (h : state.Valid [package] pending)
    (hLibrary : isLibraryGroup (state.graph.group package) = true) :
    let added := state.graph.addGroup Libraries.builtinFile
    let after := { state with
      graph := Libraries.hang added.1 added.2 package, files := state.files ++ [added.2] }
    after.Valid [] pending ∧ Progress state after [] := by
  have hTop : state.libraries.Stocked state.graph
      (package :: (state.files ++ [state.missingGroup])) := h.stocked.perm List.perm_append_comm
  obtain ⟨hHung, hNewKind⟩ := hTop.hangNew hLibrary
  have hKept := h.kind_of_grows hHung.grows
  have hMissing : state.missingGroup.index < state.graph.groups.size :=
    h.stocked.rooted.lt _ (by simp)
  have hne : state.missingGroup ≠ ⟨state.graph.groups.size⟩ := by
    intro hSame
    rw [hSame] at hMissing
    exact Nat.lt_irrefl _ hMissing
  refine h.hung ⟨hHung.stocked.perm ?_, hHung.grows, hHung.nodes_eq, hHung.nodes_of_group⟩
    ?_ ?_ (List.prefix_append _ _)
  · rw [List.append_assoc, List.append_assoc]
    exact List.Perm.append_left _ List.perm_append_comm
  · intro f hf
    rw [index_addGroup, List.append_assoc] at hf
    rcases List.mem_append.mp hf with hf | hf
    · exact hKept f (List.mem_append_left _ hf)
    · rcases List.mem_append.mp hf with hf | hf
      · rw [List.mem_singleton.mp hf]
        exact hNewKind
      · exact hKept f (List.mem_append_right _ hf)
  · rw [index_addGroup, subgroups_of_hang_ne hne, group_addGroup_old _ hMissing]
    exact h.missing_flat

/-- The package that waits is hung below a file. -/
theorem Valid.hangBuiltins (h : state.Valid extra pending)
    (hPackage : state.libraries.package? builtinModule = some package)
    (hExtra : extra = [] ∨ extra = [package]) (hFiles : state.files ≠ []) :
    (hangBuiltins state).Valid [] pending ∧ Progress state (hangBuiltins state) [] := by
  have hMem := mem_of_lookup hPackage
  have hWaits := h.package_waits hMem
  unfold Linking.hangBuiltins
  rw [hPackage]
  dsimp only
  split
  · rename_i hPlaced
    have hParent : (state.graph.group package).parent ≠ none := by
      simpa [hFiles, Option.isSome_iff_ne_none] using hPlaced
    rcases hExtra with rfl | rfl
    · exact ⟨h, Progress.refl state⟩
    · exact absurd (hWaits.mpr List.mem_cons_self) hParent
  · rename_i hPlaced
    have hParent : (state.graph.group package).parent = none := by
      simpa [hFiles] using hPlaced
    have hLibrary := h.stocked.package_library _ hMem
    rcases hExtra with rfl | rfl
    · exact absurd (hWaits.mp hParent) List.not_mem_nil
    · split
      · rename_i file hFind
        exact h.hangBelow hLibrary (List.mem_of_find?_eq_some hFind)
      · exact h.hangBelowNew hLibrary

end Hang

theorem Valid.insertable_placeholder (h : state.Valid extra pending) (token : String) :
    state.graph.Insertable state.missingGroup (placeholder state.missingGroup token) := by
  refine ⟨rfl, rfl, rfl, rfl, fun _ => rfl, fun hLibrary => ?_, fun hRoot => ?_⟩
  · have hKind := h.file_kind state.missingGroup (by simp)
    exact absurd ((h.sound.library_kind hLibrary).symm.trans hKind) (by simp)
  · rw [h.missing_rootless] at hRoot
    exact absurd hRoot Bool.false_ne_true

/-- The placeholder for a call whose target was not found. -/
theorem Valid.missingTarget (h : state.Valid [] pending) (call : Call) :
    (state.missingTarget call).1.Valid [] pending ∧
      (state.missingTarget call).2 ∈ (state.missingTarget call).1.nodes ∧
      Progress state (state.missingTarget call).1 [] := by
  unfold Linking.missingTarget
  split
  · rename_i n hn
    exact ⟨h, h.missing_mem _ (mem_of_lookup hn), Progress.refl state⟩
  · have hLt := h.stocked.rooted.lt state.missingGroup (by simp)
    have hNode := h.insertable_placeholder call.token
    have hGrows : state.graph.Grows
        (state.graph.insertNode (placeholder state.missingGroup call.token)).1 :=
      grows_insertNode hNode
    have hListed := @listed_insertNode state.graph _ _ hNode.parent hLt
    have hNew := state.graph.node_insertNode_new (placeholder state.missingGroup call.token)
    dsimp only
    rw [index_insertNode]
    refine ⟨h.keep ?_ (h.stocked.insertNode hNode),
      List.mem_append_right _ List.mem_cons_self, ?_⟩
    · refine
        { file_kind := ?_, missing_flat := ?_, missing_rootless := ?_, missing_mem := ?_
          grows := hGrows
          node_eq := fun n hn => node_insertNode_of_lt _ hn, listed := ?_
          nodes_kept := fun _ hn => List.mem_append_left _ hn, nodes_new := ?_, edges_eq := rfl
          pending_kept := fun _ hLink => hLink
          pending_listed := fun link hLink n hn =>
            hGrows.listed (h.pending_listed link hLink n hn) }
      · intro f hf
        rw [group_field_insertNode hNode.parent Group.kind]
        exact h.file_kind f hf
      · rw [subgroups_insertNode hNode.parent]
        exact h.missing_flat
      · rw [group_field_insertNode hNode.parent Group.root]
        exact h.missing_rootless
      · intro e he
        rcases List.mem_append.mp he with he | he
        · exact List.mem_append_left _ (h.missing_mem e he)
        · rw [List.mem_singleton.mp he]
          exact List.mem_append_right _ List.mem_cons_self
      · intro n hn
        rcases hListed.mp hn with hOld | rfl
        · exact Or.inl hOld
        · exact Or.inr ⟨Nat.le_refl _, by rw [hNew]; rfl, by rw [hNew]; rfl,
            Or.inl (List.mem_append_right _ List.mem_cons_self)⟩
      · intro n hn
        rcases List.mem_append.mp hn with hn | hn
        · exact Or.inl hn
        · rw [List.mem_singleton.mp hn, hNew]
          exact Or.inr ⟨hListed.mpr (Or.inr rfl), rfl⟩
    · exact ⟨hGrows, ⟨[⟨state.graph.nodes.size⟩], rfl, List.nodup_singleton _, by simp⟩, by simp,
        List.prefix_rfl, rfl, fun _ hp => Or.inl hp, List.subset_append_left _ _,
        List.Subset.refl _⟩

/-- The target of a call that was not resolved. -/
theorem Valid.fallback (h : state.Valid [] pending) (hFiles : state.files ≠ []) (call : Call) :
    (state.fallback call).1.Valid [] pending ∧
      (state.fallback call).2 ∈ (state.fallback call).1.nodes ∧
      Progress state (state.fallback call).1 [] := by
  unfold Linking.fallback
  split
  · obtain ⟨package, extra, hValid, hMem, hProgress, hPackage, hExtra⟩ := h.builtinTarget call
    have hFiles' : (state.builtinTarget call).1.files ≠ [] := fun hNil =>
      hFiles (List.prefix_nil.mp (hNil ▸ hProgress.files_prefix))
    obtain ⟨hValid', hProgress'⟩ := hValid.hangBuiltins hPackage hExtra hFiles'
    obtain ⟨added, hAdded, _⟩ := hProgress'.nodes_eq
    exact ⟨hValid', by rw [hAdded]; exact List.mem_append_left _ hMem,
      hProgress.trans hProgress' hValid.node_lt⟩
  · exact h.missingTarget call

/-! ## Drawing edges -/

theorem forall_mem_edges_draw {edge : Edge} {holds : Edge → Prop} :
    (∀ e ∈ (state.draw edge).edges, holds e) ↔ (∀ e ∈ state.edges, holds e) ∧ holds edge := by
  rw [Linking.draw, List.forall_mem_append, List.forall_mem_singleton]

/-- Drawing the edge of a link that was pending. -/
theorem Valid.draw {link : Link} (h : state.Valid [] (link :: pending)) {edge : Edge}
    (hSource : state.graph.Listed edge.source)
    (hBody : (state.graph.node edge.source).bindings.isSome)
    (hTarget : state.graph.Listed edge.target)
    (hLink : ∀ n, link.target = some n → n = edge.target) :
    (state.draw edge).Valid [] pending := by
  have hGrows : state.graph.Grows (state.draw edge).graph := grows_markEdge edge
  have hMarked : ∀ n, state.graph.Listed n → (state.draw edge).graph.node n =
      { state.graph.node n with
        isLeaf := (state.graph.node n).isLeaf && decide (n ≠ edge.source)
        isTrunk := (state.graph.node n).isTrunk && decide (n ≠ edge.target) } :=
    fun n hn => node_markEdge edge (h.lt_of_listed hn)
  refine
    { stocked := h.stocked.markEdge edge, file_kind := h.file_kind
      missing_flat := h.missing_flat, missing_rootless := h.missing_rootless
      missing_mem := h.missing_mem
      nodes_listed := h.nodes_listed, nodes_proper := ?_, listed_cases := ?_
      source_listed := forall_mem_edges_draw.mpr ⟨h.source_listed, hSource⟩
      source_body := forall_mem_edges_draw.mpr ⟨fun e he => ?_, ?_⟩
      target_listed := forall_mem_edges_draw.mpr ⟨h.target_listed, hTarget⟩
      leaf_iff := ?_, trunk_iff := ?_
      pending_listed := fun l hl => h.pending_listed l (List.mem_cons_of_mem _ hl) }
  · intro n hn
    rw [hGrows.node_field Node.isInvented (h.lt_of_listed (h.nodes_listed n hn))]
    exact h.nodes_proper n hn
  · intro n hn
    rw [hGrows.node_field Node.isInvented (h.lt_of_listed hn)]
    rcases h.listed_cases n hn with hMem | ⟨hInvented, ⟨e, he, hEnd⟩ | ⟨l, hl, hEnd⟩⟩
    · exact Or.inl hMem
    · exact Or.inr ⟨hInvented, Or.inl ⟨e, List.mem_append_left _ he, hEnd⟩⟩
    · rcases List.mem_cons.mp hl with rfl | hl
      · exact Or.inr ⟨hInvented, Or.inl
          ⟨edge, List.mem_append_right _ List.mem_cons_self, (hLink n hEnd).symm⟩⟩
      · exact Or.inr ⟨hInvented, Or.inr ⟨l, hl, hEnd⟩⟩
  · rw [hGrows.node_field Node.bindings (h.lt_of_listed (h.source_listed e he))]
    exact h.source_body e he
  · rw [hGrows.node_field Node.bindings (h.lt_of_listed hSource)]
    exact hBody
  · intro n hn
    rw [hMarked n hn, Bool.and_eq_true, h.leaf_iff n hn, decide_eq_true_iff,
      forall_mem_edges_draw, ne_comm]
  · intro n hn
    rw [hMarked n hn, Bool.and_eq_true, h.trunk_iff n hn, decide_eq_true_iff,
      forall_mem_edges_draw, ne_comm]

theorem progress_draw (state : Linking) (edge : Edge) :
    Progress state (state.draw edge) [edge] where
  grows := grows_markEdge edge
  nodes_eq := ⟨[], by simp [draw], List.nodup_nil, by simp⟩
  edges_eq := rfl
  files_prefix := List.prefix_rfl
  missingGroup_eq := rfl
  packages_new _ hp := Or.inl hp
  missing_kept := List.Subset.refl _
  libraries_kept := List.Subset.refl _

/-- Noting an ambiguous call changes nothing else. -/
theorem Valid.note (h : state.Valid extra pending) (link : Link) :
    (state.note link).Valid extra pending ∧ Progress state (state.note link) [] := by
  unfold Linking.note
  split
  · exact ⟨{ h with }, { Progress.refl state with }⟩
  · exact ⟨h, Progress.refl state⟩

/-- The node that a link goes to, found before or now. -/
theorem Valid.targetOf {link : Link} (h : state.Valid [] (link :: pending))
    (hFiles : state.files ≠ []) :
    (state.targetOf link).1.Valid [] (link :: pending) ∧
      Progress state (state.targetOf link).1 [] ∧
      (state.targetOf link).1.graph.Listed (state.targetOf link).2 ∧
      (link.target = some (state.targetOf link).2 ∨
        (link.target = none ∧ (state.targetOf link).2 ∈ (state.targetOf link).1.nodes)) := by
  unfold Linking.targetOf
  split
  · rename_i n hn
    exact ⟨h, Progress.refl state, h.pending_listed link List.mem_cons_self n hn, Or.inl hn⟩
  · rename_i hNone
    obtain ⟨hValid, hMem, hProgress⟩ := h.fallback hFiles link.call
    exact ⟨hValid, hProgress, hValid.nodes_listed _ hMem, Or.inr ⟨hNone, hMem⟩⟩

/-- What drawing the edges of some links of one node adds. -/
structure Drawn (caller : NodeId) (state : Linking) (links : List Link) (next : Linking)
    (drawn : List Edge) : Prop extends Progress state next drawn where
  /-- One edge for each link, from the caller. -/
  sources : drawn.map Edge.source = links.map fun _ => caller
  targets : ∀ edge ∈ drawn,
    (∃ link ∈ links, link.target = some edge.target) ∨ edge.target ∈ next.nodes

theorem Progress.files_ne {drawn : List Edge} (h : Progress state state' drawn)
    (hFiles : state.files ≠ []) : state'.files ≠ [] := fun hNil =>
  hFiles (List.prefix_nil.mp (hNil ▸ h.files_prefix))

/-- The edges of some links of a node can be drawn. -/
structure Drawable (state : Linking) (caller : NodeId) (links : List Link) : Prop where
  valid : state.Valid [] links
  files_ne : state.files ≠ []
  caller_listed : state.graph.Listed caller
  /-- The node has a body, unless there is nothing to draw. -/
  body : links ≠ [] → (state.graph.node caller).bindings.isSome

/-- One edge is drawn. -/
theorem connect_spec {options : LinkOptions} {caller : NodeId} {link : Link} {next : Linking}
    (h : state.Drawable caller (link :: pending))
    (hConnect : state.connect options caller link = .ok next) :
    next.Drawable caller pending ∧ ∃ edge, Drawn caller state [link] next [edge] := by
  obtain ⟨hNoted, hNote⟩ := h.valid.note link
  obtain ⟨hFound, hFind, hListed, hTarget⟩ := hNoted.targetOf (hNote.files_ne h.files_ne)
  have hBefore := hNote.trans hFind hNoted.node_lt
  have hLt := h.valid.lt_of_listed h.caller_listed
  have hBody := h.body (List.cons_ne_nil _ _)
  unfold connect at hConnect
  split at hConnect
  · exact absurd hConnect (by simp)
  · cases hConnect
    have hDraw edge := hBefore.trans (progress_draw _ edge) hFound.node_lt
    refine ⟨⟨hFound.draw (hBefore.grows.listed h.caller_listed) ?_ hListed ?_,
      (hDraw _).files_ne h.files_ne, (hDraw _).grows.listed h.caller_listed, fun _ => ?_⟩, _,
      hDraw _, rfl, ?_⟩
    · rw [hBefore.grows.node_field Node.bindings hLt]
      exact hBody
    · intro n hn
      rcases hTarget with hSome | ⟨hNone, _⟩
      · exact Option.some_inj.mp (hn.symm.trans hSome)
      · exact absurd (hn.symm.trans hNone) (by simp)
    · exact (congrArg Option.isSome ((hDraw _).grows.node_field Node.bindings hLt)).trans hBody
    · intro edge hEdge
      rw [List.mem_singleton.mp hEdge]
      rcases hTarget with hSome | ⟨_, hMem⟩
      · exact Or.inl ⟨link, List.mem_cons_self, hSome⟩
      · exact Or.inr hMem

/-- The edges of all links of a node are drawn. -/
theorem connectAll_spec {options : LinkOptions} {caller : NodeId} {links : List Link}
    {next : Linking} (h : state.Drawable caller links)
    (hConnect : state.connectAll options caller links = .ok next) :
    next.Valid [] [] ∧ ∃ drawn, Drawn caller state links next drawn := by
  induction links generalizing state with
  | nil =>
      cases hConnect
      exact ⟨h.valid, [], Progress.refl _, rfl, by simp⟩
  | cons link rest ih =>
      obtain ⟨middle, hFirst, hRest⟩ := exists_of_bind_eq_ok hConnect
      obtain ⟨hMiddle, edge, hEdge⟩ := connect_spec h hFirst
      obtain ⟨hNext, drawn, hDrawn⟩ := ih hMiddle hRest
      obtain ⟨added, hAdded, _⟩ := hDrawn.nodes_eq
      refine ⟨hNext, edge :: drawn,
        hEdge.toProgress.trans hDrawn.toProgress hMiddle.valid.node_lt, ?_, ?_⟩
      · have hSource : edge.source = caller := List.singleton_inj.mp hEdge.sources
        rw [List.map_cons, List.map_cons, hSource, hDrawn.sources]
      · intro e he
        rcases List.mem_cons.mp he with rfl | he
        · rcases hEdge.targets e List.mem_cons_self with ⟨l, hl, hTarget⟩ | hMem
          · rw [List.mem_singleton.mp hl] at hTarget
            exact Or.inl ⟨link, List.mem_cons_self, hTarget⟩
          · rw [hAdded]
            exact Or.inr (List.mem_append_left _ hMem)
        · rcases hDrawn.targets e he with ⟨l, hl, hTarget⟩ | hMem
          · exact Or.inl ⟨l, List.mem_cons_of_mem _ hl, hTarget⟩
          · exact Or.inr hMem

/-! ## All nodes -/

/-- Some node of the graph was made up to resolve a call. -/
def HasInvented (state : Linking) : Prop :=
  ∃ n, state.graph.Listed n ∧ (state.graph.node n).isInvented = true

/-- What linking some nodes adds. -/
structure Linked (state : Linking) (callers : List NodeId) (asked : List Query) (next : Linking) :
    Prop where
  valid : next.Valid [] []
  /-- One edge for each call, from the node that makes it. -/
  progress : ∃ drawn, Progress state next drawn ∧
    drawn.map Edge.source = callers.flatMap fun n => (state.graph.node n).calls.map fun _ => n
  invented : next.HasInvented ↔ state.HasInvented ∨ ∃ query ∈ asked, query.Creates

theorem HasInvented.grows (h : state.HasInvented) (hSound : state.graph.Sound)
    (hGrows : state.graph.Grows state'.graph) : state'.HasInvented := by
  obtain ⟨n, hn, hInvented⟩ := h
  refine ⟨n, hGrows.listed hn, ?_⟩
  rw [hGrows.node_field Node.isInvented (hSound.lt_of_listed hn)]
  exact hInvented

/-- A node made up to resolve a call is where that call goes. -/
theorem Valid.hasInvented_iff (h : state.Valid extra []) :
    state.HasInvented ↔
      ∃ edge ∈ state.edges, (state.graph.node edge.target).isInvented = true := by
  constructor
  · rintro ⟨n, hn, hInvented⟩
    rcases h.listed_cases n hn with hMem | ⟨_, ⟨edge, hEdge, rfl⟩ | ⟨link, hLink, _⟩⟩
    · rw [h.nodes_proper n hMem] at hInvented
      exact absurd hInvented Bool.false_ne_true
    · exact ⟨edge, hEdge, hInvented⟩
    · exact absurd hLink List.not_mem_nil
  · rintro ⟨edge, hEdge, hInvented⟩
    exact ⟨edge.target, h.target_listed edge hEdge, hInvented⟩

theorem body_of_calls {n : NodeId} {graph : Graph} (hSound : graph.Sound) (hn : graph.Listed n)
    (hCalls : (graph.node n).calls ≠ []) : (graph.node n).bindings.isSome := by
  rw [Option.isSome_iff_ne_none]
  exact fun hNone => hCalls ((hSound.regular n (hSound.lt_of_listed hn)).calls_nil hNone)

/-- A node whose calls were resolved to something has a body. -/
theorem Resolved.body_of_links {caller : NodeId} {asked : List Query} {graph after : Graph}
    {links : List Link} {new : List NodeId}
    (h : Resolved graph asked (graph.node caller).calls after links new) (hSound : graph.Sound)
    (hCaller : graph.Listed caller) (hLinks : links ≠ []) :
    (after.node caller).bindings.isSome := by
  rw [h.invents.node_eq (hSound.lt_of_listed hCaller)]
  refine body_of_calls hSound hCaller fun hNil => hLinks ?_
  rw [← h.calls_eq] at hNil
  exact List.map_eq_nil_iff.mp hNil

/-- A node made up stood in the graph when the calls were resolved. -/
theorem Drawn.listed_of_invented {caller : NodeId} {asked : List Query} {calls : List Call}
    {after : Graph} {links : List Link} {new : List NodeId} {next : Linking} {drawn : List Edge}
    (hDrawn : Drawn caller { state with graph := after } links next drawn)
    (h : state.Valid [] []) (hResolved : Resolved state.graph asked calls after links new)
    (hNext : next.Valid [] []) {n : NodeId} (hn : next.graph.Listed n)
    (hInvented : (next.graph.node n).isInvented = true) : after.Listed n := by
  have hOther : n ∉ next.nodes := by
    intro hMem
    rw [hNext.nodes_proper n hMem] at hInvented
    exact absurd hInvented Bool.false_ne_true
  rcases hNext.listed_cases n hn with hMem | ⟨_, ⟨edge, hEdge, rfl⟩ | ⟨link, hLink, _⟩⟩
  · exact absurd hMem hOther
  · rw [hDrawn.edges_eq] at hEdge
    rcases List.mem_append.mp hEdge with hEdge | hEdge
    · exact (hResolved.invents.grows h.sound).listed (h.target_listed edge hEdge)
    · rcases hDrawn.targets edge hEdge with ⟨link, hLink, hTarget⟩ | hMem
      · exact hResolved.listed link hLink _ hTarget
      · exact absurd hMem hOther
  · exact absurd hLink List.not_mem_nil

/-- Of the nodes made up, those are new that the calls were resolved to. -/
theorem Drawn.hasInvented_iff {caller : NodeId} {asked : List Query} {calls : List Call}
    {after : Graph} {links : List Link} {new : List NodeId} {next : Linking} {drawn : List Edge}
    (hDrawn : Drawn caller { state with graph := after } links next drawn)
    (h : state.Valid [] []) (hResolved : Resolved state.graph asked calls after links new)
    (hNext : next.Valid [] []) : next.HasInvented ↔ state.HasInvented ∨ new ≠ [] := by
  have hInvents := hResolved.invents
  have hAll := (hInvents.grows h.sound).trans hDrawn.grows
  constructor
  · rintro ⟨n, hn, hInvented⟩
    have hCases := hDrawn.listed_of_invented h hResolved hNext hn hInvented
    rcases (hInvents.listed h.sound).mp hCases with hOld | hNew
    · rw [hAll.node_field Node.isInvented (h.lt_of_listed hOld)] at hInvented
      exact Or.inl ⟨_, hOld, hInvented⟩
    · exact Or.inr (List.ne_nil_of_mem hNew)
  · rintro (hOld | hNew)
    · exact hOld.grows h.sound hAll
    · obtain ⟨n, hn⟩ := List.exists_mem_of_ne_nil new hNew
      have hInvented : { state with graph := after }.HasInvented :=
        ⟨n, (hInvents.listed h.sound).mpr (Or.inr hn), (hInvents.new_spec h.sound n hn).2.1⟩
      exact hInvented.grows (h.resolved hResolved).sound hDrawn.grows

/-- The calls of some nodes can be linked: these nodes and what is imported are there. -/
structure Linkable (state : Linking) (imports callers : List NodeId) : Prop where
  valid : state.Valid [] []
  /-- There is a file, unless there is nothing to link. -/
  files_ne : callers ≠ [] → state.files ≠ []
  imports_listed : ∀ n ∈ imports, state.graph.Listed n
  callers_listed : ∀ n ∈ callers, state.graph.Listed n

section Linkable

variable {options : LinkOptions} {imports callers : List NodeId} {caller : NodeId} {next : Linking}

theorem Linkable.candidates_listed (h : state.Linkable imports callers) :
    ∀ n ∈ state.candidates imports, state.graph.Listed n :=
  List.forall_mem_append.mpr ⟨h.valid.nodes_listed, h.imports_listed⟩

/-- Fewer nodes can be linked as well. -/
theorem Linkable.mono (h : state.Linkable imports callers) {fewer : List NodeId}
    (hFewer : fewer ⊆ callers) : state.Linkable imports fewer where
  valid := h.valid
  files_ne hSome :=
    h.files_ne (List.ne_nil_of_mem (hFewer (List.exists_mem_of_ne_nil _ hSome).choose_spec))
  imports_listed := h.imports_listed
  callers_listed n hn := h.callers_listed n (hFewer hn)

/-- After some nodes are linked, the same nodes can be linked. -/
theorem Linkable.linked (h : state.Linkable imports callers) {others : List NodeId}
    {asked : List Query} (hLinked : Linked state others asked next) :
    next.Linkable imports callers := by
  obtain ⟨_, hProgress, _⟩ := hLinked.progress
  exact
    { valid := hLinked.valid, files_ne := fun hSome => hProgress.files_ne (h.files_ne hSome)
      imports_listed := fun n hn => hProgress.grows.listed (h.imports_listed n hn)
      callers_listed := fun n hn => hProgress.grows.listed (h.callers_listed n hn) }

theorem Linkable.files (h : state.Linkable imports (caller :: callers)) : state.files ≠ [] :=
  h.files_ne (List.cons_ne_nil _ _)

theorem Linkable.caller_listed (h : state.Linkable imports (caller :: callers)) :
    state.graph.Listed caller :=
  h.callers_listed caller List.mem_cons_self

/-- When the calls of a node are resolved, their edges can be drawn. -/
theorem Linkable.resolved (h : state.Linkable imports (caller :: callers)) {after : Graph}
    {links : List Link} (hResolve : resolveCalls options.heuristics caller state.graph
      (state.candidates imports) (state.graph.node caller).calls = .ok (after, links)) :
    ∃ new, Resolved state.graph (asked options.heuristics caller state.graph
        (state.candidates imports) (state.graph.node caller).calls)
        (state.graph.node caller).calls after links new ∧
      Drawable { state with graph := after } caller links := by
  have hSound := h.valid.sound
  have hCaller := h.caller_listed
  obtain ⟨new, hResolved⟩ := resolveCalls_spec hSound hCaller h.candidates_listed hResolve
  exact ⟨new, hResolved, h.valid.resolved hResolved, h.files,
    (hResolved.invents.grows hSound).listed hCaller, hResolved.body_of_links hSound hCaller⟩

/-- One edge is drawn for each call of a node. -/
theorem link_spec (hReady : state.Linkable imports (caller :: callers))
    (hLink : state.link options imports caller = .ok next) :
    Linked state [caller] (asked options.heuristics caller state.graph (state.candidates imports)
      (state.graph.node caller).calls) next := by
  obtain ⟨⟨after, links⟩, hResolve, hConnect⟩ := exists_of_bind_eq_ok hLink
  have h := hReady.valid
  obtain ⟨new, hResolved, hDrawable⟩ := hReady.resolved hResolve
  have hGrows := hResolved.invents.grows h.sound
  obtain ⟨hNext, drawn, hDrawn⟩ := connectAll_spec hDrawable hConnect
  have hAll := hGrows.trans hDrawn.grows
  refine ⟨hNext, ⟨drawn, ⟨hAll, ?_, hDrawn.edges_eq, hDrawn.files_prefix,
    hDrawn.missingGroup_eq, hDrawn.packages_new, hDrawn.missing_kept, hDrawn.libraries_kept⟩,
    ?_⟩, ?_⟩
  · obtain ⟨added, hAdded, hNodup, hNew⟩ := hDrawn.nodes_eq
    exact ⟨added, hAdded, hNodup, fun n hn => Nat.le_trans hGrows.nodes_le (hNew n hn)⟩
  · have hSources := hDrawn.sources
    rw [List.flatMap_cons, List.flatMap_nil, List.append_nil, hSources, ← hResolved.calls_eq,
      List.map_map]
    rfl
  · rw [← hResolved.creates]
    exact hDrawn.hasInvented_iff h hResolved hNext

theorem Linkable.rest (h : state.Linkable imports (caller :: callers))
    (hLink : state.link options imports caller = .ok next) : next.Linkable imports callers :=
  (h.linked (link_spec h hLink)).mono (List.subset_cons_self _ _)

/-- One edge is drawn for each call of each node. -/
theorem linkAll_spec (h : state.Linkable imports callers)
    (hLink : state.linkAll options imports callers = .ok next) :
    Linked state callers (askedAll options imports state callers) next := by
  induction callers generalizing state with
  | nil =>
      cases hLink
      exact ⟨h.valid, ⟨[], Progress.refl _, rfl⟩, by simp [askedAll]⟩
  | cons caller rest ih =>
      obtain ⟨middle, hFirst, hRest⟩ := exists_of_bind_eq_ok hLink
      have hStep := link_spec h hFirst
      obtain ⟨drawn, hProgress, hSources⟩ := hStep.progress
      have hOthers := ih (h.rest hFirst) hRest
      obtain ⟨drawn', hProgress', hSources'⟩ := hOthers.progress
      refine ⟨hOthers.valid, ⟨drawn ++ drawn', hProgress.trans hProgress' hStep.valid.node_lt, ?_⟩,
        ?_⟩
      · rw [List.map_append, hSources, hSources']
        simp only [hProgress.grows.calls_eq, List.flatMap_cons, List.flatMap_nil, List.append_nil]
      · rw [hOthers.invented, hStep.invented, askedAll, hFirst]
        simp only [List.mem_append, or_and_right, exists_or, or_assoc]

end Linkable

end Linking

end CallGraph
