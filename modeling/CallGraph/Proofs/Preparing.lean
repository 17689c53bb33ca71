import CallGraph.Analysis.CallMap
import CallGraph.Proofs.Linking
import CallGraph.Proofs.Loading
import CallGraph.Proofs.Pruning
import CallGraph.Proofs.Settling

/-!
# From outlines to linking

What the outlines say is loaded, limited and settled, and library nodes are made; then linking
starts. This module follows the graph through these steps and shows that linking starts from a
valid state.

## Main definitions

* `Node.FromSource`, `Group.FromSource` — what loading makes of an outline, whatever it says.
* `CallMap.Ready` — the graph in which bindings are settled.
* `CallMap.Started` — the state from which linking starts.

## Main results

* `exists_of_prepare` — the steps in front of linking, taken apart.
* `started_of_prepare` — linking starts from a valid state whenever it is prepared.
-/

namespace CallGraph

open Chart (isLibraryGroup)
open CallGraph.Graph

/-! ## What loading makes -/

/-- A binding that the source makes stands neither for a node nor for a plain value. -/
def Binding.FromSource (b : Binding) : Prop :=
  (∀ n, b.target ≠ .node n) ∧ b.Settleable

/-- A node that loading makes. -/
structure Node.FromSource (node : Node) : Prop where
  regular : node.Regular
  invented : node.isInvented = false
  isLeaf : node.isLeaf = true
  isTrunk : node.isTrunk = true
  bindings : ∀ bindings, node.bindings = some bindings → ∀ b ∈ bindings, b.FromSource

/-- A group that loading makes. -/
structure Group.FromSource (group : Group) : Prop where
  library : isLibraryGroup group = false
  inherited : group.inherited = []
  imports : group.imports = []

/-- What loading makes, whatever the outlines say. -/
def sourceProperties : Properties where
  node := Node.FromSource
  group := Group.FromSource
  node_serial _ h := { h with regular := { h.regular with } }
  group_contents _ _ _ _ _ h := { h with }

theorem fromSource_bindingOf (b : Local) : (bindingOf b).FromSource := by
  unfold bindingOf Binding.FromSource Binding.Settleable
  cases b.source <;> simp

theorem fromSource_functionNode (inClass : Bool) (g : GroupId) (token : String)
    (f : FunctionOutline) : (functionNode inClass g token f).FromSource where
  regular := ⟨nofun, nofun, nofun, nofun⟩
  invented := rfl
  isLeaf := rfl
  isTrunk := rfl
  bindings bindings hBindings b hb := by
    cases hBindings
    split at hb
    · rcases List.mem_append.mp hb with hb | hb
      · obtain ⟨l, _, rfl⟩ := List.mem_map.mp hb
        exact fromSource_bindingOf l
      · rw [List.mem_singleton.mp hb]
        exact ⟨nofun, nofun⟩
    · obtain ⟨l, _, rfl⟩ := List.mem_map.mp hb
      exact fromSource_bindingOf l

theorem fromSource_rootNode (g : GroupId) (file : FileOutline) : (rootNode g file).FromSource where
  regular := ⟨nofun, nofun, nofun, nofun⟩
  invented := rfl
  isLeaf := rfl
  isTrunk := rfl
  bindings bindings hBindings b hb := by
    cases hBindings
    obtain ⟨l, _, rfl⟩ := List.mem_map.mp hb
    exact fromSource_bindingOf l

theorem fromSource_importNode (g : GroupId) (token : String) (item : ImportOutline) :
    (importNode g token item).FromSource where
  regular := ⟨fun _ => rfl, fun _ => rfl, fun _ => rfl, nofun⟩
  invented := rfl
  isLeaf := rfl
  isTrunk := rfl
  bindings _ hBindings := nomatch hBindings

theorem sourceProperties_ofFile (file : FileOutline) : sourceProperties.OfFile file where
  group := ⟨rfl, rfl, rfl⟩
  root g := fromSource_rootNode g file
  functions f _ g token := fromSource_functionNode false g token f
  classes c _ := ClassOutline.every_of_all
    (fun f g token => fromSource_functionNode true g token f) (fun _ _ => ⟨rfl, rfl, rfl⟩) c
  imports i _ g token := fromSource_importNode g token i

/-- The loaded files. -/
theorem loading_insertFiles (outlines : List FileOutline) :
    Loading sourceProperties (Graph.loaded outlines).1 (Graph.loaded outlines).2 :=
  loading_loaded fun file _ => sourceProperties_ofFile file

namespace CallMap

/-! ## Leaving out -/

theorem eq_of_limitNamespaces {options : Options} {graph limited : Graph} {files : List GroupId}
    (h : (limitNamespaces options graph files).result = .ok limited) :
    limited = Limits.limitNamespaces graph files options.excludeNamespaces
      options.onlyNamespaces := by
  unfold limitNamespaces at h
  split at h
  · rename_i hNone
    simp only [Bool.and_eq_true, List.isEmpty_iff] at hNone
    cases h
    rw [hNone.1, hNone.2, limitNamespaces_nil]
  · simp only [Reported.result_bind] at h
    obtain ⟨_, _, h⟩ := exists_of_bind_eq_ok h
    obtain ⟨_, _, h⟩ := exists_of_bind_eq_ok h
    obtain ⟨_, _, h⟩ := exists_of_bind_eq_ok h
    cases h
    rfl

theorem eq_of_limitFunctions {options : Options} {graph limited : Graph} {files : List GroupId}
    (h : (limitFunctions options graph files).result = .ok limited) :
    limited = Limits.limitFunctions graph files options.excludeFunctions
      options.onlyFunctions := by
  unfold limitFunctions at h
  split at h
  · rename_i hNone
    simp only [Bool.and_eq_true, List.isEmpty_iff] at hNone
    cases h
    rw [hNone.1, hNone.2, limitFunctions_nil]
  · simp only [Reported.result_bind] at h
    obtain ⟨_, _, h⟩ := exists_of_bind_eq_ok h
    obtain ⟨_, _, h⟩ := exists_of_bind_eq_ok h
    cases h
    rfl

/-- Namespaces are left out first, then functions. -/
theorem eq_of_limit {options : Options} {graph limited : Graph} {files : List GroupId}
    (h : (limit options graph files).result = .ok limited) :
    limited = Limits.limitFunctions (Limits.limitNamespaces graph files options.excludeNamespaces
      options.onlyNamespaces) files options.excludeFunctions options.onlyFunctions := by
  rw [limit, Reported.result_bind] at h
  obtain ⟨middle, hMiddle, h⟩ := exists_of_bind_eq_ok h
  rw [← eq_of_limitNamespaces hMiddle]
  exact eq_of_limitFunctions h

/-- Leaving something out is taking nodes out. -/
theorem removeNodes_of_limit {options : Options} {graph limited : Graph} {files : List GroupId}
    (h : (limit options graph files).result = .ok limited) :
    ∃ ns, limited = graph.removeNodes ns := by
  obtain ⟨first, hFirst⟩ := limitNamespaces_eq_removeNodes graph files options.excludeNamespaces
    options.onlyNamespaces
  obtain ⟨last, hLast⟩ := limitFunctions_eq_removeNodes (graph.removeNodes first) files
    options.excludeFunctions options.onlyFunctions
  refine ⟨first ++ last, ?_⟩
  rw [eq_of_limit h, hFirst, hLast, removeNodes_append]

/-! ## Settling -/

theorem result_settle (options : Options) (graph : Graph) (files : List GroupId)
    (nodes : List NodeId) :
    (settle options graph files nodes).result = do
      let settled ← (if options.heuristics then graph.inherit files else graph).settle files nodes
      return if options.heuristics then settled.passArguments nodes else settled := by
  unfold settle
  simp only [Reported.result_bind, Reported.result_log, Reported.result_liftM]
  cases hSettle :
    (if options.heuristics then graph.inherit files else graph).settle files nodes with
  | error fault => rfl
  | ok settled => cases options.heuristics <;> rfl

/-- What settling does to a graph in which nothing is inherited yet. -/
theorem rebinds_of_settle {hold : Binding → Prop} {options : Options} {graph settled : Graph}
    {files : List GroupId} {nodes : List NodeId} (hClosed : graph.Rebindable hold)
    (hBound : graph.Bound hold) (hInherits : graph.Inherits graph.Listed)
    (hNodes : ∀ n ∈ nodes, graph.Listed n)
    (h : (settle options graph files nodes).result = .ok settled) :
    graph.Rebinds settled ∧ settled.Bound hold ∧ settled.Inherits graph.Listed := by
  rw [result_settle] at h
  obtain ⟨middle, hMiddle, h⟩ := exists_of_bind_eq_ok h
  cases hHeuristics : options.heuristics with
  | false =>
      simp only [hHeuristics, Bool.false_eq_true, if_false] at hMiddle h
      cases h
      obtain ⟨hRebinds, hBound', hGroups⟩ := settle_spec hClosed hBound hMiddle
      refine ⟨hRebinds, hBound', fun g => ?_⟩
      rw [hGroups]
      exact hInherits g
  | true =>
      simp only [hHeuristics, if_true] at hMiddle h
      cases h
      obtain ⟨hFirst, hBound₁, hInherits₁⟩ := inherit_spec hClosed hBound hInherits files
      obtain ⟨hSecond, hBound₂, hGroups₂⟩ :=
        settle_spec (hFirst.rebindable hClosed) hBound₁ hMiddle
      have hBoth := hFirst.trans hSecond
      obtain ⟨hThird, hBound₃, hGroups₃⟩ := passArguments_spec (hBoth.rebindable hClosed) hBound₂
        fun n hn => hBoth.listed.mpr (hNodes n hn)
      refine ⟨hBoth.trans hThird, hBound₃, fun g => ?_⟩
      rw [hGroups₃, hGroups₂]
      exact hInherits₁ g

/-- The graph when library nodes are about to be made: some nodes of the loaded files were left
out, and the bindings are settled. -/
structure Ready (graph : Graph) (files : List GroupId) : Prop where
  sound : graph.Sound
  rooted : graph.Roots files
  covered : graph.Covered files
  file_kind : ∀ f ∈ files, (graph.group f).kind = .file
  no_library : ∀ g, isLibraryGroup (graph.group g) = false
  imports_nil : ∀ g, (graph.group g).imports = []
  invented : ∀ n, graph.Listed n → (graph.node n).isInvented = false
  isLeaf : ∀ n, graph.Listed n → (graph.node n).isLeaf = true
  isTrunk : ∀ n, graph.Listed n → (graph.node n).isTrunk = true

/-- All groups of loaded files come from the source, also those behind the end of the table. -/
theorem fromSource_group {loaded : Graph} {files : List GroupId}
    (h : Loading sourceProperties loaded files) (g : GroupId) :
    (loaded.group g).FromSource := by
  rcases Nat.lt_or_ge g.index loaded.groups.size with hLt | hGe
  · exact h.group_want g hLt
  · rw [loaded.group_eq_default hGe]
    exact ⟨rfl, rfl, rfl⟩

theorem bound_fromSource {loaded : Graph} {files : List GroupId}
    (h : Loading sourceProperties loaded files) : loaded.Bound Binding.FromSource := by
  intro n bindings hBindings
  exact (h.node_want n (loaded.node_lt_of_bindings hBindings)).bindings bindings hBindings

theorem rebindable_within (graph : Graph) :
    graph.Rebindable fun b => b.target.Within graph where
  node _ hn := hn
  group _ := trivial
  unknown _ := trivial
  inherited hn := hn

/-- Before bindings are settled, nothing is inherited. -/
theorem inherits_removeNodes {loaded : Graph} {files : List GroupId}
    (h : Loading sourceProperties loaded files) (ns : List NodeId) (holdNode : NodeId → Prop) :
    (loaded.removeNodes ns).Inherits holdNode := by
  intro g lists hLists
  rw [(shrinks_removeNodes loaded ns).group_field Group.inherited,
    (fromSource_group h g).inherited] at hLists
  exact absurd hLists List.not_mem_nil

section Settled

variable {loaded settled : Graph} {files : List GroupId} {ns : List NodeId}

/-- Before bindings are settled, none of them leads to a node. -/
theorem bound_within_removeNodes (hLoaded : Loading sourceProperties loaded files) :
    (loaded.removeNodes ns).Bound fun b => b.target.Within (loaded.removeNodes ns) := by
  intro n bindings hBindings b hb
  rw [(shrinks_removeNodes loaded ns).node_eq] at hBindings
  have hSource := (bound_fromSource hLoaded n bindings hBindings b hb).1
  cases hTarget : b.target with
  | node m => exact absurd hTarget (hSource m)
  | _ => trivial

/-- What leaving out nodes and settling bindings both keep of a group. -/
theorem group_field_settled (hRebinds : (loaded.removeNodes ns).Rebinds settled) {α : Type _}
    (field : Group → α)
    (hField : ∀ group nodes subgroups lists,
      field { group with nodes := nodes, subgroups := subgroups, inherited := lists } =
        field group := by intros; rfl) (g : GroupId) :
    field (settled.group g) = field (loaded.group g) := by
  rw [hRebinds.group_field field fun group lists => hField group group.nodes group.subgroups lists,
    (shrinks_removeNodes loaded ns).group_field field
      fun group nodes subgroups => hField group nodes subgroups group.inherited]

theorem node_field_settled (hRebinds : (loaded.removeNodes ns).Rebinds settled) {α : Type _}
    (field : Node → α)
    (hField : ∀ node bindings, field { node with bindings := bindings } = field node := by
      intros; rfl) (n : NodeId) : field (settled.node n) = field (loaded.node n) := by
  rw [hRebinds.node_field field hField, (shrinks_removeNodes loaded ns).node_eq]

theorem not_library_settled (hLoaded : Loading sourceProperties loaded files)
    (hRebinds : (loaded.removeNodes ns).Rebinds settled) (g : GroupId) :
    isLibraryGroup (settled.group g) = false := by
  rw [group_field_settled hRebinds isLibraryGroup]
  exact (fromSource_group hLoaded g).library

/-- A node keeps all but its bindings. -/
theorem fromSource_settled (hLoaded : Loading sourceProperties loaded files)
    (hRebinds : (loaded.removeNodes ns).Rebinds settled) {n : NodeId}
    (hn : n.index < settled.nodes.size) :
    (loaded.node n).FromSource ∧
      ∃ bindings, bindings.isSome = (loaded.node n).bindings.isSome ∧
        settled.node n = { loaded.node n with bindings := bindings } := by
  have hShrinks := shrinks_removeNodes loaded ns
  rw [hRebinds.nodes_size, hShrinks.nodes_eq] at hn
  rw [← hShrinks.node_eq]
  exact ⟨hShrinks.node_eq n ▸ hLoaded.node_want n hn, hRebinds.node_eq n⟩

/-- Nothing that was loaded was made up. -/
theorem not_invented_settled (hLoaded : Loading sourceProperties loaded files)
    (hRebinds : (loaded.removeNodes ns).Rebinds settled) {n : NodeId}
    (hn : n.index < settled.nodes.size) : (settled.node n).isInvented = false := by
  obtain ⟨hSource, bindings, hSome, hEq⟩ := fromSource_settled hLoaded hRebinds hn
  rw [hEq, ← hSource.invented]
  simp only [Node.isInvented, ← Option.not_isSome, hSome]

/-- A settled graph is sound when its bindings and what is inherited lead to listed nodes. -/
theorem sound_settled (hLoaded : Loading sourceProperties loaded files)
    (hRebinds : (loaded.removeNodes ns).Rebinds settled)
    (hBound : settled.Bound fun b => b.target.Within (loaded.removeNodes ns))
    (hInherits : settled.Inherits (loaded.removeNodes ns).Listed) : settled.Sound := by
  have hShrinks := shrinks_removeNodes loaded ns
  have hLibrary := not_library_settled hLoaded hRebinds
  have hKind := group_field_settled hRebinds Group.kind
  refine
    { hRebinds.wellFormed (hShrinks.wellFormed hLoaded.toWellFormed) with
      regular := ?_, bound := ?_, inherited_listed := ?_
      library_kind := fun {g} hg => absurd (hLibrary g) (by simp [hg])
      library_flat := fun {g} hg => absurd (hLibrary g) (by simp [hg])
      library_nodes := fun {g} _ hg => absurd (hLibrary g) (by simp [hg])
      inner_class := ?_, root_spec := ?_ }
  · intro n hn
    obtain ⟨hSource, bindings, hSome, hEq⟩ := fromSource_settled hLoaded hRebinds hn
    rw [hEq]
    exact hSource.regular.rebind hSome
  · intro n bindings b hBindings hb
    have hWithin : b.target.Within (loaded.removeNodes ns) := hBound n bindings hBindings b hb
    cases hTarget : b.target with
    | node m =>
        rw [hTarget] at hWithin
        exact hRebinds.listed.mpr hWithin
    | _ => trivial
  · intro g nodes n hLists hn
    exact hRebinds.listed.mpr (hInherits g nodes hLists n hn)
  · intro g s hs _
    rw [hRebinds.subgroups_of_group] at hs
    rw [hKind]
    exact hLoaded.inner_class (hShrinks.mem_subgroups hs)
  · intro g r hr
    rw [group_field_settled hRebinds Group.root] at hr
    rw [hKind, hRebinds.bindings_isSome, node_field_settled hRebinds Node.signature,
      hShrinks.node_eq]
    exact hLoaded.root_spec hr

/-- Settling the bindings of what was loaded and limited. -/
theorem ready_of_settle {options : Options} {nodes : List NodeId}
    (hLoaded : Loading sourceProperties loaded files)
    (hNodes : ∀ n ∈ nodes, (loaded.removeNodes ns).Listed n)
    (h : (settle options (loaded.removeNodes ns) files nodes).result = .ok settled) :
    (loaded.removeNodes ns).Rebinds settled ∧ Ready settled files := by
  obtain ⟨hRebinds, hBound, hInherits⟩ := rebinds_of_settle (rebindable_within _)
    (bound_within_removeNodes hLoaded) (inherits_removeNodes hLoaded ns _) hNodes h
  have hSound := sound_settled hLoaded hRebinds hBound hInherits
  have hShrinks := shrinks_removeNodes loaded ns
  refine ⟨hRebinds,
    { sound := hSound
      rooted := hRebinds.roots (hShrinks.roots hLoaded.rooted)
      covered := hRebinds.covered (hLoaded.covered.removeNodes hLoaded.toWellFormed ns)
      file_kind := ?_, no_library := not_library_settled hLoaded hRebinds
      imports_nil := ?_
      invented := fun n hn => not_invented_settled hLoaded hRebinds (hSound.lt_of_listed hn)
      isLeaf := ?_, isTrunk := ?_ }⟩
  · intro f hf
    rw [group_field_settled hRebinds Group.kind]
    exact hLoaded.file_kind f hf
  · intro g
    rw [group_field_settled hRebinds Group.imports]
    exact (fromSource_group hLoaded g).imports
  all_goals
    intro n hn
    obtain ⟨hSource, bindings, hSome, hEq⟩ :=
      fromSource_settled hLoaded hRebinds (hSound.lt_of_listed hn)
    rw [hEq]
  · exact hSource.isLeaf
  · exact hSource.isTrunk

end Settled

/-! ## The start of linking -/

theorem Ready.stocked {graph : Graph} {files : List GroupId} (h : Ready graph files) :
    Libraries.Stocked {} graph files :=
  ⟨h.sound, h.rooted, h.covered, by simp, by simp, by simp,
    fun {g} hg => absurd (h.no_library g) (by simp [hg]), by simp, by simp, by simp, by simp⟩

theorem Ready.mem_nodesOf {graph : Graph} {files : List GroupId} (h : Ready graph files)
    {n : NodeId} : n ∈ graph.nodesOf files ↔ graph.Listed n :=
  mem_nodesOf_of_covered h.sound.toWellFormed h.rooted h.covered

/-- A group of the table without subgroups has its own nodes only. -/
theorem allNodes_of_flat {graph : Graph} {g : GroupId} (hg : g.index < graph.groups.size)
    (hFlat : (graph.group g).subgroups = []) : graph.allNodes g = (graph.group g).nodes := by
  obtain ⟨size, hSize⟩ := Nat.exists_eq_succ_of_ne_zero (Nat.ne_zero_of_lt hg)
  simp [allNodes, allGroups, hSize, groupsBelow, hFlat]

/-- A node that is called under a signature is made when the first such call comes up. -/
theorem ofCalls_eq_nil_iff {graph : Graph} {calls : List Call} :
    (Libraries.ofCalls graph {} calls).2.2 = [] ↔
      ∀ call ∈ calls, Libraries.signature? call = none := by
  induction calls with
  | nil => simp [Libraries.ofCalls]
  | cons call rest ih =>
      rw [Libraries.ofCalls]
      cases hSignature : Libraries.signature? call with
      | none => simp [hSignature, ih]
      | some found => simp [hSignature, Libraries.node?]

/-- The two passes in front of linking fill one table. -/
theorem fills_passes (graph : Graph) (nodes : List NodeId) (calls : List Call) :
    let direct := Libraries.ofCalls graph {} calls
    let indirect := Libraries.ofInstances (nodes ++ direct.2.2) direct.1 direct.2.1 calls
    Libraries.Fills calls {} graph indirect.2.1 indirect.1
      (direct.2.2 ++ indirect.2.2.map (·.2)) :=
  (Libraries.fills_ofCalls (List.Subset.refl calls)).trans
    (Libraries.fills_ofInstances _ (List.Subset.refl calls))

/-- The library nodes in front of linking, and their packages. -/
theorem Ready.stocks {graph : Graph} {files : List GroupId} (h : Ready graph files)
    (nodes : List NodeId) (calls : List Call) :
    let direct := Libraries.ofCalls graph {} calls
    let indirect := Libraries.ofInstances (nodes ++ direct.2.2) direct.1 direct.2.1 calls
    Libraries.Stocks {} graph files indirect.2.1 indirect.1
      (direct.2.2 ++ indirect.2.2.map (·.2)) (indirect.2.1.packages.map (·.2)) := by
  intro direct indirect
  obtain ⟨extra, hBoth⟩ := (fills_passes graph nodes calls).stocks h.stocked
  have hExtra : indirect.2.1.packages.map (·.2) = extra := by simpa using hBoth.packages_eq
  rw [hExtra]
  exact hBoth

theorem blank_missingFile : Graph.Group.Blank missingFile :=
  ⟨rfl, rfl, rfl, rfl, rfl, fun hLibrary => absurd hLibrary (by decide)⟩

/-- What linking starts from. The nodes are those of the files, then the library nodes that calls
name, then all library nodes. -/
structure Started (graph : Graph) (files : List GroupId) (direct : List NodeId)
    (start : Linking) : Prop where
  valid : start.Valid [] []
  grows : graph.Grows start.graph
  files_prefix : files <+: start.files
  files_ne : start.nodes ≠ [] → start.files ≠ []
  edges_nil : start.edges = []
  ambiguous_nil : start.ambiguous = []
  nodes_eq : ∃ all, start.nodes = graph.nodesOf files ++ direct ++ all ∧
    (∀ n ∈ direct, n ∈ all) ∧ all.Nodup ∧ ∀ n ∈ all, graph.nodes.size ≤ n.index
  /-- What was not there before is a library node. -/
  library_of_new : ∀ n ∈ start.nodes, graph.nodes.size ≤ n.index →
    (start.graph.node n).isLibrary = true

/-- Nothing is made up before calls are resolved. -/
theorem Started.not_hasInvented {graph : Graph} {files : List GroupId} {direct : List NodeId}
    {start : Linking} (h : Started graph files direct start) : ¬start.HasInvented := by
  rw [h.valid.hasInvented_iff, h.edges_nil]
  rintro ⟨edge, hEdge, _⟩
  exact absurd hEdge List.not_mem_nil

section Start

variable {graph stocked hung : Graph} {files files' : List GroupId} {libraries : Libraries}
variable {new : List NodeId}

/-- A package of the table lists its own nodes only. -/
theorem flatMap_packages_eq (hHung : Libraries.Hung libraries stocked hung files') :
    (libraries.packages.flatMap fun package => hung.allNodes package.2) =
      (libraries.packages.map (·.2)).flatMap fun g => (hung.group g).nodes := by
  rw [List.flatMap_map]
  exact List.flatMap_congr fun p hp => allNodes_of_flat (hHung.stocked.package_lt p hp)
    (hHung.stocked.sound.library_flat (hHung.stocked.package_library p hp))

/-- The packages list the library nodes that were made, and nothing else. -/
theorem Ready.mem_packages (h : Ready graph files)
    (hStocks : Libraries.Stocks {} graph files libraries stocked new
      (libraries.packages.map (·.2)))
    (hHung : Libraries.Hung libraries stocked hung files') {n : NodeId} :
    n ∈ (libraries.packages.flatMap fun package => hung.allNodes package.2) ↔ n ∈ new := by
  rw [flatMap_packages_eq hHung, List.mem_flatMap]
  simp only [hHung.nodes_of_group, hStocks.mem_nodes]
  constructor
  · rintro ⟨g, hg, hOld | ⟨hNew, _⟩⟩
    · -- A package is no group of the files, so it listed nothing before.
      obtain ⟨p, hp, rfl⟩ := List.mem_map.mp hg
      have hLibrary := hStocks.stocked.package_library p hp
      rw [hStocks.grows.group_field isLibraryGroup
        (graph.group_lt_of_nodes hOld), h.no_library] at hLibrary
      exact absurd hLibrary Bool.false_ne_true
    · exact hNew
  · intro hNew
    obtain ⟨p, hp, hParent⟩ := hStocks.in_package n hNew
    exact ⟨p.2, List.mem_map_of_mem hp, Or.inr ⟨hNew, hParent⟩⟩

theorem nodup_packages (hStocks : Libraries.Stocks {} graph files libraries stocked new
      (libraries.packages.map (·.2)))
    (hHung : Libraries.Hung libraries stocked hung files') :
    (libraries.packages.flatMap fun package => hung.allNodes package.2).Nodup := by
  rw [flatMap_packages_eq hHung]
  exact hHung.stocked.sound.nodup_flatMap_nodes
    (List.nodup_append.mp hStocks.stocked.rooted.nodup).2.1

/-- A node that is there when linking starts was not made up and is marked as one without edges. -/
theorem Ready.marks (h : Ready graph files)
    (hStocks : Libraries.Stocks {} graph files libraries stocked new (libraries.packages.map (·.2)))
    {n : NodeId} (hn : stocked.Listed n) :
    (stocked.node n).isInvented = false ∧ (stocked.node n).isLeaf = true ∧
      (stocked.node n).isTrunk = true := by
  rcases hStocks.listed.mp hn with hn | hn
  · rw [hStocks.node_eq n (h.sound.lt_of_listed hn)]
    exact ⟨h.invented n hn, h.isLeaf n hn, h.isTrunk n hn⟩
  · obtain ⟨hLibrary, hLeaf, hTrunk⟩ := hStocks.library n hn
    exact ⟨Node.not_invented_of_library hLibrary, hLeaf, hTrunk⟩

/-- Without packages there are no library nodes. -/
theorem eq_nil_of_packages_nil
    (hStocks : Libraries.Stocks {} graph files libraries stocked new (libraries.packages.map (·.2)))
    (hPackages : libraries.packages = []) : new = [] := by
  rw [List.eq_nil_iff_forall_not_mem]
  intro n hn
  obtain ⟨p, hp, _⟩ := hStocks.in_package n hn
  rw [hPackages] at hp
  exact absurd hp List.not_mem_nil

end Start

/-- Linking starts from a valid state. -/
theorem Ready.started {graph stocked : Graph} {files : List GroupId} (h : Ready graph files)
    {libraries : Libraries} {direct others : List NodeId}
    (hStocks : Libraries.Stocks {} graph files libraries stocked (direct ++ others)
      (libraries.packages.map (·.2)))
    (hFiles : libraries.packages ≠ [] → files ≠ []) :
    Started graph files direct
      (startWith stocked files libraries (graph.nodesOf files ++ direct)) := by
  have hKind : ∀ f ∈ files, (stocked.group f).kind = .file := by
    intro f hf
    rw [hStocks.grows.group_field Group.kind (h.rooted.lt f hf)]
    exact h.file_kind f hf
  obtain ⟨hHung, hKinds, hPrefix⟩ := Libraries.hangAll_spec hStocks.stocked hKind
    hStocks.stocked.package_library hFiles
  unfold startWith
  dsimp only
  generalize Libraries.hangAll stocked files libraries.packages = hung at *
  have hMem := @h.mem_packages _ _ _ _ _ _ _ hStocks hHung
  have hGrows := (hStocks.grows.trans hHung.grows).trans (grows_addGroup blank_missingFile)
  have hListed : ∀ n, (hung.1.addGroup missingFile).1.Listed n ↔ stocked.Listed n := by
    intro n
    rw [listed_addGroup rfl]
    simp only [Listed, hHung.nodes_of_group]
  have hNode : ∀ n, (hung.1.addGroup missingFile).1.node n = stocked.node n := by
    intro n
    rw [node_addGroup, Graph.node, hHung.nodes_eq]
    rfl
  have hNodes : ∀ n, (hung.1.addGroup missingFile).1.Listed n ↔
      n ∈ graph.nodesOf files ++ direct ++
        libraries.packages.flatMap fun package => hung.1.allNodes package.2 := by
    intro n
    simp only [hListed, hStocks.listed, List.mem_append, hMem, h.mem_nodesOf]
    tauto
  refine
    { valid :=
        { stocked := by
            rw [List.append_nil]
            exact hHung.stocked.addGroup blank_missingFile rfl
          file_kind := ?_
          missing_flat := by rw [group_addGroup_self]; rfl
          missing_rootless := by rw [group_addGroup_self]; rfl
          missing_mem := by simp
          nodes_listed := fun n hn => (hNodes n).mpr hn
          nodes_proper := ?_
          listed_cases := fun n hn => Or.inl ((hNodes n).mp hn)
          source_listed := by simp, source_body := by simp, target_listed := by simp
          leaf_iff := ?_, trunk_iff := ?_, pending_listed := by simp }
      grows := hGrows, files_prefix := hPrefix, files_ne := ?_, edges_nil := rfl
      ambiguous_nil := rfl, nodes_eq := ⟨_, rfl, ?_, nodup_packages hStocks hHung, ?_⟩
      library_of_new := ?_ }
  · intro f hf
    rcases List.mem_append.mp hf with hf | hf
    · rw [group_addGroup_old _ (hHung.stocked.rooted.lt f hf)]
      exact hKinds f hf
    · rw [List.mem_singleton.mp hf, group_addGroup_self]
      rfl
  · intro n hn
    rw [hNode]
    exact (h.marks hStocks ((hListed n).mp ((hNodes n).mpr hn))).1
  · intro n hn
    rw [hNode]
    simp [(h.marks hStocks ((hListed n).mp hn)).2.1]
  · intro n hn
    rw [hNode]
    simp [(h.marks hStocks ((hListed n).mp hn)).2.2]
  · -- Without files there is nothing that could call a library.
    intro hSome hNil
    have hNone : files = [] := List.prefix_nil.mp (hNil ▸ hPrefix)
    rw [hNone] at hFiles hSome
    have hPackages : libraries.packages = [] := by_contra fun hSome => hFiles hSome rfl
    have hDirect := (List.append_eq_nil_iff.mp (eq_nil_of_packages_nil hStocks hPackages)).1
    rw [hPackages, hDirect] at hSome
    exact hSome rfl
  · intro n hn
    exact hMem.mpr (List.mem_append_left _ hn)
  · intro n hn
    exact hStocks.fresh n (hMem.mp hn)
  · intro n hn hNew
    rw [hNode]
    rcases hStocks.listed.mp ((hListed n).mp ((hNodes n).mpr hn)) with hOld | hMade
    · exact absurd (h.sound.lt_of_listed hOld) (Nat.not_lt.mpr hNew)
    · exact (hStocks.library n hMade).1

/-- The steps in front of linking: of the loaded files some nodes `ns` are left out, and in the
graph `settled` the bindings are settled. -/
structure Prepares (options : Options) (outlines : List FileOutline) (ns : List NodeId)
    (settled : Graph) (prepared : Prepared) : Prop where
  limits : (limit options (Graph.loaded outlines).1 (Graph.loaded outlines).2).result =
      .ok ((Graph.loaded outlines).1.removeNodes ns)
  settles : (settle options ((Graph.loaded outlines).1.removeNodes ns)
    (Graph.loaded outlines).2 (((Graph.loaded outlines).1.removeNodes
      ns).nodesOf (Graph.loaded outlines).2)).result = .ok settled
  imports_eq : prepared.imports = (Graph.loaded outlines).2.flatMap settled.allImports
  starts : (startLinking settled (Graph.loaded outlines).2
    (settled.nodesOf (Graph.loaded outlines).2)).result = .ok prepared.start

theorem Prepares.ready {options : Options} {outlines : List FileOutline} {ns : List NodeId}
    {settled : Graph} {prepared : Prepared} (h : Prepares options outlines ns settled prepared) :
    ((Graph.loaded outlines).1.removeNodes ns).Rebinds settled ∧
      Ready settled (Graph.loaded outlines).2 :=
  ready_of_settle (loading_insertFiles outlines) (fun _ hn => listed_of_mem_nodesOf hn) h.settles

/-- The steps in front of linking, taken apart. -/
theorem exists_of_prepare {options : Options} {outlines : List FileOutline} {prepared : Prepared}
    (h : (prepare options outlines).result = .ok prepared) :
    ∃ ns settled, Prepares options outlines ns settled prepared := by
  have hLoaded := loading_insertFiles outlines
  simp only [prepare, Reported.result_bind, Reported.result_log] at h
  obtain ⟨limited, hLimited, h⟩ := exists_of_bind_eq_ok h
  obtain ⟨settled, hSettled, h⟩ := exists_of_bind_eq_ok h
  obtain ⟨_, _, h⟩ := exists_of_bind_eq_ok h
  obtain ⟨_, _, h⟩ := exists_of_bind_eq_ok h
  obtain ⟨start, hStart, h⟩ := exists_of_bind_eq_ok h
  cases h
  obtain ⟨ns, rfl⟩ := removeNodes_of_limit hLimited
  obtain ⟨hRebinds, _⟩ := ready_of_settle hLoaded (fun n hn => listed_of_mem_nodesOf hn) hSettled
  rw [← hRebinds.nodesOf_eq] at hStart
  exact ⟨ns, settled, hLimited, hSettled, rfl, hStart⟩

/-- The state from which linking starts: library nodes are made for two kinds of calls. -/
theorem Prepares.start_eq {options : Options} {outlines : List FileOutline} {ns : List NodeId}
    {settled : Graph} {prepared : Prepared} (h : Prepares options outlines ns settled prepared) :
    let nodes := settled.nodesOf (Graph.loaded outlines).2
    let calls := callsOf settled nodes
    let direct := Libraries.ofCalls settled {} calls
    let indirect := Libraries.ofInstances (nodes ++ direct.2.2) direct.1 direct.2.1 calls
    prepared.start = startWith indirect.1 (Graph.loaded outlines).2 indirect.2.1
      (nodes ++ direct.2.2) := by
  have hStart := h.starts
  simp only [startLinking, Reported.result_bind, Reported.result_log] at hStart
  exact (Except.ok.inj hStart).symm

/-- Linking starts with the library nodes made for the calls that name one listed twice. -/
theorem Prepares.started_ofCalls {options : Options} {outlines : List FileOutline}
    {ns : List NodeId} {settled : Graph} {prepared : Prepared}
    (h : Prepares options outlines ns settled prepared) :
    Started settled (Graph.loaded outlines).2
      (Libraries.ofCalls settled {}
        (callsOf settled (settled.nodesOf (Graph.loaded outlines).2))).2.2
      prepared.start := by
  have hReady := h.ready.2
  rw [h.start_eq]
  refine hReady.started (hReady.stocks _ _) fun hPackages hNil => ?_
  rw [hNil] at hPackages
  exact hPackages rfl

/-- What linking starts from. -/
theorem Prepares.started {options : Options} {outlines : List FileOutline} {ns : List NodeId}
    {settled : Graph} {prepared : Prepared} (h : Prepares options outlines ns settled prepared) :
    ∃ direct, Started settled (Graph.loaded outlines).2 direct prepared.start ∧
      (direct = [] ↔
        ∀ call ∈ callsOf settled (settled.nodesOf (Graph.loaded outlines).2),
          Libraries.signature? call = none) :=
  ⟨_, h.started_ofCalls, ofCalls_eq_nil_iff⟩

theorem Prepares.imports_nil {options : Options} {outlines : List FileOutline} {ns : List NodeId}
    {settled : Graph} {prepared : Prepared} (h : Prepares options outlines ns settled prepared) :
    prepared.imports = [] := by
  rw [h.imports_eq]
  simp [allImports, h.ready.2.imports_nil]

/-- Calls can be linked node by node, up to any node. -/
theorem Prepares.linkable {options : Options} {outlines : List FileOutline} {ns : List NodeId}
    {settled : Graph} {prepared : Prepared} (h : Prepares options outlines ns settled prepared)
    {callers : List NodeId} (hCallers : callers <+: prepared.start.nodes) :
    prepared.start.Linkable prepared.imports callers := by
  obtain ⟨_, hStarted, _⟩ := h.started
  have hAll : prepared.start.Linkable prepared.imports prepared.start.nodes :=
    ⟨hStarted.valid, hStarted.files_ne, by simp [h.imports_nil], hStarted.valid.nodes_listed⟩
  exact hAll.mono hCallers.subset

theorem linkable_of_prepare {options : Options} {outlines : List FileOutline} {prepared : Prepared}
    (h : (prepare options outlines).result = .ok prepared) :
    prepared.start.Linkable prepared.imports prepared.start.nodes := by
  obtain ⟨ns, settled, hPrepares⟩ := exists_of_prepare h
  exact hPrepares.linkable List.prefix_rfl

/-- Linking starts from a valid state whenever it is prepared. -/
theorem started_of_prepare {options : Options} {outlines : List FileOutline} {prepared : Prepared}
    (h : (prepare options outlines).result = .ok prepared) :
    ∃ settled direct, Ready settled (Graph.loaded outlines).2 ∧
      Started settled (Graph.loaded outlines).2 direct prepared.start ∧
      prepared.imports = [] ∧
      (direct = [] ↔
        ∀ call ∈ callsOf settled (settled.nodesOf (Graph.loaded outlines).2),
          Libraries.signature? call = none) := by
  obtain ⟨ns, settled, hPrepares⟩ := exists_of_prepare h
  obtain ⟨direct, hStarted, hDirect⟩ := hPrepares.started
  exact ⟨settled, direct, hPrepares.ready.2, hStarted, hPrepares.imports_nil, hDirect⟩

end CallMap

end CallGraph
