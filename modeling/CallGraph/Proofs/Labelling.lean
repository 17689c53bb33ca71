import CallGraph.Proofs.Collecting
import CallGraph.Proofs.Excluding
import CallGraph.Proofs.Leading
import CallGraph.Proofs.Placing

/-!
# What the labels of edges are made of

The label of an edge is made of names and, for a call that was found in a table, of the key it was
found under. Names are texts. A key is spelled between quotes in a source, where escapes can spell
surrogates, and nothing else that is spelled there gets into a chart. So the labels of a chart are
texts if the sources spell texts only.

## Main definitions

* `Tree.spellsText` — a constant without surrogates.
* `Chart.Textual` — all labels of a chart are texts.

## Main results

* `CallMap.textual_of_build` — sources that spell texts have charts with texts for labels.
-/

namespace CallGraph

open CallGraph.Graph

/-- Whether the constant text that a tree spells, if it spells one, holds no surrogates. -/
def Tree.spellsText (tree : Tree) : Bool :=
  (tree.literal? "value").all Literal.isText

/-- Every file that can be read spells texts only. -/
def FileSystem.SpellsTexts (files : FileSystem) : Prop :=
  ∀ path tree, files.read path = .ok tree → tree.every Tree.spellsText = true

theorem FileSystem.spellsTexts_of_trees {files : FileSystem}
    (h : files.trees.all (Tree.every Tree.spellsText) = true) : files.SpellsTexts := by
  intro path tree hRead
  exact List.all_eq_true.mp h tree (Imports.mem_trees_of_read hRead)

/-- The key under which a call was found is a text. -/
def Call.Textual (call : Call) : Prop :=
  ∀ table key, call.tableEntry = some (table, key) → key.isText = true

/-- The label of an edge is a text. -/
def Edge.Textual (edge : Edge) : Prop :=
  ∀ label, edge.label = some label → label.isText = true

/-- All labels of a chart are texts. -/
def Chart.Textual (chart : Chart) : Prop :=
  ∀ edge ∈ chart.edges, edge.Textual

/-! ## Calls -/

theorem Call.textual_of_none {call : Call} (h : call.tableEntry = none) : call.Textual := by
  intro table key hEntry
  rw [h] at hEntry
  exact absurd hEntry (by simp)

namespace Block

variable {scopes : Option (List Scope)} {arguments : List String} {tree : Tree} {call : Call}

theorem tableEntry_nameCall : (nameCall scopes arguments tree).tableEntry = none := by
  unfold nameCall
  dsimp only
  split
  · split <;> rfl
  · rfl

theorem textual_entryCall? (h : tree.every Tree.spellsText = true)
    (hCall : entryCall? scopes arguments tree = some call) : call.Textual := by
  unfold entryCall? at hCall
  obtain ⟨_, _, hCall⟩ := Option.bind_eq_some_iff.mp hCall
  obtain ⟨_, _, hCall⟩ := Option.bind_eq_some_iff.mp hCall
  obtain ⟨name, _, hCall⟩ := Option.bind_eq_some_iff.mp hCall
  obtain ⟨index, hIndex, hCall⟩ := Option.bind_eq_some_iff.mp hCall
  dsimp only at hCall
  split at hCall
  · obtain ⟨key, hKey, hCall⟩ := Option.bind_eq_some_iff.mp hCall
    obtain ⟨_, _, hCall⟩ := Option.bind_eq_some_iff.mp hCall
    cases hCall
    have hSpells := (Tree.every_iff.mp (Tree.every_of_tree? h hIndex)).1
    rw [Tree.spellsText, hKey] at hSpells
    intro table other hEntry
    cases hEntry
    exact hSpells
  · exact absurd hCall (by simp)

theorem textual_call? (h : tree.every Tree.spellsText = true)
    (hCall : call? scopes arguments tree = some call) : call.Textual := by
  cases tree with
  | node kind line attributes children =>
      unfold call? at hCall
      split at hCall
      · cases hCall
        exact Call.textual_of_none rfl
      · cases hCall
        exact Call.textual_of_none tableEntry_nameCall
      · exact textual_entryCall? h hCall
      · obtain ⟨inner, _, rfl⟩ := Option.map_eq_some_iff.mp hCall
        exact Call.textual_of_none rfl
      · exact absurd hCall (by simp)

theorem textual_calls {statements : List Tree} (h : Tree.Kept Tree.spellsText statements) :
    ∀ call ∈ calls scopes statements, call.Textual := by
  intro call hCall
  obtain ⟨t, ht, hCall⟩ := List.mem_filterMap.mp hCall
  split at hCall
  · obtain ⟨callee, hCallee, hCall⟩ := Option.bind_eq_some_iff.mp hCall
    exact textual_call? (Tree.every_of_tree? (Tree.kept_walk h t ht) hCallee) hCall
  · exact absurd hCall (by simp)

end Block

/-! ## Outlines -/

/-- The calls of a function are found under texts. -/
def FunctionOutline.Textual (function : FunctionOutline) : Prop :=
  ∀ call ∈ function.calls, call.Textual

theorem FunctionOutline.textual_ofTree (isMethod : Bool) (scope : Scope) {definition : Tree}
    (h : definition.every Tree.spellsText = true) :
    (FunctionOutline.ofTree isMethod scope definition).Textual :=
  Block.textual_calls (Tree.kept_trees h .body)

/-- All calls of a file are found under texts. -/
structure FileOutline.Textual (file : FileOutline) : Prop where
  calls : ∀ call ∈ file.calls, call.Textual
  functions : ∀ f ∈ file.functions, f.Textual
  classes : ∀ c ∈ file.classes, c.Every FunctionOutline.Textual fun _ => True

theorem ClassOutline.grants_textual :
    Grants Tree.spellsText (fun _ => True) FunctionOutline.Textual fun _ => True where
  nil := trivial
  method _ hSpells _ := FunctionOutline.textual_ofTree true _ hSpells
  own _ _ _ _ := trivial

theorem FileOutline.textual_ofTree {tree : Tree} (h : tree.every Tree.spellsText = true)
    (path : String) : (FileOutline.ofTree tree path).Textual := by
  have hMembers := Members.keeps_ofTree h
  unfold FileOutline.ofTree
  generalize Members.ofTree tree = members at hMembers
  match members, hMembers with
  | .mk classes functions body imports, ⟨hClasses, hFunctions, hBody, hImports⟩ =>
      refine ⟨Block.textual_calls
        (List.forall_mem_append.mpr ⟨hBody, fun i hi => (hImports i hi).1⟩),
        fun f hf => ?_, fun c hc => ?_⟩
      · obtain ⟨definition, hDefinition, rfl⟩ := List.mem_map.mp hf
        exact FunctionOutline.textual_ofTree false _ (hFunctions definition hDefinition).1
      · obtain ⟨definition, hDefinition, rfl⟩ := List.mem_map.mp hc
        exact ClassOutline.every_ofMembers ClassOutline.grants_textual trivial definition
          (ClassMembers.allKeep_iff.mp hClasses definition hDefinition)

/-! ## Graphs -/

/-- All calls in a graph are found under texts. -/
def Graph.Textual (graph : Graph) : Prop :=
  ∀ n, ∀ call ∈ (graph.node n).calls, call.Textual

theorem Graph.Textual.grows {graph after : Graph} (h : graph.Textual) (hGrows : graph.Grows after) :
    after.Textual := by
  intro n call hCall
  rw [hGrows.calls_eq] at hCall
  exact h n call hCall

def textualProperties : Properties where
  node node := ∀ call ∈ node.calls, call.Textual
  group _ := True
  node_serial _ h := h
  group_contents _ _ _ _ _ _ := trivial

theorem textualProperties_ofFile {file : FileOutline} (h : file.Textual) :
    textualProperties.OfFile file where
  group := trivial
  root _ := h.calls
  functions f hf _ _ := h.functions f hf
  classes c hc :=
    ClassOutline.Every.imp (fun _ hf _ _ => hf) (fun _ _ _ => trivial) c (h.classes c hc)
  imports _ _ _ _ := by simp [textualProperties, importNode]

namespace CallMap

variable {files : FileSystem} {options : Options} {sources : List String}
variable {read : List FileOutline} {prepared : Prepared} {linked : Linking}

theorem textual_insertFiles (h : ∀ file ∈ read, file.Textual) : (Graph.loaded read).1.Textual := by
  have hLoading := loading_loaded fun file hFile => textualProperties_ofFile (h file hFile)
  intro n
  rcases Nat.lt_or_ge n.index (Graph.loaded read).1.nodes.size with hLt | hGe
  · exact hLoading.node_want n hLt
  · rw [node_eq_default _ hGe]
    exact fun call hCall => absurd hCall List.not_mem_nil

theorem textual_start (hRead : ∀ file ∈ read, file.Textual)
    (h : (prepare options read).result = .ok prepared) : prepared.start.graph.Textual := by
  obtain ⟨ns, settled, hPrepares⟩ := exists_of_prepare h
  obtain ⟨_, hStarted, _⟩ := hPrepares.started
  apply Graph.Textual.grows _ hStarted.grows
  intro n call hCall
  rw [node_field_settled hPrepares.ready.1 Node.calls] at hCall
  exact textual_insertFiles hRead n call hCall

end CallMap

/-! ## Edges -/

namespace Linking

variable {options : LinkOptions} {state next : Linking} {caller : NodeId}

theorem isText_edgeLabel {graph : Graph} {target : NodeId} {link : Link} {label : Literal}
    (h : link.call.Textual) (hLabel : edgeLabel options graph caller target link = some label) :
    label.isText = true := by
  unfold edgeLabel at hLabel
  dsimp only at hLabel
  split at hLabel
  · obtain ⟨text, _, rfl⟩ := Option.map_eq_some_iff.mp hLabel
    exact Literal.isText_ofText text
  · rename_i table key hEntry
    cases hLabel
    have hKey := h table key hEntry
    split <;> simp [hKey]

theorem connect_textual {link : Link} (hCall : link.call.Textual)
    (h : state.connect options caller link = .ok next) :
    ∃ edge : Edge, next.edges = state.edges ++ [edge] ∧ edge.Textual := by
  unfold connect at h
  split at h
  · exact absurd h (by simp)
  · cases h
    refine ⟨_, congrArg (· ++ [_]) ((edges_targetOf (state.note link) link).1.trans ?_),
      fun label hLabel => isText_edgeLabel hCall hLabel⟩
    unfold note
    split <;> rfl

theorem connectAll_textual {links : List Link} (hLinks : ∀ link ∈ links, link.call.Textual)
    (h : state.connectAll options caller links = .ok next)
    (hState : ∀ edge ∈ state.edges, edge.Textual) : ∀ edge ∈ next.edges, edge.Textual := by
  induction links generalizing state with
  | nil =>
      cases h
      exact hState
  | cons link rest ih =>
      obtain ⟨middle, hFirst, hRest⟩ := exists_of_bind_eq_ok h
      obtain ⟨hLink, hLinks⟩ := List.forall_mem_cons.mp hLinks
      obtain ⟨edge, hEdges, hEdge⟩ := connect_textual hLink hFirst
      apply ih hLinks hRest
      rw [hEdges]
      exact List.forall_mem_append.mpr ⟨hState, by simpa using hEdge⟩

/-- Calls that are found under texts have edges that are labelled with texts. -/
theorem linkAll_textual {imports callers : List NodeId} (h : state.Linkable imports callers)
    (hGraph : state.graph.Textual) (hLink : state.linkAll options imports callers = .ok next)
    (hState : ∀ edge ∈ state.edges, edge.Textual) : ∀ edge ∈ next.edges, edge.Textual := by
  induction callers generalizing state with
  | nil =>
      cases hLink
      exact hState
  | cons caller rest ih =>
      obtain ⟨middle, hFirst, hRest⟩ := exists_of_bind_eq_ok hLink
      obtain ⟨_, hProgress, _⟩ := (link_spec h hFirst).progress
      refine ih (h.rest hFirst) (hGraph.grows hProgress.grows) hRest ?_
      obtain ⟨⟨after, links⟩, hResolve, hConnect⟩ := exists_of_bind_eq_ok hFirst
      refine connectAll_textual (fun link hMem => ?_) hConnect hState
      obtain ⟨_, hResolved, _⟩ := h.resolved hResolve
      apply hGraph caller link.call
      rw [← hResolved.calls_eq]
      exact List.mem_map_of_mem hMem

end Linking

/-! ## Charts -/

namespace CallMap

variable {files : FileSystem} {options : Options} {sources : List String} {chart : Chart}

theorem mem_edges_of_cut {edge : Edge} (h : edge ∈ (cut options chart).edges) :
    edge ∈ chart.edges := by
  unfold cut at h
  split at h
  · exact h
  · split at h
    · exact h
    · change edge ∈ chart.hideLibraries.edges at h
      unfold Chart.hideLibraries at h
      dsimp only at h
      split at h
      · exact h
      · exact (List.mem_filter.mp h).1

/-- Sources that spell texts have charts with texts for labels. -/
theorem textual_of_build {language : Value} (hFiles : files.SpellsTexts)
    (h : (build files options language sources).result = .ok chart) : chart.Textual := by
  obtain ⟨read, prepared, linked, hRun, rfl⟩ := exists_run_of_build h
  have hRead : ∀ file ∈ read, file.Textual := by
    obtain ⟨paths, hOutlined, _⟩ := outlines_spec hRun.reads
    intro file hFile
    obtain ⟨path, _, tree, hTree, rfl⟩ := exists_path_of_outlined hOutlined hFile
    exact FileOutline.textual_ofTree (hFiles path tree hTree) path
  obtain ⟨ns, settled, hPrepares⟩ := exists_of_prepare hRun.prepares
  obtain ⟨_, hStarted, _⟩ := hPrepares.started
  have hLinked := Linking.linkAll_textual (hPrepares.linkable List.prefix_rfl)
    (textual_start hRead hRun.prepares) hRun.finishes (by simp [hStarted.edges_nil])
  intro edge hEdge
  have hMem : edge ∈ linked.withMissing.edges := mem_edges_of_cut hEdge
  rw [linked.edges_withMissing] at hMem
  exact hLinked edge hMem

end CallMap

namespace Program

variable {environment : Environment} {sources : List String} {destination : Destination}
variable {options : Options} {ready : Prepared}

theorem textual_of_restrict {subset : Option Subset} {chart shown : Chart} (h : chart.Textual)
    (hShown : (restrict subset chart).result = .ok shown) : shown.Textual := by
  cases subset with
  | none =>
      cases hShown
      exact h
  | some subset =>
      rw [restrict, Reported.result_bind] at hShown
      obtain ⟨_, _, hShown⟩ := exists_of_bind_eq_ok hShown
      obtain ⟨target, _, hShown⟩ := exists_of_bind_eq_ok hShown
      cases hShown
      exact fun edge hEdge => h edge (List.mem_filter.mp hEdge).1

/-- What can be written comes from a chart of the sources: its forest is in order, and its labels are
texts if the sources spell texts only. -/
theorem founded_of_prepare
    (h : (prepare environment sources destination options).result = .ok ready) :
    ready.chart.Founded ∧ (environment.files.SpellsTexts → ready.chart.Textual) := by
  obtain ⟨_, _, _, chart, shown, _, hChart, hShown, hSorted⟩ := exists_build_of_prepare h
  have hFounded := founded_of_restrict (CallMap.founded_of_build hChart) hShown
  obtain ⟨sorted, hSame, hResult⟩ := hFounded.exists_sorted
  obtain rfl : sorted = ready.chart := Except.ok.inj (hSame.symm.trans hSorted)
  refine ⟨hResult, fun hFiles edge hEdge => ?_⟩
  obtain ⟨name, hName⟩ := hFounded.exists_named
  rw [Chart.sorted_eq hName] at hSorted
  rw [← Except.ok.inj hSorted] at hEdge
  exact textual_of_restrict (CallMap.textual_of_build hFiles hChart) hShown edge
    (mem_sortBy.mp hEdge)

end Program

end CallGraph
