import CallGraph.Proofs.Cutting
import CallGraph.Proofs.Preparing

/-!
# The chart of some sources

A run that ends in a chart goes through three stages: the sources are read, linking is prepared, and
the calls are linked; what is left of the linked graph is the chart. `CallMap.Run` names what the
stages come to, and the results below hold of every run, whatever the sources say.

## Main definitions

* `CallMap.Run` — what the stages of a run come to.
* `Linking.ownedCalls` — the calls of some nodes, each with the node that makes it.

## Main results

* `exists_run_of_build` — a chart is the end of a run.
* `Run.complete` — nothing is missing in the chart before it is cut.
* `coherent_of_build` — in a trimmed chart, the nodes shown, the edges and the forest agree.
-/

namespace CallGraph

open Chart (isLibraryGroup)
open CallGraph.Graph

namespace Linking

/-- The calls of some nodes, in order, each with the node that makes it. -/
def ownedCalls (graph : Graph) (nodes : List NodeId) : List (NodeId × Call) :=
  nodes.flatMap fun n => (graph.node n).calls.map fun call => (n, call)

theorem owners_ownedCalls (graph : Graph) (nodes : List NodeId) :
    (ownedCalls graph nodes).map Prod.fst =
      nodes.flatMap fun n => (graph.node n).calls.map fun _ => n := by
  simp only [ownedCalls, List.map_flatMap, List.map_map]
  rfl

variable {state : Linking}

theorem graph_withMissing (state : Linking) : state.withMissing.graph = state.graph := by
  unfold withMissing
  split <;> rfl

theorem nodes_withMissing (state : Linking) : state.withMissing.nodes = state.nodes := by
  unfold withMissing
  split <;> rfl

theorem edges_withMissing (state : Linking) : state.withMissing.edges = state.edges := by
  unfold withMissing
  split <;> rfl

/-- The placeholders are left out only if there are none, so the files still lead to every node. -/
theorem Valid.forest_withMissing (h : state.Valid [] []) :
    state.graph.Roots state.withMissing.files ∧ state.graph.Reached state.withMissing.files := by
  have hRooted : state.graph.Roots (state.files ++ [state.missingGroup]) := by
    simpa using h.stocked.rooted
  have hCovered : state.graph.Covered (state.files ++ [state.missingGroup]) := by
    simpa using h.stocked.covered
  have hReached : state.graph.Reached (state.files ++ [state.missingGroup]) := fun g n hn =>
    hCovered g (state.graph.group_lt_of_nodes hn)
  unfold withMissing
  split
  · rename_i hNone
    refine ⟨⟨(List.nodup_append.mp hRooted.nodup).1,
      fun r hr => hRooted.lt r (List.mem_append_left _ hr),
      fun r hr => hRooted.no_parent r (List.mem_append_left _ hr)⟩, fun g n hn => ?_⟩
    obtain ⟨r, hr, hBelow⟩ := hReached g n hn
    rcases List.mem_append.mp hr with hr | hr
    · exact ⟨r, hr, hBelow⟩
    · -- Nothing lies below the group of the placeholders, and it lists nothing.
      rw [List.mem_singleton.mp hr] at hBelow
      rw [hBelow.eq_of_flat h.missing_flat, List.isEmpty_iff.mp hNone] at hn
      exact absurd hn List.not_mem_nil
  · exact ⟨hRooted, hReached⟩

/-- Nothing is missing in the chart of a state in which all calls are linked. -/
theorem Valid.complete (h : state.Valid [] []) : (CallMap.chartOf state.withMissing).Complete := by
  obtain ⟨hRooted, hReached⟩ := h.forest_withMissing
  have hCases : ∀ n, state.graph.Listed n → n ∈ state.nodes ∨
      ((state.graph.node n).isInvented = true ∧ ∃ edge ∈ state.edges, edge.target = n) := by
    intro n hn
    rcases h.listed_cases n hn with hMem | ⟨hInvented, hEdge | ⟨link, hLink, _⟩⟩
    · exact Or.inl hMem
    · exact Or.inr ⟨hInvented, hEdge⟩
    · exact absurd hLink List.not_mem_nil
  refine
    { wellFormed := ?_, rooted := ?_, reached := ?_, nodes_listed := ?_, listed_cases := ?_
      source_listed := ?_, target_listed := ?_, sound := ?_, mem_nodes_iff := ?_
      source_body := ?_ }
  all_goals
    simp only [CallMap.chartOf, graph_withMissing, nodes_withMissing, edges_withMissing]
  · exact h.sound.toWellFormed
  · exact hRooted
  · exact hReached
  · exact h.nodes_listed
  · exact fun n hn => (hCases n hn).imp_right And.right
  · exact h.source_listed
  · exact h.target_listed
  · exact h.sound
  · intro n hn
    refine ⟨h.nodes_proper n, fun hProper => ?_⟩
    rcases hCases n hn with hMem | ⟨hInvented, _⟩
    · exact hMem
    · exact absurd (hInvented.symm.trans hProper) (by simp)
  · exact h.source_body

end Linking

/-! ## Trees of small programs -/

namespace Tree

def nameAt (line : Int) (id : String) : Tree :=
  .node .name (some line) [("id", .text id)] []

def memberAt (line : Int) (owner : Tree) (member : String) : Tree :=
  .node .member (some line) [("attr", .text member)] [.filled .value owner]

def callAt (line : Int) (callee : Tree) : Tree :=
  .node .call (some line) [] [.filled .func callee]

def statementAt (line : Int) (tree : Tree) : Tree :=
  .node (.other "Expr") (some line) [] [.filled .value tree]

def importAt (line : Int) (name : String) : Tree :=
  .node .importModules (some line) []
    [.filled .names (.node (.other "alias") (some line) [("name", .text name)] [])]

def importFromAt (line : Int) (module name : String) : Tree :=
  .node .importFrom (some line) [("module", .text module)]
    [.filled .names (.node (.other "alias") (some line) [("name", .text name)] [])]

/-- `pass` -/
def passAt (line : Int) : Tree := .node (.other "Pass") (some line) [] []

/-- A function without parameters. -/
def functionAt (line : Int) (name : String) (body : List Tree) : Tree :=
  .node .functionDef (some line) [("name", .text name)]
    (.filled .args (.node (.other "arguments") none [] []) :: body.map (.filled .body))

/-- A class without bases. -/
def classAt (line : Int) (name : String) (body : List Tree) : Tree :=
  .node .classDef (some line) [("name", .text name)] (body.map (.filled .body))

def moduleOf (body : List Tree) : Tree :=
  .node .module none [] (body.map (.filled .body))

end Tree

namespace CallMap

/-- The questions that the calls of a run come down to, in order, up to the first fault. -/
def Prepared.asked (prepared : Prepared) (options : Options) : List Query :=
  prepared.start.askedAll ⟨options.heuristics, options.aliasLabels⟩ prepared.imports
    prepared.start.nodes

/-- What the stages of a run come to: the outlines of the sources, the start of linking, and the
state in which all calls are linked. -/
structure Run (files : FileSystem) (options : Options) (sources : List String)
    (read : List FileOutline) (prepared : Prepared) (linked : Linking) : Prop where
  reads : (outlines files options sources).result = .ok read
  prepares : (prepare options read).result = .ok prepared
  finishes : prepared.start.linkAll ⟨options.heuristics, options.aliasLabels⟩ prepared.imports
    prepared.start.nodes = .ok linked

variable {files : FileSystem} {options : Options} {sources : List String}
variable {read : List FileOutline} {prepared : Prepared} {linked : Linking}

/-- A chart is the end of a run. -/
theorem exists_run_of_build {language : Value} {chart : Chart}
    (h : (build files options language sources).result = .ok chart) :
    ∃ read prepared linked, Run files options sources read prepared linked ∧
      chart = cut options (chartOf linked.withMissing) := by
  simp only [build, ofOutlines, Reported.result_bind, Reported.result_liftM] at h
  obtain ⟨_, _, h⟩ := exists_of_bind_eq_ok h
  obtain ⟨read, hRead, h⟩ := exists_of_bind_eq_ok h
  obtain ⟨prepared, hPrepared, h⟩ := exists_of_bind_eq_ok h
  obtain ⟨listed, hListed, h⟩ := exists_of_bind_eq_ok h
  simp only [link, Reported.result_bind, Reported.result_liftM, Reported.result_log] at hListed
  obtain ⟨_, _, hListed⟩ := exists_of_bind_eq_ok hListed
  obtain ⟨linked, hLinked, hListed⟩ := exists_of_bind_eq_ok hListed
  refine ⟨read, prepared, linked, ⟨hRead, hPrepared, hLinked⟩, ?_⟩
  cases hListed
  cases h
  rfl

namespace Run

variable (h : Run files options sources read prepared linked)
include h

/-- All calls of a run are linked. -/
theorem links :
    Linking.Linked prepared.start prepared.start.nodes (prepared.asked options) linked :=
  Linking.linkAll_spec (linkable_of_prepare h.prepares) h.finishes

/-- Nothing is missing in the chart of a run before it is cut. -/
theorem complete : (chartOf linked.withMissing).Complete :=
  h.links.valid.complete

/-- The edges of a run: one for each call of the nodes there are at the start of linking. -/
theorem sources_edges : linked.edges.map Edge.source =
      (Linking.ownedCalls prepared.start.graph prepared.start.nodes).map Prod.fst := by
  obtain ⟨_, _, _, hStarted, _, _⟩ := started_of_prepare h.prepares
  obtain ⟨drawn, hProgress, hSources⟩ := h.links.progress
  rw [hProgress.edges_eq, hStarted.edges_nil, List.nil_append, hSources,
    Linking.owners_ownedCalls]

/-- A node that calls something was there at the start of linking. -/
theorem mem_start_of_calls {n : NodeId}
    (hn : linked.graph.Listed n) (hCalls : (linked.graph.node n).calls ≠ []) :
    n ∈ prepared.start.nodes := by
  obtain ⟨_, hProgress, _⟩ := h.links.progress
  obtain ⟨added, hNodes, _, hNew⟩ := hProgress.nodes_eq
  have hBody := Linking.body_of_calls h.links.valid.sound hn hCalls
  have hMem : n ∈ linked.nodes := by
    rcases h.links.valid.listed_cases n hn with hMem | ⟨hInvented, _⟩
    · exact hMem
    · -- What was made up to resolve a call has no body.
      simp [Node.isInvented, Option.isNone_eq_false_iff.mpr hBody] at hInvented
  rw [hNodes] at hMem
  rcases List.mem_append.mp hMem with hMem | hMem
  · exact hMem
  · exact absurd (hProgress.grows.calls_of_new n (hNew n hMem)) hCalls

/-- A node is marked by what its edges are: it is a leaf if it calls nothing, and a trunk if nothing
calls it. -/
theorem marks {n : NodeId} (hn : linked.graph.Listed n) :
    ((linked.graph.node n).isLeaf = true ↔ (linked.graph.node n).calls = []) ∧
      ((linked.graph.node n).isTrunk = true ↔ ∀ edge ∈ linked.edges, edge.target ≠ n) := by
  refine ⟨(h.links.valid.leaf_iff n hn).trans ?_, h.links.valid.trunk_iff n hn⟩
  obtain ⟨_, hProgress, _⟩ := h.links.progress
  have hSource : (∃ edge ∈ linked.edges, edge.source = n) ↔ (linked.graph.node n).calls ≠ [] := by
    rw [← List.mem_map, h.sources_edges, Linking.owners_ownedCalls, List.mem_flatMap]
    constructor
    · rintro ⟨m, _, hMem⟩
      obtain ⟨call, hCall, rfl⟩ := List.mem_map.mp hMem
      rw [hProgress.grows.calls_eq]
      exact List.ne_nil_of_mem hCall
    · intro hCalls
      obtain ⟨call, hCall⟩ := List.exists_mem_of_ne_nil _ hCalls
      rw [hProgress.grows.calls_eq] at hCall
      exact ⟨n, h.mem_start_of_calls hn hCalls, List.mem_map.mpr ⟨call, hCall, rfl⟩⟩
  rw [← not_iff_not, not_forall]
  simpa using hSource

end Run

/-! ## What is cut -/

/-- Cutting takes entries out of the lists of groups, and changes no node. -/
theorem shrinks_cut {chart : Chart} (h : chart.Complete) (options : Options) :
    chart.graph.Shrinks (cut options chart).graph := by
  unfold cut
  split
  · exact Shrinks.refl _
  · split
    · exact h.shrinks_trim
    · exact h.hides.shrinks.trans h.hideLibraries.shrinks_trim

/-- What cutting leaves of the edges. -/
theorem edges_cut {chart : Chart} (h : chart.Complete) (options : Options) :
    (cut options chart).edges =
      if options.noTrimming = true ∨ options.showLibraries = true then chart.edges
      else chart.edges.filter fun edge =>
        !(chart.graph.node edge.source).isLibrary && !(chart.graph.node edge.target).isLibrary := by
  unfold cut
  by_cases hTrim : options.noTrimming = true
  · rw [if_pos hTrim, if_pos (Or.inl hTrim)]
  · rw [if_neg hTrim]
    by_cases hShow : options.showLibraries = true
    · rw [if_pos hShow, if_pos (Or.inr hShow)]
      rfl
    · rw [if_neg hShow, if_neg (not_or.mpr ⟨hTrim, hShow⟩)]
      exact h.edges_hideLibraries

/-- Of the edges of a run, those to library nodes are drawn only where such nodes are shown. -/
theorem Run.mem_edges_cut_iff (h : Run files options sources read prepared linked) {edge : Edge}
    (hEdge : edge ∈ linked.edges) :
    edge ∈ (cut options (chartOf linked.withMissing)).edges ↔
      (linked.graph.node edge.target).isLibrary = false ∨
        options.noTrimming = true ∨ options.showLibraries = true := by
  have hEdges : (chartOf linked.withMissing).edges = linked.edges := linked.edges_withMissing
  have hGraph : (chartOf linked.withMissing).graph = linked.graph := linked.graph_withMissing
  have hSource := h.complete.source_not_library (hEdges ▸ hEdge)
  rw [hGraph] at hSource
  rw [edges_cut h.complete, hEdges, hGraph]
  by_cases hShown : options.noTrimming = true ∨ options.showLibraries = true
  · simp [hEdge, hShown]
  · simp [hEdge, hSource, hShown]

theorem consistent_cut {chart : Chart} (h : chart.Complete) (options : Options) :
    (cut options chart).Consistent := by
  unfold cut
  split
  · exact h.toConsistent
  · split
    · exact h.trim_consistent
    · exact h.hideLibraries.trim_consistent

/-! ## A small program -/

/-- A computed result that passes a test is a result. -/
theorem exists_ok_of_any {ε α : Type _} {result : Except ε α} {test : α → Bool}
    (h : result.toOption.any test = true) : ∃ value, result = .ok value ∧ test value = true := by
  cases result with
  | error _ => exact absurd h Bool.false_ne_true
  | ok value => exact ⟨value, rfl, h⟩

/-- A module with an import, a class and two functions. The first calls a library, the class and the
second, which calls something that is defined nowhere. -/
def sampleModule : Tree :=
  .moduleOf
    [.importAt 1 "os",
     .classAt 2 "Shape" [.functionAt 3 "area" []],
     .functionAt 5 "main"
       [.statementAt 6 (.callAt 6 (.memberAt 6 (.nameAt 6 "os") "getcwd")),
        .statementAt 7 (.callAt 7 (.nameAt 7 "Shape")),
        .statementAt 8 (.callAt 8 (.nameAt 8 "report"))],
     .functionAt 9 "report" [.statementAt 10 (.callAt 10 (.nameAt 10 "absent"))]]

def sampleFiles : FileSystem := { entries := [(["a.py"], .file { content := .ok sampleModule })] }

/-! ## What holds of every chart -/

/--
In a trimmed chart, the nodes shown, the ends of the edges and the nodes of the forest are the same,
each in one place of the forest, and no group is empty. When libraries are hidden, none of the nodes
belongs to a library and none of the groups stands for one.
-/
theorem coherent_of_build {language : Value} {chart : Chart}
    (h : (build files options language sources).result = .ok chart)
    (hTrim : options.noTrimming = false) :
    chart.Coherent ∧ (options.showLibraries = false →
      (∀ n ∈ chart.nodes, (chart.graph.node n).isLibrary = false) ∧
      ∀ g ∈ chart.graph.groupsOf chart.files, (chart.graph.group g).display ≠ "Library" ∧
        (chart.graph.group g).display ≠ "Built-in Functions") := by
  obtain ⟨_, _, linked, hRun, rfl⟩ := exists_run_of_build h
  have hComplete := hRun.complete
  unfold cut
  rw [hTrim, if_neg Bool.false_ne_true]
  split
  · rename_i hShow
    refine ⟨hComplete.trim, fun hHide => ?_⟩
    rw [hShow] at hHide
    exact absurd hHide Bool.noConfusion
  · refine ⟨hComplete.hideLibraries.trim, fun _ => ?_⟩
    obtain ⟨hNodes, hGroups⟩ := hComplete.no_library_trim
    refine ⟨fun n hn => hNodes n (hComplete.hideLibraries.listed_trim.mpr hn), fun g hg => ?_⟩
    simpa [isLibraryGroup] using hGroups g hg

theorem coherent_of_build_sample :
    ∃ chart, (build sampleFiles {} (.text "py") ["a.py"]).result = .ok chart ∧
      chart.edges.length = 3 ∧ chart.Coherent ∧
      (∀ n ∈ chart.nodes, (chart.graph.node n).isLibrary = false) ∧
      ∀ g ∈ chart.graph.groupsOf chart.files, (chart.graph.group g).display ≠ "Library" ∧
        (chart.graph.group g).display ≠ "Built-in Functions" := by
  obtain ⟨chart, hChart, hEdges⟩ := exists_ok_of_any
    (show (build sampleFiles {} (.text "py") ["a.py"]).result.toOption.any
      (fun chart => chart.edges.length == 3) = true by decide +kernel)
  obtain ⟨hCoherent, hLibraries⟩ := coherent_of_build hChart rfl
  exact ⟨chart, hChart, by simpa using hEdges, hCoherent, hLibraries rfl⟩

end CallMap

end CallGraph
