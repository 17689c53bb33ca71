import CallGraph.Output.JsonGraph
import CallGraph.Output.Sorted
import CallGraph.Proofs.Charting
import Mathlib.Data.List.Basic

/-!
# Charts that are not trimmed

Trimming makes the nodes shown agree with the edges and the forest. A chart that is not trimmed
shows what linking lists, and this differs from the forest in two ways. The nodes of library calls
are listed when they are made and once more with their packages, so they are shown twice. And the
nodes made up to resolve a call are not listed at all, so there are edges to nodes that are not
shown, and what is written of them speaks of identifiers that it does not declare.

Both have an exact condition, and without them everything agrees.

## Main results

* `nodeId_inj` — in the numbering of a chart, an identifier stands for one node that is shown.
* `nodup_nodes_iff` — when no node is shown twice.
* `targets_shown_iff` — when no edge leads to a node that is not shown.
* `agree_iff_of_noTrimming` — what is shown, the edges and the forest of a chart that is not
  trimmed.
-/

namespace CallGraph

/-! ## Identifiers -/

namespace Text

/-- The digits that hexadecimal numerals are written with, in order. -/
def hexChars : List Char := (List.range 16).map Nat.digitChar

/-- Reads hexadecimal digits. -/
def readHex (digits : List Char) : Nat :=
  digits.foldl (fun value c => 16 * value + hexChars.idxOf c) 0

theorem idxOf_digitChar : ∀ d < 16, hexChars.idxOf d.digitChar = d := by decide

theorem readHex_append (digits : List Char) (c : Char) :
    readHex (digits ++ [c]) = 16 * readHex digits + hexChars.idxOf c := by
  simp [readHex]

theorem readHex_zeros (count : Nat) (digits : List Char) :
    readHex (List.replicate count '0' ++ digits) = readHex digits := by
  have hZeros : (List.replicate count '0').foldl
      (fun value c => 16 * value + hexChars.idxOf c) 0 = 0 := by
    induction count with
    | zero => rfl
    | succ count ih =>
        rw [List.replicate_succ, List.foldl_cons, show hexChars.idxOf '0' = 0 by decide]
        exact ih
  rw [readHex, List.foldl_append, hZeros]
  rfl

theorem readHex_toDigits (n : Nat) : readHex (Nat.toDigits 16 n) = n := by
  induction n using Nat.strongRecOn with
  | ind n ih =>
      rcases Nat.lt_or_ge n 16 with hSmall | hLarge
      · rw [Nat.toDigits_of_lt_base hSmall]
        simpa [readHex] using idxOf_digitChar n hSmall
      · rw [Nat.toDigits_of_base_le (by decide) hLarge, readHex_append,
          ih (n / 16) (Nat.div_lt_self (by omega) (by decide)),
          idxOf_digitChar (n % 16) (Nat.mod_lt _ (by decide))]
        exact Nat.div_add_mod n 16

/-- Different numbers have different numerals, whatever the width. -/
theorem hex_inj {width m n : Nat} (h : hex width m = hex width n) : m = n := by
  have hRead : ∀ k, readHex (hexDigits width k) = k := fun k => by
    rw [hexDigits, readHex_zeros, readHex_toDigits]
  have hDigits : hexDigits width m = hexDigits width n := String.ofList_injective h
  rw [← hRead m, hDigits, hRead n]

end Text

namespace Numbering

/-- In the numbering of a chart, the identifier of a node that is shown stands for no other. -/
theorem nodeId_inj {chart : Chart} {m n : NodeId} (hm : m ∈ chart.nodes)
    (h : (byAppearance chart).nodeId m = (byAppearance chart).nodeId n) : m = n := by
  have hNumber := Text.hex_inj ((String.append_right_inj _).mp h)
  refine (List.idxOf_inj ?_).mp hNumber
  rw [mem_distinct]
  exact List.mem_append_left _ (List.mem_append_left _ hm)

end Numbering

/-! ## What is written -/

namespace Graph

variable {graph : Graph}

theorem map_fst_of_named {nodes : List NodeId} {named : List (NodeId × String)}
    (h : graph.named nodes = .ok named) : named.map Prod.fst = nodes := by
  induction nodes generalizing named with
  | nil =>
      cases h
      rfl
  | cons n rest ih =>
      obtain ⟨name, _, h⟩ := exists_of_bind_eq_ok h
      obtain ⟨others, hOthers, h⟩ := exists_of_bind_eq_ok h
      cases h
      rw [List.map_cons, ih hOthers]

theorem map_edge_of_namedEdges {edges : List Edge} {named : List NamedEdge}
    (h : graph.namedEdges edges = .ok named) : named.map NamedEdge.edge = edges := by
  induction edges generalizing named with
  | nil =>
      cases h
      rfl
  | cons edge rest ih =>
      obtain ⟨source, _, h⟩ := exists_of_bind_eq_ok h
      obtain ⟨target, _, h⟩ := exists_of_bind_eq_ok h
      obtain ⟨others, hOthers, h⟩ := exists_of_bind_eq_ok h
      cases h
      rw [List.map_cons, ih hOthers]

theorem perm_of_sortNodes {nodes sorted : List NodeId} (h : graph.sortNodes nodes = .ok sorted) :
    sorted.Perm nodes := by
  unfold sortNodes at h
  split at h
  · cases h
    exact List.Perm.refl _
  · obtain ⟨named, hNamed, h⟩ := exists_of_bind_eq_ok h
    cases h
    have hPerm := (perm_sortBy (fun a b => decide (a.2 ≤ b.2)) named).map Prod.fst
    rwa [map_fst_of_named hNamed] at hPerm

theorem perm_of_sortEdges {edges sorted : List Edge} (h : graph.sortEdges edges = .ok sorted) :
    sorted.Perm edges := by
  unfold sortEdges at h
  split at h
  · cases h
    exact List.Perm.refl _
  · obtain ⟨named, hNamed, h⟩ := exists_of_bind_eq_ok h
    cases h
    have hPerm := (perm_sortBy (fun a b => !NamedEdge.before b a) named).map NamedEdge.edge
    rwa [map_edge_of_namedEdges hNamed] at hPerm

end Graph

namespace Chart

/-- Sorting a chart rearranges its nodes and edges. -/
theorem perm_of_sorted {chart sorted : Chart} (h : chart.sorted = .ok sorted) :
    sorted.nodes.Perm chart.nodes ∧ sorted.edges.Perm chart.edges := by
  obtain ⟨nodes, hNodes, h⟩ := exists_of_bind_eq_ok h
  obtain ⟨edges, hEdges, h⟩ := exists_of_bind_eq_ok h
  cases h
  exact ⟨Graph.perm_of_sortNodes hNodes, Graph.perm_of_sortEdges hEdges⟩

end Chart

namespace JsonGraph

theorem mem_keys_put {key other : String} {value : Value} {entries : List (String × Value)} :
    other ∈ (put key value entries).map Prod.fst ↔ other = key ∨ other ∈ entries.map Prod.fst := by
  induction entries with
  | nil => simp [put]
  | cons entry rest ih =>
      rw [put]
      split
      · rename_i hKey
        simp [hKey]
      · rw [List.map_cons, List.mem_cons, ih, List.map_cons, List.mem_cons, or_left_comm]

/-- The identifiers under which nodes are written are those of the nodes. -/
theorem mem_keys_of_nodes {graph : Graph} {numbering : Numbering} {ids : List NodeId}
    {entries written : List (String × Value)} (h : nodes graph numbering entries ids = .ok written)
    {key : String} : key ∈ written.map Prod.fst ↔
      key ∈ entries.map Prod.fst ∨ key ∈ ids.map numbering.nodeId := by
  induction ids generalizing entries with
  | nil =>
      cases h
      simp
  | cons id rest ih =>
      obtain ⟨entry, hEntry, h⟩ := exists_of_bind_eq_ok h
      obtain ⟨name, _, hEntry⟩ := exists_of_bind_eq_ok hEntry
      cases hEntry
      rw [ih h, mem_keys_put, List.map_cons, List.mem_cons, or_assoc, or_left_comm]

end JsonGraph

/-! ## What linking lists -/

namespace CallMap

open CallGraph.Graph

variable {files : FileSystem} {options : Options} {sources : List String}
variable {read : List FileOutline} {prepared : Prepared} {linked : Linking}

/-- Library nodes call nothing, so the calls to link are those of the source. -/
theorem Started.callsOf_eq {graph : Graph} {roots : List GroupId} {direct : List NodeId}
    {start : Linking} (h : Started graph roots direct start) :
    callsOf start.graph start.nodes = callsOf graph (graph.nodesOf roots) := by
  obtain ⟨all, hNodes, hDirect, _, hNew⟩ := h.nodes_eq
  have hNone : ∀ ns : List NodeId, (∀ n ∈ ns, n ∈ all) → callsOf start.graph ns = [] := by
    intro ns hAll
    exact List.flatMap_eq_nil_iff.mpr fun n hn => h.grows.calls_of_new n (hNew n (hAll n hn))
  have hOld : callsOf start.graph (graph.nodesOf roots) = callsOf graph (graph.nodesOf roots) :=
    List.flatMap_congr fun n _ => h.grows.calls_eq n
  have hSplit : ∀ xs ys, callsOf start.graph (xs ++ ys) =
      callsOf start.graph xs ++ callsOf start.graph ys := fun xs ys => List.flatMap_append
  rw [hNodes, hSplit, hSplit, hOld, hNone direct hDirect, hNone all fun _ hn => hn,
    List.append_nil, List.append_nil]

/-- Library nodes are listed when they are made, and once more with their packages. -/
theorem Started.nodup_nodes_iff {graph : Graph} {roots : List GroupId} {direct : List NodeId}
    {start : Linking} (h : Started graph roots direct start) (hReady : Ready graph roots) :
    start.nodes.Nodup ↔ direct = [] := by
  obtain ⟨all, hNodes, hDirect, hNodup, hNew⟩ := h.nodes_eq
  rw [hNodes]
  constructor
  · intro hAll
    rw [List.eq_nil_iff_forall_not_mem]
    intro n hn
    exact (List.disjoint_of_nodup_append hAll) (List.mem_append_right _ hn) (hDirect n hn)
  · rintro rfl
    rw [List.append_nil]
    exact nodup_append_of_index (nodup_nodesOf hReady.sound.toWellFormed hReady.rooted) hNodup
      (fun n hn => hReady.sound.lt_of_listed (listed_of_mem_nodesOf hn)) hNew

namespace Run

variable (h : Run files options sources read prepared linked)
include h

/-- No node is listed twice exactly if no call goes to a library. -/
theorem nodup_nodes_iff : linked.nodes.Nodup ↔
      ∀ call ∈ callsOf prepared.start.graph prepared.start.nodes,
        Libraries.signature? call = none := by
  obtain ⟨settled, direct, hReady, hStarted, _, hDirect⟩ := started_of_prepare h.prepares
  obtain ⟨_, hProgress, _⟩ := h.links.progress
  obtain ⟨added, hNodes, hNodup, hNew⟩ := hProgress.nodes_eq
  rw [hStarted.callsOf_eq, ← hDirect, ← hStarted.nodup_nodes_iff hReady, hNodes]
  constructor
  · intro hAll
    exact (List.nodup_append.mp hAll).1
  · intro hStart
    exact nodup_append_of_index hStart hNodup hStarted.valid.node_lt hNew

theorem hasInvented_iff : linked.HasInvented ↔ ∃ query ∈ prepared.asked options, query.Creates := by
  obtain ⟨_, _, _, hStarted, _, _⟩ := started_of_prepare h.prepares
  rw [h.links.invented, or_iff_right hStarted.not_hasInvented]

/-- A listed node is shown unless it was made up. -/
theorem mem_nodes_iff {n : NodeId} (hn : linked.graph.Listed n) :
    n ∈ linked.nodes ↔ (linked.graph.node n).isInvented = false := by
  have hMem := h.complete.mem_nodes_iff n
  simp only [chartOf, Linking.graph_withMissing, Linking.nodes_withMissing] at hMem
  exact hMem hn

/-- Every edge leads to a node that is shown exactly if no call has its target made up. -/
theorem targets_shown_iff :
    (∀ edge ∈ linked.edges, edge.target ∈ linked.nodes) ↔ ¬linked.HasInvented := by
  rw [h.links.valid.hasInvented_iff]
  push Not
  refine forall₂_congr fun edge hEdge => ?_
  rw [h.mem_nodes_iff (h.links.valid.target_listed edge hEdge), ← Bool.not_eq_true]

/-- The nodes shown are those of the forest exactly if no call has its target made up. -/
theorem forest_shown_iff :
    (∀ n, n ∈ linked.nodes ↔ linked.graph.Listed n) ↔ ¬linked.HasInvented := by
  constructor
  · rintro hShown ⟨n, hn, hInvented⟩
    rw [(h.mem_nodes_iff hn).mp ((hShown n).mpr hn)] at hInvented
    exact absurd hInvented Bool.false_ne_true
  · intro hNone n
    refine ⟨h.links.valid.nodes_listed n, fun hn => (h.mem_nodes_iff hn).mpr ?_⟩
    by_contra hInvented
    exact hNone ⟨n, hn, by simpa using hInvented⟩

end Run

/-- What is written of a chart declares the identifiers of the nodes shown, so that the ends of the
edges are declared exactly if they are shown. -/
theorem ends_declared_iff {chart sorted : Chart} (h : chart.sorted = .ok sorted) :
    (∀ edge ∈ sorted.edges,
      (Numbering.byAppearance sorted).nodeId edge.source ∈
        sorted.nodes.map (Numbering.byAppearance sorted).nodeId ∧
      (Numbering.byAppearance sorted).nodeId edge.target ∈
        sorted.nodes.map (Numbering.byAppearance sorted).nodeId) ↔
      ∀ edge ∈ chart.edges, edge.source ∈ chart.nodes ∧ edge.target ∈ chart.nodes := by
  obtain ⟨hNodes, hEdges⟩ := Chart.perm_of_sorted h
  have hDeclared : ∀ n, (Numbering.byAppearance sorted).nodeId n ∈
      sorted.nodes.map (Numbering.byAppearance sorted).nodeId ↔ n ∈ chart.nodes := by
    intro n
    rw [← hNodes.mem_iff]
    refine ⟨fun hMem => ?_, List.mem_map_of_mem⟩
    obtain ⟨m, hm, hSame⟩ := List.mem_map.mp hMem
    rwa [← Numbering.nodeId_inj hm hSame]
  simp only [hDeclared, hEdges.mem_iff]

/--
In a chart that is not trimmed, the forest has every node once, the nodes shown stand in it, and
every edge starts at a node that is shown. No node is shown twice exactly if no call goes to a
library. Every edge leads to a node that is shown, the nodes shown are those of the forest, and what
is written declares the ends of the edges, exactly if no call has its target made up.
-/
theorem agree_iff_of_noTrimming {language : Value} {chart : Chart}
    (h : (build files options language sources).result = .ok chart)
    (hTrim : options.noTrimming = true) :
    ∃ read prepared linked, Run files options sources read prepared linked ∧
      chart = chartOf linked.withMissing ∧
      (chart.graph.nodesOf chart.files).Nodup ∧
      (∀ n ∈ chart.nodes, n ∈ chart.graph.nodesOf chart.files) ∧
      (∀ edge ∈ chart.edges, edge.source ∈ chart.nodes) ∧
      (chart.nodes.Nodup ↔ ∀ call ∈ callsOf prepared.start.graph prepared.start.nodes,
        Libraries.signature? call = none) ∧
      ((∀ edge ∈ chart.edges, edge.target ∈ chart.nodes) ↔
        ∀ query ∈ prepared.asked options, ¬query.Creates) ∧
      ((∀ n, n ∈ chart.nodes ↔ n ∈ chart.graph.nodesOf chart.files) ↔
        ∀ query ∈ prepared.asked options, ¬query.Creates) ∧
      ∀ sorted, chart.sorted = .ok sorted →
        (∀ entries, JsonGraph.nodes sorted.graph (Numbering.byAppearance sorted) [] sorted.nodes =
            .ok entries → ∀ key, key ∈ entries.map Prod.fst ↔
              key ∈ sorted.nodes.map (Numbering.byAppearance sorted).nodeId) ∧
        ((∀ edge ∈ sorted.edges,
          (Numbering.byAppearance sorted).nodeId edge.source ∈
            sorted.nodes.map (Numbering.byAppearance sorted).nodeId ∧
          (Numbering.byAppearance sorted).nodeId edge.target ∈
            sorted.nodes.map (Numbering.byAppearance sorted).nodeId) ↔
          ∀ query ∈ prepared.asked options, ¬query.Creates) := by
  obtain ⟨read, prepared, linked, hRun, rfl⟩ := exists_run_of_build h
  have hComplete := hRun.complete
  rw [cut, if_pos hTrim]
  have hNodes : (chartOf linked.withMissing).nodes = linked.nodes := linked.nodes_withMissing
  have hEdges : (chartOf linked.withMissing).edges = linked.edges := linked.edges_withMissing
  have hGraph : (chartOf linked.withMissing).graph = linked.graph := linked.graph_withMissing
  have hForest : ∀ n, n ∈ (chartOf linked.withMissing).graph.nodesOf
      (chartOf linked.withMissing).files ↔ linked.graph.Listed n := by
    intro n
    rw [mem_nodesOf_of_reached hComplete.wellFormed hComplete.rooted hComplete.reached, hGraph]
  have hSources : ∀ edge ∈ (chartOf linked.withMissing).edges,
      edge.source ∈ (chartOf linked.withMissing).nodes := by
    intro edge hEdge
    -- A node that calls something has a body, so it was not made up.
    rw [hComplete.mem_nodes_iff _ (hComplete.source_listed edge hEdge), Node.isInvented]
    simp [Option.isNone_eq_false_iff.mpr (hComplete.source_body edge hEdge)]
  have hInvented : ¬linked.HasInvented ↔ ∀ query ∈ prepared.asked options, ¬query.Creates := by
    rw [hRun.hasInvented_iff]
    push Not
    rfl
  have hTargets : (∀ edge ∈ (chartOf linked.withMissing).edges,
      edge.target ∈ (chartOf linked.withMissing).nodes) ↔
      ∀ query ∈ prepared.asked options, ¬query.Creates := by
    rw [hNodes, hEdges, hRun.targets_shown_iff, hInvented]
  refine ⟨read, prepared, linked, hRun, rfl, nodup_nodesOf hComplete.wellFormed hComplete.rooted,
    ?_, hSources, ?_, hTargets, ?_, fun sorted hSorted => ⟨fun entries hEntries key => ?_, ?_⟩⟩
  · intro n hn
    rw [hForest, ← hGraph]
    exact hComplete.nodes_listed n hn
  · rw [hNodes]
    exact hRun.nodup_nodes_iff
  · rw [← hInvented, ← hRun.forest_shown_iff, hNodes]
    simp only [hForest]
  · rw [JsonGraph.mem_keys_of_nodes hEntries]
    simp
  · rw [ends_declared_iff hSorted, ← hTargets]
    exact ⟨fun hAll edge hEdge => (hAll edge hEdge).2,
      fun hAll edge hEdge => ⟨hSources edge hEdge, hAll edge hEdge⟩⟩

/-- In the small program, the node of the library call is shown twice, and the constructor of the
class is the target of an edge but not shown. -/
theorem disagree_untrimmed_sample :
    ∃ chart, (build sampleFiles { noTrimming := true } (.text "py") ["a.py"]).result = .ok chart ∧
      ¬chart.nodes.Nodup ∧ (∃ edge ∈ chart.edges, edge.target ∉ chart.nodes) ∧
      ∃ n ∈ chart.graph.nodesOf chart.files, n ∉ chart.nodes := by
  obtain ⟨chart, hChart, hTest⟩ := exists_ok_of_any
    (show (build sampleFiles { noTrimming := true } (.text "py") ["a.py"]).result.toOption.any
      (fun chart => decide (¬chart.nodes.Nodup ∧
        (∃ edge ∈ chart.edges, edge.target ∉ chart.nodes) ∧
        ∃ n ∈ chart.graph.nodesOf chart.files, n ∉ chart.nodes)) = true by decide +kernel)
  exact ⟨chart, hChart, of_decide_eq_true hTest⟩

theorem agree_iff_of_noTrimming_sample :
    ∃ chart read prepared linked,
      (build sampleFiles { noTrimming := true } (.text "py") ["a.py"]).result = .ok chart ∧
      Run sampleFiles { noTrimming := true } ["a.py"] read prepared linked ∧
      chart.edges.length = 4 ∧
      (chart.graph.nodesOf chart.files).Nodup ∧
      (chart.nodes.Nodup ↔ ∀ call ∈ callsOf prepared.start.graph prepared.start.nodes,
        Libraries.signature? call = none) ∧
      ((∀ edge ∈ chart.edges, edge.target ∈ chart.nodes) ↔
        ∀ query ∈ prepared.asked { noTrimming := true }, ¬query.Creates) := by
  obtain ⟨chart, hChart, hEdges⟩ := exists_ok_of_any
    (show (build sampleFiles { noTrimming := true } (.text "py") ["a.py"]).result.toOption.any
      (fun chart => chart.edges.length == 4) = true by decide +kernel)
  obtain ⟨read, prepared, linked, hRun, _, hForest, _, _, hNodup, hTargets, _⟩ :=
    agree_iff_of_noTrimming hChart rfl
  exact ⟨chart, read, prepared, linked, hChart, hRun, by simpa using hEdges, hForest, hNodup,
    hTargets⟩

end CallMap

end CallGraph
