import CallGraph.Proofs.Charting

/-!
# Where the edges lead

Every call that is asked about gets one edge, in the order of the questions. This module puts
questions and edges side by side: an edge starts at the node that asks, and if the answer is a node
of the graph, it ends there. The calls reported as ambiguous are those whose answer says so.

All questions of a run are asked in a later state of the graph from which linking starts, and the
nodes listed there stay in front of the other candidates.

## Main definitions

* `Query.Leads` — a question and its edge.
* `Query.After` — a question that comes up after a state.
* `Linking.Led` — what linking some nodes says about the questions that come up.

## Main results

* `linkAll_led` — questions, edges and ambiguous calls of a run.
-/

namespace CallGraph

open CallGraph.Graph

namespace Query

/-- The call could go to several nodes. -/
def isAmbiguous (query : Query) : Bool :=
  match query.resolve with
  | .ok outcome => outcome.isAmbiguous
  | .error _ => false

/-- A question and the link that its answer makes. -/
structure Answers (query : Query) (link : Link) : Prop where
  call_eq : link.call = query.call
  resolves : query.resolve = .ok link.outcome
  target_eq : link.target = (link.outcome.apply query.graph query.candidates).target

/-- A question and the edge that is drawn for it. -/
structure Leads (query : Query) (edge : Edge) : Prop where
  source_eq : edge.source = query.caller
  target_eq : ∀ n via, query.resolve = .ok (.found n via) → edge.target = n

/-- A question that comes up after a state. -/
structure After (state : Linking) (heuristics : Bool) (query : Query) : Prop where
  grows : state.graph.Grows query.graph
  kept : state.nodes <+: query.candidates
  heuristics_eq : query.heuristics = heuristics

end Query

namespace Linking

variable {options : LinkOptions} {state next : Linking} {caller : NodeId}

/-! ## The calls of one node -/

theorem answers_of_resolveCalls {heuristics : Bool} {graph after : Graph}
    {candidates : List NodeId} {calls : List Call} {links : List Link}
    (h : resolveCalls heuristics caller graph candidates calls = .ok (after, links)) :
    List.Forall₂ Query.Answers (asked heuristics caller graph candidates calls) links ∧
      (asked heuristics caller graph candidates calls).map (fun query => (query.caller, query.call))
        = calls.map fun call => (caller, call) := by
  induction calls generalizing graph candidates links with
  | nil =>
      cases h
      exact ⟨.nil, rfl⟩
  | cons call rest ih =>
      obtain ⟨outcome, others, hOutcome, hOthers, rfl, hAsked⟩ := exists_of_resolveCalls_cons h
      obtain ⟨hAnswers, hCalls⟩ := ih hOthers
      rw [hAsked]
      refine ⟨.cons ⟨rfl, hOutcome, rfl⟩ hAnswers, ?_⟩
      rw [List.map_cons, hCalls]
      rfl

theorem edges_builtinTarget (state : Linking) (call : Call) :
    (state.builtinTarget call).1.edges = state.edges ∧
      (state.builtinTarget call).1.ambiguous = state.ambiguous := by
  unfold builtinTarget
  dsimp only
  split <;> exact ⟨rfl, rfl⟩

theorem edges_hangBuiltins (state : Linking) :
    state.hangBuiltins.edges = state.edges ∧ state.hangBuiltins.ambiguous = state.ambiguous := by
  unfold hangBuiltins
  split
  · exact ⟨rfl, rfl⟩
  · split
    · exact ⟨rfl, rfl⟩
    · split <;> exact ⟨rfl, rfl⟩

/-- Looking for a target draws no edge and notes no call. -/
theorem edges_targetOf (state : Linking) (link : Link) :
    (state.targetOf link).1.edges = state.edges ∧
      (state.targetOf link).1.ambiguous = state.ambiguous := by
  unfold targetOf
  split
  · exact ⟨rfl, rfl⟩
  · unfold fallback
    split
    · obtain ⟨hEdges, hAmbiguous⟩ := edges_builtinTarget state link.call
      obtain ⟨hEdges', hAmbiguous'⟩ := edges_hangBuiltins (state.builtinTarget link.call).1
      exact ⟨hEdges'.trans hEdges, hAmbiguous'.trans hAmbiguous⟩
    · unfold missingTarget
      split <;> exact ⟨rfl, rfl⟩

/-- The calls of some links that could go to several nodes. -/
def ambiguousCalls (links : List Link) : List Call :=
  (links.filter fun link => link.outcome.isAmbiguous).map Link.call

/-- What one link adds: its edge and, if it is ambiguous, its call. -/
theorem connect_leads {link : Link} (h : state.connect options caller link = .ok next) :
    ∃ edge : Edge, next.edges = state.edges ++ [edge] ∧ edge.source = caller ∧
      (∀ n, link.target = some n → edge.target = n) ∧
      next.ambiguous = state.ambiguous ++ ambiguousCalls [link] := by
  unfold connect at h
  split at h
  · exact absurd h (by simp)
  · cases h
    obtain ⟨hEdges, hAmbiguous⟩ := edges_targetOf (state.note link) link
    refine ⟨_, congrArg (· ++ [_]) (hEdges.trans ?_), rfl, fun n hn => ?_, hAmbiguous.trans ?_⟩
    · unfold note
      split <;> rfl
    · simp only [hn]
    · unfold note ambiguousCalls
      split <;> rename_i hNote <;> simp [hNote]

theorem connectAll_leads {links : List Link}
    (h : state.connectAll options caller links = .ok next) :
    ∃ drawn, next.edges = state.edges ++ drawn ∧
      List.Forall₂ (fun link (edge : Edge) => edge.source = caller ∧
        ∀ n, link.target = some n → edge.target = n) links drawn ∧
      next.ambiguous = state.ambiguous ++ ambiguousCalls links := by
  induction links generalizing state with
  | nil =>
      cases h
      exact ⟨[], by simp, .nil, by simp [ambiguousCalls]⟩
  | cons link rest ih =>
      obtain ⟨middle, hFirst, hRest⟩ := exists_of_bind_eq_ok h
      obtain ⟨edge, hEdges, hSource, hTarget, hAmbiguous⟩ := connect_leads hFirst
      obtain ⟨drawn, hEdges', hDrawn, hAmbiguous'⟩ := ih hRest
      refine ⟨edge :: drawn, by simp [hEdges', hEdges], .cons ⟨hSource, hTarget⟩ hDrawn, ?_⟩
      rw [hAmbiguous', hAmbiguous, List.append_assoc]
      unfold ambiguousCalls
      rw [← List.map_append, ← List.filter_append, List.singleton_append]

/-- A link and its edge lead where the question leads. -/
theorem leads_of_answers {asked : List Query} {links : List Link} {drawn : List Edge}
    (hCaller : ∀ query ∈ asked, query.caller = caller)
    (hAnswers : List.Forall₂ Query.Answers asked links)
    (hDrawn : List.Forall₂ (fun link (edge : Edge) => edge.source = caller ∧
      ∀ n, link.target = some n → edge.target = n) links drawn) :
    List.Forall₂ Query.Leads asked drawn ∧
      ambiguousCalls links = (asked.filter Query.isAmbiguous).map Query.call := by
  induction hAnswers generalizing drawn with
  | nil =>
      cases hDrawn
      exact ⟨.nil, rfl⟩
  | @cons query link others rest hFirst _ ih =>
      cases hDrawn with
      | cons hEdge hDrawn =>
          obtain ⟨hQuery, hOthers⟩ := List.forall_mem_cons.mp hCaller
          obtain ⟨hLeads, hAmbiguous⟩ := ih hOthers hDrawn
          refine ⟨.cons ⟨hEdge.1.trans hQuery.symm, fun n via hFound => hEdge.2 n ?_⟩ hLeads, ?_⟩
          · rw [hFirst.resolves] at hFound
            cases hOutcome : link.outcome <;> rw [hOutcome] at hFound <;> cases hFound
            rw [hFirst.target_eq, hOutcome]
            rfl
          · have hSame : query.isAmbiguous = link.outcome.isAmbiguous := by
              simp only [Query.isAmbiguous, hFirst.resolves]
            unfold ambiguousCalls at hAmbiguous ⊢
            rw [List.filter_cons, List.filter_cons, hSame]
            split
            · rw [List.map_cons, List.map_cons, hAmbiguous, hFirst.call_eq]
            · exact hAmbiguous

/-! ## All nodes -/

/-- What linking some nodes says about the questions that come up. -/
structure Led (state : Linking) (callers : List NodeId) (heuristics : Bool) (asked : List Query)
    (next : Linking) : Prop where
  edges : ∃ drawn, next.edges = state.edges ++ drawn ∧ List.Forall₂ Query.Leads asked drawn
  calls : asked.map (fun query => (query.caller, query.call)) = ownedCalls state.graph callers
  ambiguous : next.ambiguous = state.ambiguous ++ (asked.filter Query.isAmbiguous).map Query.call
  after : ∀ query ∈ asked, query.After state heuristics

/-- The questions of one node are asked in a sound graph about nodes that it lists, and come up
after the state. -/
theorem posed_asked {heuristics : Bool} {graph : Graph} {candidates : List NodeId}
    {calls : List Call} (hSound : graph.Sound) (hCaller : graph.Listed caller)
    (hCandidates : ∀ n ∈ candidates, graph.Listed n) (hGrows : state.graph.Grows graph)
    (hKept : state.nodes <+: candidates) :
    ∀ query ∈ asked heuristics caller graph candidates calls,
      query.Posed ∧ query.After state heuristics := by
  induction calls generalizing graph candidates with
  | nil => simp [asked]
  | cons call rest ih =>
      have hPosed : Query.Posed ⟨graph, heuristics, caller, candidates, call⟩ :=
        ⟨hSound, hCaller, hCandidates⟩
      rw [asked, List.forall_mem_cons]
      refine ⟨⟨hPosed, hGrows, hKept, rfl⟩, ?_⟩
      split
      · simp
      · rename_i outcome hOutcome
        obtain ⟨hNext, hGrows', hPrefix⟩ := hPosed.next (Query.resolve_fits hPosed hOutcome) call
        exact ih hNext.sound hNext.caller hNext.candidates (hGrows.trans hGrows')
          (hKept.trans hPrefix)

theorem Linkable.posed_asked {imports callers : List NodeId}
    (h : state.Linkable imports (caller :: callers)) :
    ∀ query ∈ asked options.heuristics caller state.graph (state.candidates imports)
        (state.graph.node caller).calls, query.Posed ∧ query.After state options.heuristics :=
  Linking.posed_asked h.valid.sound h.caller_listed h.candidates_listed (Grows.refl _)
    (List.prefix_append _ _)

theorem link_led {imports callers : List NodeId} (h : state.Linkable imports (caller :: callers))
    (hLink : state.link options imports caller = .ok next) :
    Led state [caller] options.heuristics (asked options.heuristics caller state.graph
      (state.candidates imports) (state.graph.node caller).calls) next := by
  obtain ⟨⟨after, links⟩, hResolve, hConnect⟩ := exists_of_bind_eq_ok hLink
  obtain ⟨hAnswers, hCalls⟩ := answers_of_resolveCalls hResolve
  obtain ⟨drawn, hEdges, hDrawn, hAmbiguous⟩ := connectAll_leads hConnect
  have hCallers : ∀ query ∈ asked options.heuristics caller state.graph (state.candidates imports)
      (state.graph.node caller).calls, query.caller = caller := by
    intro query hQuery
    have hMem := List.mem_map_of_mem (f := fun query : Query => (query.caller, query.call)) hQuery
    rw [hCalls] at hMem
    obtain ⟨call, _, hSame⟩ := List.mem_map.mp hMem
    exact (congrArg Prod.fst hSame).symm
  obtain ⟨hLeads, hSame⟩ := leads_of_answers hCallers hAnswers hDrawn
  refine ⟨⟨drawn, hEdges, hLeads⟩, ?_, hAmbiguous.trans (by rw [hSame]),
    fun query hQuery => (h.posed_asked query hQuery).2⟩
  rw [hCalls]
  simp [ownedCalls]

/-- Questions, edges and ambiguous calls of several nodes. -/
theorem linkAll_led {imports callers : List NodeId} (h : state.Linkable imports callers)
    (hLink : state.linkAll options imports callers = .ok next) :
    Led state callers options.heuristics (askedAll options imports state callers) next := by
  induction callers generalizing state with
  | nil =>
      cases hLink
      exact ⟨⟨[], by simp, .nil⟩, rfl, by simp [askedAll], by simp [askedAll]⟩
  | cons caller rest ih =>
      obtain ⟨middle, hFirst, hRest⟩ := exists_of_bind_eq_ok hLink
      obtain ⟨_, hProgress, _⟩ := (link_spec h hFirst).progress
      obtain ⟨added, hNodes, _⟩ := hProgress.nodes_eq
      have hLed := link_led h hFirst
      have hOthers := ih (h.rest hFirst) hRest
      obtain ⟨drawn, hEdges, hLeads⟩ := hLed.edges
      obtain ⟨drawn', hEdges', hLeads'⟩ := hOthers.edges
      rw [askedAll, hFirst]
      dsimp only
      refine ⟨⟨drawn ++ drawn', by rw [hEdges', hEdges, List.append_assoc],
        List.rel_append hLeads hLeads'⟩, ?_, ?_, List.forall_mem_append.mpr ⟨hLed.after, ?_⟩⟩
      · rw [List.map_append, hLed.calls, hOthers.calls]
        simp only [ownedCalls, List.flatMap_cons, List.flatMap_nil, List.append_nil,
          hProgress.grows.calls_eq]
      · rw [hOthers.ambiguous, hLed.ambiguous, List.filter_append, List.map_append,
          List.append_assoc]
      · intro query hQuery
        obtain ⟨hGrows, hKept, hHeuristics⟩ := hOthers.after query hQuery
        refine ⟨hProgress.grows.trans hGrows, List.IsPrefix.trans ?_ hKept, hHeuristics⟩
        rw [hNodes]
        exact List.prefix_append _ _

end Linking

namespace CallMap

variable {files : FileSystem} {options : Options} {sources : List String}
variable {read : List FileOutline} {prepared : Prepared} {linked : Linking}

namespace Run

variable (h : Run files options sources read prepared linked)
include h

/-- Questions, edges and ambiguous calls of a run. -/
theorem led :
    Linking.Led prepared.start prepared.start.nodes options.heuristics (prepared.asked options)
      linked :=
  Linking.linkAll_led (linkable_of_prepare h.prepares) h.finishes

/-- A call and its edge come from one question. -/
theorem exists_asked {caller : NodeId} {call : Call} {edge : Edge} (hPair : ((caller, call), edge) ∈
      (Linking.ownedCalls prepared.start.graph prepared.start.nodes).zip linked.edges) :
    ∃ query ∈ prepared.asked options, query.caller = caller ∧ query.call = call ∧
      query.Leads edge := by
  obtain ⟨_, _, _, hStarted, _, _⟩ := started_of_prepare h.prepares
  obtain ⟨drawn, hEdges, hLeads⟩ := h.led.edges
  rw [hStarted.edges_nil, List.nil_append] at hEdges
  rw [← h.led.calls, hEdges, List.zip_map_left] at hPair
  obtain ⟨⟨query, edge'⟩, hMem, hSame⟩ := List.mem_map.mp hPair
  obtain ⟨hOwned, rfl⟩ := Prod.mk.inj hSame
  obtain ⟨rfl, rfl⟩ := Prod.mk.inj hOwned
  exact ⟨query, (List.of_mem_zip hMem).1, rfl, rfl, List.forall₂_zip hLeads hMem⟩

/-- There is an edge for every call. -/
theorem length_edges : linked.edges.length =
      (Linking.ownedCalls prepared.start.graph prepared.start.nodes).length := by
  rw [← List.length_map Edge.source, h.sources_edges, List.length_map]

end Run

/-- Whether the stages of a run come to something that passes a test. -/
def passes (files : FileSystem) (options : Options) (sources : List String)
    (test : List FileOutline → Prepared → Linking → Bool) : Bool :=
  match (outlines files options sources).result with
  | .error _ => false
  | .ok read =>
      match (prepare options read).result with
      | .error _ => false
      | .ok prepared =>
          match prepared.start.linkAll ⟨options.heuristics, options.aliasLabels⟩ prepared.imports
              prepared.start.nodes with
          | .error _ => false
          | .ok linked => test read prepared linked

theorem Run.test_of_passes (h : Run files options sources read prepared linked)
    {test : List FileOutline → Prepared → Linking → Bool}
    (hPasses : passes files options sources test = true) : test read prepared linked = true := by
  unfold passes at hPasses
  rw [h.reads] at hPasses
  dsimp only at hPasses
  rw [h.prepares] at hPasses
  dsimp only at hPasses
  rw [h.finishes] at hPasses
  exact hPasses

end CallMap

end CallGraph
