import CallGraph.Proofs.Clarity

/-!
# Linking goes through when all calls are answered

Linking stops at the first call that is not answered. So it goes through if and only if every call
that comes up is answered (`linkAll_isOk_iff`), whatever the graph looks like.

In a run that starts from a clear graph, every call that comes up is a fair one
(`fair_askedAll`): the graph stays clear while nodes and packages are added, and the library nodes
that calls need stay where they are. A function that was made up comes in sight of a caller only
after a call was resolved to one (`creates_of_obscured`).

## Main definitions

* `Graph.Supplies` — the node of a library call is among the candidates.
* `Linking.Able` — what makes every call of a state fair.

## Main results

* `linkAll_isOk_iff` — when linking goes through.
* `fair_askedAll` — the calls that come up.
* `creates_of_obscured` — what comes before an obscured call.
-/

namespace CallGraph

open CallGraph.Graph

namespace Linking

variable {options : LinkOptions} {state : Linking}

/-! ## One call after the other -/

/-- The calls of a node are resolved, each to something definite, if all of them are answered. -/
theorem resolveCalls_definite_iff {heuristics : Bool} {caller : NodeId} {graph : Graph}
    {candidates : List NodeId} {calls : List Call} :
    (∃ after links, resolveCalls heuristics caller graph candidates calls = .ok (after, links) ∧
        ∀ link ∈ links, link.outcome.Definite) ↔
      ∀ query ∈ asked heuristics caller graph candidates calls, query.Answered := by
  induction calls generalizing graph candidates with
  | nil => exact iff_of_true ⟨graph, [], rfl, by simp⟩ (by simp [asked])
  | cons call rest ih =>
      rw [asked, List.forall_mem_cons]
      cases hResolve : Query.resolve ⟨graph, heuristics, caller, candidates, call⟩ with
      | error fault =>
          refine iff_of_false ?_ fun hAll => ?_
          · rintro ⟨after, links, hOk, _⟩
            obtain ⟨_, hFirst, _⟩ := exists_of_bind_eq_ok hOk
            rw [hResolve] at hFirst
            exact absurd hFirst (by simp)
          · obtain ⟨_, hFirst, _⟩ := hAll.1
            rw [hResolve] at hFirst
            exact absurd hFirst (by simp)
      | ok outcome =>
          dsimp only
          rw [← ih]
          constructor
          · rintro ⟨after, links, hOk, hDefinite⟩
            obtain ⟨found, hFirst, hOk⟩ := exists_of_bind_eq_ok hOk
            rw [hResolve] at hFirst
            cases hFirst
            obtain ⟨⟨final, others⟩, hOthers, hOk⟩ := exists_of_bind_eq_ok hOk
            cases hOk
            exact ⟨⟨outcome, hResolve, hDefinite _ List.mem_cons_self⟩, final, others, hOthers,
              fun link hLink => hDefinite link (List.mem_cons_of_mem _ hLink)⟩
          · rintro ⟨⟨found, hFirst, hDefinite⟩, after, others, hOthers, hRest⟩
            rw [hResolve] at hFirst
            cases hFirst
            refine ⟨after, ⟨call, outcome, (outcome.apply graph candidates).target⟩ :: others, ?_,
              List.forall_mem_cons.mpr ⟨hDefinite, hRest⟩⟩
            rw [resolveCalls, hResolve]
            dsimp only [bind, Except.bind]
            rw [hOthers]
            rfl

/-- An edge is drawn for every link that goes somewhere definite. -/
theorem connect_isOk_iff {caller : NodeId} {link : Link} :
    (∃ next, state.connect options caller link = .ok next) ↔ link.outcome.Definite := by
  unfold connect
  cases hOutcome : link.outcome with
  | marker name =>
      refine iff_of_false ?_ fun hDefinite => hDefinite name rfl
      rintro ⟨next, hNext⟩
      exact absurd hNext (by simp)
  | _ => exact iff_of_true ⟨_, rfl⟩ nofun

theorem connectAll_isOk_iff {caller : NodeId} {links : List Link} :
    (∃ next, state.connectAll options caller links = .ok next) ↔
      ∀ link ∈ links, link.outcome.Definite := by
  induction links generalizing state with
  | nil => exact iff_of_true ⟨state, rfl⟩ (by simp)
  | cons link rest ih =>
      rw [connectAll, exists_bind_eq_ok_iff, List.forall_mem_cons,
        ← @connect_isOk_iff options state]
      constructor
      · rintro ⟨middle, hFirst, hRest⟩
        exact ⟨⟨middle, hFirst⟩, ih.mp hRest⟩
      · rintro ⟨⟨middle, hFirst⟩, hRest⟩
        exact ⟨middle, hFirst, ih.mpr hRest⟩

theorem link_isOk_iff {imports : List NodeId} {caller : NodeId} :
    (∃ next, state.link options imports caller = .ok next) ↔
      ∀ query ∈ asked options.heuristics caller state.graph (state.candidates imports)
        (state.graph.node caller).calls, query.Answered := by
  rw [← resolveCalls_definite_iff, link, exists_bind_eq_ok_iff]
  constructor
  · rintro ⟨⟨after, links⟩, hResolve, hConnect⟩
    exact ⟨after, links, hResolve, connectAll_isOk_iff.mp hConnect⟩
  · rintro ⟨after, links, hResolve, hDefinite⟩
    exact ⟨(after, links), hResolve, connectAll_isOk_iff.mpr hDefinite⟩

/-- Linking goes through if and only if every call that comes up is answered. -/
theorem linkAll_isOk_iff {imports callers : List NodeId} :
    (∃ next, state.linkAll options imports callers = .ok next) ↔
      ∀ query ∈ state.askedAll options imports callers, query.Answered := by
  induction callers generalizing state with
  | nil => exact iff_of_true ⟨state, rfl⟩ (by simp [askedAll])
  | cons caller rest ih =>
      rw [linkAll, exists_bind_eq_ok_iff, askedAll, List.forall_mem_append, ← link_isOk_iff]
      cases hLink : state.link options imports caller with
      | error fault => exact iff_of_false (by simp) (by simp)
      | ok next =>
          dsimp only
          rw [← ih]
          constructor
          · rintro ⟨middle, hMiddle, hRest⟩
            cases hMiddle
            exact ⟨⟨next, rfl⟩, hRest⟩
          · rintro ⟨_, hRest⟩
            exact ⟨next, rfl, hRest⟩

end Linking

/-! ## Every call that comes up is fair -/

/-- If a call goes to a library, its node is among the candidates. -/
def Graph.Supplies (graph : Graph) (candidates : List NodeId) (call : Call) : Prop :=
  ∀ owner, Query.libraryOwner? call = some owner → ∃ n ∈ candidates,
    (graph.node n).token = call.token ∧
      Dotted.join [owner, call.token] ∈ (graph.node n).importTokens

theorem Graph.Supplies.grows {graph after : Graph} {candidates candidates' : List NodeId}
    {call : Call} (h : graph.Supplies candidates call) (hGrows : graph.Grows after)
    (hLt : ∀ n ∈ candidates, n.index < graph.nodes.size)
    (hCandidates : ∀ n ∈ candidates, n ∈ candidates') : after.Supplies candidates' call := by
  intro owner hOwner
  obtain ⟨n, hn, hToken, hImport⟩ := h owner hOwner
  refine ⟨n, hCandidates n hn, ?_, ?_⟩
  · rw [hGrows.node_field Node.token (hLt n hn)]
    exact hToken
  · rw [hGrows.node_field Node.importTokens (hLt n hn)]
    exact hImport

theorem Call.Plain.libraryOwner? {call : Call} (h : call.Plain) (hLibrary : call.isLibrary = true) :
    ∃ owner, Query.libraryOwner? call = some owner := by
  obtain ⟨owner, hOwner⟩ := Option.isSome_iff_exists.mp (h.library hLibrary)
  have hne := Dotted.ne_empty_of_first_ne (h.named owner hOwner).1
  exact ⟨owner, by simp [Query.libraryOwner?, hLibrary, Call.namedOwner?, hOwner, hne]⟩

/-- A library call finds its node by signature. -/
theorem Query.bySignature?_isSome {query : Query} (hPlain : query.call.Plain)
    (h : query.graph.Supplies query.candidates query.call)
    (hLibrary : query.call.isLibrary = true) : query.bySignature?.isSome := by
  obtain ⟨owner, hOwner⟩ := hPlain.libraryOwner? hLibrary
  obtain ⟨n, hn, hToken, hImport⟩ := h owner hOwner
  unfold bySignature?
  rw [hOwner]
  dsimp only
  rw [List.find?_isSome]
  refine ⟨n, List.mem_filter.mpr ⟨hn, decide_eq_true hToken⟩, ?_⟩
  simp [answersTo, hImport]

/-- Answering a call leaves the packages as they are. -/
theorem Libraries.Stocked.apply {libraries : Libraries} {graph : Graph} {roots : List GroupId}
    (h : libraries.Stocked graph roots) {outcome : Outcome} (hFits : outcome.Fits graph)
    (candidates : List NodeId) :
    libraries.Stocked (outcome.apply graph candidates).graph roots := by
  cases outcome with
  | create node via =>
      obtain ⟨p, hp⟩ := Graph.Creatable.invention h.sound hFits
      exact h.insertNode hp.toInsertable
  | _ => exact h

namespace Linking

variable {options : LinkOptions} {state : Linking}

/-- The calls of a node in a clear graph are fair. -/
theorem fair_asked {libraries : Libraries} {graph : Graph} {roots : List GroupId}
    {heuristics : Bool} {caller : NodeId} {candidates : List NodeId} {calls : List Call}
    (hStocked : libraries.Stocked graph roots) (hNames : ∀ p ∈ libraries.packages, p.1 ≠ "")
    (hClear : graph.Clear) (hCaller : graph.Listed caller)
    (hBody : calls ≠ [] → (graph.node caller).bindings.isSome)
    (hCandidates : ∀ n ∈ candidates, graph.Listed n)
    (hCalls : ∀ call ∈ calls, call.Plain ∧ graph.Supplies candidates call) :
    ∀ query ∈ asked heuristics caller graph candidates calls, query.Fair := by
  induction calls generalizing graph candidates with
  | nil => simp [asked]
  | cons call rest ih =>
      have hBody := hBody (List.cons_ne_nil _ _)
      obtain ⟨hPlain, hSupplies⟩ := hCalls call List.mem_cons_self
      have hPosed : Query.Posed ⟨graph, heuristics, caller, candidates, call⟩ :=
        ⟨hStocked.sound, hCaller, hCandidates⟩
      rw [asked, List.forall_mem_cons]
      refine ⟨⟨hPosed, hClear, hBody, hPlain, Query.bySignature?_isSome hPlain hSupplies⟩, ?_⟩
      split
      · simp
      · rename_i outcome hOutcome
        have hFits := Query.resolve_fits hPosed hOutcome
        obtain ⟨hNext, hGrows, hPrefix⟩ := hPosed.next hFits call
        have hStocked' := hStocked.apply hFits candidates
        refine ih hStocked' (hClear.of_grows hStocked.sound hGrows hStocked' hNames)
          hNext.caller (fun _ => ?_) hNext.candidates fun other hOther => ?_
        · rw [hGrows.node_field Node.bindings (hStocked.sound.lt_of_listed hCaller)]
          exact hBody
        · obtain ⟨hPlain, hSupplies⟩ := hCalls other (List.mem_cons_of_mem _ hOther)
          exact ⟨hPlain, hSupplies.grows hGrows
            (fun n hn => hStocked.sound.lt_of_listed (hCandidates n hn))
            fun n hn => hPrefix.subset hn⟩

/-- What makes every call of a state fair. -/
structure Able (state : Linking) : Prop where
  valid : state.Valid [] []
  clear : state.graph.Clear
  names : ∀ p ∈ state.libraries.packages, p.1 ≠ ""
  supplies : ∀ n ∈ state.nodes, ∀ call ∈ (state.graph.node n).calls,
    state.graph.Supplies state.nodes call

theorem Able.progress {next : Linking} {drawn : List Edge} (h : state.Able)
    (hNext : next.Valid [] []) (hProgress : Progress state next drawn) : next.Able := by
  have hNames : ∀ p ∈ next.libraries.packages, p.1 ≠ "" := by
    intro p hp
    rcases hProgress.packages_new p hp with hOld | hBuiltin
    · exact h.names p hOld
    · rw [hBuiltin]
      decide
  refine ⟨hNext, h.clear.of_grows h.valid.sound hProgress.grows hNext.stocked hNames, hNames,
    fun n hn call hCall => ?_⟩
  obtain ⟨added, hNodes, _, hNew⟩ := hProgress.nodes_eq
  have hKept : ∀ m ∈ state.nodes, m ∈ next.nodes := fun m hm => by
    rw [hNodes]
    exact List.mem_append_left _ hm
  rw [hNodes] at hn
  rcases List.mem_append.mp hn with hOld | hAdded
  · rw [hProgress.grows.calls_eq] at hCall
    exact (h.supplies n hOld call hCall).grows hProgress.grows h.valid.node_lt hKept
  · rw [hProgress.grows.calls_of_new n (hNew n hAdded)] at hCall
    exact absurd hCall List.not_mem_nil

/-- The calls that come up when linking starts from a clear graph are fair. -/
theorem fair_askedAll {imports callers : List NodeId} (h : state.Able)
    (hReady : state.Linkable imports callers) (hCallers : ∀ n ∈ callers, n ∈ state.nodes) :
    ∀ query ∈ state.askedAll options imports callers, query.Fair := by
  induction callers generalizing state with
  | nil => simp [askedAll]
  | cons caller rest ih =>
      have hMem := hCallers caller List.mem_cons_self
      rw [askedAll, List.forall_mem_append]
      constructor
      · refine fair_asked h.valid.stocked h.names h.clear hReady.caller_listed
          (body_of_calls h.valid.sound hReady.caller_listed) hReady.candidates_listed
          fun call hCall => ?_
        exact ⟨h.clear.calls caller call hCall, (h.supplies caller hMem call hCall).grows
          (Grows.refl _) h.valid.node_lt fun n hn => List.mem_append_left _ hn⟩
      · split
        · simp
        · rename_i next hLink
          have hStep := link_spec hReady hLink
          obtain ⟨drawn, hProgress, _⟩ := hStep.progress
          obtain ⟨added, hNodes, _⟩ := hProgress.nodes_eq
          refine ih (h.progress hStep.valid hProgress) (hReady.rest hLink) fun n hn => ?_
          rw [hNodes]
          exact List.mem_append_left _ (hCallers n (List.mem_cons_of_mem _ hn))

/-! ## What comes before an obscured call -/

/-- A caller in whose sight a function was made up stands in a graph that lists one. -/
theorem exists_invented_of_obscured {query : Query} (h : query.Obscured) :
    ∃ n, query.graph.Listed n ∧ (query.graph.node n).isInvented = true := by
  obtain ⟨_, _, g, _, _, n, hn, hInvented⟩ := h
  exact ⟨n, ⟨g, hn⟩, hInvented⟩

/-- If nothing is made up yet, a call of the node is obscured only behind one that made a node. -/
theorem creates_of_obscured_asked {heuristics : Bool} {caller : NodeId} {graph : Graph}
    {candidates : List NodeId} {calls : List Call} {query : Query} {front back : List Query}
    (hClean : ¬∃ n, graph.Listed n ∧ (graph.node n).isInvented = true)
    (hSplit : asked heuristics caller graph candidates calls = front ++ query :: back)
    (hObscured : query.Obscured) : ∃ earlier ∈ front, earlier.Creates := by
  induction calls generalizing graph candidates front with
  | nil => exact absurd hSplit (by simp [asked])
  | cons call rest ih =>
      rw [asked] at hSplit
      cases front with
      | nil =>
          obtain ⟨rfl, _⟩ := List.cons.inj hSplit
          exact absurd (exists_invented_of_obscured hObscured) hClean
      | cons first front =>
          obtain ⟨rfl, hRest⟩ := List.cons.inj hSplit
          split at hRest
          · exact absurd hRest (by simp)
          · rename_i outcome hOutcome
            cases outcome with
            | create node via => exact ⟨_, List.mem_cons_self, node, via, hOutcome⟩
            | _ =>
                -- Any other outcome leaves the graph as it is.
                obtain ⟨earlier, hEarlier, hCreates⟩ := ih hClean hRest
                exact ⟨earlier, List.mem_cons_of_mem _ hEarlier, hCreates⟩

/-- If nothing is made up at the start, a call is obscured only behind one that made a node. -/
theorem creates_of_obscured {imports callers : List NodeId} {query : Query}
    {front back : List Query} (h : state.Linkable imports callers) (hClean : ¬state.HasInvented)
    (hSplit : state.askedAll options imports callers = front ++ query :: back)
    (hObscured : query.Obscured) : ∃ earlier ∈ front, earlier.Creates := by
  induction callers generalizing state front with
  | nil => exact absurd hSplit (by simp [askedAll])
  | cons caller rest ih =>
      rw [askedAll] at hSplit
      cases hLink : state.link options imports caller with
      | error fault =>
          rw [hLink, List.append_nil] at hSplit
          exact creates_of_obscured_asked hClean hSplit hObscured
      | ok next =>
          rw [hLink] at hSplit
          have hLater : ∀ front', next.askedAll options imports rest = front' ++ query :: back →
              ∃ earlier ∈ asked options.heuristics caller state.graph (state.candidates imports)
                (state.graph.node caller).calls ++ front', earlier.Creates := by
            intro front' hSplit
            by_cases hInvented : next.HasInvented
            · obtain ⟨earlier, hEarlier, hCreates⟩ :=
                ((link_spec h hLink).invented.mp hInvented).resolve_left hClean
              exact ⟨earlier, List.mem_append_left _ hEarlier, hCreates⟩
            · obtain ⟨earlier, hEarlier, hCreates⟩ := ih (h.rest hLink) hInvented hSplit
              exact ⟨earlier, List.mem_append_right _ hEarlier, hCreates⟩
          -- The call is one of this caller's, or one of a later caller's.
          rcases List.append_eq_append_iff.mp hSplit with
            ⟨front', rfl, hNext⟩ | ⟨back', hHere, hBack⟩
          · exact hLater front' hNext
          · cases back' with
            | nil =>
                rw [List.append_nil] at hHere
                have hEarlier := hLater [] hBack.symm
                rwa [hHere, List.append_nil] at hEarlier
            | cons first back' =>
                obtain ⟨rfl, _⟩ := List.cons.inj hBack
                exact creates_of_obscured_asked hClean hHere hObscured

end Linking

end CallGraph
