import CallGraph.Proofs.Signatures

/-!
# What becomes of a call that is not resolved

A call that is not resolved to a node goes to the library of the names that every program can call,
if it is one of them, and else to a placeholder. Calls that read the same share a placeholder, which
has the token of the first of them. So the placeholders of a state are known from the calls that
needed one: `lacking` lists them, and `Linking.Lacks` says that the state has these and no others.

A call may also make up a node; every node made up that stands in the graph was made up for one of
the calls that were asked about.

## Main definitions

* `Query.isMissed` — the call needs a placeholder.
* `lacking` — the placeholders that some calls need.
* `Linking.Lacks` — the placeholders that a state has.
* `Query.Lands` — where the edge of a call ends that was not resolved to a node there was.
* `Linking.Landed` — what linking some nodes does about such calls.

## Main results

* `linkAll_landed` — placeholders, nodes made up and the ends of the edges after a run.
* `edges_of_build` — there is one edge for each call, which goes where the call is resolved to.
-/

namespace CallGraph

open CallGraph.Graph

/-- Every program can make the call. -/
def Call.isFree (call : Call) : Bool :=
  call.owner.isNone && isBuiltin call.token

/-- A link without a target that needs a placeholder. -/
def Link.isMissed (link : Link) : Bool :=
  link.target.isNone && !link.call.isFree

namespace Query

/-- The call is resolved to no node, or to several. -/
def isOpen (query : Query) : Bool :=
  match query.resolve with
  | .ok (.ambiguous _ _) => true
  | .ok .unresolved => true
  | _ => false

/-- The call needs a placeholder. -/
def isMissed (query : Query) : Bool :=
  query.isOpen && !query.call.isFree

theorem isOpen_of_isAmbiguous {query : Query} (h : query.isAmbiguous = true) :
    query.isOpen = true := by
  unfold isAmbiguous at h
  unfold isOpen
  cases hResolve : query.resolve with
  | error fault => simp [hResolve] at h
  | ok outcome =>
      rw [hResolve] at h
      cases outcome <;> simp_all [Outcome.isAmbiguous]

/-- A call that is linked is open exactly if its link has no target. -/
theorem Answers.isOpen_eq {query : Query} {link : Link} (h : query.Answers link)
    (hMarker : ∀ name, link.outcome ≠ .marker name) : query.isOpen = link.target.isNone := by
  unfold isOpen
  rw [h.resolves, h.target_eq]
  cases hOutcome : link.outcome with
  | marker name => exact absurd hOutcome (hMarker name)
  | _ => rfl

theorem Answers.isMissed_eq {query : Query} {link : Link} (h : query.Answers link)
    (hMarker : ∀ name, link.outcome ≠ .marker name) : query.isMissed = link.isMissed := by
  rw [isMissed, Link.isMissed, h.isOpen_eq hMarker, h.call_eq]

end Query

/-! ## The placeholders that calls need -/

/-- Enters a call into a table of texts and tokens, unless its text is there. -/
def lack (table : List (String × String)) (call : Call) : List (String × String) :=
  if call.text ∈ table.map Prod.fst then table else table ++ [(call.text, call.token)]

/-- The texts of some calls, each once, with the token of the first call that reads so. -/
def lacking (calls : List Call) : List (String × String) :=
  calls.foldl lack []

theorem lacking_append_singleton (calls : List Call) (call : Call) :
    lacking (calls ++ [call]) = lack (lacking calls) call := by
  rw [lacking, List.foldl_append]
  rfl

/-- The calls of some questions that need a placeholder. -/
def missedCalls (asked : List Query) : List Call :=
  (asked.filter Query.isMissed).map Query.call

theorem missedCalls_append (first last : List Query) :
    missedCalls (first ++ last) = missedCalls first ++ missedCalls last := by
  simp [missedCalls]

/-! ## The ends of edges -/

namespace Graph

/-- A node stands in a package and constructs nothing. -/
def Housed (graph : Graph) (n : NodeId) : Prop :=
  (graph.node n).isConstructor = false ∧
    ∃ p, (graph.node n).parent = .group p ∧ (graph.group p).kind = .package

/-- A node was made up as another says: it has its token and its place. -/
structure Bears (graph : Graph) (n : NodeId) (node : Node) : Prop where
  token : (graph.node n).token = node.token
  parent : (graph.node n).parent = node.parent
  invented : (graph.node n).isInvented = true

variable {graph after : Graph} {n : NodeId}

theorem Housed.grows (h : graph.Housed n) (hSound : graph.Sound) (hn : graph.Listed n)
    (hGrows : graph.Grows after) : after.Housed n := by
  obtain ⟨hConstructor, p, hParent, hKind⟩ := h
  have hLt := hSound.lt_of_listed hn
  obtain ⟨g, hGroup, hMem⟩ := hSound.parent_of hn
  rw [hParent] at hGroup
  cases hGroup
  refine ⟨?_, p, ?_, ?_⟩
  · rw [hGrows.node_field Node.isConstructor hLt]
    exact hConstructor
  · rw [hGrows.node_field Node.parent hLt]
    exact hParent
  · rw [hGrows.group_field Group.kind (graph.group_lt_of_nodes hMem)]
    exact hKind

theorem Bears.grows {node : Node} (h : graph.Bears n node) (hn : n.index < graph.nodes.size)
    (hGrows : graph.Grows after) : after.Bears n node where
  token := (hGrows.node_field Node.token hn).trans h.token
  parent := (hGrows.node_field Node.parent hn).trans h.parent
  invented := (hGrows.node_field Node.isInvented hn).trans h.invented

end Graph

/-- A node is the placeholder for a call. -/
structure Linking.Replaces (state : Linking) (call : Call) (n : NodeId) : Prop where
  missing : (state.graph.node n).isMissing = true
  entry : (call.text, n) ∈ state.missing

/-- A node is the one for a call that every program can make. -/
structure Linking.Shelves (state : Linking) (call : Call) (n : NodeId) : Prop where
  housed : state.graph.Housed n
  entry : (Dotted.join [builtinModule, call.token], n) ∈ state.libraries.nodes

/-- Where the edge of a link without a target ends. -/
structure Link.Lands (link : Link) (state : Linking) (target : NodeId) : Prop where
  missed : link.isMissed = true → state.Replaces link.call target
  free : link.target = none → link.call.isFree = true → state.Shelves link.call target

/-- Where the edge of a call ends that was not resolved to a node there was. -/
structure Query.Lands (query : Query) (state : Linking) (target : NodeId) : Prop where
  missed : query.isMissed = true → state.Replaces query.call target
  free : query.isOpen = true → query.call.isFree = true → state.Shelves query.call target
  created : ∀ node via, query.resolve = .ok (.create node via) → state.graph.Bears target node

section Progress

variable {state next : Linking} {drawn : List Edge} {n : NodeId}

theorem Linking.Replaces.progress {call : Call} (h : state.Replaces call n)
    (hLt : n.index < state.graph.nodes.size) (hProgress : state.Progress next drawn) :
    next.Replaces call n where
  missing := (hProgress.grows.node_field Node.isMissing hLt).trans h.missing
  entry := hProgress.missing_kept h.entry

theorem Linking.Shelves.progress {call : Call} (h : state.Shelves call n)
    (hSound : state.graph.Sound) (hn : state.graph.Listed n)
    (hProgress : state.Progress next drawn) : next.Shelves call n where
  housed := h.housed.grows hSound hn hProgress.grows
  entry := hProgress.libraries_kept h.entry

theorem Link.Lands.progress {link : Link} (h : link.Lands state n) (hSound : state.graph.Sound)
    (hn : state.graph.Listed n) (hProgress : state.Progress next drawn) : link.Lands next n where
  missed hMissed := (h.missed hMissed).progress (hSound.lt_of_listed hn) hProgress
  free hNone hFree := (h.free hNone hFree).progress hSound hn hProgress

theorem Query.Lands.progress {query : Query} (h : query.Lands state n)
    (hSound : state.graph.Sound) (hn : state.graph.Listed n)
    (hProgress : state.Progress next drawn) : query.Lands next n where
  missed hMissed := (h.missed hMissed).progress (hSound.lt_of_listed hn) hProgress
  free hOpen hFree := (h.free hOpen hFree).progress hSound hn hProgress
  created node via hCreate :=
    (h.created node via hCreate).grows (hSound.lt_of_listed hn) hProgress.grows

end Progress

namespace Linking

variable {options : LinkOptions} {state next : Linking} {caller : NodeId}
variable {extra : List GroupId} {pending : List Link} {calls : List Call}

/-! ## The placeholders of a state -/

/-- The placeholders of a state are those that some calls need. -/
structure Lacks (state : Linking) (calls : List Call) : Prop where
  table : (state.missing.map fun e => (e.1, (state.graph.node e.2).token)) = lacking calls
  nodes_eq : (state.nodes.filter fun n => (state.graph.node n).isMissing) =
    state.missing.map Prod.snd
  placed : ∀ e ∈ state.missing, (state.graph.node e.2).isConstructor = false ∧
    (state.graph.node e.2).parent = .group state.missingGroup

/-- A state that gets no placeholder keeps those it has. -/
theorem Lacks.keep (h : state.Lacks calls) (hValid : state.Valid extra pending)
    (hGrows : state.graph.Grows next.graph) (hMissing : next.missing = state.missing)
    (hGroup : next.missingGroup = state.missingGroup) {added : List NodeId}
    (hNodes : next.nodes = state.nodes ++ added)
    (hAdded : ∀ n ∈ added, (next.graph.node n).isMissing = false) : next.Lacks calls := by
  have hLt : ∀ e ∈ state.missing, e.2.index < state.graph.nodes.size := fun e he =>
    hValid.node_lt e.2 (hValid.missing_mem e he)
  constructor
  · rw [← h.table, hMissing]
    apply List.map_congr_left
    intro e he
    rw [hGrows.node_field Node.token (hLt e he)]
  · have hNone : (added.filter fun n => (next.graph.node n).isMissing) = [] :=
      List.filter_eq_nil_iff.mpr fun n hn => by simp [hAdded n hn]
    rw [hNodes, hMissing, List.filter_append, hNone, List.append_nil, ← h.nodes_eq]
    apply List.filter_congr
    intro n hn
    rw [hGrows.node_field Node.isMissing (hValid.node_lt n hn)]
  · rw [hMissing, hGroup]
    intro e he
    rw [hGrows.node_field Node.isConstructor (hLt e he), hGrows.node_field Node.parent (hLt e he)]
    exact h.placed e he

/-- The placeholder for a call is the one for calls that read like it. -/
theorem Lacks.missingTarget (h : state.Lacks calls) (hValid : state.Valid [] pending)
    (call : Call) :
    (state.missingTarget call).1.Lacks (calls ++ [call]) ∧
      (state.missingTarget call).1.Replaces call (state.missingTarget call).2 := by
  have hTexts : (lacking calls).map Prod.fst = state.missing.map Prod.fst := by
    rw [← h.table, List.map_map]
    rfl
  unfold Linking.missingTarget
  split
  · rename_i n hn
    have hMem := mem_of_lookup hn
    refine ⟨⟨?_, h.nodes_eq, h.placed⟩, ?_, hMem⟩
    · rw [lacking_append_singleton, lack, hTexts, if_pos (List.mem_map_of_mem hMem)]
      exact h.table
    · have hFilter : n ∈ state.nodes.filter fun n => (state.graph.node n).isMissing := by
        rw [h.nodes_eq]
        exact List.mem_map_of_mem hMem
      exact (List.mem_filter.mp hFilter).2
  · rename_i hNone
    have hText : call.text ∉ state.missing.map Prod.fst := by
      intro hMem
      obtain ⟨e, he, hText⟩ := List.mem_map.mp hMem
      have hOther := List.lookup_eq_none_iff.mp hNone e he
      simp [hText] at hOther
    have hNew := state.graph.node_insertNode_new (placeholder state.missingGroup call.token)
    -- Without its new entry the state would keep the placeholders it has.
    have hKept : Lacks { state with
        graph := (state.graph.insertNode (placeholder state.missingGroup call.token)).1 } calls :=
      h.keep hValid (grows_insertNode (hValid.insertable_placeholder call.token)) rfl rfl
        (List.append_nil _).symm (by simp)
    dsimp only
    rw [index_insertNode]
    have hMissing : ((state.graph.insertNode (placeholder state.missingGroup
        call.token)).1.node ⟨state.graph.nodes.size⟩).isMissing = true := by
      rw [hNew]
      rfl
    refine ⟨⟨?_, ?_, ?_⟩, hMissing, List.mem_append_right _ List.mem_cons_self⟩
    · rw [List.map_append, hKept.table, lacking_append_singleton, lack, hTexts, if_neg hText,
        List.map_singleton, hNew]
      rfl
    · rw [List.filter_append, List.map_append, hKept.nodes_eq, List.filter_singleton, hMissing]
      rfl
    · rw [List.forall_mem_append]
      refine ⟨hKept.placed, fun e he => ?_⟩
      rw [List.mem_singleton.mp he, hNew]
      exact ⟨rfl, rfl⟩

/-! ## Calls that every program can make -/

/-- The node for a call that every program can make is in the table of libraries. -/
theorem entered_builtinTarget (state : Linking) (call : Call) :
    (state.builtinTarget call).1.missing = state.missing ∧
      (Dotted.join [builtinModule, call.token], (state.builtinTarget call).2) ∈
        (state.builtinTarget call).1.libraries.nodes ∧
      ∃ added, (state.builtinTarget call).1.nodes = state.nodes ++ added ∧
        ∀ n ∈ added, n = (state.builtinTarget call).2 := by
  unfold builtinTarget
  dsimp only
  split
  · rename_i n hn
    exact ⟨rfl, mem_of_lookup hn, [], by simp, by simp⟩
  · exact ⟨rfl, List.mem_append_right _ List.mem_cons_self, [_], rfl, by simp⟩

theorem libraries_hangBuiltins (state : Linking) :
    state.hangBuiltins.missing = state.missing ∧ state.hangBuiltins.nodes = state.nodes ∧
      state.hangBuiltins.libraries = state.libraries := by
  unfold hangBuiltins
  split
  · exact ⟨rfl, rfl, rfl⟩
  · split
    · exact ⟨rfl, rfl, rfl⟩
    · split <;> exact ⟨rfl, rfl, rfl⟩

/-- A library node of the table stands in a package. -/
theorem Valid.housed (h : state.Valid extra pending) {e : String × NodeId}
    (he : e ∈ state.libraries.nodes) :
    state.graph.Housed e.2 ∧ (state.graph.node e.2).isMissing = false := by
  obtain ⟨hConstructor, p, hp, hParent⟩ := h.stocked.node_housed e he
  refine ⟨⟨hConstructor, p.2, hParent, h.sound.library_kind (h.stocked.package_library p hp)⟩, ?_⟩
  rw [← Bool.not_eq_true]
  intro hMissing
  have hLt := h.lt_of_listed (h.stocked.node_listed e he)
  have hNot := ((h.sound.regular e.2 hLt).missing_bodiless hMissing).2
  rw [h.stocked.node_library e he] at hNot
  exact absurd hNot (by simp)

/-- Where a call goes that was not resolved. -/
theorem Lacks.fallback (h : state.Lacks calls) (hValid : state.Valid [] pending)
    (hFiles : state.files ≠ []) (call : Call) :
    (state.fallback call).1.Lacks (calls ++ if call.isFree then [] else [call]) ∧
      (call.isFree = false → (state.fallback call).1.Replaces call (state.fallback call).2) ∧
      (call.isFree = true → (state.fallback call).1.Shelves call (state.fallback call).2) := by
  obtain ⟨hNext, _, hProgress⟩ := hValid.fallback hFiles call
  unfold Call.isFree
  by_cases hFree : (call.owner.isNone && isBuiltin call.token) = true
  · have hEq : state.fallback call =
        (hangBuiltins (state.builtinTarget call).1, (state.builtinTarget call).2) := by
      unfold Linking.fallback
      rw [if_pos hFree]
    obtain ⟨hMissing, hEntered, added, hNodes, hAdded⟩ :=
      state.entered_builtinTarget call
    obtain ⟨hMissing', hNodes', hLibraries⟩ := (state.builtinTarget call).1.libraries_hangBuiltins
    rw [hEq] at hNext hProgress ⊢
    rw [← hLibraries] at hEntered
    have hHoused := hNext.housed hEntered
    rw [if_pos hFree, List.append_nil]
    refine ⟨h.keep hValid hProgress.grows (hMissing'.trans hMissing) hProgress.missingGroup_eq
      (hNodes'.trans hNodes) fun n hn => ?_, fun hNot => ?_, fun _ => ⟨hHoused.1, hEntered⟩⟩
    · rw [hAdded n hn]
      exact hHoused.2
    · rw [hFree] at hNot
      exact absurd hNot (by simp)
  · have hEq : state.fallback call = state.missingTarget call := by
      unfold Linking.fallback
      rw [if_neg hFree]
    obtain ⟨hLacks, hReplaces⟩ := h.missingTarget hValid call
    rw [if_neg hFree, hEq]
    exact ⟨hLacks, fun _ => hReplaces, fun hSome => absurd hSome hFree⟩

/-- A placeholder is made as the target of a link. -/
theorem missing_targetOf (state : Linking) (link : Link) :
    ∀ e ∈ (state.targetOf link).1.missing,
      e ∈ state.missing ∨ e.2 = (state.targetOf link).2 := by
  unfold targetOf
  split
  · exact fun e he => Or.inl he
  · unfold fallback
    split
    · rw [(state.builtinTarget link.call).1.libraries_hangBuiltins.1,
        (state.entered_builtinTarget link.call).1]
      exact fun e he => Or.inl he
    · unfold missingTarget
      split
      · exact fun e he => Or.inl he
      · intro e he
        rcases List.mem_append.mp he with hOld | hNew
        · exact Or.inl hOld
        · rw [List.mem_singleton.mp hNew]
          exact Or.inr rfl

/-! ## Drawing edges -/

/-- The calls of some links that need a placeholder. -/
def missedLinks (links : List Link) : List Call :=
  (links.filter Link.isMissed).map Link.call

/-- The link of an edge that can be drawn leads to something known. -/
theorem not_marker_of_connect {link : Link} (h : state.connect options caller link = .ok next)
    (name : String) : link.outcome ≠ .marker name := by
  intro hMarker
  unfold connect at h
  rw [hMarker] at h
  exact absurd h (by simp)

theorem missing_note (state : Linking) (link : Link) :
    (state.note link).missing = state.missing := by
  unfold note
  split <;> rfl

theorem Lacks.note (h : state.Lacks calls) (link : Link) : (state.note link).Lacks calls := by
  unfold Linking.note
  split
  · exact { h with }
  · exact h

/-- A link without a target gets a placeholder if it needs one. -/
theorem Lacks.targetOf (h : state.Lacks calls) (hValid : state.Valid [] pending)
    (hFiles : state.files ≠ []) (link : Link) :
    (state.targetOf link).1.Lacks (calls ++ missedLinks [link]) ∧
      link.Lands (state.targetOf link).1 (state.targetOf link).2 := by
  unfold Linking.targetOf
  cases hLink : link.target with
  | some n =>
      have hNone : missedLinks [link] = [] := by simp [missedLinks, Link.isMissed, hLink]
      rw [hNone, List.append_nil]
      refine ⟨h, fun hMissed => ?_, fun hNone => ?_⟩
      · simp [Link.isMissed, hLink] at hMissed
      · rw [hLink] at hNone
        exact absurd hNone (by simp)
  | none =>
      have hMissed : missedLinks [link] = if link.call.isFree then [] else [link.call] := by
        cases hFree : link.call.isFree <;> simp [missedLinks, Link.isMissed, hLink, hFree]
      obtain ⟨hLacks, hReplaces, hShelves⟩ := h.fallback hValid hFiles link.call
      rw [hMissed]
      refine ⟨hLacks, fun hMissed => hReplaces ?_, fun _ => hShelves⟩
      simpa [Link.isMissed, hLink] using hMissed

theorem connect_landed {link : Link} (hValid : state.Valid [] (link :: pending))
    (hFiles : state.files ≠ []) (h : state.Lacks calls)
    (hConnect : state.connect options caller link = .ok next) :
    next.Lacks (calls ++ missedLinks [link]) ∧
      ∃ edge, next.edges = state.edges ++ [edge] ∧ link.Lands next edge.target ∧
        ∀ e ∈ next.missing, e ∈ state.missing ∨ edge.target = e.2 := by
  obtain ⟨hNoted, hNote⟩ := hValid.note link
  obtain ⟨hFound, hFind, hListed, _⟩ := hNoted.targetOf (hNote.files_ne hFiles)
  obtain ⟨hLacks, hLands⟩ := (h.note link).targetOf hNoted (hNote.files_ne hFiles) link
  unfold connect at hConnect
  split at hConnect
  · exact absurd hConnect (by simp)
  · cases hConnect
    refine ⟨hLacks.keep hFound (grows_markEdge _) rfl rfl (List.append_nil _).symm (by simp), _,
      congrArg (· ++ [_]) (hFind.edges_eq.trans ?_),
      hLands.progress hFound.sound hListed (progress_draw _ _), fun e he => ?_⟩
    · rw [hNote.edges_eq, List.append_nil, List.append_nil]
    · rw [← state.missing_note link]
      exact (missing_targetOf _ link e he).imp_right Eq.symm

theorem connectAll_landed {links : List Link} (hDrawable : state.Drawable caller links)
    (h : state.Lacks calls) (hConnect : state.connectAll options caller links = .ok next) :
    next.Lacks (calls ++ missedLinks links) ∧ (∀ link ∈ links, ∀ name,
      link.outcome ≠ .marker name) ∧ ∃ drawn, next.edges = state.edges ++ drawn ∧
        List.Forall₂ (fun link (edge : Edge) => link.Lands next edge.target) links drawn ∧
        ∀ e ∈ next.missing, e ∈ state.missing ∨ ∃ edge ∈ drawn, edge.target = e.2 := by
  induction links generalizing state calls with
  | nil =>
      cases hConnect
      exact ⟨by simpa [missedLinks] using h, by simp, [], by simp, .nil, fun e he => Or.inl he⟩
  | cons link rest ih =>
      obtain ⟨middle, hFirst, hRest⟩ := exists_of_bind_eq_ok hConnect
      obtain ⟨hMiddle, _⟩ := connect_spec hDrawable hFirst
      obtain ⟨hLacks, edge, hEdges, hLands, hCalled⟩ :=
        connect_landed hDrawable.valid hDrawable.files_ne h hFirst
      obtain ⟨hNextLacks, hMarkers, drawn, hEdges', hForall, hCalled'⟩ := ih hMiddle hLacks hRest
      obtain ⟨_, drawn', hProgress⟩ := connectAll_spec hMiddle hRest
      have hListed : middle.graph.Listed edge.target :=
        hMiddle.valid.target_listed edge (by rw [hEdges]; simp)
      refine ⟨?_,
        List.forall_mem_cons.mpr ⟨fun name => not_marker_of_connect hFirst name, hMarkers⟩,
        edge :: drawn, by simp [hEdges', hEdges],
        .cons (hLands.progress hMiddle.valid.sound hListed hProgress.toProgress) hForall,
        fun e he => ?_⟩
      · rw [List.append_assoc] at hNextLacks
        unfold missedLinks at hNextLacks ⊢
        rwa [← List.map_append, ← List.filter_append, List.singleton_append] at hNextLacks
      · rcases hCalled' e he with hOld | ⟨edge', hEdge', hTarget⟩
        · exact (hCalled e hOld).imp_right fun hTarget => ⟨edge, List.mem_cons_self, hTarget⟩
        · exact Or.inr ⟨edge', List.mem_cons_of_mem _ hEdge', hTarget⟩

/-! ## Nodes made up -/

/-- A node made up is put in as the answer says. -/
theorem bears_insertNode {graph : Graph} {node : Node} {p : GroupId}
    (h : graph.Invention p node) :
    (graph.insertNode node).1.Bears ⟨graph.nodes.size⟩ node := by
  refine ⟨?_, ?_, ?_⟩ <;> rw [node_insertNode_new]
  exact h.invented

/-- The nodes that the answers make up, and no others, come into the graph. -/
theorem makes_of_resolveCalls {heuristics : Bool} {graph after : Graph} {candidates : List NodeId}
    {links : List Link} (hSound : graph.Sound) (hCaller : graph.Listed caller)
    (hCandidates : ∀ n ∈ candidates, graph.Listed n)
    (h : resolveCalls heuristics caller graph candidates calls = .ok (after, links)) :
    List.Forall₂ (fun (query : Query) link => ∀ node via,
        query.resolve = .ok (.create node via) → ∃ n, link.target = some n ∧ after.Bears n node)
      (asked heuristics caller graph candidates calls) links ∧
    ∀ n, after.Listed n → graph.Listed n ∨
      ∃ query ∈ asked heuristics caller graph candidates calls, ∃ node via,
        query.resolve = .ok (.create node via) ∧ after.Bears n node := by
  induction calls generalizing graph candidates links with
  | nil =>
      cases h
      exact ⟨.nil, fun n hn => Or.inl hn⟩
  | cons call rest ih =>
      obtain ⟨outcome, others, hOutcome, hOthers, rfl, hAsked⟩ := exists_of_resolveCalls_cons h
      have hPosed : Query.Posed ⟨graph, heuristics, caller, candidates, call⟩ :=
        ⟨hSound, hCaller, hCandidates⟩
      have hFits := Query.resolve_fits hPosed hOutcome
      obtain ⟨hNext, _, _⟩ := hPosed.next hFits call
      obtain ⟨hMade, hListed⟩ := ih hNext.sound hNext.caller hNext.candidates hOthers
      obtain ⟨new, hResolved⟩ := resolveCalls_spec hNext.sound hNext.caller hNext.candidates hOthers
      have hGrows := hResolved.invents.grows hNext.sound
      rw [hAsked]
      refine ⟨.cons ?_ hMade, fun n hn => ?_⟩
      · intro node via hCreate
        rw [hOutcome] at hCreate
        cases hCreate
        obtain ⟨p, hp⟩ := hFits.invention hSound
        exact ⟨_, rfl, by
          rw [index_insertNode]
          exact (bears_insertNode hp).grows (by simp) hGrows⟩
      · rcases hListed n hn with hOld | ⟨query, hQuery, hCreate⟩
        · cases outcome with
          | create node via =>
              obtain ⟨p, hp⟩ := hFits.invention hSound
              rcases (listed_insertNode hp.parent hp.lt).mp hOld with hOld | rfl
              · exact Or.inl hOld
              · exact Or.inr ⟨_, List.mem_cons_self, node, via, hOutcome,
                  (bears_insertNode hp).grows (by simp) hGrows⟩
          | _ => exact Or.inl hOld
        · exact Or.inr ⟨query, List.mem_cons_of_mem _ hQuery, hCreate⟩

/-! ## All nodes -/

/-- What linking some nodes does about calls that are not resolved to a node there was; `calls` are
those that needed a placeholder before. -/
structure Landed (state : Linking) (calls : List Call) (asked : List Query) (next : Linking) :
    Prop where
  lacks : next.Lacks (calls ++ missedCalls asked)
  edges : ∃ drawn, next.edges = state.edges ++ drawn ∧
    List.Forall₂ (fun query (edge : Edge) => query.Lands next edge.target) asked drawn
  /-- Every placeholder is where some call goes. -/
  called : ∀ e ∈ next.missing, e ∈ state.missing ∨ ∃ edge ∈ next.edges, edge.target = e.2
  made : ∀ n, next.graph.Listed n → (next.graph.node n).isInvented = true →
    state.graph.Listed n ∨ ∃ query ∈ asked, ∃ node via,
      query.resolve = .ok (.create node via) ∧ next.graph.Bears n node

/-- Questions land where their links do. -/
theorem lands_of_answers {asked : List Query} {links : List Link} {drawn : List Edge}
    {before : Graph} (hSound : before.Sound)
    (hListed : ∀ link ∈ links, ∀ n, link.target = some n → before.Listed n)
    (hGrows : before.Grows next.graph)
    (hMarkers : ∀ link ∈ links, ∀ name, link.outcome ≠ .marker name)
    (hAnswers : List.Forall₂ Query.Answers asked links)
    (hMade : List.Forall₂ (fun (query : Query) link => ∀ node via,
      query.resolve = .ok (.create node via) → ∃ n, link.target = some n ∧ before.Bears n node)
      asked links)
    (hTargets : List.Forall₂ (fun link (edge : Edge) => edge.source = caller ∧
      ∀ n, link.target = some n → edge.target = n) links drawn)
    (hLands : List.Forall₂ (fun link (edge : Edge) => link.Lands next edge.target) links drawn) :
    List.Forall₂ (fun query (edge : Edge) => query.Lands next edge.target) asked drawn ∧
      missedLinks links = missedCalls asked := by
  induction hAnswers generalizing drawn with
  | nil =>
      cases hTargets
      exact ⟨.nil, rfl⟩
  | @cons query link others rest hFirst _ ih =>
      cases hTargets with
      | cons hTarget hTargets =>
          cases hLands with
          | cons hLand hLands =>
              cases hMade with
              | cons hMake hMade =>
                  obtain ⟨hMarker, hMarkers⟩ := List.forall_mem_cons.mp hMarkers
                  obtain ⟨hLink, hListed⟩ := List.forall_mem_cons.mp hListed
                  obtain ⟨hRest, hCalls⟩ := ih hListed hMarkers hMade hTargets hLands
                  have hOpen := hFirst.isOpen_eq hMarker
                  have hMissed := hFirst.isMissed_eq hMarker
                  refine ⟨.cons ⟨fun h => ?_, fun h hFree => ?_, fun node via hCreate => ?_⟩
                    hRest, ?_⟩
                  · rw [← hFirst.call_eq]
                    exact hLand.missed (hMissed ▸ h)
                  · rw [hOpen, Option.isNone_iff_eq_none] at h
                    rw [← hFirst.call_eq] at hFree ⊢
                    exact hLand.free h hFree
                  · obtain ⟨n, hn, hBears⟩ := hMake node via hCreate
                    rw [hTarget.2 n hn]
                    exact hBears.grows (hSound.lt_of_listed (hLink n hn)) hGrows
                  · unfold missedLinks missedCalls at hCalls ⊢
                    rw [List.filter_cons, List.filter_cons, hMissed]
                    split
                    · rw [List.map_cons, List.map_cons, hCalls, hFirst.call_eq]
                    · exact hCalls

theorem link_landed {imports callers : List NodeId}
    (hReady : state.Linkable imports (caller :: callers)) (h : state.Lacks calls)
    (hLink : state.link options imports caller = .ok next) :
    Landed state calls (asked options.heuristics caller state.graph (state.candidates imports)
      (state.graph.node caller).calls) next := by
  obtain ⟨⟨after, links⟩, hResolve, hConnect⟩ := exists_of_bind_eq_ok hLink
  have hValid := hReady.valid
  obtain ⟨new, hResolved, hDrawable⟩ := hReady.resolved hResolve
  obtain ⟨hMade, hNew⟩ :=
    makes_of_resolveCalls hValid.sound hReady.caller_listed hReady.candidates_listed hResolve
  have hGrows := hResolved.invents.grows hValid.sound
  have hPending := hDrawable.valid
  obtain ⟨hNext, drawn', hDrawn⟩ := connectAll_spec hDrawable hConnect
  have hLacks : Lacks { state with graph := after } calls :=
    h.keep hValid hGrows rfl rfl (List.append_nil _).symm (by simp)
  obtain ⟨hNextLacks, hMarkers, drawn, hEdges, hLands, hCalled⟩ :=
    connectAll_landed hDrawable hLacks hConnect
  obtain ⟨also, hAlso, hTargets, _⟩ := connectAll_leads hConnect
  obtain rfl : also = drawn := List.append_cancel_left (hAlso.symm.trans hEdges)
  obtain ⟨hQueries, hCalls⟩ := lands_of_answers hPending.sound hResolved.listed hDrawn.grows
    hMarkers (answers_of_resolveCalls hResolve).1 hMade hTargets hLands
  refine ⟨hCalls ▸ hNextLacks, ⟨also, hEdges, hQueries⟩, fun e he => ?_, fun n hn hInvented => ?_⟩
  · rcases hCalled e he with hOld | ⟨edge, hEdge, hTarget⟩
    · exact Or.inl hOld
    · refine Or.inr ⟨edge, ?_, hTarget⟩
      rw [hEdges]
      exact List.mem_append_right _ hEdge
  · have hThere := hDrawn.listed_of_invented hValid hResolved hNext hn hInvented
    rcases hNew n hThere with hOld | ⟨query, hQuery, node, via, hCreate, hBears⟩
    · exact Or.inl hOld
    · exact Or.inr ⟨query, hQuery, node, via, hCreate,
        hBears.grows (hPending.lt_of_listed hThere) hDrawn.grows⟩

/-- What linking some nodes and then others does about such calls. -/
theorem Landed.trans {middle : Linking} {first last : List Query} {drawn : List Edge}
    (hFirst : Landed state calls first middle)
    (hLast : Landed middle (calls ++ missedCalls first) last next) (hMiddle : middle.Valid [] [])
    (hProgress : Progress middle next drawn) : Landed state calls (first ++ last) next where
  lacks := by
    rw [missedCalls_append, ← List.append_assoc]
    exact hLast.lacks
  edges := by
    obtain ⟨drawn, hEdges, hLands⟩ := hFirst.edges
    obtain ⟨drawn', hEdges', hLands'⟩ := hLast.edges
    refine ⟨drawn ++ drawn', by rw [hEdges', hEdges, List.append_assoc],
      List.rel_append ?_ hLands'⟩
    -- The nodes where the first edges end are there, and keep what matters.
    have hThere : ∀ edge ∈ drawn, middle.graph.Listed edge.target := fun edge hEdge =>
      hMiddle.target_listed edge (by rw [hEdges]; exact List.mem_append_right _ hEdge)
    obtain ⟨hLength, hPairs⟩ := List.forall₂_iff_zip.mp hLands
    exact List.forall₂_iff_zip.mpr ⟨hLength, fun hPair => (hPairs hPair).progress hMiddle.sound
      (hThere _ (List.of_mem_zip hPair).2) hProgress⟩
  called e he := by
    rcases hLast.called e he with hOld | hNew
    · rcases hFirst.called e hOld with hOlder | ⟨edge, hEdge, hTarget⟩
      · exact Or.inl hOlder
      · refine Or.inr ⟨edge, ?_, hTarget⟩
        rw [hProgress.edges_eq]
        exact List.mem_append_left _ hEdge
    · exact Or.inr hNew
  made n hn hInvented := by
    rcases hLast.made n hn hInvented with hOld | ⟨query, hQuery, hCreate⟩
    · have hLt := hMiddle.lt_of_listed hOld
      rw [hProgress.grows.node_field Node.isInvented hLt] at hInvented
      rcases hFirst.made n hOld hInvented with
        hOlder | ⟨query, hQuery, node, via, hCreate, hBears⟩
      · exact Or.inl hOlder
      · exact Or.inr ⟨query, List.mem_append_left _ hQuery, node, via, hCreate,
          hBears.grows hLt hProgress.grows⟩
    · exact Or.inr ⟨query, List.mem_append_right _ hQuery, hCreate⟩

/-- Placeholders, nodes made up and the ends of the edges when several nodes are linked. -/
theorem linkAll_landed {imports callers : List NodeId} (hReady : state.Linkable imports callers)
    (h : state.Lacks calls) (hLink : state.linkAll options imports callers = .ok next) :
    Landed state calls (askedAll options imports state callers) next := by
  induction callers generalizing state calls with
  | nil =>
      cases hLink
      exact ⟨by simpa [askedAll, missedCalls] using h, ⟨[], by simp, .nil⟩,
        fun e he => Or.inl he, fun n hn _ => Or.inl hn⟩
  | cons caller rest ih =>
      obtain ⟨middle, hFirst, hRest⟩ := exists_of_bind_eq_ok hLink
      have hMiddle := hReady.rest hFirst
      have hLanded := link_landed hReady h hFirst
      have hOthers := ih hMiddle hLanded.lacks hRest
      obtain ⟨_, hProgress, _⟩ := (linkAll_spec hMiddle hRest).progress
      rw [askedAll, hFirst]
      exact hLanded.trans hOthers hMiddle.valid hProgress

end Linking

namespace CallMap

variable {files : FileSystem} {options : Options} {sources : List String}
variable {read : List FileOutline} {prepared : Prepared} {linked : Linking}

theorem Prepares.missing_start {ns : List NodeId} {settled : Graph}
    (h : Prepares options read ns settled prepared) : prepared.start.missing = [] := by
  rw [h.start_eq]
  rfl

/-- There are no placeholders at the start. -/
theorem Prepares.lacks_start {ns : List NodeId} {settled : Graph}
    (h : Prepares options read ns settled prepared) : prepared.start.Lacks [] := by
  obtain ⟨others, hLined⟩ := h.lined
  have hNil := h.missing_start
  refine ⟨by rw [hNil]; rfl, ?_, by simp [hNil]⟩
  rw [hNil, List.map_nil, List.filter_eq_nil_iff]
  intro n hn
  simp [hLined.present n hn]

/-- Placeholders, nodes made up and the ends of the edges of a run. -/
theorem Run.landed (h : Run files options sources read prepared linked) :
    Linking.Landed prepared.start [] (prepared.asked options) linked := by
  obtain ⟨ns, settled, hPrepares⟩ := exists_of_prepare h.prepares
  exact Linking.linkAll_landed (hPrepares.linkable List.prefix_rfl) hPrepares.lacks_start
    h.finishes

/-- The questions of a run and the edges, side by side: an edge starts where its question comes from
and goes where the answer says. -/
theorem Run.drawn (h : Run files options sources read prepared linked) :
    List.Forall₂ (fun query edge => query.Leads edge ∧ query.Lands linked edge.target)
      (prepared.asked options) linked.edges := by
  obtain ⟨_, _, _, hStarted, _, _⟩ := started_of_prepare h.prepares
  obtain ⟨drawn, hEdges, hLeads⟩ := h.led.edges
  obtain ⟨also, hAlso, hLands⟩ := h.landed.edges
  obtain rfl : drawn = also := List.append_cancel_left (hEdges.symm.trans hAlso)
  rw [hStarted.edges_nil, List.nil_append] at hEdges
  rw [hEdges]
  exact List.Forall₂.mp (fun _ _ => And.intro) hLeads hLands

/-- A question of a run has its edge at the same place. -/
theorem Run.exists_edge_at (h : Run files options sources read prepared linked)
    {first rest : List Query} {query : Query}
    (hAsked : prepared.asked options = first ++ query :: rest) :
    ∃ edge, linked.edges[first.length]? = some edge ∧ query.Leads edge ∧
      query.Lands linked edge.target := by
  obtain ⟨hLength, hDrawn⟩ := List.forall₂_iff_get.mp (hAsked ▸ h.drawn)
  have hLt : first.length < (first ++ query :: rest).length := by simp
  have hLt' : first.length < linked.edges.length := hLength ▸ hLt
  have hQuery : (first ++ query :: rest).get ⟨first.length, hLt⟩ = query := by simp
  have hEdge := hDrawn first.length hLt hLt'
  rw [hQuery] at hEdge
  exact ⟨linked.edges.get ⟨first.length, hLt'⟩, by simp [hLt'], hEdge⟩

/--
There is one edge for each call of the nodes there are when linking starts, in order. Each call is
asked about once, after everything that was there at the start, and its edge starts at the node that
makes the call and goes to the node that the answer names; to one made as the answer says; or, if
there is none, to the library node or the placeholder that the tables have for this call. All edges
stay unless libraries are hidden; then those stay that touch no library. The marks of a node say
whether it calls anything, and whether any of the edges leads to it.
-/
theorem edges_of_build {language : Value} {chart : Chart}
    (h : (build files options language sources).result = .ok chart) :
    ∃ read prepared linked, Run files options sources read prepared linked ∧
      chart = cut options (chartOf linked.withMissing) ∧
      linked.edges.map Edge.source =
        (Linking.ownedCalls prepared.start.graph prepared.start.nodes).map Prod.fst ∧
      (prepared.asked options).map (fun query => (query.caller, query.call)) =
        Linking.ownedCalls prepared.start.graph prepared.start.nodes ∧
      (∀ query ∈ prepared.asked options, query.After prepared.start options.heuristics) ∧
      List.Forall₂ (fun query edge => query.Leads edge ∧ query.Lands linked edge.target)
        (prepared.asked options) linked.edges ∧
      (options.noTrimming = true ∨ options.showLibraries = true → chart.edges = linked.edges) ∧
      (options.noTrimming = false → options.showLibraries = false →
        chart.edges = linked.edges.filter fun edge =>
          !(linked.graph.node edge.source).isLibrary &&
            !(linked.graph.node edge.target).isLibrary) ∧
      ∀ n, n ∈ chart.nodes ∨ n ∈ chart.graph.nodesOf chart.files →
        ((chart.graph.node n).isLeaf = true ↔ (chart.graph.node n).calls = []) ∧
          ((chart.graph.node n).isTrunk = true ↔ ∀ edge ∈ linked.edges, edge.target ≠ n) := by
  obtain ⟨read, prepared, linked, hRun, rfl⟩ := exists_run_of_build h
  have hComplete := hRun.complete
  have hGraph : (chartOf linked.withMissing).graph = linked.graph := linked.graph_withMissing
  have hShrinks := shrinks_cut hComplete options
  rw [hGraph] at hShrinks
  have hEdges := edges_cut hComplete options
  rw [hGraph, show (chartOf linked.withMissing).edges = linked.edges from
    linked.edges_withMissing] at hEdges
  refine ⟨read, prepared, linked, hRun, rfl, hRun.sources_edges, hRun.led.calls, hRun.led.after,
    hRun.drawn, fun hAll => ?_, fun hTrim hHide => ?_, fun n hn => ?_⟩
  · rw [if_pos hAll] at hEdges
    exact hEdges
  · rw [hTrim, hHide, if_neg (by simp)] at hEdges
    exact hEdges
  · have hListed := hn.elim ((consistent_cut hComplete options).nodes_listed n)
      listed_of_mem_nodesOf
    have hMarks := hRun.marks (hShrinks.listed hListed)
    rw [← hShrinks.node_eq] at hMarks
    exact hMarks

/-- Of the four calls of the sample, the first goes to a library node, the second to a node made for
it, the third to a function, and the last to a placeholder. -/
theorem edges_of_build_sample :
    ∃ chart read prepared linked,
      (build sampleFiles {} (.text "py") ["a.py"]).result = .ok chart ∧
      Run sampleFiles {} ["a.py"] read prepared linked ∧
      chart.edges.length = 3 ∧
      linked.edges.map Edge.source =
        (Linking.ownedCalls prepared.start.graph prepared.start.nodes).map Prod.fst ∧
      (prepared.asked {}).map (fun query => (query.caller, query.call)) =
        Linking.ownedCalls prepared.start.graph prepared.start.nodes ∧
      List.Forall₂ (fun query edge => query.Leads edge ∧ query.Lands linked edge.target)
        (prepared.asked {}) linked.edges ∧
      ((prepared.asked {}).zip linked.edges).map (fun drawn =>
          (drawn.1.call.token, (linked.graph.node drawn.2.target).token)) =
        [("getcwd", "getcwd"), ("Shape", "__init__"), ("report", "report"),
          ("absent", "absent")] ∧
      chart.edges = linked.edges.filter fun edge =>
        !(linked.graph.node edge.source).isLibrary &&
          !(linked.graph.node edge.target).isLibrary := by
  obtain ⟨chart, hChart, hLength⟩ := exists_ok_of_any
    (show (build sampleFiles {} (.text "py") ["a.py"]).result.toOption.any
      (fun chart => chart.edges.length == 3) = true by decide +kernel)
  obtain ⟨read, prepared, linked, hRun, _, hSources, hCalls, _, hDrawn, _, hHidden, _⟩ :=
    edges_of_build hChart
  have hPairs := hRun.test_of_passes
    (show passes sampleFiles {} ["a.py"] (fun _ prepared linked =>
      ((prepared.asked {}).zip linked.edges).map (fun drawn =>
          (drawn.1.call.token, (linked.graph.node drawn.2.target).token)) ==
        [("getcwd", "getcwd"), ("Shape", "__init__"), ("report", "report"),
          ("absent", "absent")]) = true by decide +kernel)
  exact ⟨chart, read, prepared, linked, hChart, hRun, by simpa using hLength, hSources, hCalls,
    hDrawn, eq_of_beq hPairs, hHidden rfl rfl⟩

end CallMap

end CallGraph
