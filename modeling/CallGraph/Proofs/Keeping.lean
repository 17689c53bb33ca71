import CallGraph.Proofs.Landing

/-!
# What linking keeps

Linking takes steps of four kinds: it resolves the calls of a node, notes a call that several nodes
answer, finds a target for a call that was not resolved, and draws an edge. A property of states that
each of them keeps holds of every state linking comes to (`Linking.Kept.linkAll`), so the induction
over a run is made once.

The first use is about constructors. A class that is asked for its constructor and spells out none
gets one, at two places of the resolution; both ask the class first. So a constructor that is not
spelled out is the only one of its class, however many calls ask for it.

## Main definitions

* `Linking.Kept` — a property of states that no step of linking breaks.
* `Graph.OneConstructor` — a constructor that a class does not spell out is its only one.

## Main results

* `Linking.Kept.linkAll` — what the steps keep, a run keeps.
* `Linking.kept_oneConstructor` — no step gives a class a second constructor.
-/

namespace CallGraph

open CallGraph.Graph

/-! ## What linking keeps -/

namespace Linking

variable {options : LinkOptions} {state next : Linking} {caller : NodeId}
variable {extra : List GroupId} {pending : List Link}

/-- A property of states that no step of linking breaks. -/
structure Kept (holds : Linking → Prop) : Prop where
  /-- The calls of a node are resolved, which may make up nodes. -/
  resolved : ∀ {state : Linking} {new : List NodeId} {after : Graph}, state.Valid [] [] →
    state.graph.Invents new after → holds state → holds { state with graph := after }
  noted : ∀ {state : Linking} (link : Link), holds state → holds (state.note link)
  /-- A call that was not resolved gets a target. -/
  found : ∀ {state : Linking} {pending : List Link} (call : Call), state.Valid [] pending →
    state.files ≠ [] → holds state → holds (state.fallback call).1
  drawn : ∀ {state : Linking} {pending : List Link} (edge : Edge), state.Valid [] pending →
    holds state → holds (state.draw edge)

namespace Kept

variable {holds : Linking → Prop}

theorem connect (hKept : Kept holds) {link : Link} (hValid : state.Valid [] (link :: pending))
    (hFiles : state.files ≠ []) (h : holds state)
    (hConnect : state.connect options caller link = .ok next) : holds next := by
  obtain ⟨hNoted, hNote⟩ := hValid.note link
  have hFiles := hNote.files_ne hFiles
  obtain ⟨hFound, _⟩ := hNoted.targetOf hFiles
  have hTarget : holds ((state.note link).targetOf link).1 := by
    have hHolds := hKept.noted link h
    unfold targetOf
    split
    · exact hHolds
    · exact hKept.found link.call hNoted hFiles hHolds
  unfold Linking.connect at hConnect
  split at hConnect
  · exact absurd hConnect (by simp)
  · cases hConnect
    exact hKept.drawn _ hFound hTarget

theorem connectAll (hKept : Kept holds) {links : List Link}
    (hDrawable : state.Drawable caller links) (h : holds state)
    (hConnect : state.connectAll options caller links = .ok next) : holds next := by
  induction links generalizing state with
  | nil =>
      cases hConnect
      exact h
  | cons link rest ih =>
      obtain ⟨middle, hFirst, hRest⟩ := exists_of_bind_eq_ok hConnect
      exact ih (connect_spec hDrawable hFirst).1
        (hKept.connect hDrawable.valid hDrawable.files_ne h hFirst) hRest

theorem link (hKept : Kept holds) {imports callers : List NodeId}
    (hReady : state.Linkable imports (caller :: callers)) (h : holds state)
    (hLink : state.link options imports caller = .ok next) : holds next := by
  obtain ⟨⟨after, links⟩, hResolve, hConnect⟩ := exists_of_bind_eq_ok hLink
  obtain ⟨new, hResolved, hDrawable⟩ := hReady.resolved hResolve
  exact hKept.connectAll hDrawable (hKept.resolved hReady.valid hResolved.invents h) hConnect

/-- What the steps keep, a run keeps. -/
theorem linkAll (hKept : Kept holds) {imports callers : List NodeId}
    (hReady : state.Linkable imports callers) (h : holds state)
    (hLink : state.linkAll options imports callers = .ok next) : holds next := by
  induction callers generalizing state with
  | nil =>
      cases hLink
      exact h
  | cons caller rest ih =>
      obtain ⟨middle, hFirst, hRest⟩ := exists_of_bind_eq_ok hLink
      exact ih (hReady.rest hFirst) (hKept.link hReady h hFirst) hRest

end Kept

/-- A node that is listed after a step without an edge was listed before, or is new in the state. -/
theorem Valid.listed_of_progress (h : state.Valid extra pending) {extra' : List GroupId}
    (hNext : next.Valid extra' pending) (hProgress : Progress state next []) {added : List NodeId}
    (hNodes : next.nodes = state.nodes ++ added) {n : NodeId} (hn : next.graph.Listed n) :
    state.graph.Listed n ∨ n ∈ added := by
  rcases hNext.listed_cases n hn with hMem | ⟨_, ⟨edge, hEdge, rfl⟩ | ⟨link, hLink, hTarget⟩⟩
  · rw [hNodes] at hMem
    exact (List.mem_append.mp hMem).imp_left (h.nodes_listed n)
  · rw [hProgress.edges_eq, List.append_nil] at hEdge
    exact Or.inl (h.target_listed edge hEdge)
  · exact Or.inl (h.pending_listed link hLink n hTarget)

theorem listed_draw (state : Linking) (edge : Edge) {n : NodeId} :
    (state.draw edge).graph.Listed n ↔ state.graph.Listed n := by
  simp [Listed, draw]

theorem nodes_hangBuiltins (state : Linking) :
    state.hangBuiltins.graph.nodes = state.graph.nodes := by
  unfold hangBuiltins
  split
  · rfl
  · split
    · rfl
    · split <;> rfl

end Linking

/-! ## Constructors -/

namespace Graph

variable {graph after : Graph}

/-- The constructors that a group lists. -/
def constructors (graph : Graph) (g : GroupId) : List NodeId :=
  (graph.group g).nodes.filter fun n => (graph.node n).isConstructor

/-- A constructor that a class does not spell out is its only one. -/
def OneConstructor (graph : Graph) : Prop :=
  ∀ g, ∀ n ∈ (graph.group g).nodes, (graph.node n).isImplicit = true →
    (graph.group g).kind = .classBody ∧ graph.constructors g = [n]

/-- Nodes that construct nothing can be put in anywhere. -/
theorem OneConstructor.grows (h : graph.OneConstructor) (hGraph : graph.WellFormed)
    (hAfter : after.WellFormed) (hGrows : graph.Grows after)
    (hNew : ∀ n, after.Listed n → graph.Listed n ∨
      ((after.node n).isConstructor = false ∧ (after.node n).isImplicit = false)) :
    after.OneConstructor := by
  intro g n hn hImplicit
  -- A node that was listed is where it was.
  have hSame : ∀ m ∈ (after.group g).nodes, graph.Listed m → m ∈ (graph.group g).nodes := by
    rintro m hm ⟨p, hp⟩
    have hParent := (hAfter.parent_of_listed (hGrows.mem_nodes hp)).symm.trans
      (hAfter.parent_of_listed hm)
    cases hParent
    exact hp
  have hOld : n ∈ (graph.group g).nodes := by
    rcases hNew n ⟨g, hn⟩ with hListed | ⟨_, hNot⟩
    · exact hSame n hn hListed
    · rw [hNot] at hImplicit
      exact absurd hImplicit Bool.false_ne_true
  have hg := graph.group_lt_of_nodes hOld
  rw [hGrows.node_field Node.isImplicit (hGraph.listed_lt hOld)] at hImplicit
  obtain ⟨hKind, hOne⟩ := h g n hOld hImplicit
  refine ⟨(hGrows.group_field Group.kind hg).trans hKind, ?_⟩
  obtain ⟨parent, added, subgroups, hGroup⟩ := hGrows.group_eq g hg
  have hNodes : (after.group g).nodes = (graph.group g).nodes ++ added := by rw [hGroup]
  have hAdded : ∀ m ∈ added, (after.node m).isConstructor = false := by
    intro m hm
    have hMem : m ∈ (after.group g).nodes := by
      rw [hNodes]
      exact List.mem_append_right _ hm
    rcases hNew m ⟨g, hMem⟩ with hListed | ⟨hNot, _⟩
    · have hNodup := hAfter.nodes_nodup g
      rw [hNodes] at hNodup
      exact absurd rfl ((List.nodup_append.mp hNodup).2.2 m (hSame m hMem hListed) m hm)
    · exact hNot
  have hNil : (added.filter fun m => (after.node m).isConstructor) = [] :=
    List.filter_eq_nil_iff.mpr (by simpa using hAdded)
  rw [constructors, hNodes, List.filter_append, hNil, List.append_nil, ← hOne, constructors]
  apply List.filter_congr
  intro m hm
  rw [hGrows.node_field Node.isConstructor (hGraph.listed_lt hm)]

/-- A class that is asked for its constructor and has none gets one. -/
theorem OneConstructor.implicit (h : graph.OneConstructor) (hGraph : graph.WellFormed)
    {p : GroupId} (hKind : (graph.group p).kind = .classBody)
    (hNone : graph.constructor? p = none) :
    (graph.insertNode (Query.implicitConstructor p)).1.OneConstructor := by
  have hParent : (Query.implicitConstructor p).parent = .group p := rfl
  have hNoConstructor : graph.constructors p = [] := by
    rw [constructor?, if_pos hKind, List.find?_eq_none] at hNone
    exact List.filter_eq_nil_iff.mpr hNone
  have hMade := graph.node_insertNode_new (Query.implicitConstructor p)
  have hFilter : ∀ g, (graph.group g).nodes.filter
      (fun m => ((graph.insertNode (Query.implicitConstructor p)).1.node m).isConstructor) =
      graph.constructors g := by
    intro g
    apply List.filter_congr
    intro m hm
    rw [node_insertNode_of_lt _ (hGraph.listed_lt hm)]
  intro g n hn hImplicit
  rw [group_field_insertNode hParent Group.kind]
  rcases (mem_nodes_insertNode hParent).mp hn with hOld | ⟨⟨rfl, hp⟩, rfl⟩
  · rw [node_insertNode_of_lt _ (hGraph.listed_lt hOld)] at hImplicit
    obtain ⟨hClass, hOne⟩ := h g n hOld hImplicit
    refine ⟨hClass, ?_⟩
    -- The class that had none is another one.
    have hne : g ≠ p := by
      rintro rfl
      rw [hNoConstructor] at hOne
      exact absurd hOne (by simp)
    rw [constructors, group_insertNode hParent, if_neg fun hSame => hne hSame.1, hFilter, hOne]
  · refine ⟨hKind, ?_⟩
    rw [constructors, group_insertNode hParent, if_pos ⟨rfl, hp⟩, List.filter_append, hFilter,
      hNoConstructor, List.filter_singleton, hMade]
    rfl

theorem OneConstructor.invents {new : List NodeId} (h : graph.OneConstructor)
    (hSound : graph.Sound) (hInvents : graph.Invents new after) : after.OneConstructor := by
  induction hInvents with
  | nothing => exact h
  | @node graph after node new hNode _ ih =>
      obtain ⟨p, hp⟩ := hNode.invention hSound
      have hNext := hSound.insertNode hp.toInsertable
      refine ih ?_ hNext
      cases hNode with
      | constructor _ hKind hNone => exact h.implicit hSound.toWellFormed hKind hNone
      | lambda =>
          apply h.grows hSound.toWellFormed hNext.toWellFormed (grows_insertNode hp.toInsertable)
          intro n hn
          rcases (listed_insertNode hp.parent hp.lt).mp hn with hOld | rfl
          · exact Or.inl hOld
          · rw [node_insertNode_new]
            exact Or.inr ⟨rfl, rfl⟩

/-- Taking nodes out leaves a constructor that is alone alone. -/
theorem OneConstructor.shrinks (h : graph.OneConstructor) (hShrinks : graph.Shrinks after) :
    after.OneConstructor := by
  intro g n hn hImplicit
  have hSub := hShrinks.nodes_sublist g
  rw [hShrinks.node_eq] at hImplicit
  obtain ⟨hKind, hOne⟩ := h g n (hSub.subset hn) hImplicit
  refine ⟨(hShrinks.group_field Group.kind (g := g)).trans hKind, ?_⟩
  have hFilter : (after.constructors g).Sublist [n] := by
    rw [← hOne]
    simp only [constructors, hShrinks.node_eq]
    exact hSub.filter _
  have hSelf : n ∈ after.constructors g := by
    have hMem : n ∈ graph.constructors g := by
      rw [hOne]
      exact List.mem_cons_self
    rw [constructors, List.mem_filter, hShrinks.node_eq]
    exact ⟨hn, (List.mem_filter.mp hMem).2⟩
  exact hFilter.eq_of_length_le (List.length_pos_of_mem hSelf)

end Graph

namespace Linking

variable {state : Linking} {pending : List Link}

/-- A target that is made for a call that was not resolved constructs nothing. -/
theorem plain_fallback (state : Linking) (call : Call) {n : NodeId}
    (hNew : state.graph.nodes.size ≤ n.index) :
    ((state.fallback call).1.graph.node n).isConstructor = false ∧
      ((state.fallback call).1.graph.node n).isImplicit = false := by
  have hDefault := state.graph.node_eq_default hNew
  unfold fallback
  split
  · have hEnsured : (Libraries.ensurePackage state.graph state.libraries builtinModule).1.node n =
        default := by
      rw [← hDefault, Graph.node, Graph.node, Libraries.nodes_ensurePackage]
    rw [Graph.node, nodes_hangBuiltins]
    change ((state.builtinTarget call).1.graph.node n).isConstructor = false ∧
      ((state.builtinTarget call).1.graph.node n).isImplicit = false
    unfold builtinTarget
    dsimp only
    split
    · rw [hEnsured]
      exact ⟨rfl, rfl⟩
    · rw [Libraries.addNode_of_package? (Libraries.package?_ensurePackage _ _ _), node_insertNode]
      split
      · exact ⟨rfl, rfl⟩
      · rw [hEnsured]
        exact ⟨rfl, rfl⟩
  · unfold missingTarget
    split
    · rw [hDefault]
      exact ⟨rfl, rfl⟩
    · rw [node_insertNode]
      split
      · exact ⟨rfl, rfl⟩
      · rw [hDefault]
        exact ⟨rfl, rfl⟩

/-- No step of linking gives a class a second constructor. -/
theorem kept_oneConstructor : Kept fun state => state.graph.OneConstructor where
  resolved hValid hInvents h := h.invents hValid.sound hInvents
  noted link h := by
    unfold note
    split <;> exact h
  found {state pending} call hValid hFiles h := by
    obtain ⟨hNext, _, hProgress⟩ := hValid.fallback hFiles call
    obtain ⟨added, hNodes, _, hFresh⟩ := hProgress.nodes_eq
    apply h.grows hValid.sound.toWellFormed hNext.sound.toWellFormed hProgress.grows
    intro n hn
    rcases hValid.listed_of_progress hNext hProgress hNodes hn with hOld | hNew
    · exact Or.inl hOld
    · exact Or.inr (state.plain_fallback call (hFresh n hNew))
  drawn {state pending} edge hValid h :=
    h.grows hValid.sound.toWellFormed (hValid.sound.markEdge edge).toWellFormed
      (grows_markEdge edge) fun n hn => Or.inl ((listed_draw state edge).mp hn)

end Linking

end CallGraph
