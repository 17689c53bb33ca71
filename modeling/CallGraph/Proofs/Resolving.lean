import CallGraph.Analysis.Link
import CallGraph.Proofs.Growth
import CallGraph.Proofs.Scoping

/-!
# What resolving a call answers

A call that is resolved goes to a node that some group lists, or to one of two kinds of nodes that
are made for it: a constructor that a class does not spell out, put into the class, and the
anonymous function that a function returns, put beside that function. Each stage is looked at once;
the stages that guess, and the order of all of them, play no part.

The calls of one node are resolved one after the other, and the nodes made on the way are all that
changes. `Graph.Invents` describes this change step by step.

## Main definitions

* `Graph.Creatable` — a node that resolving a call may make.
* `Outcome.Fits` — where a call may go.
* `Graph.Invents` — one graph is another with such nodes put in.

## Main results

* `resolve_fits` — where calls go.
* `resolveCalls_spec` — what resolving the calls of a node does.
-/

namespace CallGraph

open Chart (isLibraryGroup)

/-- A node that resolving a call may make. -/
inductive Graph.Creatable (graph : Graph) : Node → Prop
  | constructor {g : GroupId} (hg : g.index < graph.groups.size)
      (hKind : (graph.group g).kind = .classBody) (hNone : graph.constructor? g = none) :
      Creatable graph (Query.implicitConstructor g)
  | lambda {factory : NodeId} (hListed : graph.Listed factory)
      (hSignature : (graph.node factory).signature.isSome) :
      Creatable graph (Query.lambdaOf (graph.node factory))

/-- Where a call may go. -/
def Outcome.Fits (graph : Graph) : Outcome → Prop
  | .found n _ => graph.Listed n
  | .create node _ => graph.Creatable node
  | _ => True

/-- A node without marks that was made up for a call, and the group it is put into. -/
structure Graph.Invention (graph : Graph) (p : GroupId) (node : Node) : Prop
    extends graph.Insertable p node where
  lt : p.index < graph.groups.size
  invented : node.isInvented = true
  isLeaf : node.isLeaf = true
  isTrunk : node.isTrunk = true

namespace Graph

variable {graph : Graph}

theorem Creatable.invention (h : graph.Sound) {node : Node} (hNode : graph.Creatable node) :
    ∃ p, graph.Invention p node := by
  cases hNode with
  | @constructor g hg hKind _ =>
      refine ⟨g, ⟨⟨rfl, rfl, rfl, rfl, fun hMissing => absurd hMissing Bool.false_ne_true,
        fun hLibrary => ?_, fun hRoot => ?_⟩, hg, rfl, rfl, rfl⟩⟩
      · exact absurd (h.library_kind hLibrary) (by rw [hKind]; simp)
      · obtain ⟨r, hr⟩ := Option.isSome_iff_exists.mp hRoot
        exact absurd (h.root_spec hr).1 (by rw [hKind]; simp)
  | @lambda factory hListed hSignature =>
      obtain ⟨p, hParent, hMem⟩ := h.parent_of hListed
      refine ⟨p, ⟨⟨hParent, rfl, rfl, rfl, fun hMissing => absurd hMissing Bool.false_ne_true,
        fun hLibrary => ?_, fun _ => ⟨⟨rfl, ?_, rfl⟩, factory, hMem, hSignature⟩⟩,
        graph.group_lt_of_nodes hMem, rfl, rfl, rfl⟩⟩
      · -- A function that returns something has a body, so it is no library node.
        have hRegular := h.regular factory (h.lt_of_listed hListed)
        have hBodiless := hRegular.library_bodiless (h.library_nodes hLibrary hMem)
        rw [hRegular.signature_none hBodiless] at hSignature
        exact absurd hSignature (by simp)
      · intro hEmpty
        have hText := congrArg String.toList hEmpty
        simp [Query.lambdaOf] at hText

theorem parent_of_parentGroup? {n : NodeId} {g : GroupId} (h : graph.parentGroup? n = some g) :
    (graph.node n).parent = .group g := by
  unfold parentGroup? at h
  split at h
  · rename_i other hParent
    cases h
    exact hParent
  · exact absurd h (by simp)

/-- The group of a listed node is in the table. -/
theorem Sound.lt_of_parentGroup? (h : graph.Sound) {n : NodeId} (hn : graph.Listed n) {g : GroupId}
    (hg : graph.parentGroup? n = some g) : g.index < graph.groups.size := by
  obtain ⟨p, hParent, hMem⟩ := h.parent_of hn
  rw [parent_of_parentGroup? hg] at hParent
  cases hParent
  exact graph.group_lt_of_nodes hMem

theorem Sound.listed_of_mem_flatten_inherited (h : graph.Sound) {g : GroupId} {n : NodeId}
    (hn : n ∈ (graph.group g).inherited.flatten) : graph.Listed n := by
  obtain ⟨nodes, hNodes, hn⟩ := List.mem_flatten.mp hn
  exact h.inherited_listed hNodes hn

theorem listed_of_constructor? {g : GroupId} {n : NodeId} (h : graph.constructor? g = some n) :
    graph.Listed n := by
  unfold constructor? at h
  split at h
  · exact ⟨g, List.mem_of_find?_eq_some h⟩
  · exact absurd h (by simp)

theorem Sound.listed_of_memberOf? (h : graph.Sound) {token : String} {g : GroupId} {n : NodeId}
    (hn : graph.memberOf? token g = some n) : graph.Listed n := by
  rcases List.mem_append.mp (List.mem_of_find?_eq_some hn) with hOwn | hInherited
  · exact ⟨g, hOwn⟩
  · exact h.listed_of_mem_flatten_inherited hInherited

theorem mem_of_inClass {path token : String} {nodes : List NodeId} {n : NodeId}
    (h : graph.inClass path token nodes = .ok (some n)) : n ∈ nodes := by
  induction nodes with
  | nil => exact absurd h (by simp [inClass])
  | cons first rest ih =>
      obtain ⟨found, _, h⟩ := exists_of_bind_eq_ok h
      split at h
      · cases h
        exact List.mem_cons_self
      · exact List.mem_cons_of_mem _ (ih h)

theorem listed_of_inPackage {call : Call} {owner : String} {b : Binding} {n : NodeId}
    (h : graph.inPackage call owner b = .ok (some (.node n))) : graph.Listed n := by
  unfold inPackage at h
  split at h
  · split at h
    · split at h
      · split at h
        · obtain ⟨found, hFound, h⟩ := exists_of_bind_eq_ok h
          cases found with
          | none => exact absurd h (by simp [pure, Except.pure])
          | some m =>
              cases h
              exact listed_of_mem_allNodes (mem_of_inClass hFound)
        · exact absurd h (by simp)
      · exact absurd h (by simp)
    · exact absurd h (by simp)
  · exact absurd h (by simp)

/-- Names that stand for something unknown are no nodes. -/
theorem markerOf_ne_node {target : Target} {n : NodeId} :
    markerOf target ≠ .ok (some (.node n)) := by
  unfold markerOf
  split
  · split <;> simp
  · simp
  · split <;> simp
  · simp

theorem Sound.listed_of_matchBinding (h : graph.Sound) {call : Call} {b : Binding}
    (hb : b.target.Within graph) {n : NodeId}
    (hMatch : graph.matchBinding call b = .ok (some (.node n))) : graph.Listed n := by
  unfold matchBinding at hMatch
  split at hMatch
  · split at hMatch
    · split at hMatch
      · split at hMatch
        · rename_i found hFound
          cases hMatch
          exact h.listed_of_memberOf? hFound
        · exact listed_of_inPackage hMatch
      · exact absurd hMatch markerOf_ne_node
    · exact listed_of_inPackage hMatch
  · split at hMatch
    · split at hMatch
      · rename_i m hTarget
        cases hMatch
        rw [hTarget] at hb
        exact hb
      · rename_i g hTarget
        cases hFound : graph.constructor? g with
        | none => simp [hFound] at hMatch
        | some m =>
            rw [hFound] at hMatch
            cases hMatch
            exact listed_of_constructor? hFound
      · exact absurd hMatch (by simp)
    · exact absurd hMatch (by simp)

theorem Sound.within_of_origin (h : graph.Sound) {b : Binding} (hb : graph.Origin b) :
    b.target.Within graph := by
  cases hb with
  | body hBindings hb => exact h.bound hBindings hb
  | group g => trivial
  | listed hn => exact ⟨_, hn⟩

end Graph

/-! ## The stages -/

namespace Query

variable {query : Query}

/-- A call asked about in a sound graph, by a node in it, among nodes in it. -/
structure Posed (query : Query) : Prop where
  sound : query.graph.Sound
  caller : query.graph.Listed query.caller
  candidates : ∀ n ∈ query.candidates, query.graph.Listed n

theorem fits_ofPossible? {graph : Graph} {via : Option Via} {nodes : List NodeId}
    {outcome : Outcome} (hNodes : ∀ n ∈ nodes, graph.Listed n)
    (h : Outcome.ofPossible? via nodes = some outcome) : outcome.Fits graph := by
  unfold Outcome.ofPossible? at h
  split at h
  · exact absurd h (by simp)
  · cases h
    exact hNodes _ List.mem_cons_self
  · cases h
    trivial

theorem mem_of_mem_sameToken {nodes : List NodeId} {n : NodeId} (h : n ∈ query.sameToken nodes) :
    n ∈ nodes :=
  (List.mem_filter.mp h).1

theorem Posed.fits_inheritedNamesakes (h : query.Posed) {via : Option Via} {g : GroupId}
    {outcome : Outcome}
    (hOutcome : Outcome.ofPossible? via (query.inheritedNamesakes g) = some outcome) :
    outcome.Fits query.graph :=
  fits_ofPossible? (fun _ hn => h.sound.listed_of_mem_flatten_inherited (mem_of_mem_sameToken hn))
    hOutcome

theorem fits_constructorOf {g : GroupId} (hg : g.index < query.graph.groups.size)
    (hKind : (query.graph.group g).kind = .classBody) :
    (query.constructorOf g).Fits query.graph := by
  unfold constructorOf
  split
  · rename_i n hn
    exact Graph.listed_of_constructor? hn
  · rename_i hNone
    exact .constructor hg hKind hNone

theorem callerClass?_kind {g : GroupId} (h : query.callerClass? = some g) :
    (query.graph.group g).kind = .classBody := by
  obtain ⟨_, hKind⟩ := Option.filter_eq_some_iff.mp h
  exact of_decide_eq_true hKind

theorem Posed.fits_viaSuper? (h : query.Posed) {outcome : Outcome}
    (hOutcome : query.viaSuper? = some outcome) : outcome.Fits query.graph := by
  unfold viaSuper? at hOutcome
  split at hOutcome
  · obtain ⟨g, _, hOutcome⟩ := Option.bind_eq_some_iff.mp hOutcome
    exact h.fits_inheritedNamesakes hOutcome
  · exact absurd hOutcome (by simp)

theorem Posed.fits_viaSelf? (h : query.Posed) {outcome : Outcome}
    (hOutcome : query.viaSelf? = some outcome) : outcome.Fits query.graph := by
  unfold viaSelf? at hOutcome
  split at hOutcome
  · obtain ⟨g, hClass, hOutcome⟩ := Option.bind_eq_some_iff.mp hOutcome
    split at hOutcome
    · rename_i found hFound
      cases hOutcome
      exact fits_ofPossible? (fun n hn => ⟨g, mem_of_mem_sameToken hn⟩) hFound
    · split at hOutcome
      · rename_i s hNested
        cases hOutcome
        -- A class contains classes only.
        have hs : s ∈ (query.graph.group g).subgroups := List.mem_of_find?_eq_some hNested
        exact fits_constructorOf (h.sound.subgroup_lt hs)
          (h.sound.inner_class hs (by rw [callerClass?_kind hClass]; simp))
      · exact h.fits_inheritedNamesakes hOutcome
  · exact absurd hOutcome (by simp)

theorem Posed.listed_bySignature? (h : query.Posed) {n : NodeId}
    (hn : query.bySignature? = some n) : query.graph.Listed n := by
  unfold bySignature? at hn
  split at hn
  · exact absurd hn (by simp)
  · exact h.candidates n (mem_of_mem_sameToken (List.mem_of_find?_eq_some hn))

theorem Posed.fits_viaUnknownOwner? (h : query.Posed) {outcome : Outcome}
    (hOutcome : query.viaUnknownOwner? = some outcome) : outcome.Fits query.graph := by
  unfold viaUnknownOwner? at hOutcome
  split at hOutcome
  · obtain ⟨g, _, hOutcome⟩ := Option.bind_eq_some_iff.mp hOutcome
    split at hOutcome
    · exact h.fits_inheritedNamesakes hOutcome
    · exact absurd hOutcome (by simp)
  · exact absurd hOutcome (by simp)

theorem Posed.fits_early? (h : query.Posed) {outcome : Outcome}
    (hOutcome : query.early? = some outcome) : outcome.Fits query.graph := by
  unfold early? at hOutcome
  rcases Option.or_eq_some_iff.mp hOutcome with hOutcome | ⟨_, hOutcome⟩
  · rcases Option.or_eq_some_iff.mp hOutcome with hOutcome | ⟨_, hOutcome⟩
    · rcases Option.or_eq_some_iff.mp hOutcome with hOutcome | ⟨_, hOutcome⟩
      · exact h.fits_viaSuper? hOutcome
      · exact h.fits_viaSelf? hOutcome
    · obtain ⟨n, hn, rfl⟩ := Option.map_eq_some_iff.mp hOutcome
      exact h.listed_bySignature? hn
  · exact h.fits_viaUnknownOwner? hOutcome

theorem Posed.listed_viaInstance? (h : query.Posed) {bindings : List Binding} {n : NodeId}
    (hn : query.viaInstance? bindings = some n) : query.graph.Listed n := by
  unfold viaInstance? at hn
  split at hn
  · obtain ⟨b, _, hn⟩ := List.exists_of_findSome?_eq_some hn
    unfold byInstance? at hn
    split at hn
    · split at hn
      · exact absurd hn (by simp)
      · exact h.candidates n (mem_of_mem_sameToken (List.mem_of_find?_eq_some hn))
    · exact absurd hn (by simp)
  · exact absurd hn (by simp)

theorem Posed.fits_viaBindings? (h : query.Posed) {bindings : List Binding}
    (hBindings : ∀ b ∈ bindings, b.target.Within query.graph) {outcome : Outcome}
    (hOutcome : query.viaBindings? bindings = .ok (some outcome)) : outcome.Fits query.graph := by
  induction bindings with
  | nil => exact absurd hOutcome (by simp [viaBindings?])
  | cons b rest ih =>
      obtain ⟨result, hMatch, hOutcome⟩ := exists_of_bind_eq_ok hOutcome
      split at hOutcome
      · exact ih (fun c hc => hBindings c (List.mem_cons_of_mem _ hc)) hOutcome
      · split at hOutcome
        · cases hOutcome
          trivial
        · split at hOutcome
          · rename_i hSignature _
            cases hOutcome
            exact h.listed_bySignature? hSignature
          · cases hOutcome
            exact h.sound.listed_of_matchBinding (hBindings b List.mem_cons_self) hMatch
          · cases hOutcome
            trivial

theorem mem_of_factory? {n : NodeId} (h : query.factory? = some n) : n ∈ query.candidates := by
  unfold factory? at h
  split at h
  · exact absurd h (by simp)
  · rcases Option.or_eq_some_iff.mp h with hFile | ⟨_, hAny⟩
    · exact (List.mem_filter.mp (List.mem_of_find?_eq_some hFile)).1
    · exact (List.mem_filter.mp (List.mem_of_head? hAny)).1

theorem Posed.fits_viaFactory? (h : query.Posed) {outcome : Outcome}
    (hOutcome : query.viaFactory? = some outcome) : outcome.Fits query.graph := by
  unfold viaFactory? at hOutcome
  obtain ⟨factory, hFactory, hOutcome⟩ := Option.bind_eq_some_iff.mp hOutcome
  dsimp only at hOutcome
  split at hOutcome
  · rename_i target hTarget
    cases hOutcome
    obtain ⟨token, _, hTarget⟩ := List.exists_of_findSome?_eq_some hTarget
    exact h.candidates target (List.mem_of_find?_eq_some hTarget)
  · split at hOutcome
    · rename_i hReturns
      cases hOutcome
      refine .lambda (h.candidates factory (mem_of_factory? hFactory)) ?_
      cases hSignature : (query.graph.node factory).signature with
      | none => simp [hSignature] at hReturns
      | some signature => rfl
    · exact absurd hOutcome (by simp)

theorem mem_of_byToken {possible : List NodeId} {impossible : List (NodeId × Nat)}
    (h : query.byToken = .ok (possible, impossible)) : ∀ n ∈ possible, n ∈ query.candidates := by
  unfold byToken at h
  split at h
  · split at h
    · exact absurd h (by simp)
    · cases h
      exact fun n hn => (List.mem_filter.mp hn).1
  · split at h
    · exact absurd h (by simp)
    · cases h
      exact fun n hn => (List.mem_filter.mp hn).1

theorem Posed.fits_direct (h : query.Posed) {outcome : Outcome}
    (hOutcome : query.direct = .ok outcome) : outcome.Fits query.graph := by
  unfold direct at hOutcome
  obtain ⟨⟨possible, impossible⟩, hPossible, hOutcome⟩ := exists_of_bind_eq_ok hOutcome
  dsimp only at hOutcome
  split at hOutcome
  · split at hOutcome
    · rename_i g hClass
      cases hOutcome
      obtain ⟨n, hn, hClass⟩ := List.exists_of_findSome?_eq_some hClass
      obtain ⟨hParent, hNamed⟩ := Option.filter_eq_some_iff.mp hClass
      exact fits_constructorOf (h.sound.lt_of_parentGroup? (h.candidates n hn) hParent)
        (of_decide_eq_true hNamed).1
    · cases hOutcome
      trivial
  · cases hOutcome
    exact h.candidates _ (mem_of_byToken hPossible _ List.mem_cons_self)
  · cases hOutcome
    trivial

/-- Where calls go. -/
theorem resolve_fits (h : query.Posed) {outcome : Outcome}
    (hOutcome : query.resolve = .ok outcome) : outcome.Fits query.graph := by
  unfold resolve at hOutcome
  split at hOutcome
  · rename_i found hFound
    cases hOutcome
    exact h.fits_early? hFound
  · obtain ⟨bindings, hVisible, hLate⟩ := exists_of_bind_eq_ok hOutcome
    obtain ⟨g, hParent, _⟩ := h.sound.parent_of h.caller
    unfold late at hLate
    split at hLate
    · rename_i n hn
      cases hLate
      exact h.listed_viaInstance? hn
    · obtain ⟨result, hResult, hLate⟩ := exists_of_bind_eq_ok hLate
      split at hLate
      · cases hLate
        refine h.fits_viaBindings? (fun b hb => ?_) hResult
        exact h.sound.within_of_origin (Graph.mem_visible hParent hVisible b hb)
      · split at hLate
        · rename_i hFactory
          cases hLate
          exact h.fits_viaFactory? hFactory
        · exact h.fits_direct hLate

/-- After an answer, the next call of the same node can be asked. -/
theorem Posed.next {query : Query} (h : query.Posed) {outcome : Outcome}
    (hFits : outcome.Fits query.graph) (call : Call) :
    Posed ⟨(outcome.apply query.graph query.candidates).graph, query.heuristics, query.caller,
      (outcome.apply query.graph query.candidates).candidates, call⟩ ∧
      query.graph.Grows (outcome.apply query.graph query.candidates).graph ∧
      query.candidates <+: (outcome.apply query.graph query.candidates).candidates := by
  cases outcome with
  | create node via =>
      obtain ⟨p, hp⟩ := hFits.invention h.sound
      have hGrows := Graph.grows_insertNode hp.toInsertable
      refine ⟨⟨h.sound.insertNode hp.toInsertable, hGrows.listed h.caller, fun n hn => ?_⟩, hGrows,
        List.prefix_append _ _⟩
      change (query.graph.insertNode node).1.Listed n
      rw [Graph.listed_insertNode hp.parent hp.lt, ← Graph.index_insertNode node]
      rcases List.mem_append.mp hn with hn | hn
      · exact Or.inl (h.candidates n hn)
      · exact Or.inr (List.mem_singleton.mp hn)
  | _ => exact ⟨⟨h.sound, h.caller, h.candidates⟩, Graph.Grows.refl _, List.prefix_rfl⟩

/-- The call goes to a node that has to be made first. -/
def Creates (query : Query) : Prop :=
  ∃ node via, query.resolve = .ok (.create node via)

end Query

/-! ## The calls of one node -/

/-- One graph is another with nodes put in that were made up for calls. -/
inductive Graph.Invents : Graph → List NodeId → Graph → Prop
  | nothing (graph : Graph) : Invents graph [] graph
  | node {graph after : Graph} {node : Node} {new : List NodeId} (hNode : graph.Creatable node)
      (hRest : Invents (graph.insertNode node).1 new after) :
      Invents graph (⟨graph.nodes.size⟩ :: new) after

namespace Graph.Invents

variable {graph after : Graph} {new : List NodeId}

theorem sound (h : graph.Invents new after) (hSound : graph.Sound) : after.Sound := by
  induction h with
  | nothing => exact hSound
  | node hNode _ ih =>
      obtain ⟨p, hp⟩ := hNode.invention hSound
      exact ih (hSound.insertNode hp.toInsertable)

theorem grows (h : graph.Invents new after) (hSound : graph.Sound) : graph.Grows after := by
  induction h with
  | nothing => exact Grows.refl _
  | node hNode _ ih =>
      obtain ⟨p, hp⟩ := hNode.invention hSound
      exact (grows_insertNode hp.toInsertable).trans (ih (hSound.insertNode hp.toInsertable))

/-- Nodes that were there before are left alone. -/
theorem node_eq (h : graph.Invents new after) {n : NodeId} (hn : n.index < graph.nodes.size) :
    after.node n = graph.node n := by
  induction h with
  | nothing => rfl
  | node _ _ ih =>
      rw [ih (by rw [nodes_size_insertNode]; omega), node_insertNode_of_lt _ hn]

theorem groups_size (h : graph.Invents new after) : after.groups.size = graph.groups.size := by
  induction h with
  | nothing => rfl
  | node _ _ ih => exact ih.trans (groups_size_insertNode _)

/-- Groups keep everything but the ends of their lists of nodes. -/
theorem group_field {α : Type _} (h : graph.Invents new after) (hSound : graph.Sound)
    (field : Group → α)
    (hField : ∀ group nodes, field { group with nodes := nodes } = field group := by
      intros; rfl) (g : GroupId) :
    field (after.group g) = field (graph.group g) := by
  induction h with
  | nothing => rfl
  | node hNode _ ih =>
      obtain ⟨p, hp⟩ := hNode.invention hSound
      exact (ih (hSound.insertNode hp.toInsertable)).trans
        (group_field_insertNode hp.parent field hField g)

theorem listed (h : graph.Invents new after) (hSound : graph.Sound) {n : NodeId} :
    after.Listed n ↔ graph.Listed n ∨ n ∈ new := by
  induction h with
  | nothing => simp
  | node hNode _ ih =>
      obtain ⟨p, hp⟩ := hNode.invention hSound
      rw [ih (hSound.insertNode hp.toInsertable), listed_insertNode hp.parent hp.lt,
        List.mem_cons, or_assoc]

/-- What is put in is new, made up and not marked yet. -/
theorem new_spec (h : graph.Invents new after) (hSound : graph.Sound) :
    ∀ n ∈ new, graph.nodes.size ≤ n.index ∧ (after.node n).isInvented = true ∧
      (after.node n).isLeaf = true ∧ (after.node n).isTrunk = true := by
  induction h with
  | nothing => exact fun n hn => absurd hn List.not_mem_nil
  | node hNode hRest ih =>
      rename_i graph after node new
      obtain ⟨p, hp⟩ := hNode.invention hSound
      intro n hn
      rcases List.mem_cons.mp hn with rfl | hn
      · rw [hRest.node_eq (by simp), node_insertNode_new]
        exact ⟨Nat.le_refl _, hp.invented, hp.isLeaf, hp.isTrunk⟩
      · obtain ⟨hNew, hRest⟩ := ih (hSound.insertNode hp.toInsertable) n hn
        rw [nodes_size_insertNode] at hNew
        exact ⟨by omega, hRest⟩

theorem roots (h : graph.Invents new after) (hSound : graph.Sound) {roots : List GroupId}
    (hRoots : graph.Roots roots) : after.Roots roots :=
  hRoots.of_eq h.groups_size (h.group_field hSound Group.parent)

theorem covered (h : graph.Invents new after) (hSound : graph.Sound) {roots : List GroupId}
    (hCovered : graph.Covered roots) : after.Covered roots :=
  hCovered.of_eq h.groups_size (h.group_field hSound Group.subgroups)

end Graph.Invents

namespace Linking

open CallGraph.Graph

/-- What resolving the calls of a node leads to. -/
structure Resolved (graph : Graph) (asked : List Query) (calls : List Call) (after : Graph)
    (links : List Link) (new : List NodeId) : Prop where
  invents : graph.Invents new after
  calls_eq : links.map Link.call = calls
  listed : ∀ link ∈ links, ∀ n, link.target = some n → after.Listed n
  /-- Each node made up is the target of a call. -/
  targeted : ∀ n ∈ new, ∃ link ∈ links, link.target = some n
  creates : new ≠ [] ↔ ∃ query ∈ asked, query.Creates

/-- An answer that makes no node leaves everything as it is. -/
theorem Resolved.keep {query : Query} {outcome : Outcome} {target : Option NodeId}
    {asked : List Query} {calls : List Call} {after : Graph} {links : List Link}
    {new : List NodeId} (hSound : query.graph.Sound)
    (h : Resolved query.graph asked calls after links new) (hOutcome : query.resolve = .ok outcome)
    (hKeep : ∀ node via, outcome ≠ .create node via)
    (hTarget : ∀ n, target = some n → query.graph.Listed n) :
    Resolved query.graph (query :: asked) (query.call :: calls) after
      (⟨query.call, outcome, target⟩ :: links) new where
  invents := h.invents
  calls_eq := by rw [List.map_cons, h.calls_eq]
  listed link hLink n hn := by
    rcases List.mem_cons.mp hLink with rfl | hLink
    · exact (h.invents.listed hSound).mpr (Or.inl (hTarget n hn))
    · exact h.listed link hLink n hn
  targeted n hn := by
    obtain ⟨link, hLink, hn⟩ := h.targeted n hn
    exact ⟨link, List.mem_cons_of_mem _ hLink, hn⟩
  creates := by
    have hFirst : ¬query.Creates := by
      rintro ⟨node, via, hCreate⟩
      rw [hOutcome] at hCreate
      cases hCreate
      exact hKeep node via rfl
    simp [h.creates, hFirst]

/-- An answer that makes a node puts it in. -/
theorem Resolved.create {query : Query} {node : Node} {via : Option Via} {asked : List Query}
    {calls : List Call} {after : Graph} {links : List Link} {new : List NodeId}
    (hSound : query.graph.Sound) (hNode : query.graph.Creatable node)
    (h : Resolved (query.graph.insertNode node).1 asked calls after links new)
    (hOutcome : query.resolve = .ok (.create node via)) :
    Resolved query.graph (query :: asked) (query.call :: calls) after
      (⟨query.call, .create node via, some ⟨query.graph.nodes.size⟩⟩ :: links)
      (⟨query.graph.nodes.size⟩ :: new) where
  invents := .node hNode h.invents
  calls_eq := by rw [List.map_cons, h.calls_eq]
  listed link hLink n hn := by
    rcases List.mem_cons.mp hLink with rfl | hLink
    · cases hn
      exact ((Invents.node hNode h.invents).listed hSound).mpr (Or.inr List.mem_cons_self)
    · exact h.listed link hLink n hn
  targeted n hn := by
    rcases List.mem_cons.mp hn with rfl | hn
    · exact ⟨_, List.mem_cons_self, rfl⟩
    · obtain ⟨link, hLink, hn⟩ := h.targeted n hn
      exact ⟨link, List.mem_cons_of_mem _ hLink, hn⟩
  creates := by
    have hFirst : query.Creates := ⟨node, via, hOutcome⟩
    simp [hFirst]

/-- The first of several calls that are resolved is answered, and the others are asked about with
what its answer leaves. -/
theorem exists_of_resolveCalls_cons {heuristics : Bool} {caller : NodeId} {graph after : Graph}
    {candidates : List NodeId} {call : Call} {rest : List Call} {links : List Link}
    (h : resolveCalls heuristics caller graph candidates (call :: rest) = .ok (after, links)) :
    ∃ outcome others,
      Query.resolve ⟨graph, heuristics, caller, candidates, call⟩ = .ok outcome ∧
      resolveCalls heuristics caller (outcome.apply graph candidates).graph
        (outcome.apply graph candidates).candidates rest = .ok (after, others) ∧
      links = ⟨call, outcome, (outcome.apply graph candidates).target⟩ :: others ∧
      asked heuristics caller graph candidates (call :: rest) =
        ⟨graph, heuristics, caller, candidates, call⟩ ::
          asked heuristics caller (outcome.apply graph candidates).graph
            (outcome.apply graph candidates).candidates rest := by
  obtain ⟨outcome, hOutcome, h⟩ := exists_of_bind_eq_ok h
  obtain ⟨⟨final, others⟩, hOthers, h⟩ := exists_of_bind_eq_ok h
  cases h
  refine ⟨outcome, others, hOutcome, hOthers, rfl, ?_⟩
  rw [asked]
  dsimp only
  rw [hOutcome]

/-- What resolving the calls of a node does. -/
theorem resolveCalls_spec {heuristics : Bool} {caller : NodeId} {graph after : Graph}
    {candidates : List NodeId} {calls : List Call} {links : List Link} (hSound : graph.Sound)
    (hCaller : graph.Listed caller) (hCandidates : ∀ n ∈ candidates, graph.Listed n)
    (h : resolveCalls heuristics caller graph candidates calls = .ok (after, links)) :
    ∃ new, Resolved graph (asked heuristics caller graph candidates calls) calls after links
      new := by
  induction calls generalizing graph candidates links with
  | nil =>
      cases h
      exact ⟨[], .nothing _, rfl, by simp, by simp, by simp [asked]⟩
  | cons call rest ih =>
      obtain ⟨outcome, others, hOutcome, hOthers, rfl, hAsked⟩ := exists_of_resolveCalls_cons h
      have hPosed : Query.Posed ⟨graph, heuristics, caller, candidates, call⟩ :=
        ⟨hSound, hCaller, hCandidates⟩
      have hFits := Query.resolve_fits hPosed hOutcome
      obtain ⟨hNext, _, _⟩ := hPosed.next hFits call
      obtain ⟨new, hNew⟩ := ih hNext.sound hNext.caller hNext.candidates hOthers
      rw [hAsked]
      cases outcome with
      | create node via =>
          have hIndex : (graph.insertNode node).2 = ⟨graph.nodes.size⟩ := index_insertNode node
          refine ⟨⟨graph.nodes.size⟩ :: new, ?_⟩
          simp only [Outcome.apply, hIndex] at hNew ⊢
          exact hNew.create hSound hFits hOutcome
      | found n via =>
          exact ⟨new, hNew.keep hSound hOutcome (by simp) fun m hm => by cases hm; exact hFits⟩
      | marker name =>
          exact ⟨new, hNew.keep hSound hOutcome (by simp) (by simp [Outcome.apply])⟩
      | ambiguous possible impossible =>
          exact ⟨new, hNew.keep hSound hOutcome (by simp) (by simp [Outcome.apply])⟩
      | unresolved =>
          exact ⟨new, hNew.keep hSound hOutcome (by simp) (by simp [Outcome.apply])⟩

end Linking

end CallGraph
