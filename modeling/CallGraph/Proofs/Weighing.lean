import CallGraph.Proofs.Landing

/-!
# Candidates that count twice

A call that no other rule answers is matched against all candidates: those with its token that stand
at the right place. One match is the target, and with several the call is ambiguous. But candidates
are listed, and the list is not one of different functions. A library node that a call names is
listed twice, so a single match may count as two; and placeholders are candidates for the calls of
later nodes, so a call that found nothing speaks against those that come after it.

This module weighs the matches: each counts once, library nodes that a call names once more, and
each placeholder with the token of the call once. The call is ambiguous exactly if this comes to two
or more, and a single match is the target exactly if it comes to one.

## Main definitions

* `Query.ReachesDirect` — no other rule answers the call.
* `Query.matching` — the different matches, placeholders apart.
* `Linking.isNamed` — a library node that a call names.
* `Query.blocking` — the placeholders with the token of the call.

## Main results

* `length_possible` — what the matches weigh.
* `ambiguous_calls_of_build` — when a call is ambiguous, and when its single match is the target.
-/

namespace CallGraph

open CallGraph.Graph

/-! ## Lists with some entries twice -/

/-! ## Library nodes that a call names -/

namespace Libraries

variable {graph : Graph} {libraries : Libraries}

/-- Making library nodes leaves the entries there are. -/
theorem node?_addNode (package name : String) (call : Call) {signature : String} {n : NodeId}
    (h : libraries.node? signature = some n) :
    (addNode graph libraries package name call).2.1.node? signature = some n := by
  unfold node? at h ⊢
  rw [nodes_of_addNode, List.lookup_append, h]
  rfl

/-- What the table says when a node is entered under a signature that it did not know. -/
theorem node?_addNode_of_none (package : String) {name : String} (call : Call)
    (h : libraries.node? name = none) (signature : String) :
    (addNode graph libraries package name call).2.1.node? signature =
      if signature = name then some (addNode graph libraries package name call).2.2
      else libraries.node? signature := by
  have hNodes : (addNode graph libraries package name call).2.1.nodes = libraries.nodes ++
      [(name, (addNode graph libraries package name call).2.2)] := by
    unfold addNode
    dsimp only
    rw [nodes_of_ensurePackage]
  unfold node? at h ⊢
  rw [hNodes, List.lookup_append]
  by_cases hSame : signature = name
  · subst hSame
    rw [h, if_pos rfl]
    simp
  · have hOther : (signature == name) = false := beq_eq_false_iff_ne.mpr hSame
    rw [if_neg hSame, List.lookup_cons, hOther, List.lookup_nil, Option.or_none]

theorem Fills.node?_eq {calls : List Call} {filled : Libraries} {after : Graph} {new : List NodeId}
    (h : Fills calls libraries graph filled after new) {signature : String} {n : NodeId}
    (hn : libraries.node? signature = some n) : filled.node? signature = some n := by
  induction h with
  | nothing => exact hn
  | node _ _ _ _ ih => exact ih (node?_addNode _ _ _ hn)

/-- A call makes no node if it names no library, or one that the table knows. -/
theorem ofCalls_cons_of_known {call : Call} {rest : List Call}
    (h : ∀ name package, signature? call = some (name, package) → libraries.node? name ≠ none) :
    ofCalls graph libraries (call :: rest) = ofCalls graph libraries rest := by
  rw [ofCalls]
  split
  · rfl
  · rename_i name package hSignature
    exact if_pos (Option.isSome_iff_ne_none.mpr (h name package hSignature))

/-- A call of a library that the table does not know makes a node. -/
theorem ofCalls_cons_of_new {call : Call} {rest : List Call} {name package : String}
    (hSignature : signature? call = some (name, package)) (hNone : libraries.node? name = none) :
    ofCalls graph libraries (call :: rest) =
      ((ofCalls (addNode graph libraries package name call).1
          (addNode graph libraries package name call).2.1 rest).1,
        (ofCalls (addNode graph libraries package name call).1
          (addNode graph libraries package name call).2.1 rest).2.1,
        (addNode graph libraries package name call).2.2 ::
          (ofCalls (addNode graph libraries package name call).1
            (addNode graph libraries package name call).2.1 rest).2.2) := by
  rw [ofCalls, hSignature]
  exact if_neg (by simp [hNone])

/-- The nodes made for calls are those that the table has for the signatures it did not know. -/
theorem mem_ofCalls_iff {calls : List Call} {n : NodeId} :
    n ∈ (ofCalls graph libraries calls).2.2 ↔
      ∃ call ∈ calls, ∃ signature package, signature? call = some (signature, package) ∧
        libraries.node? signature = none ∧
        (ofCalls graph libraries calls).2.1.node? signature = some n := by
  induction calls generalizing graph libraries with
  | nil => simp [ofCalls]
  | cons call rest ih =>
      rw [List.exists_mem_cons_iff]
      by_cases hNew : ∃ name package, signature? call = some (name, package) ∧
          libraries.node? name = none
      · obtain ⟨name, package, hSignature, hNone⟩ := hNew
        have hTable : ∀ signature, (addNode graph libraries package name call).2.1.node? signature =
            if signature = name then some (addNode graph libraries package name call).2.2
            else libraries.node? signature := node?_addNode_of_none package call hNone
        rw [ofCalls_cons_of_new hSignature hNone, List.mem_cons, ih]
        generalize addNode graph libraries package name call = added at hTable ⊢
        have hAfter : (ofCalls added.1 added.2.1 rest).2.1.node? name = some added.2.2 :=
          (fills_ofCalls (List.Subset.refl rest)).node?_eq (by rw [hTable, if_pos rfl])
        constructor
        · rintro (rfl | ⟨other, hOther, signature, package', hIs, hBefore, hFinal⟩)
          · exact Or.inl ⟨name, package, hSignature, hNone, hAfter⟩
          · refine Or.inr ⟨other, hOther, signature, package', hIs, ?_, hFinal⟩
            rw [hTable] at hBefore
            split at hBefore
            · exact absurd hBefore (by simp)
            · exact hBefore
        · rintro (⟨signature, _, hSame, _, hFinal⟩ |
            ⟨other, hOther, signature, package', hIs, hBefore, hFinal⟩)
          · cases hSignature.symm.trans hSame
            exact Or.inl (Option.some_inj.mp (hFinal.symm.trans hAfter))
          · by_cases hSame : signature = name
            · subst hSame
              exact Or.inl (Option.some_inj.mp (hFinal.symm.trans hAfter))
            · exact Or.inr ⟨other, hOther, signature, package', hIs,
                by rw [hTable, if_neg hSame]; exact hBefore, hFinal⟩
      · have hKnown : ∀ name package, signature? call = some (name, package) →
            libraries.node? name ≠ none := fun name package hSignature hNone =>
          hNew ⟨name, package, hSignature, hNone⟩
        rw [ofCalls_cons_of_known hKnown, ih, or_iff_right]
        rintro ⟨signature, package, hSignature, hNone, _⟩
        exact hKnown signature package hSignature hNone

end Libraries

namespace Linking

/-- A call names the node: it is the library node of the signature of the call. -/
def isNamed (start : Linking) (n : NodeId) : Bool :=
  (CallMap.callsOf start.graph start.nodes).any fun call =>
    ((Libraries.signature? call).bind fun entry => start.libraries.node? entry.1) == some n

end Linking

namespace CallMap

variable {files : FileSystem} {options : Options} {sources : List String}
variable {read : List FileOutline} {prepared : Prepared} {linked : Linking}

/-- The calls of a program are those of its files. -/
theorem Prepares.mem_callsOf {ns : List NodeId} {settled : Graph}
    (h : Prepares options read ns settled prepared) {call : Call} :
    call ∈ callsOf prepared.start.graph prepared.start.nodes ↔
      call ∈ callsOf settled (settled.nodesOf (Graph.loaded read).2) := by
  have hStarted := h.started_ofCalls
  obtain ⟨all, hNodes, hDirect, _, hNew⟩ := hStarted.nodes_eq
  unfold callsOf
  rw [List.mem_flatMap, List.mem_flatMap]
  constructor
  · rintro ⟨n, hn, hCall⟩
    rw [hStarted.grows.calls_eq] at hCall
    have hLt : n.index < settled.nodes.size := by
      by_contra hGe
      rw [settled.node_eq_default (Nat.not_lt.mp hGe)] at hCall
      exact absurd hCall List.not_mem_nil
    rw [hNodes, List.append_assoc, List.mem_append, List.mem_append] at hn
    rcases hn with hn | hn | hn
    · exact ⟨n, hn, hCall⟩
    · exact absurd hLt (Nat.not_lt.mpr (hNew n (hDirect n hn)))
    · exact absurd hLt (Nat.not_lt.mpr (hNew n hn))
  · rintro ⟨n, hn, hCall⟩
    refine ⟨n, ?_, by rw [hStarted.grows.calls_eq]; exact hCall⟩
    rw [hNodes]
    simp [hn]

/-- The nodes listed twice are the library nodes that a call names. -/
theorem Prepares.isNamed_iff {ns : List NodeId} {settled : Graph}
    (h : Prepares options read ns settled prepared) {n : NodeId} :
    prepared.start.isNamed n = true ↔ n ∈ (Libraries.ofCalls settled {}
      (callsOf settled (settled.nodesOf (Graph.loaded read).2))).2.2 := by
  have hEq := h.start_eq
  have hCalls := @Prepares.mem_callsOf _ _ _ _ _ h
  dsimp only at hEq
  generalize settled.nodesOf (Graph.loaded read).2 = nodes at *
  generalize hFound : callsOf settled nodes = calls at *
  -- Nodes made afterwards do not hide those there are.
  have hKept : ∀ signature m, (Libraries.ofCalls settled {} calls).2.1.node? signature = some m →
      prepared.start.libraries.node? signature = some m := by
    intro signature m hm
    rw [hEq]
    exact (Libraries.fills_ofInstances _ (List.Subset.refl calls)).node?_eq hm
  rw [Libraries.mem_ofCalls_iff]
  simp only [Linking.isNamed, List.any_eq_true, beq_iff_eq, Option.bind_eq_some_iff, Prod.exists]
  constructor
  · rintro ⟨call, hCall, signature, package, hSignature, hNode⟩
    have hMem := hCalls.mp hCall
    obtain ⟨m, hm⟩ : ∃ m, (signature, m) ∈ (Libraries.ofCalls settled {} calls).2.1.nodes :=
      Libraries.signature_mem_ofCalls hMem hSignature
    obtain ⟨first, hFirst⟩ := Option.isSome_iff_exists.mp
      (List.lookup_isSome_iff.mpr ⟨(signature, m), hm, BEq.rfl⟩)
    obtain rfl : n = first := Option.some_inj.mp (hNode.symm.trans (hKept _ _ hFirst))
    exact ⟨call, hMem, signature, package, hSignature, rfl, hFirst⟩
  · rintro ⟨call, hCall, signature, package, hSignature, _, hNode⟩
    exact ⟨call, hCalls.mpr hCall, signature, package, hSignature, hKept _ _ hNode⟩

end CallMap

/-! ## Matching -/

namespace Query

variable {query : Query}

/-- No rule answers the call before the candidates are matched. -/
structure ReachesDirect (query : Query) : Prop where
  early : query.early? = none
  late : ∃ bindings, query.graph.visible query.caller query.call.line = .ok bindings ∧
    query.viaInstance? bindings = none ∧ query.viaBindings? bindings = .ok none
  factory : query.viaFactory? = none

/-- Whether no rule answers the call before the candidates are matched. -/
def isDirect (query : Query) : Bool :=
  query.early?.isNone && query.viaFactory?.isNone &&
    match query.graph.visible query.caller query.call.line with
    | .error _ => false
    | .ok bindings =>
        (query.viaInstance? bindings).isNone &&
          match query.viaBindings? bindings with
          | .ok none => true
          | _ => false

theorem reachesDirect_of_isDirect (h : query.isDirect = true) : query.ReachesDirect := by
  unfold isDirect at h
  rw [Bool.and_eq_true, Bool.and_eq_true, Option.isNone_iff_eq_none, Option.isNone_iff_eq_none] at h
  obtain ⟨⟨hEarly, hFactory⟩, hLate⟩ := h
  refine ⟨hEarly, ?_, hFactory⟩
  split at hLate
  · exact absurd hLate Bool.false_ne_true
  · rename_i bindings hVisible
    rw [Bool.and_eq_true, Option.isNone_iff_eq_none] at hLate
    refine ⟨bindings, hVisible, hLate.1, ?_⟩
    have hBindings := hLate.2
    split at hBindings
    · assumption
    · exact absurd hBindings Bool.false_ne_true

theorem ReachesDirect.resolve_eq (h : query.ReachesDirect) : query.resolve = query.direct := by
  obtain ⟨bindings, hVisible, hInstance, hBindings⟩ := h.late
  unfold resolve
  rw [h.early]
  dsimp only
  rw [hVisible]
  show query.late bindings = query.direct
  unfold Query.late
  rw [hInstance]
  dsimp only
  rw [hBindings, h.factory]
  rfl

/-- A candidate matches the call. For a call on something it has the token of the call and does not
stand directly in the file of the caller. For a plain call it has the token and stands directly in a
file, or it constructs the class of that name. -/
def fits (query : Query) (n : NodeId) : Bool :=
  if query.call.isMember then query.callerTop?.any fun top => query.isMemberTarget top n
  else query.isPlainTarget n

/-- The different candidates that match, placeholders apart. -/
def matching (query : Query) : List NodeId :=
  (query.candidates.filter fun n => !(query.graph.node n).isMissing && query.fits n).dedup

/-- The placeholders with the token of the call that other nodes left before. -/
def blocking (query : Query) (earlier : List Query) : Nat :=
  (lacking (missedCalls (earlier.filter fun other => decide (other.caller ≠ query.caller)))).countP
    fun entry => decide (entry.2 = query.call.token)

/-- What the matches of a call weigh: each counts once, and once more if a call names it, and so
does each placeholder with the token of the call. -/
def weight (query : Query) (start : Linking) (earlier : List Query) : Nat :=
  query.matching.length + (query.matching.filter start.isNamed).length + query.blocking earlier

theorem Posed.byToken_eq (h : query.Posed) :
    ∃ impossible, query.byToken = .ok (query.candidates.filter query.fits, impossible) := by
  obtain ⟨found, hFound⟩ := h.byToken_isOk
  by_cases hMember : query.call.isMember = true
  · obtain ⟨_, top, _, hTop, _⟩ := h.exists_callerTop?
    have hFits : query.fits = query.isMemberTarget (.group top) := by
      funext n
      rw [fits, if_pos hMember, hTop]
      rfl
    unfold byToken
    rw [if_pos hMember, hTop, hFits]
    exact ⟨_, rfl⟩
  · have hFits : query.fits = query.isPlainTarget := by
      funext n
      rw [fits, if_neg hMember]
    unfold byToken at hFound ⊢
    rw [if_neg hMember] at hFound ⊢
    rw [hFits]
    split at hFound
    · exact absurd hFound (by simp)
    · rename_i hPlaced
      rw [if_neg hPlaced]
      exact ⟨_, rfl⟩

theorem isAmbiguous_constructorOf (g : GroupId) : (query.constructorOf g).isAmbiguous = false := by
  unfold constructorOf
  split <;> rfl

/-- The call is ambiguous if there are several matches in the list. -/
theorem ReachesDirect.isAmbiguous_iff (h : query.ReachesDirect) (hPosed : query.Posed) :
    query.isAmbiguous = true ↔ 2 ≤ (query.candidates.filter query.fits).length := by
  obtain ⟨impossible, hFound⟩ := hPosed.byToken_eq
  unfold isAmbiguous
  rw [h.resolve_eq, direct, hFound]
  dsimp only [bind, Except.bind]
  rcases query.candidates.filter query.fits with _ | ⟨n, _ | ⟨m, rest⟩⟩
  · cases query.namedClass? with
    | none => simp [pure, Except.pure, Outcome.isAmbiguous]
    | some group => simp [pure, Except.pure, isAmbiguous_constructorOf]
  · simp [pure, Except.pure, Outcome.isAmbiguous]
  · simp [pure, Except.pure, Outcome.isAmbiguous]

/-- A match that stands alone in the list is the target. -/
theorem ReachesDirect.resolve_of_single (h : query.ReachesDirect) (hPosed : query.Posed)
    {n : NodeId} (hOne : query.candidates.filter query.fits = [n]) :
    query.resolve = .ok (.found n none) := by
  obtain ⟨impossible, hFound⟩ := hPosed.byToken_eq
  rw [h.resolve_eq, direct, hFound, hOne]
  rfl

/-- A placeholder matches every call of its token. -/
theorem Posed.fits_placeholder (h : query.Posed) {g : GroupId} {n : NodeId}
    (hFile : (query.graph.group g).kind = .file) (hTop : query.callerTop? ≠ some (.group g))
    (hParent : (query.graph.node n).parent = .group g)
    (hConstructor : (query.graph.node n).isConstructor = false) :
    query.fits n = decide ((query.graph.node n).token = query.call.token) := by
  unfold fits
  split
  · obtain ⟨_, top, _, hSome, _⟩ := h.exists_callerTop?
    have hne : Parent.group g ≠ .group top := fun hSame => hTop (hSame ▸ hSome)
    rw [hSome, Option.any_some, isMemberTarget, hParent]
    simp [hne]
  · simp [isPlainTarget, parentGroup?, hParent, hFile, hConstructor]

/-- A match that is no placeholder is not where a call goes that is not resolved. -/
theorem Lands.target_ne {state : Linking} {n target : NodeId} (h : query.Lands state target)
    (hPosed : query.Posed) (hGrows : query.graph.Grows state.graph) (hOpen : query.isOpen = true)
    (hn : n ∈ query.candidates) (hFits : query.fits n = true)
    (hPresent : (query.graph.node n).isMissing = false) : target ≠ n := by
  rintro rfl
  have hListed := hPosed.candidates target hn
  have hLt := hPosed.sound.lt_of_listed hListed
  by_cases hFree : query.call.isFree = true
  · obtain ⟨hConstructor, p, hParent, hKind⟩ := (h.free hOpen hFree).housed
    rw [hGrows.node_field Node.isConstructor hLt] at hConstructor
    rw [hGrows.node_field Node.parent hLt] at hParent
    obtain ⟨g, hGroup, hMem⟩ := hPosed.sound.parent_of hListed
    rw [hParent] at hGroup
    cases hGroup
    rw [hGrows.group_field Group.kind (query.graph.group_lt_of_nodes hMem)] at hKind
    have hPlain : query.call.isMember = false := by
      have hOwner := (Bool.and_eq_true_iff.mp hFree).1
      simpa [Call.isMember] using hOwner
    simp [fits, hPlain, isPlainTarget, parentGroup?, hParent, hKind, hConstructor]
      at hFits
  · have hMissing := (h.missed (by simp [isMissed, hOpen, hFree])).missing
    rw [hGrows.node_field Node.isMissing hLt, hPresent] at hMissing
    exact absurd hMissing (by simp)

end Query

/-! ## The turn of a question -/

theorem Graph.Invents.nodup {graph after : Graph} {new : List NodeId}
    (h : graph.Invents new after) (hSound : graph.Sound) : new.Nodup := by
  induction h with
  | nothing => exact List.nodup_nil
  | node hNode hRest ih =>
      obtain ⟨p, hp⟩ := hNode.invention hSound
      have hSound' := hSound.insertNode hp.toInsertable
      refine List.nodup_cons.mpr ⟨fun hMem => ?_, ih hSound'⟩
      have hNew := (hRest.new_spec hSound' _ hMem).1
      rw [nodes_size_insertNode] at hNew
      exact absurd hNew (by simp)

namespace Linking

variable {options : LinkOptions} {imports : List NodeId} {state final : Linking}

/-- A question of a node is asked when nodes may have been made up for its earlier calls, which are
candidates then. -/
structure Posing (caller : NodeId) (graph : Graph) (candidates : List NodeId) (after : Graph)
    (query : Query) : Prop where
  posed : query.Posed
  caller_eq : query.caller = caller
  invents : ∃ new, graph.Invents new query.graph ∧ query.candidates = candidates ++ new
  grows : query.graph.Grows after

theorem posing_of_asked {heuristics : Bool} {caller : NodeId} {graph after : Graph}
    {candidates : List NodeId} {calls : List Call} {links : List Link} (hSound : graph.Sound)
    (hCaller : graph.Listed caller) (hCandidates : ∀ n ∈ candidates, graph.Listed n)
    (h : resolveCalls heuristics caller graph candidates calls = .ok (after, links)) :
    ∀ query ∈ asked heuristics caller graph candidates calls,
      Posing caller graph candidates after query := by
  induction calls generalizing graph candidates links with
  | nil => simp [asked]
  | cons call rest ih =>
      obtain ⟨new, hResolved⟩ := resolveCalls_spec hSound hCaller hCandidates h
      obtain ⟨outcome, others, hOutcome, hOthers, rfl, hAsked⟩ := exists_of_resolveCalls_cons h
      have hPosed : Query.Posed ⟨graph, heuristics, caller, candidates, call⟩ :=
        ⟨hSound, hCaller, hCandidates⟩
      have hFits := Query.resolve_fits hPosed hOutcome
      obtain ⟨hNext, _, _⟩ := hPosed.next hFits call
      rw [hAsked, List.forall_mem_cons]
      refine ⟨⟨hPosed, rfl, ⟨[], .nothing _, by simp⟩, hResolved.invents.grows hSound⟩, ?_⟩
      intro query hQuery
      have hLater := ih hNext.sound hNext.caller hNext.candidates hOthers query hQuery
      refine { hLater with invents := ?_ }
      obtain ⟨made, hInvents, hEq⟩ := hLater.invents
      cases outcome with
      | create node via =>
          refine ⟨⟨graph.nodes.size⟩ :: made, .node hFits hInvents, ?_⟩
          rw [hEq]
          simp [Outcome.apply]
      | _ => exact ⟨made, hInvents, hEq⟩

/-- The turn of a node when several are linked: the state before it, and the state after it. -/
structure Turn (options : LinkOptions) (imports : List NodeId) (state : Linking)
    (callers : List NodeId) (final : Linking) (front : List NodeId) (caller : NodeId)
    (back : List NodeId) (before next : Linking) : Prop where
  callers_eq : callers = front ++ caller :: back
  reaches : state.linkAll options imports front = .ok before
  links : before.link options imports caller = .ok next
  finishes : next.linkAll options imports back = .ok final

/-- The questions up to one of them: those of the nodes whose turn came before, and some of the same
node. -/
theorem exists_turn {callers : List NodeId} {first rest : List Query} {query : Query}
    (hLink : state.linkAll options imports callers = .ok final)
    (h : askedAll options imports state callers = first ++ query :: rest) :
    ∃ front caller back before next own others,
      Turn options imports state callers final front caller back before next ∧
      first = askedAll options imports state front ++ own ∧
      asked options.heuristics caller before.graph (before.candidates imports)
        (before.graph.node caller).calls = own ++ query :: others := by
  induction callers generalizing state first with
  | nil => exact absurd h (by simp [askedAll])
  | cons caller callers ih =>
      obtain ⟨middle, hFirst, hRest⟩ := exists_of_bind_eq_ok hLink
      rw [askedAll, hFirst] at h
      rcases split_of_append_eq h with ⟨others, hOwn⟩ | ⟨later, hEarlier, hLater⟩
      · exact ⟨[], caller, callers, state, middle, first, others, ⟨rfl, rfl, hFirst, hRest⟩, rfl,
          hOwn⟩
      · obtain ⟨front, turn, back, before, next, own, others, hTurn, hSplit, hAsked⟩ :=
          ih hRest hLater
        refine ⟨caller :: front, turn, back, before, next, own, others,
          ⟨by rw [hTurn.callers_eq]; rfl, ?_, hTurn.links, hTurn.finishes⟩, ?_, hAsked⟩
        · rw [linkAll, hFirst]
          exact hTurn.reaches
        · rw [hEarlier, hSplit, askedAll, hFirst, List.append_assoc]

/-- The questions of a node, seen from the state in which its calls are linked. -/
theorem posing_of_link {callers : List NodeId} {caller : NodeId} {next : Linking}
    (hReady : state.Linkable imports (caller :: callers))
    (hLink : state.link options imports caller = .ok next) :
    ∀ query ∈ asked options.heuristics caller state.graph (state.candidates imports)
        (state.graph.node caller).calls,
      Posing caller state.graph (state.candidates imports) next.graph query := by
  obtain ⟨⟨after, links⟩, hResolve, hConnect⟩ := exists_of_bind_eq_ok hLink
  obtain ⟨_, _, hDrawable⟩ := hReady.resolved hResolve
  obtain ⟨_, _, hDrawn⟩ := connectAll_spec hDrawable hConnect
  intro query hQuery
  have hPosing := posing_of_asked hReady.valid.sound hReady.caller_listed
    hReady.candidates_listed hResolve query hQuery
  exact { hPosing with grows := hPosing.grows.trans hDrawn.grows }

/-- The state at the turn of a node, and the questions of the node. -/
theorem Turn.spec {callers front back : List NodeId} {caller : NodeId} {before next : Linking}
    (h : Turn options imports state callers final front caller back before next)
    (hReady : state.Linkable imports callers) :
    before.Valid [] [] ∧ (∃ drawn, Progress state before drawn) ∧
      ∀ query ∈ asked options.heuristics caller before.graph (before.candidates imports)
          (before.graph.node caller).calls,
        Posing caller before.graph (before.candidates imports) final.graph query := by
  rw [h.callers_eq] at hReady
  have hBefore := linkAll_spec (hReady.mono (List.subset_append_left _ _)) h.reaches
  have hTurn := (hReady.linked hBefore).mono (List.subset_append_right _ _)
  obtain ⟨drawn, hProgress, _⟩ := hBefore.progress
  obtain ⟨_, hLast, _⟩ := (linkAll_spec (hTurn.rest h.links) h.finishes).progress
  refine ⟨hBefore.valid, ⟨drawn, hProgress⟩, fun query hQuery => ?_⟩
  have hPosing := posing_of_link hTurn h.links query hQuery
  exact { hPosing with grows := hPosing.grows.trans hLast.grows }

/-- Of the questions of the nodes in front of one and of the node itself, those of other nodes are
those of the nodes in front. -/
theorem filter_caller_ne {graph : Graph} {front : List NodeId} {caller : NodeId}
    {earlier own : List Query}
    (hEarlier : earlier.map (fun query => (query.caller, query.call)) = ownedCalls graph front)
    (hOwn : ∀ query ∈ own, query.caller = caller) (hFront : caller ∉ front) :
    ((earlier ++ own).filter fun query => decide (query.caller ≠ caller)) = earlier := by
  rw [List.filter_append, List.filter_eq_self.mpr, List.filter_eq_nil_iff.mpr, List.append_nil]
  · intro query hQuery
    simp [hOwn query hQuery]
  · intro query hQuery
    have hOwned : (query.caller, query.call) ∈ ownedCalls graph front := by
      rw [← hEarlier]
      exact List.mem_map.mpr ⟨query, hQuery, rfl⟩
    obtain ⟨n, hn, hCall⟩ := List.mem_flatMap.mp hOwned
    obtain ⟨_, _, hSame⟩ := List.mem_map.mp hCall
    rw [← (Prod.mk.inj hSame).1]
    exact decide_eq_true fun hEq => hFront (hEq ▸ hn)

end Linking

namespace CallMap

variable {files : FileSystem} {options : Options} {sources : List String}
variable {read : List FileOutline} {prepared : Prepared} {linked : Linking}
variable {first rest : List Query} {query : Query}

/-- The state in which a question of a run is asked; `first` are the questions asked before. -/
structure Stage (prepared : Prepared) (linked : Linking) (first : List Query) (query : Query)
    (before : Linking) : Prop where
  valid : before.Valid [] []
  progress : ∃ drawn, Linking.Progress prepared.start before drawn
  lacks : before.Lacks
    (missedCalls (first.filter fun other => decide (other.caller ≠ query.caller)))
  posing : Linking.Posing query.caller before.graph before.nodes linked.graph query
  caller_mem : query.caller ∈ prepared.start.nodes

/-- A node that calls something is listed once: no node in front of it is the same. -/
theorem Run.not_mem_front (h : Run files options sources read prepared linked)
    {front back : List NodeId} {caller : NodeId}
    (hSplit : prepared.start.nodes = front ++ caller :: back)
    (hCalls : (prepared.start.graph.node caller).calls ≠ []) : caller ∉ front := by
  obtain ⟨ns, settled, hPrepares⟩ := exists_of_prepare h.prepares
  have hStarted := hPrepares.started_ofCalls
  obtain ⟨others, hLined⟩ := hPrepares.lined
  have hMem : caller ∈ prepared.start.nodes := by
    rw [hSplit]
    exact List.mem_append_right _ List.mem_cons_self
  have hLoaded : (Graph.loaded read).1.Listed caller := by
    have hCases := hMem
    rw [hLined.nodes_eq] at hCases
    rcases List.mem_append.mp hCases with hOwn | hOther
    · exact hLined.own_loaded caller hOwn
    · -- Library nodes call nothing.
      have hRegular := hStarted.valid.sound.regular caller (hStarted.valid.node_lt caller hMem)
      exact absurd (hRegular.calls_nil (hRegular.library_bodiless
        (hLined.others_new caller hOther).2)) hCalls
  obtain ⟨_, hOwn⟩ := hLined.own_split hSplit hLoaded
  have hNodup := nodup_nodesOf hPrepares.ready.2.sound.toWellFormed hPrepares.ready.2.rooted
  rw [hOwn] at hNodup
  exact fun hFront => (List.nodup_append.mp hNodup).2.2 caller hFront caller List.mem_cons_self rfl

theorem Run.exists_stage (h : Run files options sources read prepared linked)
    (hAsked : prepared.asked options = first ++ query :: rest) :
    ∃ before, Stage prepared linked first query before := by
  obtain ⟨ns, settled, hPrepares⟩ := exists_of_prepare h.prepares
  have hStarted := hPrepares.started_ofCalls
  have hReady := hPrepares.linkable List.prefix_rfl
  obtain ⟨front, caller, back, before, next, own, others, hTurn, rfl, hOwn⟩ :=
    Linking.exists_turn h.finishes hAsked
  have hCallerMem : caller ∈ prepared.start.nodes := by
    rw [hTurn.callers_eq]
    simp
  obtain ⟨hValid, ⟨drawn, hProgress⟩, hPosing⟩ := hTurn.spec hReady
  have hFront := hPrepares.linkable (hTurn.callers_eq ▸ List.prefix_append _ _)
  have hLanded := Linking.linkAll_landed hFront hPrepares.lacks_start hTurn.reaches
  have hLed := Linking.linkAll_led hFront hTurn.reaches
  have hCalls : (prepared.start.graph.node caller).calls ≠ [] := by
    intro hNil
    rw [hProgress.grows.calls_eq, hNil] at hOwn
    exact absurd hOwn (by simp [Linking.asked])
  rw [hOwn] at hPosing
  have hQuery := hPosing query (by simp)
  obtain rfl := hQuery.caller_eq
  have hSame : ∀ other ∈ own, other.caller = query.caller := fun other hOther =>
    (hPosing other (List.mem_append_left _ hOther)).caller_eq
  have hFilter := Linking.filter_caller_ne hLed.calls hSame
    (h.not_mem_front hTurn.callers_eq hCalls)
  have hCandidates : before.candidates prepared.imports = before.nodes := by
    rw [Linking.candidates, hPrepares.imports_nil, List.append_nil]
  rw [hCandidates] at hQuery
  refine ⟨before, hValid, ⟨drawn, hProgress⟩, ?_, hQuery, hCallerMem⟩
  rw [hFilter]
  exact hLanded.lacks

/-! ## What the matches weigh -/

variable {before : Linking}

/-- The candidates are listed once, except that library nodes which a call names are listed
twice. -/
theorem Stage.candidates_perm {ns : List NodeId} {settled : Graph}
    (h : Stage prepared linked first query before)
    (hPrepares : Prepares options read ns settled prepared) :
    ∃ base twice : List NodeId, query.candidates.Perm (base ++ twice) ∧ base.Nodup ∧
      twice.Nodup ∧ (∀ n ∈ twice, n ∈ base) ∧
      ∀ n, n ∈ twice ↔ prepared.start.isNamed n = true := by
  have hReady := hPrepares.ready.2
  have hStarted := hPrepares.started_ofCalls
  obtain ⟨all, hNodes, hDirect, hAll, hAllNew⟩ := hStarted.nodes_eq
  obtain ⟨drawn, hProgress⟩ := h.progress
  obtain ⟨added, hAdded, hAddedNodup, hAddedNew⟩ := hProgress.nodes_eq
  obtain ⟨new, hInvents, hCandidates⟩ := h.posing.invents
  have hNewNodup := hInvents.nodup h.valid.sound
  have hNew : ∀ n ∈ new, before.graph.nodes.size ≤ n.index := fun n hn =>
    (hInvents.new_spec h.valid.sound n hn).1
  have hTwice := (List.nodup_append.mp (hReady.stocks
    (settled.nodesOf (Graph.loaded read).2)
    (callsOf settled (settled.nodesOf (Graph.loaded read).2))).nodup).1
  have hIff := @Prepares.isNamed_iff _ _ _ _ _ hPrepares
  generalize (Libraries.ofCalls settled {} (callsOf settled
    (settled.nodesOf (Graph.loaded read).2))).2.2 = direct at *
  have hOwnNodup := nodup_nodesOf hReady.sound.toWellFormed hReady.rooted
  have hOwn : ∀ n ∈ settled.nodesOf (Graph.loaded read).2,
      n.index < settled.nodes.size := fun n hn =>
    hReady.sound.lt_of_listed (listed_of_mem_nodesOf hn)
  generalize settled.nodesOf (Graph.loaded read).2 = own at *
  have hStartLt : ∀ n ∈ own ++ all, n.index < prepared.start.graph.nodes.size := by
    intro n hn
    apply hStarted.valid.node_lt
    rw [hNodes]
    rcases List.mem_append.mp hn with hn | hn <;> simp [hn]
  have hBeforeLt : ∀ n ∈ own ++ all ++ added, n.index < before.graph.nodes.size := by
    intro n hn
    apply h.valid.node_lt
    rw [hAdded, hNodes]
    rcases List.mem_append.mp hn with hn | hn
    · rcases List.mem_append.mp hn with hn | hn <;> simp [hn]
    · simp [hn]
  refine ⟨own ++ all ++ added ++ new, direct, ?_, ?_, hTwice, fun n hn => ?_, fun n => hIff.symm⟩
  · rw [hCandidates, hAdded, hNodes, List.perm_iff_count]
    intro n
    simp only [List.count_append]
    omega
  · -- What comes later has a higher index.
    have hStart := nodup_append_of_index hOwnNodup hAll hOwn hAllNew
    have hBefore := nodup_append_of_index hStart hAddedNodup hStartLt hAddedNew
    exact nodup_append_of_index hBefore hNewNodup hBeforeLt hNew
  · simp [hDirect n hn]

/-- Matches that are no placeholders count once, and library nodes that a call names twice. -/
theorem Stage.length_present {ns : List NodeId} {settled : Graph}
    (h : Stage prepared linked first query before)
    (hPrepares : Prepares options read ns settled prepared) :
    (query.candidates.filter fun n => !(query.graph.node n).isMissing && query.fits n).length =
      query.matching.length + (query.matching.filter prepared.start.isNamed).length := by
  obtain ⟨base, twice, hPerm, hBase, hTwice, hMem, hNamed⟩ := h.candidates_perm hPrepares
  have hFilter : query.matching.filter prepared.start.isNamed =
      query.matching.filter (· ∈ twice) := by
    apply List.filter_congr
    intro n _
    rw [Bool.eq_iff_iff, decide_eq_true_iff]
    exact (hNamed n).symm
  rw [hFilter]
  exact length_of_twice hPerm hBase hTwice hMem _

/-- The placeholders are no part of the caller's file. -/
theorem Stage.callerTop?_ne (h : Stage prepared linked first query before)
    (hNodes : (prepared.start.graph.group before.missingGroup).nodes = [])
    (hStart : prepared.start.Valid [] []) :
    query.callerTop? ≠ some (.group before.missingGroup) := by
  obtain ⟨new, hInvents, _⟩ := h.posing.invents
  obtain ⟨drawn, hProgress⟩ := h.progress
  obtain ⟨p, top, hMem, hTop, hChain⟩ := h.posing.posed.exists_callerTop?
  have hSound := h.valid.sound
  have hFlat : (query.graph.group before.missingGroup).subgroups = [] := by
    rw [hInvents.group_field hSound Group.subgroups]
    exact h.valid.missing_flat
  have hne : p ≠ before.missingGroup := by
    rintro rfl
    -- The group of the caller listed it at the start, when there were no placeholders.
    obtain ⟨g, hParent, hListed⟩ := hStart.sound.parent_of (hStart.nodes_listed _ h.caller_mem)
    have hSame := h.posing.posed.sound.parent_of_listed hMem
    rw [(hProgress.grows.trans (hInvents.grows hSound)).node_field Node.parent
      (hStart.node_lt _ h.caller_mem), hParent] at hSame
    cases hSame
    rw [hNodes] at hListed
    exact absurd hListed List.not_mem_nil
  have hOut := h.posing.posed.sound.not_mem_chain_of_flat
    (hInvents.roots hSound h.valid.stocked.rooted)
    (hInvents.covered hSound h.valid.stocked.covered) hFlat hne
  rw [hTop]
  intro hSame
  cases hSame
  exact hOut hChain

/-- The matches that are placeholders are those with the token of the call. -/
theorem Stage.length_missing (h : Stage prepared linked first query before)
    (hTop : query.callerTop? ≠ some (.group before.missingGroup)) :
    (query.candidates.filter fun n => (query.graph.node n).isMissing && query.fits n).length =
      query.blocking first := by
  obtain ⟨new, hInvents, hCandidates⟩ := h.posing.invents
  have hSound := h.valid.sound
  have hSame : ∀ n ∈ before.nodes, query.graph.node n = before.graph.node n := fun n hn =>
    hInvents.node_eq (h.valid.node_lt n hn)
  have hNew : (new.filter fun n => (query.graph.node n).isMissing && query.fits n) = [] := by
    rw [List.filter_eq_nil_iff]
    intro n hn
    have hInvented := (hInvents.new_spec hSound n hn).2.1
    simp only [Node.isInvented, Bool.and_eq_true, Bool.not_eq_true'] at hInvented
    simp [hInvented.2]
  have hOld : (before.nodes.filter fun n => (query.graph.node n).isMissing && query.fits n) =
      (before.missing.map Prod.snd).filter query.fits := by
    rw [← h.lacks.nodes_eq, List.filter_filter]
    apply List.filter_congr
    intro n hn
    rw [hSame n hn, Bool.and_comm]
  have hFile : (query.graph.group before.missingGroup).kind = .file := by
    rw [hInvents.group_field hSound Group.kind]
    exact h.valid.file_kind _ (by simp)
  rw [hCandidates, List.filter_append, hNew, List.append_nil, hOld, ← List.countP_eq_length_filter,
    List.countP_map, Query.blocking, ← h.lacks.table, List.countP_map]
  apply List.countP_congr
  intro e he
  have hNode := hSame e.2 (h.valid.missing_mem e he)
  obtain ⟨hConstructor, hParent⟩ := h.lacks.placed e he
  have hFits := h.posing.posed.fits_placeholder hFile hTop (n := e.2) (by rw [hNode]; exact hParent)
    (by rw [hNode]; exact hConstructor)
  rw [Function.comp_apply, hFits, hNode]
  rfl

/-- What the matches of a call weigh. -/
theorem Run.length_possible (h : Run files options sources read prepared linked)
    (hAsked : prepared.asked options = first ++ query :: rest) :
    (query.candidates.filter query.fits).length = query.weight prepared.start first := by
  obtain ⟨ns, settled, hPrepares⟩ := exists_of_prepare h.prepares
  obtain ⟨before, hStage⟩ := h.exists_stage hAsked
  obtain ⟨drawn, hProgress⟩ := hStage.progress
  have hNodes : (prepared.start.graph.group before.missingGroup).nodes = [] := by
    rw [hProgress.missingGroup_eq, hPrepares.start_eq]
    unfold startWith
    rw [group_addGroup_self]
    rfl
  have hTop := hStage.callerTop?_ne hNodes hPrepares.started_ofCalls.valid
  rw [Query.weight, ← hStage.length_present hPrepares, ← hStage.length_missing hTop]
  simpa only [List.filter_filter, Bool.not_not] using
    List.length_eq_length_filter_add (l := query.candidates.filter query.fits)
      (fun n => !(query.graph.node n).isMissing)

/-! ## When a call is ambiguous -/

/--
A call that no other rule answers is matched against the candidates, and reported as ambiguous
exactly if its matches weigh two or more. Each match that is no placeholder counts once, and once
more if it is a library node that a call names; each placeholder with the token of the call counts
once, and there is one for every text of a call that an earlier node made and that needed one. A
single match is where the edge of the call leads exactly if nothing else counts.
-/
theorem ambiguous_calls_of_build {language : Value} {chart : Chart}
    (h : (build files options language sources).result = .ok chart) :
    ∃ read prepared linked, Run files options sources read prepared linked ∧
      chart = cut options (chartOf linked.withMissing) ∧
      ∀ first query rest, prepared.asked options = first ++ query :: rest → query.ReachesDirect →
        linked.ambiguous = (first.filter Query.isAmbiguous).map Query.call ++
          (if 2 ≤ query.weight prepared.start first then [query.call] else []) ++
          (rest.filter Query.isAmbiguous).map Query.call ∧
        ∃ edge, linked.edges[first.length]? = some edge ∧ edge.source = query.caller ∧
          ∀ n, query.matching = [n] →
            (edge.target = n ↔ query.weight prepared.start first = 1) := by
  obtain ⟨read, prepared, linked, hRun, hChart⟩ := exists_run_of_build h
  refine ⟨read, prepared, linked, hRun, hChart, fun first query rest hAsked hDirect => ?_⟩
  obtain ⟨_, _, _, hStarted, _, _⟩ := started_of_prepare hRun.prepares
  obtain ⟨before, hStage⟩ := hRun.exists_stage hAsked
  have hPosed := hStage.posing.posed
  have hIff := hDirect.isAmbiguous_iff hPosed
  have hWeight := hRun.length_possible hAsked
  rw [hWeight] at hIff
  refine ⟨?_, ?_⟩
  · rw [hRun.led.ambiguous, hStarted.ambiguous_nil, hAsked, List.filter_append, List.filter_cons]
    simp only [hIff]
    split <;> simp
  · obtain ⟨edge, hEdge, hLeads, hLands⟩ := hRun.exists_edge_at hAsked
    refine ⟨edge, hEdge, hLeads.source_eq, fun n hMatching => ?_⟩
    have hMem : n ∈ query.matching := by simp [hMatching]
    rw [Query.matching, List.mem_dedup, List.mem_filter, Bool.and_eq_true, Bool.not_eq_true']
      at hMem
    obtain ⟨hCandidate, hPresent, hFits⟩ := hMem
    have hAmong : n ∈ query.candidates.filter query.fits :=
      List.mem_filter.mpr ⟨hCandidate, hFits⟩
    rw [← hWeight] at hIff ⊢
    constructor
    · intro hTarget
      have hPositive := List.length_pos_of_mem hAmong
      by_contra hMore
      have hAmbiguous := hIff.mpr (by omega)
      exact hLands.target_ne hPosed hStage.posing.grows (Query.isOpen_of_isAmbiguous hAmbiguous)
        hCandidate hFits hPresent hTarget
    · intro hOne
      obtain ⟨m, hm⟩ := List.length_eq_one_iff.mp hOne
      rw [hm, List.mem_singleton] at hAmong
      subst hAmong
      exact hLeads.target_eq n none (hDirect.resolve_of_single hPosed hm)

/-- A program of two functions. The first calls a library, the second a method of that name on
something unknown. -/
def namedModule : Tree :=
  .moduleOf
    [.importAt 1 "requests",
     .functionAt 2 "f" [.statementAt 3 (.callAt 3 (.memberAt 3 (.nameAt 3 "requests") "get"))],
     .functionAt 4 "g" [.statementAt 5 (.callAt 5 (.memberAt 5 (.nameAt 5 "x") "get"))]]

def namedFiles : FileSystem := { entries := [(["a.py"], .file { content := .ok namedModule })] }

/-- The only match of the second call is the library node. It counts twice, so the call is ambiguous
and its edge leads elsewhere. -/
theorem ambiguous_calls_of_build_named :
    ∃ chart read prepared linked first query edge n,
      (build namedFiles {} (.text "py") ["a.py"]).result = .ok chart ∧
      Run namedFiles {} ["a.py"] read prepared linked ∧
      prepared.asked {} = [first, query] ∧ query.ReachesDirect ∧ query.matching = [n] ∧
      query.weight prepared.start [first] = 2 ∧ linked.ambiguous = [query.call] ∧
      linked.edges[1]? = some edge ∧ edge.target ≠ n := by
  obtain ⟨chart, hChart, _⟩ := exists_ok_of_any
    (show (build namedFiles {} (.text "py") ["a.py"]).result.toOption.any
      (fun _ => true) = true by decide +kernel)
  obtain ⟨read, prepared, linked, hRun, _, hCalls⟩ := ambiguous_calls_of_build hChart
  have hTest := hRun.test_of_passes
    (show passes namedFiles {} ["a.py"] (fun _ prepared _ =>
      (prepared.asked {}).length == 2 &&
      ((prepared.asked {})[0]?.all fun first => !first.isAmbiguous) &&
      (prepared.asked {})[1]?.all fun query => query.isDirect && query.matching.length == 1 &&
        query.weight prepared.start ((prepared.asked {}).take 1) == 2) = true by decide +kernel)
  rw [Bool.and_eq_true, Bool.and_eq_true, beq_iff_eq] at hTest
  obtain ⟨⟨hTwo, hFirst⟩, hLast⟩ := hTest
  obtain ⟨first, query, hAsked⟩ := List.length_eq_two.mp hTwo
  simp only [hAsked, List.getElem?_cons_zero, List.getElem?_cons_succ, Option.all_some,
    List.take_succ_cons, List.take_zero, Bool.and_eq_true, Bool.not_eq_true', beq_iff_eq]
    at hFirst hLast
  obtain ⟨⟨hDirect, hOne⟩, hWeight⟩ := hLast
  obtain ⟨n, hn⟩ := List.length_eq_one_iff.mp hOne
  have hReaches := Query.reachesDirect_of_isDirect hDirect
  obtain ⟨hAmbiguous, edge, hEdge, _, hTarget⟩ := hCalls [first] query [] hAsked hReaches
  refine ⟨chart, read, prepared, linked, first, query, edge, n, hChart, hRun, hAsked, hReaches,
    hn, hWeight, ?_, hEdge, fun hSame => ?_⟩
  · simpa [hWeight, hFirst] using hAmbiguous
  · have hLight := (hTarget n hn).mp hSame
    omega

/-- A class with a method, a function that calls something of that name which is defined nowhere,
and a function that calls the method on something unknown. -/
def strayModule : Tree :=
  .moduleOf
    [.classAt 1 "A" [.functionAt 2 "load" [.passAt 3]],
     .functionAt 4 "f" [.statementAt 5 (.callAt 5 (.nameAt 5 "load"))],
     .functionAt 6 "g" [.statementAt 7 (.callAt 7 (.memberAt 7 (.nameAt 7 "x") "load"))]]

def strayFiles : FileSystem := { entries := [(["a.py"], .file { content := .ok strayModule })] }

/-- The method is the only match of the last call. Yet the call is reported as ambiguous and its
edge leads elsewhere, because the call in front of it was not resolved. -/
theorem single_match_reported_stray :
    ∃ read prepared linked first query edge n,
      Run strayFiles {} ["a.py"] read prepared linked ∧ prepared.asked {} = [first, query] ∧
      query.ReachesDirect ∧ query.matching = [n] ∧ query.call ∈ linked.ambiguous ∧
      linked.edges[1]? = some edge ∧ edge.target ≠ n := by
  obtain ⟨chart, hChart, _⟩ := exists_ok_of_any
    (show (build strayFiles {} (.text "py") ["a.py"]).result.toOption.any
      (fun _ => true) = true by decide +kernel)
  obtain ⟨read, prepared, linked, hRun, _⟩ := exists_run_of_build hChart
  have hTest := hRun.test_of_passes
    (show passes strayFiles {} ["a.py"] (fun _ prepared linked =>
      (prepared.asked {}).length == 2 &&
      linked.edges[1]?.any fun edge => (prepared.asked {})[1]?.all fun query =>
        query.isDirect && query.matching.length == 1 &&
          decide (query.call ∈ linked.ambiguous) && decide (edge.target ∉ query.matching)) = true
      by decide +kernel)
  rw [Bool.and_eq_true, beq_iff_eq, Option.any_eq_true] at hTest
  obtain ⟨hTwo, edge, hEdge, hLast⟩ := hTest
  obtain ⟨first, query, hAsked⟩ := List.length_eq_two.mp hTwo
  simp only [hAsked, List.getElem?_cons_zero, List.getElem?_cons_succ, Option.all_some,
    Bool.and_eq_true, beq_iff_eq, decide_eq_true_eq] at hLast
  obtain ⟨⟨⟨hDirect, hOne⟩, hAmbiguous⟩, hTarget⟩ := hLast
  obtain ⟨n, hn⟩ := List.length_eq_one_iff.mp hOne
  rw [hn, List.mem_singleton] at hTarget
  exact ⟨read, prepared, linked, first, query, edge, n, hRun, hAsked,
    Query.reachesDirect_of_isDirect hDirect, hn, hAmbiguous, hEdge, hTarget⟩

end CallMap

end CallGraph
