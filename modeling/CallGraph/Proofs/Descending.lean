import CallGraph.Proofs.Constructing
import CallGraph.Proofs.Definitions
import CallGraph.Proofs.Weighing

/-!
# Calls of inherited methods

A method calls `self.m()`, and its class has no `m`. The analysis then turns to the methods that the
class inherits. These are collected once, before calls are linked, and per class only from what its
own base list names: a class does not pass on what it inherits itself. So the call is linked to the
method of a direct base, and that of a base further up is not found.

For an object made by `object = C()` the scopes say that `object` holds a `C`, and `object.m()` is
read as a call of `m` on `C`. Such a call is looked up by its signature, without regard to bases,
before any rule about classes comes up. Since `C` has no `m`, a library node answers.

The inherited nodes are counted (`Graph.count_inheritance`), because a base that is mentioned twice
makes the call ambiguous.

## Main definitions

* `Graph.Ancestor`, `Graph.Lineage` — the classes above a class, and which of them defines a method.
* `Graph.InheritsOnce` — a class inherits a method directly, in one way.
* `CallMap.SelfCall` — how a call on `self` is linked.

## Main results

* `Graph.Lineage.namesakes_eq_iff` — when a method is all that a class inherits under a name.
* `CallMap.Run.target_self_iff` — when a call on `self` leads to the method of an ancestor.
* `CallMap.Run.missed_object` — a call on an object never does.
* `CallMap.inherited_calls_of_build` — both, for the calls that stand in definitions.
-/

namespace CallGraph

open CallGraph.Graph

/-! ## Ancestors -/

namespace Graph

variable {graph : Graph} {files : List GroupId}

/-- One class is a base of another. -/
def HasBase (graph : Graph) (c d : GroupId) : Prop :=
  (graph.group d).kind = .classBody ∧ (graph.group d).token ∈ (graph.group c).bases

instance (graph : Graph) (c d : GroupId) : Decidable (graph.HasBase c d) :=
  inferInstanceAs (Decidable (_ ∧ _))

/-- One class is a direct or indirect base of another. -/
def Ancestor (graph : Graph) (c d : GroupId) : Prop :=
  Relation.TransGen graph.HasBase c d

/-- Of all ancestors of a class `c`, only `d` defines the method `m`, by the one node `k`; the class
itself neither defines nor nests anything of that name. Classes have names of their own. -/
structure Lineage (graph : Graph) (files : List GroupId) (c d : GroupId) (m : String)
    (k : NodeId) : Prop where
  distinct : ∀ a b, (graph.group a).kind = .classBody → (graph.group b).kind = .classBody →
    (graph.group a).token = (graph.group b).token → a = b
  not_file : ∀ a, (graph.group a).kind = .classBody → ∀ f ∈ files,
    (graph.group a).token ≠ (graph.group f).token
  isClass : (graph.group c).kind = .classBody
  undefined : ∀ n ∈ (graph.group c).nodes, (graph.node n).token ≠ m
  not_nested : ∀ s ∈ (graph.group c).subgroups, (graph.group s).token ≠ m
  ancestor : graph.Ancestor c d
  listed : k ∈ (graph.group d).nodes
  token_eq : (graph.node k).token = m
  only : ∀ a, graph.Ancestor c a → ∀ n ∈ (graph.group a).nodes, (graph.node n).token = m → n = k

/-- The class `c` mentions the class `d` once among its bases, and no file whose name ends in a base
lists anything of the name `m`, as far as it is kept. -/
def InheritsOnce (graph : Graph) (files : List GroupId) (kept : List NodeId) (c d : GroupId)
    (m : String) : Prop :=
  (graph.group c).bases.count (graph.group d).token = 1 ∧
    ∀ f ∈ files, Dotted.last (graph.group f).token ∈ (graph.group c).bases →
      ∀ n ∈ (graph.group f).nodes, n ∈ kept → (graph.node n).token ≠ m

/-- Under the keys that end in a base, a node is listed once if its group is of such a name. -/
theorem count_flatMap_nodesNamed (hGraph : graph.WellFormed) (hRoots : graph.Roots files)
    {d : GroupId} (hd : d ∈ graph.groupsOf files) {k : NodeId} (hk : k ∈ (graph.group d).nodes)
    (base : String) :
    (((distinct ((graph.groupsOf files).map graph.fullToken)).filter fun key =>
      decide (Dotted.last key = base)).flatMap (graph.nodesNamed (graph.groupsOf files))).count k =
      if Dotted.last (graph.group d).token = base then 1 else 0 := by
  have hNodup : (((distinct ((graph.groupsOf files).map graph.fullToken)).filter fun key =>
      decide (Dotted.last key = base)).flatMap
        (graph.nodesNamed (graph.groupsOf files))).Nodup := by
    rw [List.nodup_flatMap]
    refine ⟨fun key _ => hGraph.nodup_flatMap_nodes ((nodup_groupsOf hGraph hRoots).filter _),
      ((nodup_distinct _).filter _).imp ?_⟩
    intro key key' hne n hn hn'
    obtain ⟨g, _, rfl, hg⟩ := mem_nodesNamed.mp hn
    obtain ⟨h, _, rfl, hh⟩ := mem_nodesNamed.mp hn'
    exact hne (congrArg graph.fullToken (hGraph.group_eq_of_listed hg hh))
  rw [hNodup.count]
  refine if_congr ?_ rfl rfl
  simp only [List.mem_flatMap, List.mem_filter, mem_distinct, List.mem_map, decide_eq_true_eq]
  constructor
  · rintro ⟨key, ⟨_, hKey⟩, hn⟩
    obtain ⟨g, _, rfl, hg⟩ := mem_nodesNamed.mp hn
    rw [hGraph.group_eq_of_listed hk hg, ← last_fullToken]
    exact hKey
  · intro hBase
    exact ⟨graph.fullToken d, ⟨⟨d, hd, rfl⟩, (last_fullToken graph d).trans hBase⟩,
      mem_nodesNamed.mpr ⟨d, hd, rfl, hk⟩⟩

/-- A node is inherited as often as the name of its group comes up among the bases. -/
theorem count_inheritance (hGraph : graph.WellFormed) (hRoots : graph.Roots files) {d : GroupId}
    (hd : d ∈ graph.groupsOf files) {k : NodeId} (hk : k ∈ (graph.group d).nodes) (g : GroupId) :
    (graph.inheritance files g).flatten.count k =
      (graph.group g).bases.count (Dotted.last (graph.group d).token) := by
  rw [inheritance_eq]
  induction (graph.group g).bases with
  | nil => rfl
  | cons base rest ih =>
      rw [List.flatMap_cons, List.flatten_append, List.count_append, ih, List.count_cons,
        ← List.flatMap_def, count_flatMap_nodesNamed hGraph hRoots hd hk, Nat.add_comm]
      exact congrArg _ (if_congr (by rw [beq_iff_eq, eq_comm]) rfl rfl)

namespace Lineage

variable {c d : GroupId} {m : String} {k : NodeId}

theorem class_of_ancestor {a : GroupId} (h : graph.Ancestor c a) :
    (graph.group a).kind = .classBody := by
  cases h with
  | single hBase => exact hBase.1
  | tail _ hBase => exact hBase.1

/-- Leaving out other nodes does not change who defines a method. -/
theorem removeNodes (h : graph.Lineage files c d m k) (hGraph : graph.WellFormed)
    {ns : List NodeId} (hk : k ∉ ns) : (graph.removeNodes ns).Lineage files c d m k := by
  have hGroup := group_removeNodes hGraph ns
  have hNode := (shrinks_removeNodes graph ns).node_eq
  have hBase : (graph.removeNodes ns).HasBase = graph.HasBase := by
    funext a b
    simp only [HasBase, hGroup]
  have hAncestor : (graph.removeNodes ns).Ancestor = graph.Ancestor := by
    funext a b
    rw [Ancestor, Ancestor, hBase]
  refine
    { distinct := ?_, not_file := ?_, isClass := ?_, undefined := ?_, not_nested := ?_
      ancestor := by rw [hAncestor]; exact h.ancestor
      listed := ?_, token_eq := ?_, only := ?_ }
  · simpa only [hGroup] using h.distinct
  · simpa only [hGroup] using h.not_file
  · simpa only [hGroup] using h.isClass
  · intro n hn
    rw [hGroup] at hn
    rw [hNode]
    exact h.undefined n (List.mem_filter.mp hn).1
  · simpa only [hGroup] using h.not_nested
  · rw [hGroup]
    exact List.mem_filter.mpr ⟨h.listed, decide_eq_true hk⟩
  · rw [hNode]
    exact h.token_eq
  · intro a ha n hn
    rw [hAncestor] at ha
    rw [hGroup] at hn
    rw [hNode]
    exact h.only a ha n (List.mem_filter.mp hn).1

/-- The method is all that the class inherits under its name exactly if the class that defines it is
a direct base, mentioned once, and no file whose name ends in a base lists anything of the name. -/
theorem namesakes_eq_iff (h : graph.Lineage files c d m k) (hFiles : graph.OfFiles files)
    (hCovered : graph.Covered files) :
    ((graph.inheritance files c).flatten.filter fun n => decide ((graph.node n).token = m)) = [k] ↔
      (graph.group c).bases.count (graph.group d).token = 1 ∧
        ∀ f ∈ files, Dotted.last (graph.group f).token ∈ (graph.group c).bases →
          ∀ n ∈ (graph.group f).nodes, (graph.node n).token ≠ m := by
  have hClass := class_of_ancestor h.ancestor
  have hd : d ∈ graph.groupsOf files := by
    obtain ⟨r, hr, hBelow⟩ := hCovered d (graph.group_lt_of_nodes h.listed)
    exact (mem_groupsOf hFiles.toWellFormed hFiles.rooted).mpr ⟨r, hr, hBelow⟩
  have hCount : ((graph.inheritance files c).flatten.filter fun n =>
      decide ((graph.node n).token = m)).count k =
        (graph.group c).bases.count (graph.group d).token := by
    rw [List.count_filter (by simp [h.token_eq]),
      count_inheritance hFiles.toWellFormed hFiles.rooted hd h.listed, hFiles.last_token hClass]
  constructor
  · intro hOnly
    refine ⟨by rw [← hCount, hOnly, List.count_singleton_self], fun f hf hBase n hn hToken => ?_⟩
    have hMem : n ∈ [k] := by
      rw [← hOnly]
      exact List.mem_filter.mpr
        ⟨hFiles.mem_inheritance_iff.mpr (Or.inr ⟨f, hf, hBase, hn⟩), decide_eq_true hToken⟩
    rw [List.mem_singleton.mp hMem] at hn
    exact hFiles.not_methodOf hf hn [(graph.group d).token]
      ⟨d, hd, hClass, List.mem_singleton.mpr rfl, h.listed⟩
  · rintro ⟨hOnce, hNone⟩
    refine (eq_singleton_iff_count fun n hn => ?_).mpr (hCount.trans hOnce)
    obtain ⟨hInherited, hToken⟩ := List.mem_filter.mp hn
    rcases hFiles.mem_inheritance_iff.mp hInherited with
      ⟨a, _, hKind, hBase, hna⟩ | ⟨f, hf, hBase, hnf⟩
    · exact h.only a (.single ⟨hKind, hBase⟩) n hna (of_decide_eq_true hToken)
    · exact absurd (of_decide_eq_true hToken) (hNone f hf hBase n hnf)

end Lineage

end Graph

/-! ## Calls on `self` -/

theorem Outcome.ofPossible?_eq_none_iff {via : Option Via} {nodes : List NodeId} :
    Outcome.ofPossible? via nodes = none ↔ nodes = [] := by
  cases nodes with
  | nil => simp [Outcome.ofPossible?]
  | cons n rest => cases rest <;> simp [Outcome.ofPossible?]

namespace Query

variable {query : Query} {c : GroupId} {edge : Edge} {state : Linking} {k : NodeId}

/-- In a class without a nested class of the name, a call on `self` goes to a node of the class,
else to what the class inherits. -/
theorem viaSelf?_eq (hHeuristics : query.heuristics = true)
    (hOwner : query.call.owner = some "self") (hClass : query.callerClass? = some c)
    (hNested : query.nestedClass? c = none) :
    query.viaSelf? = (Outcome.ofPossible? none (query.sameToken (query.graph.group c).nodes)).or
      (Outcome.ofPossible? none (query.inheritedNamesakes c)) := by
  unfold viaSelf?
  rw [hHeuristics, hOwner, hClass]
  simp only [Bool.true_and, decide_true, if_true, Option.bind_some, hNested]
  cases Outcome.ofPossible? none (query.sameToken (query.graph.group c).nodes) <;> rfl

/-- What the rule for `self` says counts, and else the signature of the call. -/
theorem resolve_of_self {n : NodeId} (hOwner : query.call.owner = some "self")
    (hFound : query.bySignature? = some n) :
    query.resolve = .ok (query.viaSelf?.getD (.found n none)) := by
  have hSuper : query.viaSuper? = none := by
    unfold viaSuper?
    rw [hOwner]
    simp
  unfold resolve early?
  rw [hSuper, hFound, Option.none_or]
  cases query.viaSelf? <;> rfl

/-- Of several nodes none is preferred, so the edge leads to one that is there exactly if it is the
only one. -/
theorem target_eq_iff_of_ofPossible? {nodes : List NodeId} {outcome : Outcome} {owner : String}
    (hOwner : query.call.owner = some owner) (hLeads : query.Leads edge)
    (hLands : query.Lands state edge.target) (hResolve : query.resolve = .ok outcome)
    (hPossible : Outcome.ofPossible? none nodes = some outcome)
    (hPresent : (state.graph.node k).isMissing = false) : edge.target = k ↔ nodes = [k] := by
  cases nodes with
  | nil => exact absurd hPossible (by simp [Outcome.ofPossible?])
  | cons n rest =>
      cases rest with
      | nil =>
          cases hPossible
          rw [hLeads.target_eq n none hResolve]
          simp
      | cons other rest =>
          cases hPossible
          -- The call is ambiguous, so its edge leads to a placeholder.
          have hMissed : query.isMissed = true := by
            simp [isMissed, isOpen, hResolve, Call.isFree, hOwner]
          have hMissing := (hLands.missed hMissed).missing
          constructor
          · rintro rfl
            exact absurd (hPresent.symm.trans hMissing) (by simp)
          · intro hSame
            exact absurd hSame (by simp)

/-- The edge of a call on `self` leads to a node that neither the class lists nor the signature of
the call asks for exactly if the class lists nothing of the name and inherits this node only. -/
theorem target_self_iff {s : NodeId} (hHeuristics : query.heuristics = true)
    (hOwner : query.call.owner = some "self") (hClass : query.callerClass? = some c)
    (hNested : query.nestedClass? c = none) (hLeads : query.Leads edge)
    (hLands : query.Lands state edge.target) (hPresent : (state.graph.node k).isMissing = false)
    (hOut : k ∉ (query.graph.group c).nodes) (hFound : query.bySignature? = some s)
    (hOther : s ≠ k) :
    edge.target = k ↔ query.sameToken (query.graph.group c).nodes = [] ∧
      query.inheritedNamesakes c = [k] := by
  have hVia := viaSelf?_eq hHeuristics hOwner hClass hNested
  have hResolve := resolve_of_self hOwner hFound
  cases hOwn : Outcome.ofPossible? none (query.sameToken (query.graph.group c).nodes) with
  | some outcome =>
      rw [hVia, hOwn, Option.some_or, Option.getD_some] at hResolve
      rw [target_eq_iff_of_ofPossible? hOwner hLeads hLands hResolve hOwn hPresent]
      constructor
      · intro hOnly
        exact absurd (mem_of_mem_sameToken (hOnly ▸ List.mem_singleton.mpr rfl)) hOut
      · rintro ⟨hNone, _⟩
        rw [Outcome.ofPossible?_eq_none_iff.mpr hNone] at hOwn
        exact absurd hOwn (by simp)
  | none =>
      rw [hVia, hOwn, Option.none_or] at hResolve
      rw [and_iff_right (Outcome.ofPossible?_eq_none_iff.mp hOwn)]
      cases hInherited : Outcome.ofPossible? none (query.inheritedNamesakes c) with
      | some outcome =>
          rw [hInherited, Option.getD_some] at hResolve
          exact target_eq_iff_of_ofPossible? hOwner hLeads hLands hResolve hInherited hPresent
      | none =>
          rw [hInherited, Option.getD_none] at hResolve
          rw [hLeads.target_eq s none hResolve, Outcome.ofPossible?_eq_none_iff.mp hInherited]
          simp [hOther]

end Query

/-! ## Inherited methods in a run -/

namespace CallMap

variable {files : FileSystem} {options : Options} {sources : List String}
variable {read : List FileOutline} {prepared : Prepared} {linked : Linking}
variable {ns : List NodeId} {settled : Graph}

/-- Settling bindings leaves what was inherited as it is. -/
theorem Prepares.inherited_eq (h : Prepares options read ns settled prepared)
    (hHeuristics : options.heuristics = true) {g : GroupId}
    (hg : g ∈ ((Graph.loaded read).1.removeNodes ns).groupsOf (Graph.loaded read).2) :
    (settled.group g).inherited = ((Graph.loaded read).1.removeNodes ns).inheritance
      (Graph.loaded read).2 g := by
  have hLoaded := loading_insertFiles read
  have hShrinks := shrinks_removeNodes (Graph.loaded read).1 ns
  have hInherits := inheritedBy_inherit (hShrinks.wellFormed hLoaded.toWellFormed)
    (hShrinks.roots hLoaded.rooted)
  have hSettles := h.settles
  rw [result_settle] at hSettles
  simp only [hHeuristics, if_true] at hSettles
  obtain ⟨middle, hMiddle, hSettles⟩ := exists_of_bind_eq_ok hSettles
  cases hSettles
  obtain ⟨hRebinds, hBound, hGroups⟩ :=
    settle_spec (rebindable_any _) (bound_any _) hMiddle
  obtain ⟨_, _, hGroups'⟩ := passArguments_spec (rebindable_any middle) hBound fun n hn =>
    (hInherits.toRebinds.trans hRebinds).listed.mpr (listed_of_mem_nodesOf hn)
  rw [hGroups', hGroups, hInherits.group_of_mem g hg]

/-- What is left of a group are the nodes that are there when linking starts. -/
theorem Prepares.mem_left_iff (h : Prepares options read ns settled prepared) {g : GroupId}
    {n : NodeId} :
    n ∈ (((Graph.loaded read).1.removeNodes ns).group g).nodes ↔
      n ∈ ((Graph.loaded read).1.group g).nodes ∧ n ∈ prepared.start.nodes := by
  have hWell := (loading_insertFiles read).toWellFormed
  obtain ⟨hRebinds, hReady⟩ := h.ready
  obtain ⟨others, hLined⟩ := h.lined
  rw [mem_nodes_removeNodes hWell]
  refine and_congr_right fun hn => ?_
  have hLeft : settled.Listed n ↔ n ∉ ns := by
    rw [hRebinds.listed, listed_removeNodes hWell]
    exact and_iff_right ⟨g, hn⟩
  rw [← hLeft, ← hReady.mem_nodesOf]
  constructor
  · intro hOwn
    rw [hLined.nodes_eq]
    exact List.mem_append_left _ hOwn
  · exact fun hStart => hLined.mem_own hStart ⟨g, hn⟩

/-- A call and its edge come from one question, which is asked in some state. -/
theorem Run.exists_stage_of_mem (h : Run files options sources read prepared linked)
    {caller : NodeId} {call : Call} {edge : Edge} (hPair : ((caller, call), edge) ∈
      (Linking.ownedCalls prepared.start.graph prepared.start.nodes).zip linked.edges) :
    ∃ query ∈ prepared.asked options, query.caller = caller ∧ query.call = call ∧
      query.Posed ∧ query.Leads edge ∧ query.Lands linked edge.target := by
  obtain ⟨i, hi⟩ := List.mem_iff_getElem?.mp hPair
  obtain ⟨hOwned, hEdge⟩ := List.getElem?_zip_eq_some.mp hi
  rw [← h.led.calls, List.getElem?_map] at hOwned
  obtain ⟨query, hQuery, hSame⟩ := Option.map_eq_some_iff.mp hOwned
  obtain ⟨rfl, rfl⟩ := Prod.mk.inj hSame
  obtain ⟨hLt, rfl⟩ := List.getElem?_eq_some_iff.mp hQuery
  have hAsked : prepared.asked options = (prepared.asked options).take i ++
      (prepared.asked options)[i] :: (prepared.asked options).drop (i + 1) := by
    rw [← List.drop_eq_getElem_cons, List.take_append_drop]
  obtain ⟨before, hStage⟩ := h.exists_stage hAsked
  obtain ⟨edge', hEdge', hLeads, hLands⟩ := h.exists_edge_at hAsked
  rw [List.length_take_of_le (Nat.le_of_lt hLt), hEdge] at hEdge'
  cases hEdge'
  exact ⟨_, List.getElem_mem hLt, rfl, rfl, hStage.posing.posed, hLeads, hLands⟩

/-- What a loaded group has that neither inheriting nor linking changes. -/
theorem Prepares.group_field {α : Type _} (h : Prepares options read ns settled prepared)
    {after : Graph} (hGrows : prepared.start.graph.Grows after) (field : Group → α)
    {g : GroupId} (hg : g.index < (Graph.loaded read).1.groups.size)
    (hField : ∀ group parent nodes subgroups lists,
      field { group with
        parent := parent, nodes := nodes, subgroups := subgroups, inherited := lists } =
      field group := by intros; rfl) :
    field (after.group g) = field ((Graph.loaded read).1.group g) := by
  obtain ⟨hRebinds, _⟩ := h.ready
  obtain ⟨_, hStarted, _⟩ := h.started
  have hSize : settled.groups.size = (Graph.loaded read).1.groups.size :=
    hRebinds.groups_size.trans (shrinks_removeNodes (Graph.loaded read).1 ns).size_eq
  rw [(hStarted.grows.trans hGrows).group_field field (hSize ▸ hg)
      (fun group parent nodes subgroups => hField group parent nodes subgroups group.inherited),
    group_field_settled hRebinds field
      fun group nodes subgroups lists => hField group group.parent nodes subgroups lists]

section Question

variable {query : Query} {c d : GroupId} {m : String} {k : NodeId}

section Prepares

variable (h : Prepares options read ns settled prepared)
include h

/-- A method is asked about as a method of its class. -/
theorem Prepares.callerClass?_eq (hAfter : query.After prepared.start options.heuristics)
    (hClass : ((Graph.loaded read).1.group c).kind = .classBody)
    (hCaller : query.caller ∈ ((Graph.loaded read).1.group c).nodes) :
    query.callerClass? = some c := by
  have hLoaded := loading_insertFiles read
  have hParent : (query.graph.node query.caller).parent = .group c := by
    rw [h.node_field hAfter.grows Node.parent (hLoaded.listed_lt hCaller)]
    exact hLoaded.parent_of_listed hCaller
  have hKind : (query.graph.group c).kind = .classBody := by
    rw [h.group_field hAfter.grows Group.kind
      ((Graph.loaded read).1.group_lt_of_nodes hCaller)]
    exact hClass
  simp [Query.callerClass?, parentGroup?, hParent, hKind]

/-- A class gets no further classes while calls are linked. -/
theorem Prepares.nestedClass?_eq_none
    (hAfter : query.After prepared.start options.heuristics) (hPosed : query.Posed)
    (hClass : query.callerClass? = some c)
    (hNone : ∀ s ∈ ((Graph.loaded read).1.group c).subgroups,
      ((Graph.loaded read).1.group s).token ≠ query.call.token) :
    query.nestedClass? c = none := by
  have hLoaded := loading_insertFiles read
  obtain ⟨hRebinds, _⟩ := h.ready
  obtain ⟨_, hStarted, _⟩ := h.started
  refine List.find?_eq_none.mpr fun s hs => ?_
  rcases (hStarted.grows.trans hAfter.grows).library_of_hung hs with hOld | hLibrary
  · rw [hRebinds.subgroups_of_group, subgroups_removeNodes hLoaded.toWellFormed] at hOld
    rw [h.group_field hAfter.grows Group.token (hLoaded.subgroup_lt hOld)]
    simpa using hNone s hOld
  · -- What is hung into groups are packages, but a class contains classes only.
    have hPackage := hPosed.sound.library_kind hLibrary
    rw [hPosed.sound.inner_class hs (by rw [Query.callerClass?_kind hClass]; simp)] at hPackage
    exact absurd hPackage (by decide)

/-- The inherited methods of a class stay what they were before linking. -/
theorem Prepares.inheritedNamesakes_eq (hHeuristics : options.heuristics = true)
    (hAfter : query.After prepared.start options.heuristics)
    (hc : c.index < (Graph.loaded read).1.groups.size) :
    query.inheritedNamesakes c =
      (((Graph.loaded read).1.removeNodes ns).inheritance
        (Graph.loaded read).2 c).flatten.filter fun n =>
          decide ((((Graph.loaded read).1.removeNodes ns).node n).token =
            query.call.token) := by
  have hLoaded := loading_insertFiles read
  have hShrinks := shrinks_removeNodes (Graph.loaded read).1 ns
  have hWell := hShrinks.wellFormed hLoaded.toWellFormed
  have hRoots := hShrinks.roots hLoaded.rooted
  obtain ⟨hRebinds, _⟩ := h.ready
  obtain ⟨_, hStarted, _⟩ := h.started
  have hLt : c.index < ((Graph.loaded read).1.removeNodes ns).groups.size := by
    rw [hShrinks.size_eq]
    exact hc
  have hGroups : c ∈ ((Graph.loaded read).1.removeNodes ns).groupsOf (Graph.loaded read).2 :=
    (mem_groupsOf hWell hRoots).mpr (hLoaded.covered.removeNodes hLoaded.toWellFormed ns c hLt)
  rw [Query.inheritedNamesakes, Query.sameToken,
    (hStarted.grows.trans hAfter.grows).group_field Group.inherited
      (hRebinds.groups_size ▸ hLt), h.inherited_eq hHeuristics hGroups]
  refine List.filter_congr fun n hn => ?_
  obtain ⟨g, _, _, hListed⟩ := mem_inheritance_iff.mp hn
  rw [h.node_field hAfter.grows Node.token
    (hLoaded.listed_lt (h.mem_left_iff.mp hListed).1), hShrinks.node_eq]

/-- The method is all that a class inherits of its name exactly if the class inherits it directly,
once, and nothing of a file. -/
theorem Prepares.namesakes_eq_iff (hRead : ∀ file ∈ read, file.Read)
    (hLineage : (Graph.loaded read).1.Lineage (Graph.loaded read).2 c d m k)
    (hk : k ∈ prepared.start.nodes) :
    ((((Graph.loaded read).1.removeNodes ns).inheritance
        (Graph.loaded read).2 c).flatten.filter fun n =>
          decide ((((Graph.loaded read).1.removeNodes ns).node n).token = m)) = [k] ↔
      (Graph.loaded read).1.InheritsOnce (Graph.loaded read).2
        prepared.start.nodes c d m := by
  have hLoaded := loading_insertFiles read
  have hShrinks := shrinks_removeNodes (Graph.loaded read).1 ns
  have hNode := hShrinks.node_eq
  have hToken := hShrinks.group_field Group.token
  have hBases := hShrinks.group_field Group.bases
  have hKept : k ∉ ns :=
    ((mem_nodes_removeNodes hLoaded.toWellFormed).mp
      (h.mem_left_iff.mpr ⟨hLineage.listed, hk⟩)).2
  rw [(hLineage.removeNodes hLoaded.toWellFormed hKept).namesakes_eq_iff
    ((ofFiles_insertFiles hRead).removeNodes ns)
    (hLoaded.covered.removeNodes hLoaded.toWellFormed ns), InheritsOnce]
  simp only [hToken, hBases, hNode, h.mem_left_iff, and_imp]

/-- A method answers only to the signatures of calls on what is named like its class. -/
theorem Prepares.token_of_offers
    (hk : k ∈ prepared.start.nodes) (hd : k ∈ ((Graph.loaded read).1.group d).nodes)
    {owner : String} (hOffers : prepared.start.graph.Offers owner m k) :
    ((Graph.loaded read).1.group d).token = owner ∨
      ((Graph.loaded read).1.group d).token = Dotted.first owner := by
  obtain ⟨others, hLined⟩ := h.lined
  have hOwn := hLined.mem_own hk ⟨d, hd⟩
  obtain ⟨g, hg, hNamed⟩ := CallMap.token_of_offers ⟨d, hd⟩ ((h.offers_iff hOwn).mp hOffers)
  rw [(loading_insertFiles read).group_eq_of_listed hd hg]
  exact hNamed

end Prepares

/-- A method is no library node after linking either. -/
theorem Run.not_library_of_method (h : Run files options sources read prepared linked)
    (hLegal : files.AllLegal) (hd : k ∈ ((Graph.loaded read).1.group d).nodes)
    (hClass : ((Graph.loaded read).1.group d).kind = .classBody) :
    (linked.graph.node k).isLibrary = false := by
  obtain ⟨ns, settled, hPrepares⟩ := exists_of_prepare h.prepares
  obtain ⟨_, hProgress, _⟩ := h.links.progress
  rw [hPrepares.node_field hProgress.grows Node.isLibrary ((loading_insertFiles read).listed_lt hd)]
  exact CallGraph.not_library_of_method (read_of_outlines hLegal h.reads) hd hClass

/-- The edge of a call on `self` in a method of a class leads to the method of an ancestor exactly
if the class has nothing of the name when the call is asked about, and inherits the method once. -/
theorem Run.target_self_iff (h : Run files options sources read prepared linked)
    (hLegal : files.AllLegal) (hHeuristics : options.heuristics = true)
    (hLineage : (Graph.loaded read).1.Lineage (Graph.loaded read).2 c d m k)
    (hSelf : ((Graph.loaded read).1.group d).token ≠ "self")
    (hk : k ∈ prepared.start.nodes) {edge : Edge} (hQuery : query ∈ prepared.asked options)
    (hPosed : query.Posed) (hLeads : query.Leads edge)
    (hLands : query.Lands linked edge.target)
    (hCaller : query.caller ∈ ((Graph.loaded read).1.group c).nodes)
    (hOwner : query.call.owner = some "self") (hLibrary : query.call.isLibrary = true)
    (hToken : query.call.token = m) :
    edge.target = k ↔
      (∀ n ∈ (query.graph.group c).nodes, (query.graph.node n).token ≠ m) ∧
      (Graph.loaded read).1.InheritsOnce (Graph.loaded read).2
        prepared.start.nodes c d m := by
  obtain ⟨ns, settled, hPrepares⟩ := exists_of_prepare h.prepares
  obtain ⟨_, hProgress, _⟩ := h.links.progress
  have hLoaded := loading_insertFiles read
  have hAfter := h.led.after query hQuery
  have hRead := read_of_outlines hLegal h.reads
  have hkLt := hLoaded.listed_lt hLineage.listed
  have hkParent := hLoaded.parent_of_listed hLineage.listed
  have hClass := hPrepares.callerClass?_eq hAfter hLineage.isClass hCaller
  have hNested := hPrepares.nestedClass?_eq_none hAfter hPosed hClass
    (by rw [hToken]; exact hLineage.not_nested)
  have hPresent : (linked.graph.node k).isMissing = false := by
    rw [hPrepares.node_field hProgress.grows Node.isMissing hkLt]
    exact (loading_present read).node_want k hkLt
  have hOut : k ∉ (query.graph.group c).nodes := by
    intro hMem
    have hParent := hPosed.sound.parent_of_listed hMem
    rw [hPrepares.node_field hAfter.grows Node.parent hkLt, hkParent] at hParent
    cases hParent
    exact hLineage.undefined k hLineage.listed hLineage.token_eq
  obtain ⟨owner, s, front, back, hSome, hFound, _, hOffers, _⟩ :=
    h.exists_bySignature? hLegal hQuery hLibrary
  cases hOwner.symm.trans hSome
  -- The method does not answer to the signature, since its class is not called `self`.
  have hOther : s ≠ k := by
    rintro rfl
    exact hSelf ((hPrepares.token_of_offers hk hLineage.listed hOffers).elim id
      fun hFirst => hFirst)
  rw [Query.target_self_iff (hAfter.heuristics_eq.trans hHeuristics) hOwner hClass hNested hLeads
      hLands hPresent hOut hFound hOther,
    hPrepares.inheritedNamesakes_eq hHeuristics hAfter
      ((Graph.loaded read).1.group_lt_of_nodes hCaller), hToken,
    hPrepares.namesakes_eq_iff hRead hLineage hk]
  refine and_congr_left fun _ => ?_
  rw [Query.sameToken, hToken, List.filter_eq_nil_iff]
  simp only [decide_eq_true_eq, ne_eq]

/-- What answers to the signature of a call on the class itself is a library node, since the class
does not define the method. -/
theorem Prepares.library_of_offers (h : Prepares options read ns settled prepared)
    (hRead : ∀ file ∈ read, file.Read)
    (hLineage : (Graph.loaded read).1.Lineage (Graph.loaded read).2 c d m k)
    {target : NodeId} (hTarget : target ∈ prepared.start.nodes)
    (hOffers : prepared.start.graph.Offers ((Graph.loaded read).1.group c).token m
      target) :
    (prepared.start.graph.node target).isLibrary = true := by
  have hLoaded := loading_insertFiles read
  have hFiles := ofFiles_insertFiles hRead
  obtain ⟨others, hLined⟩ := h.lined
  refine (List.mem_append.mp (hLined.nodes_eq ▸ hTarget)).elim (fun hOwn => ?_) fun hNew =>
    (hLined.others_new target hNew).2
  obtain ⟨g, hMem⟩ := hLined.own_loaded target hOwn
  have hNamed := h.token_of_offers hTarget hMem hOffers
  rw [Dotted.first_of_not_dotted
    (Dotted.not_dotted_of_isIdentifier (hFiles.class_token c hLineage.isClass)), or_self] at hNamed
  obtain ⟨r, hr, hBelow⟩ := hLoaded.covered g
    ((Graph.loaded read).1.group_lt_of_nodes hMem)
  have hGroups := (mem_groupsOf hLoaded.toWellFormed hLoaded.rooted).mpr ⟨r, hr, hBelow⟩
  rcases hFiles.mem_groupsOf_iff.mp hGroups with hFile | ⟨_, hClass⟩
  · exact absurd hNamed.symm (hLineage.not_file c hLineage.isClass g hFile)
  · cases hLineage.distinct g c hClass hLineage.isClass hNamed
    exact absurd ((h.offers_iff hOwn).mp hOffers).1 (hLineage.undefined target hMem)

/-- A call on an object of the class goes to a library node. -/
theorem Run.missed_object (h : Run files options sources read prepared linked)
    (hLegal : files.AllLegal)
    (hLineage : (Graph.loaded read).1.Lineage (Graph.loaded read).2 c d m k)
    (hSelf : ((Graph.loaded read).1.group c).token ≠ "self")
    (hSuper : ((Graph.loaded read).1.group c).token ≠ "super") {n : NodeId}
    (hn : (Graph.loaded read).1.Listed n) (hStart : n ∈ prepared.start.nodes)
    {expression callee : Tree} (hCall : Block.callOn
      ((Graph.loaded read).1.group c).token m expression callee ∈
        ((Graph.loaded read).1.node n).calls) :
    Missed options prepared linked (cut options (chartOf linked.withMissing)) n k
      (Block.callOn ((Graph.loaded read).1.group c).token m expression callee) := by
  obtain ⟨ns, settled, hPrepares⟩ := exists_of_prepare h.prepares
  obtain ⟨_, hStarted, _⟩ := hPrepares.started
  obtain ⟨_, hProgress, _⟩ := h.links.progress
  have hLoaded := loading_insertFiles read
  have hRead := read_of_outlines hLegal h.reads
  refine ⟨h.exists_edge hStart ?_, fun edge hPair => ?_⟩
  · rw [hPrepares.node_field (.refl _) Node.calls (hLoaded.lt_of_listed hn)]
    exact hCall
  · obtain ⟨query, hQuery, rfl, hSame, hLeads⟩ := h.exists_asked hPair
    have hOwner : query.call.owner =
        some ((Graph.loaded read).1.group c).token := by rw [hSame]; rfl
    obtain ⟨owner, target, front, back, hSome, hResolve, hSplit, hOffers, _⟩ :=
      h.resolve_library hLegal hQuery (by rw [hSame]; rfl) fun _ => Or.inr (by
        rw [hOwner]
        exact ⟨fun hEq => hSelf (Option.some.inj hEq), fun hEq => hSuper (Option.some.inj hEq)⟩)
    cases hOwner.symm.trans hSome
    have hTarget : target ∈ prepared.start.nodes := by
      rw [hSplit]
      exact List.mem_append_right _ List.mem_cons_self
    rw [hSame] at hOffers
    have hFound : (linked.graph.node edge.target).isLibrary = true := by
      rw [hLeads.target_eq target none hResolve,
        hProgress.grows.node_field Node.isLibrary (hStarted.valid.node_lt _ hTarget)]
      exact hPrepares.library_of_offers hRead hLineage hTarget hOffers
    have hMethod := h.not_library_of_method hLegal hLineage.listed
      (Lineage.class_of_ancestor hLineage.ancestor)
    refine ⟨hLeads.source_eq, fun hEq => ?_, hFound, ?_⟩
    · rw [hEq, hMethod] at hFound
      exact Bool.false_ne_true hFound
    · rw [h.mem_edges_cut_iff (List.of_mem_zip hPair).2, hFound]
      simp

end Question

/-- How a call on `self` is linked, where `n` is a method of the class `c` and makes the call, and
`k` is the method of the name in the ancestor `d`: the call has an edge. It leads to `k`, and then
it is drawn, exactly if the class has nothing of the name when the call is asked about, and inherits
`k` directly, once, and nothing else of the name from a file. -/
structure SelfCall (options : Options) (read : List FileOutline) (prepared : Prepared)
    (linked : Linking) (chart : Chart) (c d : GroupId) (n k : NodeId) (call : Call) : Prop where
  has_edge : ∃ edge, ((n, call), edge) ∈
    (Linking.ownedCalls prepared.start.graph prepared.start.nodes).zip linked.edges
  leads : ∀ edge, ((n, call), edge) ∈
      (Linking.ownedCalls prepared.start.graph prepared.start.nodes).zip linked.edges →
    edge.source = n ∧ (edge.target = k → edge ∈ chart.edges) ∧
      ∃ query ∈ prepared.asked options, query.caller = n ∧ query.call = call ∧ query.Leads edge ∧
        (edge.target = k ↔
          (∀ o ∈ (query.graph.group c).nodes, (query.graph.node o).token ≠ call.token) ∧
          (Graph.loaded read).1.InheritsOnce (Graph.loaded read).2
            prepared.start.nodes c d call.token)

/-- Calls on `self` in a method of the class are linked as `SelfCall` says. -/
theorem Run.selfCall (h : Run files options sources read prepared linked) (hLegal : files.AllLegal)
    (hHeuristics : options.heuristics = true) {c d : GroupId} {m : String} {k n : NodeId}
    (hLineage : (Graph.loaded read).1.Lineage (Graph.loaded read).2 c d m k)
    (hSelf : ((Graph.loaded read).1.group d).token ≠ "self")
    (hk : k ∈ prepared.start.nodes)
    (hn : n ∈ ((Graph.loaded read).1.group c).nodes) (hStart : n ∈ prepared.start.nodes)
    {expression callee : Tree} (hCall : Block.callOn "self" m expression callee ∈
      ((Graph.loaded read).1.node n).calls) :
    SelfCall options read prepared linked (cut options (chartOf linked.withMissing)) c d n k
      (Block.callOn "self" m expression callee) := by
  obtain ⟨ns, settled, hPrepares⟩ := exists_of_prepare h.prepares
  refine ⟨h.exists_edge hStart ?_, fun edge hPair => ?_⟩
  · rw [hPrepares.node_field (.refl _) Node.calls ((loading_insertFiles read).listed_lt hn)]
    exact hCall
  · obtain ⟨query, hQuery, rfl, hSame, hPosed, hLeads, hLands⟩ := h.exists_stage_of_mem hPair
    refine ⟨hLeads.source_eq, ?_, query, hQuery, rfl, hSame, hLeads, ?_⟩
    · rintro rfl
      rw [h.mem_edges_cut_iff (List.of_mem_zip hPair).2]
      exact Or.inl (h.not_library_of_method hLegal hLineage.listed
        (Lineage.class_of_ancestor hLineage.ancestor))
    · exact h.target_self_iff hLegal hHeuristics hLineage hSelf hk hQuery hPosed hLeads hLands hn
        (by rw [hSame]; rfl) (by rw [hSame]; rfl) (by rw [hSame]; rfl)

/--
Inherited methods are looked for among the direct bases only, and not at all for objects. Let `d` be
the only ancestor of the class `c` that defines the method `m`, by the node `k`, and let `c` have
nothing of that name. Every function is read from a definition. A call `self.m()` in a method of `c`
leads to `k` exactly if `d` is mentioned once among the bases of `c` itself, and no file whose name
ends in one of these bases lists anything of the name, nor `c` when the call is asked about. A call
`object.m()` in a function that binds the object by `object = c()` only never leads to `k`: its edge
goes to a library node. Excepted are classes called like the names the analysis itself uses.
-/
theorem inherited_calls_of_build {language : Value} {chart : Chart} (hLegal : files.AllLegal)
    (hHeuristics : options.heuristics = true)
    (h : (build files options language sources).result = .ok chart) :
    ∃ read prepared linked, Run files options sources read prepared linked ∧
      chart = cut options (chartOf linked.withMissing) ∧
      (options.excludeNamespaces = [] ∧ options.onlyNamespaces = [] →
        options.excludeFunctions = [] ∧ options.onlyFunctions = [] →
        ∀ n, (Graph.loaded read).1.Listed n → n ∈ prepared.start.nodes) ∧
      (∀ g, ∀ n ∈ ((Graph.loaded read).1.group g).nodes,
        ((Graph.loaded read).1.node n).signature.isSome = true →
        ∃ isMethod definition, definition.isLegal = true ∧
          ((Graph.loaded read).1.node n).IsFrom isMethod definition ∧
          (((Graph.loaded read).1.group g).kind = .classBody → isMethod = true)) ∧
      ∀ c d m k, (Graph.loaded read).1.Lineage (Graph.loaded read).2 c d m k →
        (((Graph.loaded read).1.group d).token ≠ "self" → k ∈ prepared.start.nodes →
          ∀ n ∈ ((Graph.loaded read).1.group c).nodes, n ∈ prepared.start.nodes →
          ∀ definition, ((Graph.loaded read).1.node n).IsFrom true definition →
          (∀ t ∈ (definition.trees .body).flatMap Tree.walk, Block.leaves "self" t = true) →
          ∀ expression callee,
            Block.CallsMember (definition.trees .body) "self" m expression callee →
            SelfCall options read prepared linked chart c d n k
              (Block.callOn "self" m expression callee)) ∧
        (((Graph.loaded read).1.group c).token ∉ ["self", "super", unknownOwner] →
          ∀ n, (Graph.loaded read).1.Listed n → n ∈ prepared.start.nodes →
          ∀ isMethod definition,
          ((Graph.loaded read).1.node n).IsFrom isMethod definition →
          ∀ object, Block.HoldsObject (definition.trees .body) object
            ((Graph.loaded read).1.group c).token →
          ∀ expression callee,
            Block.CallsMember (definition.trees .body) object m expression callee →
            Missed options prepared linked chart n k
              (Block.callOn ((Graph.loaded read).1.group c).token m expression
                callee)) := by
  obtain ⟨read, prepared, linked, hRun, rfl⟩ := exists_run_of_build h
  have hRead := read_of_outlines hLegal hRun.reads
  refine ⟨read, prepared, linked, hRun, rfl,
    fun hNamespaces hFunctions n => hRun.mem_nodes_of_unlimited hNamespaces hFunctions,
    fun g n hn hSome => exists_definition hRead hn hSome, fun c d m k hLineage => ⟨?_, ?_⟩⟩
  · rintro hSelf hk n hn hStart definition ⟨scope, _, _, hCalls⟩ hLeaves expression callee hCall
    refine hRun.selfCall hLegal hHeuristics hLineage hSelf hk hn hStart ?_
    rw [hCalls]
    exact FunctionOutline.mem_calls_self scope hLeaves hCall
  · rintro hReserved n hn hStart isMethod definition ⟨scope, _, _, hCalls⟩ object hHolds expression
      callee hCall
    simp only [List.mem_cons, List.not_mem_nil, or_false, not_or] at hReserved
    refine hRun.missed_object hLegal hLineage hReserved.1 hReserved.2.1 hn hStart ?_
    rw [hCalls]
    exact FunctionOutline.mem_calls_object isMethod scope hHolds
      (ne_empty_of_isIdentifier ((ofFiles_insertFiles hRead).class_token c hLineage.isClass))
      hReserved.2.2 hCall

end CallMap

/-! ## Small programs -/

namespace Graph

/-- The classes of a graph. -/
def classes (graph : Graph) : List GroupId :=
  ((List.range graph.groups.size).map GroupId.mk).filter fun g =>
    decide ((graph.group g).kind = .classBody)

theorem mem_classes {graph : Graph} {g : GroupId} :
    g ∈ graph.classes ↔ (graph.group g).kind = .classBody := by
  simp only [classes, List.mem_filter, List.mem_map, List.mem_range, decide_eq_true_eq]
  refine and_iff_right_of_imp fun hClass => ⟨g.index, ?_, rfl⟩
  by_contra hOut
  rw [group_eq_default _ (Nat.not_lt.mp hOut)] at hClass
  exact absurd hClass (by decide)

/-- Whether classes have names of their own, and of a name there is one method only, which the class
`d` defines; the class `c` nests nothing of the name. -/
def isSoleMethod (graph : Graph) (files : List GroupId) (c d : GroupId) (m : String) (k : NodeId) :
    Bool :=
  decide ((∀ a ∈ graph.classes, ∀ b ∈ graph.classes,
      (graph.group a).token = (graph.group b).token → a = b) ∧
    (∀ a ∈ graph.classes, ∀ f ∈ files, (graph.group a).token ≠ (graph.group f).token) ∧
    c ∈ graph.classes ∧ (∀ n ∈ (graph.group c).nodes, (graph.node n).token ≠ m) ∧
    (∀ s ∈ (graph.group c).subgroups, (graph.group s).token ≠ m) ∧
    k ∈ (graph.group d).nodes ∧ (graph.node k).token = m ∧
    ∀ a ∈ graph.classes, ∀ n ∈ (graph.group a).nodes, (graph.node n).token = m → n = k)

theorem lineage_of_isSoleMethod {graph : Graph} {files : List GroupId} {c d : GroupId} {m : String}
    {k : NodeId} (h : graph.isSoleMethod files c d m k = true) (hAncestor : graph.Ancestor c d) :
    graph.Lineage files c d m k := by
  obtain ⟨hDistinct, hFile, hClass, hOwn, hNested, hListed, hToken, hOnly⟩ := of_decide_eq_true h
  simp only [mem_classes] at hDistinct hFile hClass hOnly
  exact ⟨fun a b ha hb => hDistinct a ha b hb, hFile, hClass, hOwn, hNested, hAncestor, hListed,
    hToken, fun a ha => hOnly a (Lineage.class_of_ancestor ha)⟩

end Graph

namespace CallMap

/-- `self.m()` -/
def selfCallAt (line : Int) : Tree := .callAt line (.memberAt line (.nameAt line "self") "m")

/-- A method that calls `self.m()`. -/
def callingMethod (line : Int) (name : String) : Tree :=
  .functionAt line name [.statementAt (line + 1) (selfCallAt (line + 1))]

/-- `obj.m()` -/
def objectCall : Tree := .callAt 9 (.memberAt 9 (.nameAt 9 "obj") "m")

/-- A function that calls `m` on an object of the class `B`. -/
def objectFunction : Tree :=
  .functionAt 7 "f" [
    .node .assign (some 8) []
      [.filled .targets (.nameAt 8 "obj"), .filled .value (.callAt 8 (.nameAt 8 "B"))],
    .statementAt 9 objectCall]

/-- A class with a method, a class with this base that calls the method, and a function that calls
it on an object. -/
def directFiles : FileSystem :=
  { entries := [(["a.py"], .file { content := .ok (.moduleOf [
    .classAt 1 "A" [.functionAt 2 "m" [.passAt 3]],
    .subclassAt 4 "B" [.nameAt 4 "A"] [callingMethod 5 "n"],
    objectFunction]) })] }

/-- A class with a method, a class with this base, and a class with that one as its base, which
calls the method of the first. -/
def chainFiles : FileSystem :=
  { entries := [(["a.py"], .file { content := .ok (.moduleOf [
    .classAt 1 "A" [.functionAt 2 "m" [.passAt 3]],
    .subclassAt 4 "B" [.nameAt 4 "A"] [.functionAt 5 "n" [.passAt 6]],
    .subclassAt 7 "C" [.nameAt 7 "B"] [callingMethod 8 "k"]]) })] }

/-- The edges of a run, and whether they lead to library nodes. -/
def ends (linked : Linking) : List (NodeId × NodeId × Bool) :=
  linked.edges.map fun edge =>
    (edge.source, edge.target, (linked.graph.node edge.target).isLibrary)

theorem callsMember_callingMethod (line : Int) (name : String) :
    Block.CallsMember ((callingMethod line name).trees .body) "self" "m" (selfCallAt (line + 1))
      (.memberAt (line + 1) (.nameAt (line + 1) "self") "m") where
  mem := List.mem_flatMap.mpr ⟨_, List.mem_singleton.mpr rfl,
    (Tree.Within.inside (List.mem_singleton.mpr rfl) .refl).mem_walk⟩
  kind := rfl
  func := rfl
  callee_kind := rfl
  attr := rfl
  value := ⟨_, rfl, rfl⟩

theorem callsMember_objectFunction :
    Block.CallsMember (objectFunction.trees .body) "obj" "m" objectCall
      (.memberAt 9 (.nameAt 9 "obj") "m") where
  mem := List.mem_flatMap.mpr ⟨_, List.mem_cons_of_mem _ (List.mem_singleton.mpr rfl),
    (Tree.Within.inside (List.mem_singleton.mpr rfl) .refl).mem_walk⟩
  kind := rfl
  func := rfl
  callee_kind := rfl
  attr := rfl
  value := ⟨_, rfl, rfl⟩

theorem holdsObject_objectFunction :
    Block.HoldsObject (objectFunction.trees .body) "obj" "B" :=
  ⟨by decide, by decide⟩

/-- A node is read from a definition in a scope without names. -/
def isFrom (graph : Graph) (n : NodeId) (isMethod : Bool) (definition : Tree) : Bool :=
  decide ((graph.node n).token = (FunctionOutline.ofTree isMethod [] definition).token ∧
    (graph.node n).line = (FunctionOutline.ofTree isMethod [] definition).line ∧
    (graph.node n).calls = (FunctionOutline.ofTree isMethod [] definition).calls)

theorem node_isFrom {graph : Graph} {n : NodeId} {isMethod : Bool} {definition : Tree}
    (h : isFrom graph n isMethod definition = true) :
    (graph.node n).IsFrom isMethod definition :=
  ⟨[], of_decide_eq_true h⟩

/-- The call on `self` leads to the method of the base, the call on the object to a library node. -/
theorem inherited_calls_of_build_direct :
    ∃ chart read prepared linked, directFiles.AllLegal ∧
      (build directFiles {} (.text "py") ["a.py"]).result = .ok chart ∧
      Run directFiles {} ["a.py"] read prepared linked ∧
      (Graph.loaded read).1.Lineage (Graph.loaded read).2 ⟨2⟩ ⟨1⟩ "m" ⟨2⟩ ∧
      SelfCall {} read prepared linked chart ⟨2⟩ ⟨1⟩ ⟨3⟩ ⟨2⟩
        (Block.callOn "self" "m" (selfCallAt 6) (.memberAt 6 (.nameAt 6 "self") "m")) ∧
      Missed {} prepared linked chart ⟨1⟩ ⟨2⟩
        (Block.callOn "B" "m" objectCall (.memberAt 9 (.nameAt 9 "obj") "m")) ∧
      ends linked = [(⟨1⟩, ⟨6⟩, false), (⟨1⟩, ⟨4⟩, true), (⟨3⟩, ⟨2⟩, false)] := by
  have hLegal : directFiles.AllLegal := FileSystem.allLegal_of_trees (by decide +kernel)
  obtain ⟨chart, hChart, _⟩ := exists_ok_of_any
    (show (build directFiles {} (.text "py") ["a.py"]).result.toOption.any (fun _ => true) = true by
      decide +kernel)
  obtain ⟨read, prepared, linked, hRun, _, hKept, _, hInherited⟩ :=
    inherited_calls_of_build hLegal rfl hChart
  obtain ⟨hSole, hBase, ⟨hBaseToken, hToken⟩, ⟨hMethod, hMethodFrom⟩, ⟨hFunction, hFunctionFrom⟩,
      hEnds⟩ := of_decide_eq_true (hRun.test_of_passes
    (show passes directFiles {} ["a.py"] (fun read _ linked => decide (
      (Graph.loaded read).1.isSoleMethod (Graph.loaded read).2
        ⟨2⟩ ⟨1⟩ "m" ⟨2⟩ = true ∧
      (Graph.loaded read).1.HasBase ⟨2⟩ ⟨1⟩ ∧
      (((Graph.loaded read).1.group ⟨1⟩).token = "A" ∧
        ((Graph.loaded read).1.group ⟨2⟩).token = "B") ∧
      (⟨3⟩ ∈ ((Graph.loaded read).1.group ⟨2⟩).nodes ∧
        isFrom (Graph.loaded read).1 ⟨3⟩ true (callingMethod 5 "n") = true) ∧
      (⟨1⟩ ∈ ((Graph.loaded read).1.group ⟨0⟩).nodes ∧
        isFrom (Graph.loaded read).1 ⟨1⟩ false objectFunction = true) ∧
      ends linked = [(⟨1⟩, ⟨6⟩, false), (⟨1⟩, ⟨4⟩, true), (⟨3⟩, ⟨2⟩, false)])) = true by
      decide +kernel))
  have hLineage := lineage_of_isSoleMethod hSole (.single hBase)
  have hStart := hKept ⟨rfl, rfl⟩ ⟨rfl, rfl⟩
  obtain ⟨hSelf, hObject⟩ := hInherited _ _ _ _ hLineage
  rw [hToken] at hObject
  exact ⟨chart, read, prepared, linked, hLegal, hChart, hRun, hLineage,
    hSelf (by rw [hBaseToken]; decide) (hStart _ ⟨_, hLineage.listed⟩) _ hMethod
      (hStart _ ⟨_, hMethod⟩) _ (node_isFrom hMethodFrom) (by decide) _ _
      (callsMember_callingMethod 5 "n"),
    hObject (by decide) _ ⟨_, hFunction⟩ (hStart _ ⟨_, hFunction⟩) _ _
      (node_isFrom hFunctionFrom) _ holdsObject_objectFunction _ _ callsMember_objectFunction,
    hEnds⟩

/-- The call of a method that only the base of the base defines is lost: its edge leads to a library
node, and nothing is drawn. -/
theorem inherited_call_lost_chain :
    ∃ chart read prepared linked,
      (build chainFiles {} (.text "py") ["a.py"]).result = .ok chart ∧
      Run chainFiles {} ["a.py"] read prepared linked ∧
      (Graph.loaded read).1.Lineage (Graph.loaded read).2 ⟨3⟩ ⟨1⟩ "m" ⟨1⟩ ∧
      ⟨3⟩ ∈ ((Graph.loaded read).1.group ⟨3⟩).nodes ∧
      ((Graph.loaded read).1.node ⟨3⟩).IsFrom true (callingMethod 8 "k") ∧
      Block.CallsMember ((callingMethod 8 "k").trees .body) "self" "m" (selfCallAt 9)
        (.memberAt 9 (.nameAt 9 "self") "m") ∧
      ends linked = [(⟨3⟩, ⟨4⟩, true)] ∧ chart.edges = [] := by
  obtain ⟨chart, hChart, hEdges⟩ := exists_ok_of_any
    (show (build chainFiles {} (.text "py") ["a.py"]).result.toOption.any
      (fun chart => chart.edges == []) = true by decide +kernel)
  obtain ⟨read, prepared, linked, hRun, _⟩ := exists_run_of_build hChart
  obtain ⟨hSole, hBase, hNext, ⟨hMethod, hFrom⟩, hEnds⟩ := of_decide_eq_true (hRun.test_of_passes
    (show passes chainFiles {} ["a.py"] (fun read _ linked => decide (
      (Graph.loaded read).1.isSoleMethod (Graph.loaded read).2
        ⟨3⟩ ⟨1⟩ "m" ⟨1⟩ = true ∧
      (Graph.loaded read).1.HasBase ⟨3⟩ ⟨2⟩ ∧
      (Graph.loaded read).1.HasBase ⟨2⟩ ⟨1⟩ ∧
      (⟨3⟩ ∈ ((Graph.loaded read).1.group ⟨3⟩).nodes ∧
        isFrom (Graph.loaded read).1 ⟨3⟩ true (callingMethod 8 "k") = true) ∧
      ends linked = [(⟨3⟩, ⟨4⟩, true)])) = true by decide +kernel))
  exact ⟨chart, read, prepared, linked, hChart, hRun,
    lineage_of_isSoleMethod hSole (.tail (.single hBase) hNext), hMethod,
    node_isFrom hFrom, callsMember_callingMethod 8 "k", hEnds, by simpa using hEdges⟩

end CallMap

end CallGraph
