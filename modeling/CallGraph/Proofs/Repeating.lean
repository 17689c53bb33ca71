import CallGraph.Proofs.Descending

/-!
# Asking again

Resolving a call may make a node. It is the node the call goes to, and it is all that changes: it
comes to the end of one group and to the end of the candidates.

A class that is constructed without spelling out a constructor gets one this way, and the same call
asked again finds it. This is not for want of other changes in what the stages see. The new node has
a token, a class and a place among the candidates, so stages in front of the one that made it may
come to answer where they did not before. But a stage that found nothing can only find the new node
then: whatever else it looks at reads as it did. So each stage is compared with itself before and
after, and the first that answers names the new node, whichever it is.

What a caller sees does not change at all, since only files make names visible and the constructor
comes into a class.

## Main definitions

* `Graph.Gains` — a graph with one more node, at the end of one group.
* `Query.Constructs` — a question about a class that gets a constructor.
* `Query.Adds` — an answer that brings a node.

## Main results

* `Query.Constructs.resolve_again` — a constructor that was made up is found again.
* `Linking.posed_askedAll` — the questions that come up, also in a run that fails later.
* `CallMap.only_answer_added` — what answering a question changes.
-/

namespace CallGraph

open CallGraph.Graph

/-- A search that found nothing can only find what is new, if the rest reads as it did. -/
theorem eq_new_of_find? {p q : NodeId → Bool} {before after : List NodeId} {new n : NodeId}
    (hNone : before.find? p = none) (hFound : after.find? q = some n)
    (hMem : ∀ m ∈ after, m = new ∨ m ∈ before) (hSame : ∀ m ∈ before, q m = p m) : n = new := by
  refine (hMem n (List.mem_of_find?_eq_some hFound)).resolve_right fun hOld => ?_
  have hFits := List.find?_some hFound
  rw [hSame n hOld] at hFits
  exact List.find?_eq_none.mp hNone n hOld hFits

/-- One graph is another with a new node at the end of one group. All other nodes and groups, and
everything else about this group, are as they were. -/
structure Graph.Gains (before : Graph) (g : GroupId) (n : NodeId) (after : Graph) : Prop where
  new : ¬before.Listed n
  index_eq : n.index = before.nodes.size
  nodes_size : after.nodes.size = before.nodes.size + 1
  groups_size : after.groups.size = before.groups.size
  group_eq : after.group g = { before.group g with nodes := (before.group g).nodes ++ [n] }
  others : ∀ other ≠ g, after.group other = before.group other
  node_eq : ∀ m ≠ n, after.node m = before.node m

/-- The call goes to a given node of the graph. -/
def Outcome.Names (n : NodeId) (outcome : Outcome) : Prop :=
  ∃ via, outcome = .found n via

namespace Query

/-- The same question in another graph, with one more candidate. -/
abbrev within (query : Query) (graph : Graph) (n : NodeId) : Query :=
  { query with graph := graph, candidates := query.candidates ++ [n] }

/-- A class that has no constructor gets one that it does not spell out, and the question that can
be asked before can be asked after. -/
structure Constructs (query : Query) (g : GroupId) (new : NodeId) (after : Graph) : Prop
    extends query.Posed where
  gains : query.graph.Gains g new after
  node_new : after.node new = { implicitConstructor g with serial := query.graph.size }
  kind : (query.graph.group g).kind = .classBody
  lacks : query.graph.constructor? g = none
  posed : (query.within after new).Posed

variable {query : Query} {g : GroupId}

theorem ofPossible?_ne_create {via detour : Option Via} {nodes : List NodeId} {node : Node} :
    Outcome.ofPossible? via nodes ≠ some (.create node detour) := by
  unfold Outcome.ofPossible?
  split <;> simp

theorem eq_of_constructorOf {a : GroupId} {via : Option Via}
    (h : query.constructorOf a = .create (implicitConstructor g) via) : a = g := by
  unfold constructorOf at h
  split at h
  · exact absurd h (by simp)
  · cases h
    rfl

namespace Constructs

variable {new : NodeId} {after : Graph}
variable (h : query.Constructs g new after)
include h

/-! ## What reads the same -/

theorem node {n : NodeId} (hn : query.graph.Listed n) : after.node n = query.graph.node n :=
  h.gains.node_eq n fun hSame => h.gains.new (hSame ▸ hn)

/-- A group keeps everything but its list of nodes. -/
theorem field {α : Type _} (field : Group → α)
    (hField : ∀ group nodes, field { group with nodes := nodes } = field group := by
      intros; rfl) (a : GroupId) :
    field (after.group a) = field (query.graph.group a) := by
  by_cases ha : a = g
  · rw [ha, h.gains.group_eq, hField]
  · rw [h.gains.others a ha]

theorem token_eq (a : GroupId) : (after.group a).token = (query.graph.group a).token :=
  h.field Group.token (a := a)

theorem kind_eq (a : GroupId) : (after.group a).kind = (query.graph.group a).kind :=
  h.field Group.kind (a := a)

theorem eq_new_or_mem {a : GroupId} {n : NodeId} (hn : n ∈ (after.group a).nodes) :
    n = new ∨ n ∈ (query.graph.group a).nodes := by
  by_cases ha : a = g
  · subst ha
    rw [h.gains.group_eq] at hn
    exact (List.mem_append.mp hn).symm.imp_left List.mem_singleton.mp
  · exact Or.inr (h.gains.others a ha ▸ hn)

theorem parentGroup?_eq {n : NodeId} (hn : query.graph.Listed n) :
    after.parentGroup? n = query.graph.parentGroup? n := by
  rw [parentGroup?, parentGroup?, h.node hn]

theorem parentGroup?_new : after.parentGroup? new = some g := by
  rw [parentGroup?, h.node_new]
  rfl

theorem parentToken?_eq {n : NodeId} (hn : query.graph.Listed n) :
    after.parentToken? n = query.graph.parentToken? n := by
  obtain ⟨p, hParent, _⟩ := h.sound.parent_of hn
  rw [parentToken?, parentToken?, h.node hn, hParent]
  exact congrArg some (h.token_eq p)

theorem chain_eq : after.chain = query.graph.chain :=
  chain_congr h.gains.groups_size (h.field Group.parent)

theorem eq_new_or_mem_allNodes {a : GroupId} {n : NodeId} (hn : n ∈ after.allNodes a) :
    n = new ∨ n ∈ query.graph.allNodes a := by
  obtain ⟨below, hBelow, hn⟩ := List.mem_flatMap.mp hn
  rw [allGroups_congr h.gains.groups_size (h.field Group.subgroups)] at hBelow
  exact (h.eq_new_or_mem hn).imp_right fun hn => List.mem_flatMap.mpr ⟨below, hBelow, hn⟩

theorem classPath_eq {n : NodeId} (hn : query.graph.Listed n) :
    after.classPath n = query.graph.classPath n := by
  simp only [classPath, h.node hn, h.chain_eq, h.kind_eq, h.token_eq]

/-- The constructor is not among the names that a group makes visible. -/
theorem groupBindings_eq (a : GroupId) :
    after.groupBindings a = query.graph.groupBindings a := by
  unfold groupBindings
  dsimp only
  rw [h.field Group.root, h.field Group.subgroups]
  cases hRoot : (query.graph.group a).root with
  | none => rfl
  | some root =>
      -- Only files have a root, so the group is not the class.
      have ha : a ≠ g := by
        rintro rfl
        exact absurd (h.sound.root_spec hRoot).1 (by rw [h.kind]; simp)
      have hOld : after.node root = query.graph.node root := h.gains.node_eq root fun hSame => by
        exact absurd (h.sound.root_lt hRoot) (by rw [hSame, h.gains.index_eq]; exact lt_irrefl _)
      have hGroups : after.groupBinding = query.graph.groupBinding := by
        funext s
        rw [groupBinding, groupBinding, h.token_eq, h.field Group.line]
      have hNodes : ((query.graph.group a).nodes.filter (· ≠ root)).map after.nodeBinding =
          ((query.graph.group a).nodes.filter (· ≠ root)).map query.graph.nodeBinding :=
        List.map_congr_left fun n hn => by
          rw [nodeBinding, nodeBinding, h.node ⟨a, (List.mem_filter.mp hn).1⟩]
      dsimp only
      rw [hGroups, hOld, h.gains.others a ha, hNodes]

/-- What the caller sees does not change. -/
theorem visible_eq (line : Option Int) :
    after.visible query.caller line = query.graph.visible query.caller line := by
  obtain ⟨p, hParent, _⟩ := h.sound.parent_of h.caller
  have hAround : ∀ groups, after.groupsBindings groups = query.graph.groupsBindings groups := by
    intro groups
    induction groups with
    | nil => rfl
    | cons a rest ih => rw [groupsBindings, groupsBindings, h.groupBindings_eq, ih]
  rw [visible_of_parent hParent, visible_of_parent (h.node h.caller ▸ hParent), h.chain_eq, hAround,
    ownBindings, ownBindings, h.node h.caller]

/-! ## What bindings lead to -/

theorem constructor?_eq : after.constructor? g = some new := by
  have hNone := h.lacks
  rw [constructor?, if_pos h.kind, List.find?_eq_none] at hNone
  have hOld : (query.graph.group g).nodes.find? (fun n => (after.node n).isConstructor) = none := by
    rw [List.find?_eq_none]
    intro n hn
    rw [h.node ⟨g, hn⟩]
    exact hNone n hn
  rw [constructor?, h.kind_eq, if_pos h.kind, h.gains.group_eq, List.find?_append, hOld,
    Option.none_or, List.find?_singleton, h.node_new]
  rfl

/-- Where a group had no constructor, it can only have the new one. -/
theorem eq_new_of_constructor? {a : GroupId} (hNone : query.graph.constructor? a = none)
    {n : NodeId} (hn : after.constructor? a = some n) : n = new := by
  rw [constructor?, h.kind_eq] at hn
  rw [constructor?] at hNone
  split at hn
  · rename_i hKind
    rw [if_pos hKind] at hNone
    exact eq_new_of_find? hNone hn (fun m hm => h.eq_new_or_mem hm) fun m hm => by
      rw [h.node ⟨a, hm⟩]
  · exact absurd hn (by simp)

/-- Where a group had nothing of a token, it can only have the constructor. -/
theorem eq_new_of_memberOf? {token : String} {a : GroupId}
    (hNone : query.graph.memberOf? token a = none) {n : NodeId}
    (hn : after.memberOf? token a = some n) : n = new := by
  refine eq_new_of_find? hNone hn (fun m hm => ?_) fun m hm => ?_
  · rw [h.field Group.inherited, List.mem_append] at hm
    rcases hm with hm | hm
    · exact (h.eq_new_or_mem hm).imp_right (List.mem_append_left _)
    · exact Or.inr (List.mem_append_right _ hm)
  · rw [h.node ((List.mem_append.mp hm).elim (fun hm => ⟨a, hm⟩)
      h.sound.listed_of_mem_flatten_inherited)]

/-- Where a package had nothing for a call, it can only have the constructor. -/
theorem inPackage_cases {call : Call} {owner : String} {b : Binding}
    (hNone : query.graph.inPackage call owner b = .ok none) :
    after.inPackage call owner b = .ok none ∨
      after.inPackage call owner b = .ok (some (.node new)) := by
  unfold inPackage at hNone ⊢
  split
  · rename_i p hTarget
    rw [h.kind_eq]
    split
    · rename_i hPackage
      split
      · rename_i package path hParts
        split
        · rename_i hToken
          simp only [hTarget, hPackage, hParts, hToken, if_true, h.sound.inClass_eq path call.token
            fun n hn => listed_of_mem_allNodes hn] at hNone
          rw [h.posed.sound.inClass_eq path call.token fun n hn => listed_of_mem_allNodes hn]
          cases hFound : (after.allNodes p).find? (after.isIn path call.token) with
          | none => exact Or.inl rfl
          | some n =>
              refine Or.inr ?_
              rw [eq_new_of_find? (Option.map_eq_none_iff.mp (Except.ok.inj hNone)) hFound
                (fun m hm => h.eq_new_or_mem_allNodes hm) fun m hm => ?_]
              · rfl
              · have hm := listed_of_mem_allNodes hm
                rw [isIn, isIn, h.classPath_eq hm, h.node hm]
        · exact Or.inl rfl
      · exact Or.inl rfl
    · exact Or.inl rfl
  · exact Or.inl rfl

/-- A binding that a call passed over can only lead to the constructor. -/
theorem matchBinding_cases {call : Call} {b : Binding}
    (hNone : query.graph.matchBinding call b = .ok none) :
    after.matchBinding call b = .ok none ∨ after.matchBinding call b = .ok (some (.node new)) := by
  unfold matchBinding at hNone ⊢
  split
  · rename_i owner hOwner
    rw [hOwner] at hNone
    dsimp only at hNone
    split
    · rename_i hSame
      rw [if_pos hSame] at hNone
      cases hTarget : b.target with
      | group a =>
          rw [hTarget] at hNone
          dsimp only at hNone ⊢
          cases hMember : query.graph.memberOf? call.token a with
          | some n => exact absurd hNone (by simp [hMember])
          | none =>
              rw [hMember] at hNone
              cases hFound : after.memberOf? call.token a with
              | some n => exact Or.inr (by rw [h.eq_new_of_memberOf? hMember hFound])
              | none => exact h.inPackage_cases hNone
      | _ =>
          -- What stands for something unknown is told without the graph.
          rw [hTarget] at hNone
          exact Or.inl hNone
    · rename_i hOther
      rw [if_neg hOther] at hNone
      exact h.inPackage_cases hNone
  · rename_i hPlain
    rw [hPlain] at hNone
    dsimp only at hNone
    split
    · rename_i hToken
      rw [if_pos hToken] at hNone
      cases hTarget : b.target with
      | group a =>
          rw [hTarget] at hNone
          dsimp only
          cases hFound : after.constructor? a with
          | none => exact Or.inl rfl
          | some n =>
              exact Or.inr (by rw [h.eq_new_of_constructor? (by simpa using hNone) hFound]; rfl)
      | _ =>
          rw [hTarget] at hNone
          exact Or.inl hNone
    · exact Or.inl rfl

/-! ## Stages that do not look at bindings -/

theorem sameToken_eq {nodes : List NodeId} (hNodes : ∀ n ∈ nodes, query.graph.Listed n) :
    (query.within after new).sameToken nodes = query.sameToken nodes :=
  List.filter_congr fun n hn => by rw [h.node (hNodes n hn)]

theorem inheritedNamesakes_eq (a : GroupId) :
    (query.within after new).inheritedNamesakes a = query.inheritedNamesakes a := by
  rw [inheritedNamesakes, h.field Group.inherited]
  exact h.sameToken_eq fun n hn => h.sound.listed_of_mem_flatten_inherited hn

theorem callerClass?_eq : (query.within after new).callerClass? = query.callerClass? := by
  simp only [callerClass?, h.parentGroup?_eq h.caller, h.kind_eq]

theorem constructorOf_eq : (query.within after new).constructorOf g = .found new none := by
  rw [constructorOf, h.constructor?_eq]

/-- Of the candidates with the token of the call only the constructor is new. -/
theorem eq_new_or_mem_sameToken {n : NodeId}
    (hn : n ∈ (query.within after new).sameToken (query.candidates ++ [new])) :
    n = new ∨ n ∈ query.sameToken query.candidates := by
  rw [sameToken, List.filter_append, List.mem_append] at hn
  rcases hn with hn | hn
  · exact Or.inr (h.sameToken_eq h.candidates ▸ hn)
  · exact Or.inl (List.mem_singleton.mp (List.mem_filter.mp hn).1)

/-- A class that had nothing of the name of the call can only have the constructor. -/
theorem ownNamesakes {a : GroupId} (hNone : query.sameToken (query.graph.group a).nodes = []) :
    (query.within after new).sameToken (after.group a).nodes = [] ∨
      (query.within after new).sameToken (after.group a).nodes = [new] := by
  have hOld : (query.within after new).sameToken (query.graph.group a).nodes = [] := by
    rw [h.sameToken_eq fun n hn => ⟨a, hn⟩, hNone]
  by_cases ha : a = g
  · subst ha
    rw [sameToken] at hOld
    rw [h.gains.group_eq, sameToken, List.filter_append, hOld, List.nil_append,
      List.filter_singleton]
    cases decide ((after.node new).token = query.call.token) with
    | true => exact Or.inr rfl
    | false => exact Or.inl rfl
  · rw [h.gains.others a ha]
    exact Or.inl hOld

theorem viaSuper?_eq : (query.within after new).viaSuper? = query.viaSuper? := by
  simp only [viaSuper?, h.callerClass?_eq, h.inheritedNamesakes_eq]

theorem viaUnknownOwner?_eq :
    (query.within after new).viaUnknownOwner? = query.viaUnknownOwner? := by
  unfold viaUnknownOwner? callerUsesSuper
  rw [h.callerClass?_eq, h.node h.caller]
  simp only [h.inheritedNamesakes_eq]

theorem nestedClass?_eq (a : GroupId) :
    (query.within after new).nestedClass? a = query.nestedClass? a := by
  simp only [nestedClass?, h.token_eq, h.field Group.subgroups]

/-- If the class of the caller answered nothing to a call on `self`, it can only answer the
constructor. -/
theorem names_of_viaSelf? (hNone : query.viaSelf? = none) {outcome : Outcome}
    (hOutcome : (query.within after new).viaSelf? = some outcome) : outcome.Names new := by
  unfold viaSelf? at hNone hOutcome
  rw [h.callerClass?_eq] at hOutcome
  split at hOutcome
  · rename_i hSelf
    rw [if_pos hSelf] at hNone
    obtain ⟨a, hClass, hOutcome⟩ := Option.bind_eq_some_iff.mp hOutcome
    rw [hClass, Option.bind_some] at hNone
    split at hNone
    · exact absurd hNone (by simp)
    · rename_i hOwn
      split at hNone
      · exact absurd hNone (by simp)
      · rename_i hNested
        rw [h.nestedClass?_eq, hNested, h.inheritedNamesakes_eq, hNone] at hOutcome
        rcases h.ownNamesakes (Outcome.ofPossible?_eq_none_iff.mp hOwn) with hNil | hNew
        · rw [hNil] at hOutcome
          exact absurd hOutcome (by simp [Outcome.ofPossible?])
        · rw [hNew] at hOutcome
          cases hOutcome
          exact ⟨none, rfl⟩
  · exact absurd hOutcome (by simp)

/-- If the class of the caller answered the constructor of a nested class, it does so again. -/
theorem viaSelf?_of_creates {via : Option Via}
    (hCreate : query.viaSelf? = some (.create (implicitConstructor g) via)) :
    (query.within after new).viaSelf? = some (.found new none) := by
  unfold viaSelf? at hCreate ⊢
  rw [h.callerClass?_eq]
  split at hCreate
  · rename_i hSelf
    rw [if_pos hSelf]
    obtain ⟨a, hClass, hCreate⟩ := Option.bind_eq_some_iff.mp hCreate
    rw [hClass, Option.bind_some]
    split at hCreate
    · rename_i hOwn
      cases hCreate
      exact absurd hOwn ofPossible?_ne_create
    · rename_i hOwn
      split at hCreate
      · rename_i s hNested
        obtain rfl := eq_of_constructorOf (Option.some.inj hCreate)
        rw [h.nestedClass?_eq, hNested]
        rcases h.ownNamesakes (Outcome.ofPossible?_eq_none_iff.mp hOwn) with hNil | hNew
        · rw [hNil]
          exact congrArg some h.constructorOf_eq
        · rw [hNew]
          rfl
      · exact absurd hCreate ofPossible?_ne_create
  · exact absurd hCreate (by simp)

theorem eq_new_of_bySignature? (hNone : query.bySignature? = none) {n : NodeId}
    (hn : (query.within after new).bySignature? = some n) : n = new := by
  unfold bySignature? at hNone hn
  split at hn
  · exact absurd hn (by simp)
  · rename_i owner hOwner
    rw [hOwner] at hNone
    refine eq_new_of_find? hNone hn (fun m hm => h.eq_new_or_mem_sameToken hm) fun m hm => ?_
    have hm := h.candidates m (mem_of_mem_sameToken hm)
    simp only [answersTo, h.node hm, h.parentGroup?_eq hm, h.token_eq]

/-- If the stages that do not look at bindings answered nothing, they can only answer the
constructor. -/
theorem names_of_early? (hNone : query.early? = none) {outcome : Outcome}
    (hOutcome : (query.within after new).early? = some outcome) : outcome.Names new := by
  have hSignature := bySignature?_of_early? hNone
  unfold early? at hNone hOutcome
  simp only [Option.or_eq_none_iff] at hNone
  obtain ⟨⟨⟨hSuper, hSelf⟩, _⟩, hUnknown⟩ := hNone
  rw [h.viaSuper?_eq, hSuper, Option.none_or, h.viaUnknownOwner?_eq, hUnknown, Option.or_none]
    at hOutcome
  rcases Option.or_eq_some_iff.mp hOutcome with hOutcome | ⟨_, hOutcome⟩
  · exact h.names_of_viaSelf? hSelf hOutcome
  · obtain ⟨n, hn, rfl⟩ := Option.map_eq_some_iff.mp hOutcome
    rw [h.eq_new_of_bySignature? hSignature hn]
    exact ⟨none, rfl⟩

/-! ## Stages that look at bindings -/

/-- The constructor belongs to no library, so no library object has it. -/
theorem viaInstance?_eq_none {bindings : List Binding}
    (hNone : query.viaInstance? bindings = none) :
    (query.within after new).viaInstance? bindings = none := by
  unfold viaInstance? at hNone ⊢
  split
  · rename_i hNamed
    rw [if_pos hNamed, List.findSome?_eq_none_iff] at hNone
    refine List.findSome?_eq_none_iff.mpr fun b hb => ?_
    have hNone := hNone b hb
    unfold byInstance? at hNone ⊢
    split
    · rename_i hOwner
      rw [if_pos hOwner] at hNone
      split
      · rfl
      · rename_i library owner hLibrary
        rw [hLibrary] at hNone
        refine List.find?_eq_none.mpr fun n hn => ?_
        rcases h.eq_new_or_mem_sameToken hn with rfl | hOld
        · simp [h.node_new, implicitConstructor]
        · have hListed := h.candidates n (mem_of_mem_sameToken hOld)
          simpa only [h.node hListed, h.parentGroup?_eq hListed, h.token_eq] using
            List.find?_eq_none.mp hNone n hOld
    · rfl
  · rfl

/-- If no binding answered, they can only answer the constructor. -/
theorem viaBindings?_cases (hSignature : query.bySignature? = none) {bindings : List Binding}
    (hNone : query.viaBindings? bindings = .ok none) :
    (query.within after new).viaBindings? bindings = .ok none ∨
      (query.within after new).viaBindings? bindings = .ok (some (.found new none)) := by
  induction bindings with
  | nil => exact Or.inl rfl
  | cons b rest ih =>
      obtain ⟨result, hMatch, hNone⟩ := exists_of_bind_eq_ok hNone
      cases result with
      | some result =>
          -- A binding that matches answers the call.
          dsimp only at hNone
          split at hNone
          · exact absurd hNone (by simp [pure, Except.pure])
          · split at hNone <;> exact absurd hNone (by simp [pure, Except.pure])
      | none =>
          rw [viaBindings?]
          rcases h.matchBinding_cases hMatch with hSame | hNew
          · rw [hSame]
            exact ih hNone
          · refine Or.inr ?_
            rw [hNew]
            dsimp only [bind, Except.bind]
            rw [if_neg (by simp)]
            cases hFound : (query.within after new).bySignature? with
            | none => rfl
            | some n =>
                rw [h.eq_new_of_bySignature? hSignature hFound]
                rfl

/-! ## Stages behind the bindings -/

/-- The function whose result is called stays the one it was, for the constructor is no function of
a file and stands behind the other candidates. -/
theorem factory?_cases : (query.within after new).factory? = query.factory? ∨
    (query.within after new).factory? = query.factory?.or (some new) := by
  unfold factory?
  cases query.call.factory.filter (· ≠ "") with
  | none => exact Or.inl rfl
  | some name =>
      have hOld : query.candidates.filter (fun n => decide ((after.node n).token = name)) =
          query.candidates.filter fun n => decide ((query.graph.node n).token = name) :=
        List.filter_congr fun n hn => by rw [h.node (h.candidates n hn)]
      have hFind : ∀ p : NodeId → Bool,
          ((query.candidates.filter p).find? fun n => (after.parentGroup? n).any fun a =>
            decide ((after.group a).kind = .file)) =
          (query.candidates.filter p).find? fun n => (query.graph.parentGroup? n).any fun a =>
            decide ((query.graph.group a).kind = .file) := by
        intro p
        rw [← List.head?_filter, ← List.head?_filter]
        exact congrArg List.head? (List.filter_congr fun n hn => by
          simp only [h.parentGroup?_eq (h.candidates n (List.mem_filter.mp hn).1), h.kind_eq])
      dsimp only
      rw [List.filter_append, hOld, List.filter_singleton]
      cases decide ((after.node new).token = name) with
      | false => exact Or.inl (by rw [cond_false, List.append_nil, hFind])
      | true =>
          refine Or.inr ?_
          rw [cond_true, List.find?_append, hFind, List.find?_singleton, h.parentGroup?_new,
            Option.any_some, h.kind_eq, h.kind, if_neg (by simp), Option.or_none, List.head?_append,
            ← Option.or_assoc]
          rfl

/-- If what a function returned answered nothing, it can only answer the constructor. -/
theorem names_of_viaFactory? (hNone : query.viaFactory? = none) {outcome : Outcome}
    (hOutcome : (query.within after new).viaFactory? = some outcome) : outcome.Names new := by
  unfold viaFactory? at hNone hOutcome
  obtain ⟨f, hFactory, hOutcome⟩ := Option.bind_eq_some_iff.mp hOutcome
  have hCases : query.factory? = some f ∨ f = new := by
    rcases h.factory?_cases with hSame | hNew
    · exact Or.inl (hSame ▸ hFactory)
    · rw [hNew] at hFactory
      exact (Option.or_eq_some_iff.mp hFactory).imp_right
        fun hLast => (Option.some.inj hLast.2).symm
  rcases hCases with hBefore | rfl
  · rw [hBefore, Option.bind_some] at hNone
    rw [h.node (h.candidates f (mem_of_factory? hBefore))] at hOutcome
    dsimp only at hNone hOutcome
    split at hNone
    · exact absurd hNone (by simp)
    · rename_i hReturns
      split at hNone
      · exact absurd hNone (by simp)
      · rename_i hLambda
        split at hOutcome
        · rename_i target hTarget
          cases hOutcome
          obtain ⟨token, hToken, hTarget⟩ := List.exists_of_findSome?_eq_some hTarget
          have hNew : target = new := by
            refine eq_new_of_find? (List.findSome?_eq_none_iff.mp hReturns token hToken) hTarget
              (fun m hm => ?_) fun m hm => by rw [h.node (h.candidates m hm)]
            exact (List.mem_append.mp hm).symm.imp_left List.mem_singleton.mp
          exact ⟨some .factory, by rw [hNew]⟩
        · rw [if_neg hLambda] at hOutcome
          exact absurd hOutcome (by simp)
  · -- The constructor has no body, so it returns nothing.
    rw [h.node_new] at hOutcome
    exact absurd hOutcome (by simp [implicitConstructor])

/-- Whether a candidate matches the call stays the same. -/
theorem fits_eq {n : NodeId} (hn : query.graph.Listed n) :
    (query.within after new).fits n = query.fits n := by
  obtain ⟨p, hParent, _⟩ := h.sound.parent_of h.caller
  have hAbove : ∀ (graph : Graph) (depth : Nat),
      graph.nodesUpwards depth (.group p) = ([], some p) :=
    fun graph depth => by cases depth <;> rfl
  have hTop : (query.within after new).callerTop? = query.callerTop? := by
    simp only [callerTop?, h.node h.caller, hParent, hAbove, h.chain_eq]
  simp only [fits, hTop, isMemberTarget, isPlainTarget, h.node hn, h.parentGroup?_eq hn,
    h.parentToken?_eq hn, h.kind_eq]

/-- The class is looked up under the same candidate as before. -/
theorem namedClass?_of_some {a : GroupId} (hClass : query.namedClass? = some a) :
    (query.within after new).namedClass? = some a := by
  unfold namedClass? at hClass ⊢
  rw [List.findSome?_append]
  refine Option.or_eq_some_iff.mpr (Or.inl ?_)
  rw [← hClass, ← List.head?_filterMap, ← List.head?_filterMap]
  exact congrArg List.head? (List.filterMap_congr fun n hn => by
    simp only [h.parentGroup?_eq (h.candidates n hn), h.kind_eq, h.token_eq])

/-- If the candidates led to the class, they lead to its constructor now. -/
theorem direct_of_creates {via : Option Via}
    (hCreate : query.direct = .ok (.create (implicitConstructor g) via)) :
    (query.within after new).direct = .ok (.found new none) := by
  obtain ⟨_, hBefore⟩ := h.toPosed.byToken_eq
  obtain ⟨_, hAfter⟩ := h.posed.byToken_eq
  rw [List.filter_append, List.filter_congr fun n hn => h.fits_eq (h.candidates n hn)] at hAfter
  unfold direct at hCreate ⊢
  rw [hBefore] at hCreate
  rw [hAfter]
  dsimp only [bind, Except.bind] at hCreate ⊢
  generalize query.candidates.filter query.fits = possible at hCreate ⊢
  rcases possible with _ | ⟨n, _ | ⟨m, rest⟩⟩
  · -- Nothing matched, so the class was named.
    cases hClass : query.namedClass? with
    | none =>
        rw [hClass] at hCreate
        cases hCreate
    | some a =>
        rw [hClass] at hCreate
        obtain rfl := eq_of_constructorOf (Except.ok.inj hCreate)
        rw [List.nil_append, List.filter_singleton]
        cases (query.within after new).fits new with
        | true => rfl
        | false =>
            rw [h.namedClass?_of_some hClass]
            exact congrArg Except.ok h.constructorOf_eq
  · cases hCreate
  · cases hCreate

end Constructs

/-! ## The whole resolution -/

theorem viaSuper?_ne_create {node : Node} {via : Option Via} :
    query.viaSuper? ≠ some (.create node via) := by
  intro h
  unfold viaSuper? at h
  split at h
  · obtain ⟨a, _, h⟩ := Option.bind_eq_some_iff.mp h
    exact ofPossible?_ne_create h
  · exact absurd h (by simp)

theorem viaUnknownOwner?_ne_create {node : Node} {via : Option Via} :
    query.viaUnknownOwner? ≠ some (.create node via) := by
  intro h
  unfold viaUnknownOwner? at h
  split at h
  · obtain ⟨a, _, h⟩ := Option.bind_eq_some_iff.mp h
    split at h
    · exact ofPossible?_ne_create h
    · exact absurd h (by simp)
  · exact absurd h (by simp)

theorem viaBindings?_ne_create {bindings : List Binding} {node : Node} {via : Option Via} :
    query.viaBindings? bindings ≠ .ok (some (.create node via)) := by
  intro h
  induction bindings with
  | nil => exact absurd h (by simp [viaBindings?])
  | cons b rest ih =>
      obtain ⟨result, _, h⟩ := exists_of_bind_eq_ok h
      split at h
      · exact ih h
      · split at h
        · cases h
        · split at h <;> cases h

/-- What a function returned is an anonymous function, and no constructor. -/
theorem viaFactory?_ne_constructor {via : Option Via} :
    query.viaFactory? ≠ some (.create (implicitConstructor g) via) := by
  intro h
  unfold viaFactory? at h
  obtain ⟨f, _, h⟩ := Option.bind_eq_some_iff.mp h
  dsimp only at h
  split at h
  · cases h
  · split at h
    · exact absurd h (by simp [lambdaOf, implicitConstructor])
    · exact absurd h (by simp)

/-- A constructor is made up at two places: for a class nested in that of the caller, or for a class
of the right name when all else fails. -/
theorem cases_of_creates {via : Option Via}
    (h : query.resolve = .ok (.create (implicitConstructor g) via)) :
    (query.viaSuper? = none ∧ query.viaSelf? = some (.create (implicitConstructor g) via)) ∨
      (query.ReachesDirect ∧ query.direct = .ok (.create (implicitConstructor g) via)) := by
  unfold resolve at h
  split at h
  · rename_i outcome hEarly
    cases h
    unfold early? at hEarly
    simp only [Option.or_eq_some_iff, viaSuper?_ne_create, viaUnknownOwner?_ne_create, false_or,
      and_false, or_false] at hEarly
    rcases hEarly with hSelf | ⟨_, hSignature⟩
    · exact Or.inl hSelf
    · obtain ⟨n, _, hSignature⟩ := Option.map_eq_some_iff.mp hSignature
      cases hSignature
  · rename_i hEarly
    obtain ⟨bindings, hVisible, h⟩ := exists_of_bind_eq_ok h
    unfold late at h
    split at h
    · cases h
    · rename_i hInstance
      obtain ⟨result, hBindings, h⟩ := exists_of_bind_eq_ok h
      split at h
      · cases h
        exact absurd hBindings viaBindings?_ne_create
      · split at h
        · rename_i hFactory
          cases h
          exact absurd hFactory viaFactory?_ne_constructor
        · rename_i hFactory
          exact Or.inr ⟨⟨hEarly, ⟨bindings, hVisible, hInstance, hBindings⟩, hFactory⟩, h⟩

/-- A constructor that was made up is found again. -/
theorem Constructs.resolve_again {new : NodeId} {after : Graph}
    (h : query.Constructs g new after) {via : Option Via}
    (hCreate : query.resolve = .ok (.create (implicitConstructor g) via)) :
    ∃ outcome, (query.within after new).resolve = .ok outcome ∧ outcome.Names new := by
  unfold resolve
  rcases cases_of_creates hCreate with ⟨hSuper, hSelf⟩ | ⟨hDirect, hCreate⟩
  · rw [early?, h.viaSuper?_eq, hSuper, Option.none_or, h.viaSelf?_of_creates hSelf]
    exact ⟨_, rfl, none, rfl⟩
  · cases hEarly : (query.within after new).early? with
    | some outcome => exact ⟨outcome, rfl, h.names_of_early? hDirect.early hEarly⟩
    | none =>
        obtain ⟨bindings, hVisible, hInstance, hBindings⟩ := hDirect.late
        dsimp only
        rw [h.visible_eq, hVisible]
        show ∃ outcome, (query.within after new).late bindings = .ok outcome ∧ _
        rw [late, h.viaInstance?_eq_none hInstance]
        dsimp only
        rcases h.viaBindings?_cases (bySignature?_of_early? hDirect.early) hBindings with
          hNone | hNew
        · rw [hNone]
          dsimp only [bind, Except.bind]
          cases hFactory : (query.within after new).viaFactory? with
          | some outcome => exact ⟨outcome, rfl, h.names_of_viaFactory? hDirect.factory hFactory⟩
          | none => exact ⟨_, h.direct_of_creates hCreate, none, rfl⟩
        · rw [hNew]
          exact ⟨_, rfl, none, rfl⟩

/-! ## What an answer adds -/

/-- An answer adds a node: a new one, at the end of one group and at the end of the candidates, and
the call goes to it. -/
structure Adds (query : Query) (answer : Answer) (g : GroupId) (n : NodeId) : Prop where
  gains : query.graph.Gains g n answer.graph
  candidates_eq : answer.candidates = query.candidates ++ [n]
  not_mem : n ∉ query.candidates
  target_eq : answer.target = some n
  calls_nil : (answer.graph.node n).calls = []
  library : (answer.graph.node n).isLibrary = false
  missing : (answer.graph.node n).isMissing = false

namespace Posed

variable {node : Node} {via : Option Via}

theorem gains (h : query.Posed) (hNode : query.graph.Invention g node) :
    query.graph.Gains g ⟨query.graph.nodes.size⟩ (query.graph.insertNode node).1 where
  new hListed := absurd (h.sound.lt_of_listed hListed) (lt_irrefl _)
  index_eq := rfl
  nodes_size := nodes_size_insertNode node
  groups_size := groups_size_insertNode node
  group_eq := by rw [group_insertNode hNode.parent, if_pos ⟨rfl, hNode.lt⟩]
  others other hne := by rw [group_insertNode hNode.parent, if_neg fun hSame => hne hSame.1]
  node_eq m hne := by rw [node_insertNode, if_neg fun hSame => hne (nodeId_ext hSame)]

/-- A node that is made up for a call is all that its answer adds. -/
theorem adds (h : query.Posed) (hNode : query.graph.Creatable node) :
    ∃ g, query.Adds ((Outcome.create node via).apply query.graph query.candidates) g
      ⟨query.graph.nodes.size⟩ := by
  obtain ⟨g, hInvention⟩ := hNode.invention h.sound
  have hGains := h.gains hInvention
  have hPlaced := query.graph.node_insertNode_new node
  have hInvented := hInvention.invented
  simp only [Node.isInvented, Bool.and_eq_true, Bool.not_eq_true'] at hInvented
  refine ⟨g, ?_⟩
  dsimp only [Outcome.apply]
  rw [index_insertNode]
  exact
    { gains := hGains
      candidates_eq := rfl
      not_mem := fun hMem => hGains.new (h.candidates _ hMem)
      target_eq := rfl
      calls_nil := hPlaced ▸ hInvention.calls_nil
      library := hPlaced ▸ hInvented.1.2
      missing := hPlaced ▸ hInvented.2 }

/-- A constructor that was made up answers the call when it comes again. -/
theorem answer_again (h : query.Posed) (hNode : query.graph.Creatable node)
    (hCreate : query.resolve = .ok (.create node via)) (hImplicit : node.isImplicit = true) :
    ∃ outcome, (query.within (query.graph.insertNode node).1 ⟨query.graph.nodes.size⟩).resolve =
      .ok outcome ∧ outcome.Names ⟨query.graph.nodes.size⟩ := by
  obtain ⟨p, hInvention⟩ := hNode.invention h.sound
  have hNext := (@Posed.next _ h (.create node via) hNode query.call).1
  simp only [Outcome.apply, index_insertNode] at hNext
  cases hNode with
  | constructor hg hKind hNone =>
      cases hInvention.parent
      exact Constructs.resolve_again ⟨h, h.gains hInvention, by rw [node_insertNode_new],
        hKind, hNone, hNext⟩ hCreate
  | lambda hListed hSignature => exact absurd hImplicit (by simp [lambdaOf])

end Posed

end Query

/-! ## Every question of a run -/

namespace Linking

variable {options : LinkOptions} {state : Linking}

/-- The questions that come up are asked in a sound graph about nodes that it lists, also if linking
stops at one of them. -/
theorem posed_askedAll {imports callers : List NodeId} (h : state.Linkable imports callers) :
    ∀ query ∈ state.askedAll options imports callers, query.Posed := by
  induction callers generalizing state with
  | nil => simp [askedAll]
  | cons caller rest ih =>
      rw [askedAll, List.forall_mem_append]
      refine ⟨fun query hQuery => (h.posed_asked query hQuery).1, ?_⟩
      split
      · simp
      · exact ih (h.rest ‹_›)

end Linking

namespace CallMap

/-- Answering a question of a run changes nothing, or it adds the node that the call goes to and no
more. A constructor that is added this way answers the same question when it is asked again, and
then nothing changes. No call goes to a node and is ambiguous as well. -/
theorem only_answer_added {options : Options} {outlines : List FileOutline} {prepared : Prepared}
    (hPrepared : (prepare options outlines).result = .ok prepared) {query : Query}
    (hQuery : query ∈ prepared.asked options) {outcome : Outcome}
    (hOutcome : query.resolve = .ok outcome) :
    let answer := outcome.apply query.graph query.candidates
    ((answer.graph = query.graph ∧ answer.candidates = query.candidates) ∨
      ∃ g n, query.Adds answer g n ∧ ((answer.graph.node n).isImplicit = true →
        ∃ repeated, Query.resolve
            { query with graph := answer.graph, candidates := answer.candidates } = .ok repeated ∧
          repeated.apply answer.graph answer.candidates =
            ⟨answer.graph, answer.candidates, some n⟩)) ∧
    (outcome.isAmbiguous = true → answer.target = none) := by
  intro answer
  have hPosed := Linking.posed_askedAll (linkable_of_prepare hPrepared) query hQuery
  have hFits := Query.resolve_fits hPosed hOutcome
  cases outcome with
  | create node via =>
      refine ⟨Or.inr ?_, fun hAmbiguous => absurd hAmbiguous Bool.false_ne_true⟩
      obtain ⟨g, hAdds⟩ := @Query.Posed.adds _ _ via hPosed hFits
      refine ⟨g, _, hAdds, fun hImplicit => ?_⟩
      have hNode : node.isImplicit = true := by
        simpa [answer, Outcome.apply, node_insertNode] using hImplicit
      obtain ⟨_, hRepeated, detour, rfl⟩ := hPosed.answer_again hFits hOutcome hNode
      exact ⟨_, by rwa [hAdds.candidates_eq], rfl⟩
  | found n via => exact ⟨Or.inl ⟨rfl, rfl⟩, fun hAmbiguous => absurd hAmbiguous Bool.false_ne_true⟩
  | _ => exact ⟨Or.inl ⟨rfl, rfl⟩, fun _ => rfl⟩

/-- A class with a class inside, neither with a constructor. A method constructs the inner class on
`self`, and a function constructs the outer one by its name. -/
def innerModule : Tree :=
  .moduleOf
    [.classAt 1 "Outer"
       [.classAt 2 "Inner" [.passAt 3],
        .functionAt 4 "grow"
          [.statementAt 5 (.callAt 5 (.memberAt 5 (.nameAt 5 "self") "Inner"))]],
     .functionAt 6 "main" [.statementAt 7 (.callAt 7 (.nameAt 7 "Outer"))]]

def innerFiles : FileSystem := { entries := [(["a.py"], .file { content := .ok innerModule })] }

/-- Whether the answer to a question brings a candidate, and the call goes to a constructor that is
not spelled out. -/
def bringsConstructor (query : Query) : Bool :=
  query.resolve.toOption.any fun outcome =>
    let answer := outcome.apply query.graph query.candidates
    decide (answer.candidates ≠ query.candidates) &&
      answer.target.any fun n => (answer.graph.node n).isImplicit

/-- Both classes of the sample get a constructor, and both calls find it again. -/
theorem only_answer_added_inner :
    ∃ read prepared linked, Run innerFiles {} ["a.py"] read prepared linked ∧
      (prepared.asked {}).map (fun query => (query.call.owner, query.call.token)) =
        [(none, "Outer"), (some "self", "Inner")] ∧
      ∀ query ∈ prepared.asked {}, ∃ outcome answer g n repeated, query.resolve = .ok outcome ∧
        outcome.apply query.graph query.candidates = answer ∧ query.Adds answer g n ∧
        Query.resolve { query with graph := answer.graph, candidates := answer.candidates } =
          .ok repeated ∧
        repeated.apply answer.graph answer.candidates =
          ⟨answer.graph, answer.candidates, some n⟩ := by
  obtain ⟨chart, hChart, _⟩ := exists_ok_of_any
    (show (build innerFiles {} (.text "py") ["a.py"]).result.toOption.any (fun _ => true) = true by
      decide +kernel)
  obtain ⟨read, prepared, linked, hRun, _⟩ := exists_run_of_build hChart
  obtain ⟨hCalls, hBrings⟩ := of_decide_eq_true (hRun.test_of_passes
    (show passes innerFiles {} ["a.py"] (fun _ prepared _ => decide (
      (prepared.asked {}).map (fun query => (query.call.owner, query.call.token)) =
        [(none, "Outer"), (some "self", "Inner")] ∧
      (prepared.asked {}).all bringsConstructor = true)) = true by decide +kernel))
  refine ⟨read, prepared, linked, hRun, hCalls, fun query hQuery => ?_⟩
  obtain ⟨outcome, hOutcome, hTest⟩ :=
    exists_ok_of_any (List.all_eq_true.mp hBrings query hQuery)
  rw [Bool.and_eq_true, decide_eq_true_eq] at hTest
  rcases (only_answer_added hRun.prepares hQuery hOutcome).1 with
    ⟨_, hSame⟩ | ⟨g, n, hAdds, hRepeat⟩
  · exact absurd hSame hTest.1
  · have hImplicit := hTest.2
    rw [hAdds.target_eq] at hImplicit
    obtain ⟨repeated, hRepeated, hApply⟩ := hRepeat hImplicit
    exact ⟨outcome, _, g, n, repeated, hOutcome, rfl, hAdds, hRepeated, hApply⟩

end CallMap

end CallGraph
