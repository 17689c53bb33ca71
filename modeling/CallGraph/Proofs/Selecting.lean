import CallGraph.Proofs.Placing

/-!
# What the limits select

Namespaces and functions are left out by name, or all but some are. This is done in steps, file by
file and group by group, each working on what the steps before it left, and files are treated by
rules of their own: a named file loses everything below it, an unwanted one only its own nodes, and
then its groups are gone through, the file itself once more.

The order does not matter. What a step takes out, of the nodes that are still there, can be told
from the graph that there was at the beginning (`Graph.Takes`), since neither the groups nor their
names change. Steps of this kind are put together by joining what they take out, and at the end a
node is left exactly if the groups around it and its own token let it be.

## Main definitions

* `Graph.Takes` — a step takes out given nodes, whatever was taken out before.
* `Options.keepsNamespace`, `Options.keepsFunction` — what the options let be.
* `Graph.Leaves` — the nodes that are let be are left in the groups, and nothing else changes.
* `Selects` — what is left and what is logged when both kinds of limits are put to work.

## Main results

* `WellFormed.mem_chain_iff` — the chain of a group consists of the groups around it.
* `takes_limitNamespaces`, `takes_limitFunctions` — what the two kinds of limits take out.
* `warnings_eq` — which names are warned about.
* `limit_exact` — limits select exactly what the options let be.
-/

namespace CallGraph

namespace Graph

open Limits

variable {graph : Graph} {files : List GroupId} {exclude only : List Value}

/-! ## Chains -/

/-- A walk upwards that comes to a root has met everything around its start. -/
theorem mem_upwards_of_around {depth : Nat} {g p r : GroupId}
    (hr : r ∈ graph.upwards depth (some g)) (hRoot : (graph.group r).parent = none)
    (h : graph.Around g p) : p ∈ graph.upwards depth (some g) := by
  induction depth generalizing g with
  | zero => exact absurd hr List.not_mem_nil
  | succ depth ih =>
      rw [upwards, List.mem_cons] at hr ⊢
      rcases Relation.ReflTransGen.cases_head h with rfl | ⟨q, hq, hRest⟩
      · exact Or.inl rfl
      · rcases hr with rfl | hr
        · rw [hRoot] at hq
          exact absurd hq (by simp)
        · rw [hq] at hr ⊢
          exact Or.inr (ih hr hRest)

theorem around_of_mem_upwards {depth : Nat} {g p : GroupId}
    (h : p ∈ graph.upwards depth (some g)) : graph.Around g p := by
  induction depth generalizing g with
  | zero => exact absurd h List.not_mem_nil
  | succ depth ih =>
      rw [upwards, List.mem_cons] at h
      rcases h with rfl | h
      · exact Relation.ReflTransGen.refl
      · cases hParent : (graph.group g).parent with
        | none =>
            rw [hParent, upwards_none] at h
            exact absurd h List.not_mem_nil
        | some q =>
            rw [hParent] at h
            exact (ih h).head hParent

theorem WellFormed.around_of_below (hGraph : graph.WellFormed) {g p : GroupId}
    (h : graph.Below p g) : graph.Around g p := by
  induction h with
  | refl => exact Relation.ReflTransGen.refl
  | tail _ hStep ih => exact ih.head (hGraph.parent_of_subgroup hStep)

/-- The chain of a group that a root leads to consists of the groups around it. -/
theorem WellFormed.mem_chain_iff (hGraph : graph.WellFormed) {r g p : GroupId}
    (hRoot : (graph.group r).parent = none) (hBelow : graph.Below r g) :
    p ∈ graph.chain g ↔ graph.Below p g := by
  have hChain : graph.chain g = graph.upwards (graph.groups.size + 1) (some g) := rfl
  constructor
  · intro hp
    rw [hChain] at hp
    exact (hGraph.below_of_around (fun _ _ hs => hs) hRoot hBelow (around_of_mem_upwards hp)).2
  · intro hp
    obtain ⟨inner, hInner, _⟩ := hGraph.exists_chain hRoot hBelow
    have hr : r ∈ graph.chain g := by rw [hInner]; simp
    rw [hChain] at hr ⊢
    exact mem_upwards_of_around hr hRoot (hGraph.around_of_below hp)

/-- What contains a group that some roots lead to is itself below one of them. -/
theorem mem_groupsOf_of_below (hGraph : graph.WellFormed) (hRoots : graph.Roots files)
    {g p : GroupId} (hg : g ∈ graph.groupsOf files) (hp : graph.Below p g) :
    p ∈ graph.groupsOf files := by
  rw [mem_groupsOf hGraph hRoots] at hg ⊢
  obtain ⟨r, hr, hBelow⟩ := hg
  rcases hGraph.below_total hBelow hp with h | h
  · exact ⟨r, hr, h⟩
  · rw [hGraph.eq_of_below_root h (hRoots.no_parent r hr)]
    exact ⟨r, hr, Below.refl r⟩

/-! ## Walks after nodes were taken out -/

theorem allGroups_removeNodes (hGraph : graph.WellFormed) (ms : List NodeId) :
    (graph.removeNodes ms).allGroups = graph.allGroups :=
  allGroups_congr (shrinks_removeNodes graph ms).size_eq (subgroups_removeNodes hGraph ms)

theorem chain_removeNodes (graph : Graph) (ms : List NodeId) :
    (graph.removeNodes ms).chain = graph.chain :=
  chain_congr (shrinks_removeNodes graph ms).size_eq
    ((shrinks_removeNodes graph ms).group_field Group.parent)

theorem mem_allNodes_removeNodes_iff (hGraph : graph.WellFormed) {ms : List NodeId} {g : GroupId}
    {n : NodeId} : n ∈ (graph.removeNodes ms).allNodes g ↔ n ∈ graph.allNodes g ∧ n ∉ ms := by
  simp only [allNodes, allGroups_removeNodes hGraph, List.mem_flatMap,
    mem_nodes_removeNodes hGraph]
  constructor
  · rintro ⟨p, hp, hn, hOut⟩
    exact ⟨⟨p, hp, hn⟩, hOut⟩
  · rintro ⟨⟨p, hp, hn⟩, hOut⟩
    exact ⟨p, hp, hn, hOut⟩

/-! ## Steps that take nodes out -/

/-- A step takes out the nodes that `out` names, of those that are still there. -/
def Takes (graph : Graph) (step : Graph → Graph) (out : NodeId → Prop) : Prop :=
  ∀ ms, ∃ ns, step (graph.removeNodes ms) = graph.removeNodes (ms ++ ns) ∧
    ∀ n, n ∉ ms → (n ∈ ns ↔ out n)

namespace Takes

variable {step last : Graph → Graph} {out out' : NodeId → Prop}

theorem congr (h : graph.Takes step out) (hOut : ∀ n, out n ↔ out' n) : graph.Takes step out' := by
  intro ms
  obtain ⟨ns, hStep, hns⟩ := h ms
  exact ⟨ns, hStep, fun n hn => (hns n hn).trans (hOut n)⟩

/-- Where a condition holds, the nodes of a list are taken out. -/
theorem ite (condition : Graph → Bool) (nodes : Graph → List NodeId)
    (hCondition : ∀ ms, condition (graph.removeNodes ms) = condition graph)
    (hNodes : ∀ ms n, n ∉ ms → (n ∈ nodes (graph.removeNodes ms) ↔ n ∈ nodes graph)) :
    graph.Takes (fun graph => if condition graph then graph.removeNodes (nodes graph) else graph)
      fun n => condition graph = true ∧ n ∈ nodes graph := by
  intro ms
  dsimp only
  rw [hCondition]
  cases condition graph with
  | true =>
      refine ⟨nodes (graph.removeNodes ms), (removeNodes_append _ _ _).symm, fun n hn => ?_⟩
      rw [hNodes ms n hn]
      exact (and_iff_right rfl).symm
  | false => exact ⟨[], by simp, by simp⟩

theorem comp (hFirst : graph.Takes step out) (hLast : graph.Takes last out') :
    graph.Takes (fun graph => last (step graph)) fun n => out n ∨ out' n := by
  intro ms
  obtain ⟨first, hStep, hOut⟩ := hFirst ms
  obtain ⟨second, hStep', hOut'⟩ := hLast (ms ++ first)
  refine ⟨first ++ second, ?_, fun n hn => ?_⟩
  · dsimp only
    rw [hStep, hStep', List.append_assoc]
  · dsimp only
    rw [List.mem_append, ← hOut n hn]
    -- What the first step took out, the second does not meet.
    by_cases hMem : n ∈ first
    · simp only [hMem, true_or]
    · rw [hOut' n (by simp [hn, hMem])]

theorem foldl {α : Type _} {step : Graph → α → Graph} {out : α → NodeId → Prop} {items : List α}
    (h : ∀ item ∈ items, graph.Takes (step · item) (out item)) :
    graph.Takes (fun graph => items.foldl step graph) fun n => ∃ item ∈ items, out item n := by
  induction items with
  | nil => exact fun ms => ⟨[], by simp, by simp⟩
  | cons item rest ih =>
      have hRest := ih fun other hOther => h other (List.mem_cons_of_mem _ hOther)
      refine ((h item List.mem_cons_self).comp hRest).congr fun n => ?_
      simp

end Takes

/-! ## Namespaces -/

/-- The step at a group takes a node out. -/
def OutOfGroup (graph : Graph) (exclude only : List Value) (g : GroupId) (n : NodeId) : Prop :=
  (mentions exclude (graph.group g).token = true ∧ n ∈ graph.allNodes g) ∨
    (isUnwanted graph only g = true ∧ n ∈ (graph.group g).nodes)

theorem token_removeNodes (graph : Graph) (ms : List NodeId) (g : GroupId) :
    ((graph.removeNodes ms).group g).token = (graph.group g).token :=
  (shrinks_removeNodes graph ms).group_field Group.token (g := g)

theorem isUnwanted_removeNodes (graph : Graph) (ms : List NodeId) (g : GroupId) :
    isUnwanted (graph.removeNodes ms) only g = isUnwanted graph only g := by
  simp only [isUnwanted, chain_removeNodes, token_removeNodes]

theorem takes_exclude (hGraph : graph.WellFormed) (exclude : List Value) (g : GroupId) :
    graph.Takes (fun graph => if mentions exclude (graph.group g).token then
      graph.removeNodes (graph.allNodes g) else graph)
      fun n => mentions exclude (graph.group g).token = true ∧ n ∈ graph.allNodes g := by
  refine Takes.ite (fun graph => mentions exclude (graph.group g).token)
    (fun graph => graph.allNodes g) (fun ms => ?_) fun ms n hn => ?_
  · rw [token_removeNodes]
  · rw [mem_allNodes_removeNodes_iff hGraph]
    exact and_iff_left hn

theorem takes_own (hGraph : graph.WellFormed) (condition : Graph → Bool)
    (hCondition : ∀ ms, condition (graph.removeNodes ms) = condition graph) (g : GroupId) :
    graph.Takes (fun graph => if condition graph then graph.removeNodes (graph.group g).nodes
      else graph) fun n => condition graph = true ∧ n ∈ (graph.group g).nodes := by
  refine Takes.ite condition (fun graph => (graph.group g).nodes) hCondition fun ms n hn => ?_
  rw [mem_nodes_removeNodes hGraph]
  exact and_iff_left hn

theorem takes_limitGroup (hGraph : graph.WellFormed) (exclude only : List Value) (g : GroupId) :
    graph.Takes (limitGroup exclude only · g) (graph.OutOfGroup exclude only g) :=
  (takes_exclude hGraph exclude g).comp
    (takes_own hGraph (isUnwanted · only g) (fun ms => isUnwanted_removeNodes graph ms g) g)

/-- A root has nothing above it, so the rule for files is the rule for groups. -/
theorem isUnwantedFile_eq {r : GroupId} (hRoot : (graph.group r).parent = none) :
    isUnwantedFile graph only r = isUnwanted graph only r := by
  have hChain : graph.chain r = [r] := by rw [chain, allParents, hRoot, upwards_none]
  simp [isUnwantedFile, isUnwanted, hChain]

/-- The steps at a file and at its groups take out what the steps at its groups do, for the file is
one of its groups. -/
theorem takes_limitFile (hGraph : graph.WellFormed) {file : GroupId}
    (hFile : file.index < graph.groups.size) (hRoot : (graph.group file).parent = none) :
    graph.Takes (limitFile exclude only · file) fun n =>
      ∃ g ∈ graph.allGroups file, graph.OutOfGroup exclude only g n := by
  have hWanted : ∀ ms, isUnwantedFile (graph.removeNodes ms) only file =
      isUnwantedFile graph only file := fun ms => by
    rw [isUnwantedFile, isUnwantedFile, token_removeNodes]
  have hGroups : graph.Takes
      (fun left => (left.allGroups file).foldl (limitGroup exclude only) left)
      fun n => ∃ g ∈ graph.allGroups file, graph.OutOfGroup exclude only g n := by
    intro ms
    dsimp only
    rw [allGroups_removeNodes hGraph]
    exact Takes.foldl (fun g _ => takes_limitGroup hGraph exclude only g) ms
  refine (((takes_exclude hGraph exclude file).comp
    (takes_own hGraph (isUnwantedFile · only file) hWanted file)).comp hGroups).congr fun n => ?_
  rw [isUnwantedFile_eq hRoot]
  have hSelf : file ∈ graph.allGroups file := (hGraph.mem_allGroups hFile).mpr (Below.refl file)
  exact or_iff_right_of_imp fun h => ⟨file, hSelf, h⟩

theorem takes_limitNamespaces (hGraph : graph.WellFormed) (hRoots : graph.Roots files)
    (exclude only : List Value) :
    graph.Takes (limitNamespaces · files exclude only) fun n =>
      ∃ g ∈ graph.groupsOf files, graph.OutOfGroup exclude only g n := by
  refine (Takes.foldl fun file hFile =>
    takes_limitFile hGraph (hRoots.lt file hFile) (hRoots.no_parent file hFile)).congr fun n => ?_
  simp only [groupsOf, List.mem_flatMap]
  constructor
  · rintro ⟨file, hFile, g, hg, hOut⟩
    exact ⟨g, ⟨file, hFile, hg⟩, hOut⟩
  · rintro ⟨g, ⟨file, hFile, hg⟩, hOut⟩
    exact ⟨file, hFile, g, hg, hOut⟩

/-! ## Functions -/

theorem takes_limitFunctions (hGraph : graph.WellFormed) (files : List GroupId)
    (exclude only : List Value) :
    graph.Takes (limitFunctions · files exclude only) fun n =>
      n ∈ graph.nodesOf files ∧ isLeftOut graph exclude only n = true := by
  have hFile : ∀ file ∈ files, graph.Takes (fun left => left.removeNodes
      ((left.allNodes file).filter (isLeftOut left exclude only)))
      fun n => n ∈ graph.allNodes file ∧ isLeftOut graph exclude only n = true := by
    intro file _ ms
    refine ⟨_, (removeNodes_append _ _ _).symm, fun n hn => ?_⟩
    rw [List.mem_filter, mem_allNodes_removeNodes_iff hGraph, and_iff_left hn, isLeftOut,
      (shrinks_removeNodes graph ms).node_eq]
    rfl
  refine (Takes.foldl hFile).congr fun n => ?_
  simp only [nodesOf, List.mem_flatMap]
  constructor
  · rintro ⟨file, hMem, hn, hOut⟩
    exact ⟨⟨file, hMem, hn⟩, hOut⟩
  · rintro ⟨⟨file, hMem, hn⟩, hOut⟩
    exact ⟨file, hMem, hn, hOut⟩

end Graph

/-! ## Warnings -/

namespace Limits

open CallGraph.Graph

theorem mentions_iff {names : List Value} {token : String} :
    mentions names token = true ↔ Value.text token ∈ names := by
  rw [mentions, List.any_eq_true]
  constructor
  · rintro ⟨name, hName, hText⟩
    cases name with
    | text text => exact of_decide_eq_true hText ▸ hName
    | _ => exact absurd hText Bool.false_ne_true
  · exact fun h => ⟨.text token, h, decide_eq_true rfl⟩

/-- The names that are none of some tokens. -/
def unmet (tokens : List String) (names : List Value) : List Value :=
  names.filter fun name => !tokens.any (mentions [name])

/-- The warning about a name that was not met. -/
def warning (kind : String) (name : Value) : String :=
  "Could not exclude " ++ kind ++ " '" ++ name.plain ++ "' because it was not found."

theorem warnings_cons (kind : String) (met : List String) {name : Value} (rest : List Value)
    (hName : name.isHashable = true) :
    warnings kind met (name :: rest) =
      if met.any (mentions [name]) then warnings kind met rest
      else (warning kind name :: (warnings kind met rest).1, (warnings kind met rest).2) := by
  cases name with
  | text text =>
      have hAny : met.any (mentions [.text text]) = met.contains text := by
        rw [Bool.eq_iff_iff, List.any_eq_true, List.contains_iff_mem]
        simp only [mentions_iff, List.mem_singleton, Value.text.injEq, exists_eq_right]
      rw [hAny]
      rfl
  | list _ | table _ => exact absurd hName Bool.false_ne_true
  | _ =>
      rw [List.any_eq_false.mpr fun token _ => by
        rw [mentions_iff, List.mem_singleton]
        intro h
        cases h]
      rfl

/-- Every name that was not met is warned about, as often as it is given. -/
theorem warnings_eq (kind : String) (met : List String) {names : List Value}
    (hNames : ∀ name ∈ names, name.isHashable = true) :
    warnings kind met names = ((unmet met names).map (warning kind), .ok ()) := by
  induction names with
  | nil => rfl
  | cons name rest ih =>
      have hRest := ih fun other hOther => hNames other (List.mem_cons_of_mem _ hOther)
      rw [warnings_cons kind met rest (hNames name List.mem_cons_self), hRest, unmet, unmet,
        List.filter_cons]
      cases met.any (mentions [name]) <;> rfl

/-- Which names are not met depends on the texts among them only. -/
theorem unmet_congr {first last : List String} {names : List Value}
    (h : ∀ token, Value.text token ∈ names → (token ∈ first ↔ token ∈ last)) :
    unmet first names = unmet last names := by
  refine List.filter_congr fun name hName => congrArg (!·) ?_
  rw [Bool.eq_iff_iff, List.any_eq_true, List.any_eq_true]
  simp only [mentions_iff, List.mem_singleton]
  constructor
  · rintro ⟨token, hToken, rfl⟩
    exact ⟨token, (h token hName).mp hToken, rfl⟩
  · rintro ⟨token, hToken, rfl⟩
    exact ⟨token, (h token hName).mpr hToken, rfl⟩

variable {graph : Graph} {files : List GroupId}

/-- A name to exclude is among the tokens under which something was left out of a file exactly if it
is the token of a group there. -/
theorem mem_leftOut_iff {file : GroupId} (hFile : file ∈ graph.allGroups file)
    {exclude : List Value} (only : List Value) {token : String}
    (hToken : mentions exclude token = true) :
    token ∈ leftOut graph exclude only file ↔
      ∃ g ∈ graph.allGroups file, (graph.group g).token = token := by
  have hMem : ∀ {condition : Prop} [Decidable condition] {other : String},
      token ∈ (if condition then [other] else []) ↔ condition ∧ other = token := by
    intro condition _ other
    split
    · rename_i h
      rw [List.mem_singleton, and_iff_right h, eq_comm]
    · rename_i h
      exact ⟨fun hMem => absurd hMem List.not_mem_nil, fun hBoth => absurd hBoth.1 h⟩
  simp only [leftOut, List.mem_append, List.mem_flatMap, hMem]
  constructor
  · rintro (⟨_, rfl⟩ | ⟨g, hg, ⟨_, rfl⟩ | ⟨_, rfl⟩⟩)
    · exact ⟨file, hFile, rfl⟩
    · exact ⟨g, hg, rfl⟩
    · exact ⟨file, hFile, rfl⟩
  · rintro ⟨g, hg, rfl⟩
    exact Or.inr ⟨g, hg, Or.inl ⟨hToken, rfl⟩⟩

/-- A namespace is warned about if no group has its name. -/
theorem namespaceWarnings_eq (hGraph : graph.WellFormed) (hRoots : graph.Roots files)
    {exclude : List Value} (only : List Value)
    (hNames : ∀ name ∈ exclude, name.isHashable = true) :
    namespaceWarnings graph files exclude only =
      ((unmet ((graph.groupsOf files).map fun g => (graph.group g).token) exclude).map
        (warning "namespace"), .ok ()) := by
  rw [namespaceWarnings, warnings_eq _ _ hNames]
  refine congrArg (fun names => (names.map (warning "namespace"), Except.ok ()))
    (unmet_congr fun token hToken => ?_)
  have hLeft : ∀ file ∈ files, token ∈ leftOut graph exclude only file ↔
      ∃ g ∈ graph.allGroups file, (graph.group g).token = token := fun file hFile =>
    mem_leftOut_iff ((hGraph.mem_allGroups (hRoots.lt file hFile)).mpr (Below.refl file)) only
      (mentions_iff.mpr hToken)
  simp only [List.mem_flatMap, List.mem_map, groupsOf]
  constructor
  · rintro ⟨file, hFile, hMem⟩
    obtain ⟨g, hg, hSame⟩ := (hLeft file hFile).mp hMem
    exact ⟨g, ⟨file, hFile, hg⟩, hSame⟩
  · rintro ⟨g, ⟨file, hFile, hg⟩, hSame⟩
    exact ⟨file, hFile, (hLeft file hFile).mpr ⟨g, hg, hSame⟩⟩

/-- A function is warned about if no node has its name. -/
theorem functionWarnings_eq {exclude : List Value} (only : List Value)
    (hNames : ∀ name ∈ exclude, name.isHashable = true) :
    functionWarnings graph files exclude only =
      ((unmet ((graph.nodesOf files).map fun n => (graph.node n).token) exclude).map
        (warning "function"), .ok ()) := by
  rw [functionWarnings, warnings_eq _ _ hNames]
  refine congrArg (fun names => (names.map (warning "function"), Except.ok ()))
    (unmet_congr fun token hToken => ?_)
  have hMentions : mentions exclude token = true := mentions_iff.mpr hToken
  simp only [List.mem_map, List.mem_filter, isLeftOut]
  constructor
  · rintro ⟨n, ⟨hn, _⟩, rfl⟩
    exact ⟨n, hn, rfl⟩
  · rintro ⟨n, hn, rfl⟩
    exact ⟨n, ⟨hn, by rw [hMentions, Bool.true_or]⟩, rfl⟩

end Limits

/-! ## What is left -/

namespace Graph

/-- In the groups below some files the nodes that are to be kept are left, in their order, and
nothing else changes. -/
structure Leaves (before : Graph) (files : List GroupId) (keep : GroupId → NodeId → Bool)
    (after : Graph) : Prop where
  nodes_eq : after.nodes = before.nodes
  size_eq : after.groups.size = before.groups.size
  group_eq : ∀ g ∈ before.groupsOf files,
    after.group g = { before.group g with nodes := (before.group g).nodes.filter (keep g) }
  other_eq : ∀ g, g ∉ before.groupsOf files → after.group g = before.group g

variable {graph : Graph} {files : List GroupId}

/-- A node is listed by one group only, so it is met on the walk if its group is. -/
theorem mem_nodesOf_iff_mem_groupsOf (hGraph : graph.WellFormed) {g : GroupId} {n : NodeId}
    (hn : n ∈ (graph.group g).nodes) : n ∈ graph.nodesOf files ↔ g ∈ graph.groupsOf files := by
  rw [nodesOf_eq_flatMap, List.mem_flatMap]
  constructor
  · rintro ⟨p, hp, hMem⟩
    rwa [hGraph.group_eq_of_listed hn hMem]
  · exact fun hg => ⟨g, hg, hn⟩

/-- A step that takes out what is not to be kept leaves what is. -/
theorem Takes.leaves (hGraph : graph.WellFormed) {step : Graph → Graph} {out : NodeId → Prop}
    (h : graph.Takes step out) {keep : GroupId → NodeId → Bool}
    (hKeep : ∀ g ∈ graph.groupsOf files, ∀ n ∈ (graph.group g).nodes, out n ↔ keep g n = false)
    (hOnly : ∀ n, out n → n ∈ graph.nodesOf files) : graph.Leaves files keep (step graph) := by
  obtain ⟨ns, hStep, hOut⟩ := h []
  change step graph = graph.removeNodes ns at hStep
  have hns : ∀ n, n ∈ ns ↔ out n := fun n => hOut n List.not_mem_nil
  have hShrinks := shrinks_removeNodes graph ns
  rw [hStep]
  refine ⟨hShrinks.nodes_eq, hShrinks.size_eq, fun g hg => ?_, fun g hg => ?_⟩
  · rw [group_removeNodes hGraph]
    refine congrArg (fun nodes => { graph.group g with nodes := nodes })
      (List.filter_congr fun n hn => ?_)
    rw [Bool.eq_iff_iff, decide_eq_true_iff, hns, hKeep g hg n hn, Bool.not_eq_false]
  · rw [group_removeNodes hGraph, List.filter_eq_self.mpr]
    intro n hn
    rw [decide_eq_true_iff, hns]
    exact fun h => hg ((mem_nodesOf_iff_mem_groupsOf hGraph hn).mp (hOnly n h))

end Graph

namespace Reported

/-- Warnings that end with no fault do not keep a computation from its result. -/
theorem log_then_eq {α : Type _} (texts : List String) (a : α) :
    (do
      log .warning texts
      liftM (Except.ok () : Except Fault Unit)
      return a : Reported α) = ⟨texts.map (.log .warning), .ok a⟩ := by
  refine congrArg (Reported.mk · (.ok a)) ?_
  exact List.append_nil _

end Reported

namespace CallMap

open CallGraph.Graph Limits

/-- Whether the options let the nodes of a group be: no group of its chain is named, and if only
some namespaces are wanted, one of them is. -/
def Options.keepsNamespace (options : Options) (graph : Graph) (g : GroupId) : Bool :=
  ((graph.chain g).all fun p => !mentions options.excludeNamespaces (graph.group p).token) &&
    (options.onlyNamespaces.isEmpty ||
      (graph.chain g).any fun p => mentions options.onlyNamespaces (graph.group p).token)

/-- Whether the options let a node be for its own token. -/
def Options.keepsFunction (options : Options) (node : Node) : Bool :=
  !mentions options.excludeFunctions node.token &&
    (options.onlyFunctions.isEmpty || mentions options.onlyFunctions node.token)

variable {options : Options} {graph : Graph} {files : List GroupId}

theorem isUnwanted_iff {only : List Value} {g : GroupId} : isUnwanted graph only g = true ↔
    (only.isEmpty || (graph.chain g).any fun p => mentions only (graph.group p).token) = false := by
  simp [isUnwanted]

/-- The steps at the groups take out the nodes of the groups that the options do not let be. -/
theorem outOfGroup_iff (hGraph : graph.WellFormed) (hRoots : graph.Roots files) {q : GroupId}
    (hq : q ∈ graph.groupsOf files) {n : NodeId} (hn : n ∈ (graph.group q).nodes) :
    (∃ g ∈ graph.groupsOf files,
      graph.OutOfGroup options.excludeNamespaces options.onlyNamespaces g n) ↔
      options.keepsNamespace graph q = false := by
  obtain ⟨r, hr, hBelow⟩ := (mem_groupsOf hGraph hRoots).mp hq
  have hChain : ∀ {p}, p ∈ graph.chain q ↔ graph.Below p q :=
    hGraph.mem_chain_iff (hRoots.no_parent r hr) hBelow
  have hHome : ∀ {g}, n ∈ (graph.group g).nodes → g = q :=
    fun hg => hGraph.group_eq_of_listed hg hn
  rw [Options.keepsNamespace, Bool.and_eq_false_iff, List.all_eq_false, ← isUnwanted_iff]
  simp only [Bool.not_eq_true', Bool.not_eq_false]
  constructor
  · rintro ⟨g, _, ⟨hName, hAll⟩ | ⟨hUnwanted, hOwn⟩⟩
    · obtain ⟨d, hd, hMem⟩ := List.mem_flatMap.mp hAll
      cases hHome hMem
      exact Or.inl ⟨g, hChain.mpr (below_of_mem_groupsBelow hd), hName⟩
    · cases hHome hOwn
      exact Or.inr hUnwanted
  · rintro (⟨p, hp, hName⟩ | hUnwanted)
    · have hInner := hChain.mp hp
      have hpMem := mem_groupsOf_of_below hGraph hRoots hq hInner
      have hLt := hInner.lt (graph.group_lt_of_nodes hn)
      exact ⟨p, hpMem, Or.inl ⟨hName, (hGraph.mem_allNodes hLt).mpr ⟨q, hInner, hn⟩⟩⟩
    · exact ⟨q, hq, Or.inr ⟨hUnwanted, hn⟩⟩

theorem mem_nodesOf_of_outOfGroup {exclude only : List Value} {g : GroupId} {n : NodeId}
    (hGraph : graph.WellFormed) (hRoots : graph.Roots files) (hg : g ∈ graph.groupsOf files)
    (h : graph.OutOfGroup exclude only g n) : n ∈ graph.nodesOf files := by
  rw [nodesOf_eq_flatMap, List.mem_flatMap]
  rcases h with ⟨_, hAll⟩ | ⟨_, hOwn⟩
  · obtain ⟨d, hd, hMem⟩ := List.mem_flatMap.mp hAll
    obtain ⟨r, hr, hBelow⟩ := (mem_groupsOf hGraph hRoots).mp hg
    exact ⟨d, (mem_groupsOf hGraph hRoots).mpr
      ⟨r, hr, hBelow.trans (below_of_mem_groupsBelow hd)⟩, hMem⟩
  · exact ⟨g, hg, hOwn⟩

theorem isLeftOut_iff {n : NodeId} :
    isLeftOut graph options.excludeFunctions options.onlyFunctions n = true ↔
      options.keepsFunction (graph.node n) = false := by
  simp only [isLeftOut, Options.keepsFunction]
  cases mentions options.excludeFunctions (graph.node n).token <;>
    cases options.onlyFunctions.isEmpty <;> simp

/-- Leaving out namespaces: what is printed and warned about, and the result. -/
theorem limitNamespaces_eq (hGraph : graph.WellFormed) (hRoots : graph.Roots files)
    (hNames : ∀ name ∈ options.excludeNamespaces, name.isHashable = true) :
    limitNamespaces options graph files =
      { reports :=
          (if options.excludeNamespaces.isEmpty && options.onlyNamespaces.isEmpty then []
            else (namespaceListing graph files).map .print) ++
          (unmet ((graph.groupsOf files).map fun g => (graph.group g).token)
            options.excludeNamespaces).map fun name => .log .warning (warning "namespace" name)
        result := .ok (Limits.limitNamespaces graph files options.excludeNamespaces
          options.onlyNamespaces) } := by
  unfold limitNamespaces
  split
  · rename_i hNone
    simp only [Bool.and_eq_true, List.isEmpty_iff] at hNone
    rw [hNone.1, hNone.2, limitNamespaces_nil]
    rfl
  · dsimp only
    rw [namespaceWarnings_eq hGraph hRoots options.onlyNamespaces hNames, Reported.log_then_eq,
      List.map_map]
    rfl

/-- Leaving out functions: what is warned about, and the result. -/
theorem limitFunctions_eq
    (hNames : ∀ name ∈ options.excludeFunctions, name.isHashable = true) :
    limitFunctions options graph files =
      { reports := (unmet ((graph.nodesOf files).map fun n => (graph.node n).token)
          options.excludeFunctions).map fun name => .log .warning (warning "function" name)
        result := .ok (Limits.limitFunctions graph files options.excludeFunctions
          options.onlyFunctions) } := by
  unfold limitFunctions
  split
  · rename_i hNone
    simp only [Bool.and_eq_true, List.isEmpty_iff] at hNone
    rw [hNone.1, hNone.2, limitFunctions_nil]
    rfl
  · dsimp only
    rw [functionWarnings_eq options.onlyFunctions hNames, Reported.log_then_eq, List.map_map]
    rfl

/-- Limits leave the nodes that the options let be, first for their groups and then also for their
own tokens. Of the names to exclude, a namespace that no group has is warned about, and a function
that no node has that is left by then. -/
structure Selects (options : Options) (graph : Graph) (files : List GroupId)
    (left limited : Graph) : Prop where
  namespaces_ok : (limitNamespaces options graph files).result = .ok left
  limit_ok : (limit options graph files).result = .ok limited
  leaves_left : graph.Leaves files (fun g _ => options.keepsNamespace graph g) left
  leaves_limited : graph.Leaves files (fun g n =>
    options.keepsNamespace graph g && options.keepsFunction (graph.node n)) limited
  reports_eq : (limit options graph files).reports =
    (if options.excludeNamespaces.isEmpty && options.onlyNamespaces.isEmpty then []
      else (namespaceListing graph files).map .print) ++
    ((unmet ((graph.groupsOf files).map fun g => (graph.group g).token)
      options.excludeNamespaces).map fun name => .log .warning (warning "namespace" name)) ++
    (unmet ((left.nodesOf files).map fun n => (left.node n).token)
      options.excludeFunctions).map fun name => .log .warning (warning "function" name)

/-- Limits select exactly what the options let be. -/
theorem limit_exact (hGraph : graph.WellFormed) (hRoots : graph.Roots files)
    (hNamespaces : ∀ name ∈ options.excludeNamespaces, name.isHashable = true)
    (hFunctions : ∀ name ∈ options.excludeFunctions, name.isHashable = true) :
    ∃ left limited, Selects options graph files left limited := by
  have hTakes := takes_limitNamespaces hGraph hRoots options.excludeNamespaces
    options.onlyNamespaces
  have hBoth := hTakes.comp (takes_limitFunctions hGraph files options.excludeFunctions
    options.onlyFunctions)
  refine ⟨Limits.limitNamespaces graph files options.excludeNamespaces options.onlyNamespaces,
    Limits.limitFunctions (Limits.limitNamespaces graph files options.excludeNamespaces
      options.onlyNamespaces) files options.excludeFunctions options.onlyFunctions, ?_, ?_, ?_, ?_, ?_⟩
  · rw [limitNamespaces_eq hGraph hRoots hNamespaces]
  · rw [limit, limitNamespaces_eq hGraph hRoots hNamespaces, Reported.result_bind]
    exact congrArg Reported.result (limitFunctions_eq hFunctions)
  · refine hTakes.leaves hGraph (fun g hg n hn => outOfGroup_iff hGraph hRoots hg hn) ?_
    rintro n ⟨g, hg, hOut⟩
    exact mem_nodesOf_of_outOfGroup hGraph hRoots hg hOut
  · refine hBoth.leaves hGraph (fun g hg n hn => ?_) ?_
    · rw [outOfGroup_iff hGraph hRoots hg hn, isLeftOut_iff,
        and_iff_right ((mem_nodesOf_iff_mem_groupsOf hGraph hn).mpr hg), Bool.and_eq_false_iff]
    · rintro n (⟨g, hg, hOut⟩ | ⟨hn, _⟩)
      · exact mem_nodesOf_of_outOfGroup hGraph hRoots hg hOut
      · exact hn
  · rw [limit, limitNamespaces_eq hGraph hRoots hNamespaces, Reported.reports_bind_of_ok rfl,
      limitFunctions_eq hFunctions]

/-- A function, and a class inside a class, each with a method. -/
def nestedFiles : List FileOutline :=
  [{ token := "nested", locals := [], calls := [], scope := default, imports := []
     functions := [{ (default : FunctionOutline) with token := "alone" }]
     classes := [.mk "Outer" none [] [{ (default : FunctionOutline) with token := "kept" }]
       [.mk "Inner" none [] [{ (default : FunctionOutline) with token := "gone" }] []]] }]

/-- The inner class is excluded, with a namespace that is not there and the method that has gone with
the class; only the outer class is wanted. -/
def nestedOptions : Options where
  excludeNamespaces := [.text "Inner", .text "Other"]
  onlyNamespaces := [.text "Outer"]
  excludeFunctions := [.text "gone"]

theorem limit_exact_nested : (Graph.loaded nestedFiles).1.WellFormed ∧
    (Graph.loaded nestedFiles).1.Roots (Graph.loaded nestedFiles).2 ∧
    (∀ name ∈ nestedOptions.excludeNamespaces, name.isHashable = true) ∧
    (∀ name ∈ nestedOptions.excludeFunctions, name.isHashable = true) ∧
    ∃ left limited, Selects nestedOptions (Graph.loaded nestedFiles).1
      (Graph.loaded nestedFiles).2 left limited ∧
      limited.nodesOf (Graph.loaded nestedFiles).2 = [⟨2⟩] := by
  have hNamespaces : ∀ name ∈ nestedOptions.excludeNamespaces, name.isHashable = true := by
    decide +kernel
  have hFunctions : ∀ name ∈ nestedOptions.excludeFunctions, name.isHashable = true := by
    decide +kernel
  have hLoaded := loading_insertFiles nestedFiles
  obtain ⟨left, limited, h⟩ :=
    limit_exact hLoaded.toWellFormed hLoaded.rooted hNamespaces hFunctions
  refine ⟨hLoaded.toWellFormed, hLoaded.rooted, hNamespaces, hFunctions, left, limited, h, ?_⟩
  rw [eq_of_limit h.limit_ok]
  decide +kernel

end CallMap

end CallGraph
