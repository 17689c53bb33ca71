import CallGraph.Proofs.Inheriting
import CallGraph.Proofs.Succeeding

/-!
# What names are bound to in the end

Before calls are resolved, every name that a body binds is settled. In the end it is bound to a
function or group of the files, to a table, to a call that makes no known object, or to the unknown
module, and to nothing else: no dotted name is left, and no placeholder for a parameter.

Three passes do it, and each is described by what becomes of one binding. Inheriting puts bindings of
nodes behind those there are. Settling replaces targets one by one (`Graph.Settles`); since it changes
bindings only, what a target is settled to does not depend on how far settling has come. Passing
functions as arguments binds parameters anew. The three together give every binding of the end from
one of the start, or from an inherited node (`resolved_of_settle`).

## Main definitions

* `Graph.Settles` — what a target is settled to.
* `Graph.Final` — what names may be bound to in the end.
* `Graph.Resolved` — every binding of the files is settled.

## Main results

* `settle_bindings`, `passArguments_bindings` — what becomes of the bindings of a node.
* `CallMap.bindings_resolved` — settling succeeds and leaves final bindings only.
-/

namespace CallGraph

/-- Whether a call is taken for the making of an object, if a class has its token. -/
def Call.mayConstruct (call : Call) : Bool :=
  !(call.isMember && !call.definiteConstructor)

/-- One binding is another with a target that is related to it. -/
def Binding.Becomes (related : Binding → Target → Prop) (b b' : Binding) : Prop :=
  ∃ target, b' = { b with target := target } ∧ related b target

/-- Two changes of targets after each other are one. -/
theorem Binding.forall₂_becomes_trans {first second both : Binding → Target → Prop}
    (h : ∀ b target target', first b target → second { b with target := target } target' →
      both b target') {old middle new : List Binding}
    (hFirst : List.Forall₂ (Binding.Becomes first) old middle)
    (hSecond : List.Forall₂ (Binding.Becomes second) middle new) :
    List.Forall₂ (Binding.Becomes both) old new := by
  induction hFirst generalizing new with
  | nil =>
      cases hSecond
      exact .nil
  | cons hHead _ ih =>
      cases hSecond with
      | cons hNext hRest =>
          obtain ⟨target, rfl, hTarget⟩ := hHead
          obtain ⟨target', rfl, hTarget'⟩ := hNext
          exact .cons ⟨target', rfl, h _ _ _ hTarget hTarget'⟩ (ih hRest)

namespace Graph

variable {graph before after : Graph} {files : List GroupId}

/-! ## What a target is settled to -/

/-- What a target is settled to. A name becomes a node or group that can be imported under it, and is
unknown only if there is none; a call becomes the group of its token, and stays only if there is none
or the call is made on something. -/
inductive Settles (graph : Graph) (files : List GroupId) : Target → Target → Prop
  | nameToNode {name : String} {n : NodeId} (hn : n ∈ graph.nodesOf files)
      (h : name ∈ (graph.node n).importTokens) : Settles graph files (.name name) (.node n)
  | nameToGroup {name : String} {g : GroupId} (hg : g ∈ graph.groupsOf files)
      (h : name ∈ (graph.group g).importTokens) : Settles graph files (.name name) (.group g)
  | nameToUnknown {name : String}
      (hNodes : ∀ n ∈ graph.nodesOf files, name ∉ (graph.node n).importTokens)
      (hGroups : ∀ g ∈ graph.groupsOf files, name ∉ (graph.group g).importTokens) :
      Settles graph files (.name name) (.name unknownModule)
  | callToGroup {call : Call} {g : GroupId} (hg : g ∈ graph.groupsOf files)
      (hCall : call.mayConstruct = true) (h : (graph.group g).token = call.token) :
      Settles graph files (.call call) (.group g)
  | call {call : Call} (h : call.mayConstruct = true →
      ∀ g ∈ graph.groupsOf files, (graph.group g).token ≠ call.token) :
      Settles graph files (.call call) (.call call)
  | table (table : Table) : Settles graph files (.table table) (.table table)
  | node {n : NodeId} (hn : n ∈ graph.nodesOf files) : Settles graph files (.node n) (.node n)
  | group {g : GroupId} (hg : g ∈ graph.groupsOf files) : Settles graph files (.group g) (.group g)

/-- What names may be bound to in the end: a node or group of the files, a table, a call that makes no
object of the files, or the unknown module. -/
inductive Final (graph : Graph) (files : List GroupId) : Target → Prop
  | node {n : NodeId} (hn : n ∈ graph.nodesOf files) : Final graph files (.node n)
  | group {g : GroupId} (hg : g ∈ graph.groupsOf files) : Final graph files (.group g)
  | table (table : Table) : Final graph files (.table table)
  | call {call : Call} (h : call.mayConstruct = true →
      ∀ g ∈ graph.groupsOf files, (graph.group g).token ≠ call.token) :
      Final graph files (.call call)
  | unknown : Final graph files (.name unknownModule)

theorem Settles.final {target settled : Target} (h : graph.Settles files target settled) :
    graph.Final files settled := by
  cases h with
  | nameToNode hn _ => exact .node hn
  | nameToGroup hg _ => exact .group hg
  | nameToUnknown _ _ => exact .unknown
  | callToGroup hg _ _ => exact .group hg
  | call h => exact .call h
  | table table => exact .table table
  | node hn => exact .node hn
  | group hg => exact .group hg

/-- The nodes and groups of a target belong to the files. -/
structure Placed (graph : Graph) (files : List GroupId) (target : Target) : Prop where
  node : ∀ n, target = .node n → n ∈ graph.nodesOf files
  group : ∀ g, target = .group g → g ∈ graph.groupsOf files

/-- What a name stands for, file by file. -/
theorem settles_settleName (graph : Graph) (files : List GroupId) (name : String) :
    graph.Settles files (.name name) (graph.settleName files name) := by
  unfold settleName
  cases hFound : files.findSome? (graph.importedFrom? name) with
  | some target =>
      obtain ⟨file, hFile, hFrom⟩ := List.exists_of_findSome?_eq_some hFound
      unfold importedFrom? at hFrom
      split at hFrom
      · rename_i n hFind
        cases hFrom
        exact .nameToNode (List.mem_flatMap.mpr ⟨file, hFile, List.mem_of_find?_eq_some hFind⟩)
          (by simpa using List.find?_some hFind)
      · obtain ⟨g, hFind, rfl⟩ := Option.map_eq_some_iff.mp hFrom
        exact .nameToGroup (List.mem_flatMap.mpr ⟨file, hFile, List.mem_of_find?_eq_some hFind⟩)
          (by simpa using List.find?_some hFind)
  | none =>
      have hNone : ∀ file ∈ files, graph.importedFrom? name file = none :=
        List.findSome?_eq_none_iff.mp hFound
      refine .nameToUnknown (fun n hn => ?_) fun g hg => ?_
      · obtain ⟨file, hFile, hMem⟩ := List.mem_flatMap.mp hn
        have hFrom := hNone file hFile
        unfold importedFrom? at hFrom
        split at hFrom
        · exact absurd hFrom (by simp)
        · rename_i hFind
          simpa using List.find?_eq_none.mp hFind n hMem
      · obtain ⟨file, hFile, hMem⟩ := List.mem_flatMap.mp hg
        have hFrom := hNone file hFile
        unfold importedFrom? at hFrom
        split at hFrom
        · exact absurd hFrom (by simp)
        · simpa using List.find?_eq_none.mp (Option.map_eq_none_iff.mp hFrom) g hMem

theorem settles_of_settleTarget {target settled : Target} (hPlaced : graph.Placed files target)
    (h : graph.settleTarget files target = .ok settled) : graph.Settles files target settled := by
  cases target with
  | name name =>
      cases h
      exact settles_settleName graph files name
  | call call =>
      rw [settleTarget] at h
      split at h
      · rename_i hMember
        cases h
        refine .call fun hCall => absurd hCall ?_
        rw [Call.mayConstruct, hMember]
        exact Bool.false_ne_true
      · rename_i hPlain
        split at h
        · rename_i g hFind
          cases h
          have hCall : call.mayConstruct = true := by
            rw [Call.mayConstruct, Bool.eq_false_iff.mpr hPlain]
            rfl
          rw [lastNamed?] at hFind
          exact .callToGroup (List.mem_reverse.mp (List.mem_of_find?_eq_some hFind)) hCall
            (by simpa using List.find?_some hFind)
        · rename_i hFind
          cases h
          refine .call fun _ g hg => ?_
          simpa using List.find?_eq_none.mp hFind g (List.mem_reverse.mpr hg)
  | table table =>
      cases h
      exact .table table
  | node n =>
      cases h
      exact .node (hPlaced.node n rfl)
  | group g =>
      cases h
      exact .group (hPlaced.group g rfl)
  | value value => exact absurd h (by simp [settleTarget])

/-! ## Settling does not depend on bindings -/

namespace Rebinds

theorem groupsOf_eq (h : before.Rebinds after) (files : List GroupId) :
    after.groupsOf files = before.groupsOf files :=
  congrArg files.flatMap h.allGroups_eq

theorem settleTarget_eq (h : before.Rebinds after) (files : List GroupId) (target : Target) :
    after.settleTarget files target = before.settleTarget files target := by
  have hNodes := h.node_field Node.importTokens
  have hGroups := h.group_field Group.importTokens
  have hTokens := h.group_field Group.token
  have hFrom : ∀ name, after.importedFrom? name = before.importedFrom? name := by
    intro name
    funext file
    simp only [importedFrom?, h.allNodes_eq, h.allGroups_eq, hNodes, hGroups]
  cases target with
  | name name => simp only [settleTarget, settleName, hFrom]
  | call call => simp only [settleTarget, lastNamed?, h.groupsOf_eq, hTokens]
  | _ => rfl

theorem final (h : before.Rebinds after) {target : Target} (hFinal : before.Final files target) :
    after.Final files target := by
  cases hFinal with
  | node hn => exact .node (by rw [h.nodesOf_eq]; exact hn)
  | group hg => exact .group (by rw [h.groupsOf_eq]; exact hg)
  | table table => exact .table table
  | call hNone =>
      refine .call fun hCall g hg => ?_
      rw [h.groupsOf_eq] at hg
      rw [h.group_field Group.token]
      exact hNone hCall g hg
  | unknown => exact .unknown

end Rebinds

/-! ## Settling the bindings of nodes -/

/-- Bindings become others, one by one: each has for its target what the old target stands for. -/
def SettlesEach (graph : Graph) (files : List GroupId) (old new : List Binding) : Prop :=
  List.Forall₂ (Binding.Becomes fun b target => graph.settleTarget files b.target = .ok target)
    old new

theorem Rebinds.settlesEach (h : before.Rebinds after) {old new : List Binding}
    (hEach : after.SettlesEach files old new) : before.SettlesEach files old new := by
  simp only [SettlesEach, h.settleTarget_eq] at hEach
  exact hEach

theorem settleBindings_spec {bindings : List Binding}
    (h : (graph.settleBindings files bindings).2 = .ok ()) :
    graph.SettlesEach files bindings (graph.settleBindings files bindings).1 := by
  induction bindings with
  | nil => exact .nil
  | cons first rest ih =>
      rw [settleBindings] at h ⊢
      split at h
      · exact absurd h (by simp)
      · rename_i target hTarget
        exact .cons ⟨target, rfl, hTarget⟩ (ih h)

/-- Settling one node replaces its targets and leaves the other nodes alone. -/
theorem settleNode_bindings {n : NodeId} {next : Graph}
    (h : graph.settleNode files n = (next, .ok ())) :
    graph.Rebinds next ∧ (∀ m, m ≠ n → next.node m = graph.node m) ∧
      ∀ bindings, (graph.node n).bindings = some bindings →
        ∃ bindings', (next.node n).bindings = some bindings' ∧
          graph.SettlesEach files bindings bindings' := by
  have hRebinds := (settleNode_spec graph.rebindable_any graph.bound_any files n).1
  rw [h] at hRebinds
  refine ⟨hRebinds, fun m hm => ?_, fun bindings hBindings => ?_⟩
  · unfold settleNode at h
    split at h
    · exact absurd h (by simp)
    · obtain ⟨rfl, _⟩ := Prod.mk.inj h
      rw [node_modifyNode, if_neg fun hn => hm hn.1]
  · rw [settleNode, hBindings] at h
    obtain ⟨rfl, hOk⟩ := Prod.mk.inj h
    refine ⟨_, ?_, settleBindings_spec hOk⟩
    rw [node_modifyNode, if_pos ⟨rfl, graph.node_lt_of_bindings hBindings⟩]

/-- Settling replaces the targets of the nodes one by one, and each in the same way. -/
theorem settle_bindings {nodes : List NodeId} (hNodup : nodes.Nodup) {settled : Graph}
    (h : graph.settle files nodes = .ok settled) :
    (∀ n ∉ nodes, settled.node n = graph.node n) ∧
    ∀ n ∈ nodes, ∀ bindings, (graph.node n).bindings = some bindings →
      ∃ bindings', (settled.node n).bindings = some bindings' ∧
        graph.SettlesEach files bindings bindings' := by
  induction nodes generalizing graph with
  | nil =>
      cases h
      exact ⟨fun _ _ => rfl, fun _ hn => absurd hn List.not_mem_nil⟩
  | cons first rest ih =>
      obtain ⟨hFresh, hRest⟩ := List.nodup_cons.mp hNodup
      rw [settle] at h
      split at h
      · -- a node without a body is left out
        rename_i hNone
        obtain ⟨hOthers, hSettled⟩ := ih hRest h
        refine ⟨fun n hn => hOthers n (List.not_mem_of_not_mem_cons hn), fun n hn bindings hSome => ?_⟩
        rcases List.mem_cons.mp hn with rfl | hn
        · rw [hSome] at hNone
          exact absurd hNone Bool.false_ne_true
        · exact hSettled n hn bindings hSome
      · split at h
        · rename_i next hNext
          obtain ⟨hRebinds, hKept, hFirst⟩ := settleNode_bindings hNext
          obtain ⟨hOthers, hSettled⟩ := ih hRest h
          constructor
          · intro n hn
            obtain ⟨hne, hn⟩ := List.ne_and_not_mem_of_not_mem_cons hn
            rw [hOthers n hn, hKept n hne]
          · intro n hn bindings hBindings
            by_cases hHead : n = first
            · -- the nodes behind are others, so this one is not settled again
              subst hHead
              rw [hOthers n hFresh]
              exact hFirst bindings hBindings
            · have hMem := (List.mem_cons.mp hn).resolve_left hHead
              rw [← hKept n hHead] at hBindings
              obtain ⟨bindings', hAfter, hEach⟩ := hSettled n hMem bindings hBindings
              exact ⟨bindings', hAfter, hRebinds.settlesEach hEach⟩
        · exact absurd h (by simp)

/-! ## Passing functions as arguments -/

/-- A call in the files passes a function to a parameter. -/
structure Passes (graph : Graph) (nodes : List NodeId) (callee : NodeId) (parameter : String)
    (passed : NodeId) : Prop where
  mem : passed ∈ nodes
  parameter_mem : parameter ∈ ((graph.node callee).signature.getD {}).parameters
  call : ∃ caller ∈ nodes, ∃ call ∈ (graph.node caller).calls,
    call.token = (graph.node callee).token ∧ (graph.node passed).token ∈ call.arguments

theorem onlyFunction?_token {nodes : List NodeId} {token : String} {n : NodeId}
    (h : graph.onlyFunction? nodes token = some n) : (graph.node n).token = token := by
  unfold onlyFunction? at h
  split at h
  · rename_i m hFilter
    cases h
    have hMem : n ∈ [n] := List.mem_singleton_self n
    rw [← hFilter] at hMem
    have hBoth := (List.mem_filter.mp hMem).2
    rw [Bool.and_eq_true] at hBoth
    exact of_decide_eq_true hBoth.1
  · exact absurd h (by simp)

theorem passes_of_mem_flows {nodes : List NodeId} {flow : ArgumentFlow}
    (h : flow ∈ graph.flows nodes) :
    graph.Passes nodes flow.callee flow.parameter flow.passed := by
  have hMem := passed_mem_of_mem_flows h
  obtain ⟨caller, hCaller, h⟩ := List.mem_flatMap.mp h
  obtain ⟨call, hCall, h⟩ := List.mem_flatMap.mp h
  unfold flowsOfCall at h
  split at h
  · exact absurd h List.not_mem_nil
  · rename_i callee hCallee
    obtain ⟨pair, hPair, hFlow⟩ := List.mem_filterMap.mp h
    obtain ⟨passed, hPassed, rfl⟩ := Option.map_eq_some_iff.mp hFlow
    have hToken : (graph.node passed).token = pair.1 := by simpa using List.find?_some hPassed
    refine ⟨hMem, (List.of_mem_zip hPair).2, caller, hCaller, call, hCall,
      (onlyFunction?_token hCallee).symm, ?_⟩
    rw [hToken]
    exact (List.of_mem_zip hPair).1

theorem rebindFirst_spec (token : String) (target : Target) (bindings : List Binding) :
    List.Forall₂ (Binding.Becomes fun b target' =>
      target' = b.target ∨ b.token = token ∧ target' = target) bindings
      (rebindFirst token target bindings) := by
  have hSame : ∀ rest : List Binding, List.Forall₂ (Binding.Becomes fun b target' =>
      target' = b.target ∨ b.token = token ∧ target' = target) rest rest :=
    fun rest => List.forall₂_same.mpr fun b _ => ⟨b.target, rfl, Or.inl rfl⟩
  induction bindings with
  | nil => exact .nil
  | cons first rest ih =>
      rw [rebindFirst]
      split
      · rename_i hToken
        exact .cons ⟨target, rfl, Or.inr ⟨hToken, rfl⟩⟩ (hSame rest)
      · exact .cons ⟨first.target, rfl, Or.inl rfl⟩ ih

theorem bindings_applyFlow (graph : Graph) (flow : ArgumentFlow) (n : NodeId) :
    ((graph.applyFlow flow).node n).bindings = if n = flow.callee then
        (graph.node n).bindings.map (rebindFirst flow.parameter (.node flow.passed))
      else (graph.node n).bindings := by
  rw [applyFlow, node_modifyNode]
  by_cases hCallee : n = flow.callee
  · subst hCallee
    by_cases hLt : flow.callee.index < graph.nodes.size
    · simp only [hLt, and_true, if_true]
    · -- behind the end of the table no names are bound
      have hNone : (graph.node flow.callee).bindings = none := by
        by_contra hSome
        obtain ⟨bindings, hBindings⟩ := Option.ne_none_iff_exists'.mp hSome
        exact hLt (graph.node_lt_of_bindings hBindings)
      simp only [hLt, and_false, if_false, if_true, hNone, Option.map_none]
  · simp only [hCallee, false_and, if_false]

/-- Bindings of a node become others, one by one: each keeps its target, or is a parameter and gets a
function that a call passes to it. -/
def PassesEach (graph : Graph) (nodes : List NodeId) (n : NodeId) (old new : List Binding) : Prop :=
  List.Forall₂ (Binding.Becomes fun b target =>
    target = b.target ∨ ∃ m, target = .node m ∧ graph.Passes nodes n b.token m) old new

theorem applyFlow_bindings {nodes : List NodeId} {flow : ArgumentFlow} {current : Graph} {n : NodeId}
    {old middle : List Binding}
    (hFlow : graph.Passes nodes flow.callee flow.parameter flow.passed)
    (hMiddle : (current.node n).bindings = some middle) (hEach : graph.PassesEach nodes n old middle) :
    ∃ new, ((current.applyFlow flow).node n).bindings = some new ∧
      graph.PassesEach nodes n old new := by
  rw [bindings_applyFlow]
  by_cases hCallee : n = flow.callee
  · subst hCallee
    rw [if_pos rfl, hMiddle]
    refine ⟨_, rfl, Binding.forall₂_becomes_trans ?_ hEach (rebindFirst_spec _ _ middle)⟩
    rintro b target target' hFirst (rfl | ⟨hToken, rfl⟩)
    · exact hFirst
    · have hToken : b.token = flow.parameter := hToken
      rw [← hToken] at hFlow
      exact Or.inr ⟨flow.passed, rfl, hFlow⟩
  · rw [if_neg hCallee]
    exact ⟨middle, hMiddle, hEach⟩

/-- Passing functions binds parameters anew, to functions that calls pass, and nothing else. -/
theorem passArguments_bindings {nodes : List NodeId} {n : NodeId} {bindings : List Binding}
    (h : (graph.node n).bindings = some bindings) :
    ∃ bindings', ((graph.passArguments nodes).node n).bindings = some bindings' ∧
      graph.PassesEach nodes n bindings bindings' := by
  have hRun : ∀ flows : List ArgumentFlow,
      (∀ flow ∈ flows, graph.Passes nodes flow.callee flow.parameter flow.passed) →
      ∃ bindings', ((flows.foldl applyFlow graph).node n).bindings = some bindings' ∧
        graph.PassesEach nodes n bindings bindings' := by
    intro flows
    induction flows using List.reverseRecOn with
    | nil =>
        intro _
        exact ⟨bindings, h, List.forall₂_same.mpr fun b _ => ⟨b.target, rfl, Or.inl rfl⟩⟩
    | append_singleton rest flow ih =>
        intro hFlows
        obtain ⟨middle, hMiddle, hEach⟩ :=
          ih fun other hOther => hFlows other (List.mem_append_left _ hOther)
        rw [List.foldl_append, List.foldl_cons, List.foldl_nil]
        exact applyFlow_bindings (hFlows flow (List.mem_append_right _ List.mem_cons_self)) hMiddle
          hEach
  exact hRun _ fun flow hFlow => passes_of_mem_flows hFlow

/-- Which functions calls pass does not depend on bindings. -/
theorem Rebinds.passes (h : before.Rebinds after) {nodes : List NodeId} {callee passed : NodeId}
    {parameter : String} (hPasses : after.Passes nodes callee parameter passed) :
    before.Passes nodes callee parameter passed := by
  have hToken := h.node_field Node.token
  have hSignature := h.node_field Node.signature
  have hCalls := h.node_field Node.calls
  obtain ⟨hMem, hParameter, hCall⟩ := hPasses
  simp only [hSignature] at hParameter
  simp only [hToken, hCalls] at hCall
  exact ⟨hMem, hParameter, hCall⟩

/-! ## All passes together -/

/-- What the nodes of a group inherit to bind. -/
def inheritedBindings (graph : Graph) (heuristics : Bool) (files : List GroupId) (g : GroupId) :
    List Binding :=
  if heuristics then (graph.inheritance files g).flatten.map graph.nodeBinding else []

theorem placed_of_mem_inheritedBindings {heuristics : Bool} {g : GroupId} {b : Binding}
    (h : b ∈ graph.inheritedBindings heuristics files g) : graph.Placed files b.target := by
  unfold inheritedBindings at h
  split at h
  · obtain ⟨n, hn, rfl⟩ := List.mem_map.mp h
    obtain ⟨source, hGroup, _, hListed⟩ := mem_inheritance_iff.mp hn
    constructor
    · intro m hm
      cases hm
      rw [nodesOf_eq_flatMap]
      exact List.mem_flatMap.mpr ⟨source, hGroup, hListed⟩
    · intro m hm
      cases hm
  · exact absurd h List.not_mem_nil

/-- Every binding of the files is settled: the graph keeps all but bindings, and the bindings of the
end are those of the start and inherited ones, in order, each with its target settled or, if it is a
parameter, with a function passed to it. -/
structure Resolved (heuristics : Bool) (files : List GroupId) (before after : Graph) : Prop where
  rebinds : before.Rebinds after
  bindings : ∀ g ∈ before.groupsOf files, ∀ n ∈ (before.group g).nodes,
    ∀ bindings, (before.node n).bindings = some bindings →
    ∃ bindings', (after.node n).bindings = some bindings' ∧
      List.Forall₂ (Binding.Becomes fun b target => before.Settles files b.target target ∨
          heuristics = true ∧
            ∃ m, target = .node m ∧ before.Passes (before.nodesOf files) n b.token m)
        (bindings ++ before.inheritedBindings heuristics files g) bindings'

/-- A graph of which all bindings are settled has final bindings only. -/
theorem Resolved.final {heuristics : Bool} (h : Resolved heuristics files before after) {n : NodeId}
    (hn : n ∈ after.nodesOf files) {b : Binding} (hb : b ∈ CallMap.bindingsOf after n) :
    after.Final files b.target := by
  obtain ⟨bindings', hAfter⟩ : ∃ bindings', (after.node n).bindings = some bindings' := by
    refine Option.ne_none_iff_exists'.mp fun hNone => ?_
    rw [CallMap.bindingsOf, hNone] at hb
    exact absurd hb List.not_mem_nil
  rw [CallMap.bindingsOf, hAfter] at hb
  obtain ⟨bindings, hBefore⟩ : ∃ bindings, (before.node n).bindings = some bindings := by
    rw [← Option.isSome_iff_exists, ← h.rebinds.bindings_isSome, hAfter]
    rfl
  rw [h.rebinds.nodesOf_eq, nodesOf_eq_flatMap] at hn
  obtain ⟨g, hg, hn⟩ := List.mem_flatMap.mp hn
  obtain ⟨other, hOther, hBecomes⟩ := h.bindings g hg n hn bindings hBefore
  rw [hAfter] at hOther
  cases hOther
  have hFinal : ∀ b' ∈ bindings', before.Final files b'.target := by
    refine ((List.forall₂_and_left (R := fun _ _ => True) _ _).mp (hBecomes.flip.imp ?_)).1
    rintro b' old ⟨target, rfl, hSettles | ⟨_, m, rfl, hPasses⟩⟩
    · exact ⟨hSettles.final, trivial⟩
    · exact ⟨.node hPasses.mem, trivial⟩
  exact h.rebinds.final (hFinal b hb)

/-- Inheriting, where it is done, puts bindings behind those there are. -/
theorem bindings_inherited (hGraph : graph.WellFormed) (hRoots : graph.Roots files)
    (heuristics : Bool) {start : Graph}
    (hStart : start = if heuristics then graph.inherit files else graph) :
    graph.Rebinds start ∧ ∀ g ∈ graph.groupsOf files, ∀ n ∈ (graph.group g).nodes,
      ∀ bindings, (graph.node n).bindings = some bindings →
      (start.node n).bindings = some (bindings ++ graph.inheritedBindings heuristics files g) := by
  cases heuristics with
  | false =>
      rw [if_neg Bool.false_ne_true] at hStart
      subst hStart
      refine ⟨Rebinds.refl _, fun g _ n _ bindings hBindings => ?_⟩
      rw [inheritedBindings, if_neg Bool.false_ne_true, List.append_nil, hBindings]
  | true =>
      rw [if_pos rfl] at hStart
      subst hStart
      have hInherited := inheritedBy_inherit hGraph hRoots
      refine ⟨hInherited.toRebinds, fun g hg n hn bindings hBindings => ?_⟩
      rw [hInherited.node_of_mem g hg n hn, inheritedBindings, if_pos rfl, Node.bindAlso, hBindings]
      rfl

end Graph

open CallGraph.Graph

namespace CallMap

variable {files : List GroupId}

/-- Settling gives every binding of the end from one of the start or from an inherited node. -/
theorem resolved_of_settle {options : Options} {graph settled : Graph} (hGraph : graph.WellFormed)
    (hRoots : graph.Roots files)
    (hPlaced : ∀ n ∈ graph.nodesOf files, ∀ bindings, (graph.node n).bindings = some bindings →
      ∀ b ∈ bindings, graph.Placed files b.target)
    (h : (settle options graph files (graph.nodesOf files)).result = .ok settled) :
    Resolved options.heuristics files graph settled := by
  rw [result_settle] at h
  obtain ⟨middle, hMiddle, h⟩ := exists_of_bind_eq_ok h
  cases h
  obtain ⟨hStart, hInherited⟩ := bindings_inherited hGraph hRoots options.heuristics rfl
  have hSettle := (settle_spec (rebindable_any _) (bound_any _) hMiddle).1
  have hBoth := hStart.trans hSettle
  have hPass : middle.Rebinds (middle.passArguments (graph.nodesOf files)) := by
    refine (passArguments_spec middle.rebindable_any middle.bound_any fun n hn => ?_).1
    exact hBoth.listed.mpr (listed_of_mem_nodesOf hn)
  constructor
  · split
    · exact hBoth.trans hPass
    · exact hBoth
  · intro g hg n hn bindings hBindings
    have hMem : n ∈ graph.nodesOf files := by
      rw [nodesOf_eq_flatMap]
      exact List.mem_flatMap.mpr ⟨g, hg, hn⟩
    obtain ⟨bindings', hAfter, hEach⟩ := (settle_bindings (nodup_nodesOf hGraph hRoots) hMiddle).2
      n hMem _ (hInherited g hg n hn bindings hBindings)
    have hSettles : List.Forall₂ (Binding.Becomes fun b target => graph.Settles files b.target target)
        (bindings ++ graph.inheritedBindings options.heuristics files g) bindings' := by
      have hAll : ∀ b ∈ bindings ++ graph.inheritedBindings options.heuristics files g,
          graph.Placed files b.target := by
        intro b hb
        rcases List.mem_append.mp hb with hb | hb
        · exact hPlaced n hMem bindings hBindings b hb
        · exact placed_of_mem_inheritedBindings hb
      refine ((List.forall₂_and_left _ _).mpr ⟨hAll, hStart.settlesEach hEach⟩).imp ?_
      rintro b b' ⟨hb, target, rfl, hTarget⟩
      exact ⟨target, rfl, settles_of_settleTarget hb hTarget⟩
    split
    · rename_i hHeuristics
      obtain ⟨last, hLast, hPassed⟩ := @passArguments_bindings middle (graph.nodesOf files) _ _ hAfter
      refine ⟨last, hLast, Binding.forall₂_becomes_trans ?_ hSettles hPassed⟩
      rintro b target target' hTarget (rfl | ⟨m, rfl, hPasses⟩)
      · exact Or.inl hTarget
      · exact Or.inr ⟨hHeuristics, m, rfl, hBoth.passes hPasses⟩
    · refine ⟨bindings', hAfter, hSettles.imp ?_⟩
      rintro b b' ⟨target, rfl, hTarget⟩
      exact ⟨target, rfl, Or.inl hTarget⟩

/-! ## What the source binds -/

/-- A name that the source binds to a group is bound to the one that its node stands in. -/
def BindsOwnGroup (node : Node) : Prop :=
  ∀ bindings, node.bindings = some bindings → ∀ b ∈ bindings, ∀ g, b.target = .group g →
    node.parent = .group g

/-- What loading makes of the groups that names are bound to. -/
def ownGroupProperties : Properties where
  node := BindsOwnGroup
  group _ := True
  node_serial _ h := h
  group_contents _ _ _ _ _ h := h

theorem bindingOf_ne_group (binding : Local) (g : GroupId) : (bindingOf binding).target ≠ .group g := by
  unfold bindingOf
  cases binding.source <;> simp

theorem bindsOwnGroup_functionNode (inClass : Bool) (g : GroupId) (token : String)
    (f : FunctionOutline) : BindsOwnGroup (functionNode inClass g token f) := by
  intro bindings hBindings b hb other hOther
  cases hBindings
  split at hb
  · rcases List.mem_append.mp hb with hb | hb
    · obtain ⟨binding, _, rfl⟩ := List.mem_map.mp hb
      exact absurd hOther (bindingOf_ne_group binding other)
    · rw [List.mem_singleton.mp hb] at hOther
      cases hOther
      rfl
  · obtain ⟨binding, _, rfl⟩ := List.mem_map.mp hb
    exact absurd hOther (bindingOf_ne_group binding other)

theorem ownGroupProperties_ofFile (file : FileOutline) : ownGroupProperties.OfFile file where
  group := trivial
  root g bindings hBindings b hb other hOther := by
    cases hBindings
    obtain ⟨binding, _, rfl⟩ := List.mem_map.mp hb
    exact absurd hOther (bindingOf_ne_group binding other)
  functions f _ g token := bindsOwnGroup_functionNode false g token f
  classes c _ := ClassOutline.every_of_all
    (fun f g token => bindsOwnGroup_functionNode true g token f) (fun _ _ => trivial) c
  imports i _ g token bindings hBindings := by cases hBindings

/-- What the source binds names to belongs to the files, whatever was left out. -/
theorem placed_loaded (outlines : List FileOutline) (ns : List NodeId) {n : NodeId}
    {bindings : List Binding} {b : Binding}
    (hn : n ∈ ((Graph.loaded outlines).1.removeNodes ns).nodesOf (Graph.loaded outlines).2)
    (hBindings : (((Graph.loaded outlines).1.removeNodes ns).node n).bindings =
      some bindings) (hb : b ∈ bindings) :
    ((Graph.loaded outlines).1.removeNodes ns).Placed (Graph.loaded outlines).2 b.target := by
  have hLoaded := loading_insertFiles outlines
  have hOwn := loading_loaded fun file (_ : file ∈ outlines) => ownGroupProperties_ofFile file
  generalize Graph.loaded outlines = loaded at *
  have hShrinks := shrinks_removeNodes loaded.1 ns
  rw [hShrinks.node_eq] at hBindings
  constructor
  · intro m hm
    exact absurd hm ((bound_fromSource hLoaded n bindings hBindings b hb).1 m)
  · intro g hg
    have hParent := hOwn.node_want n (loaded.1.node_lt_of_bindings hBindings) bindings hBindings b hb
      g hg
    rw [nodesOf_eq_flatMap] at hn
    obtain ⟨own, hOwnMem, hListed⟩ := List.mem_flatMap.mp hn
    have hListedIn := (hShrinks.wellFormed hLoaded.toWellFormed).parent_of_listed hListed
    rw [hShrinks.node_eq, hParent] at hListedIn
    cases hListedIn
    exact hOwnMem

/-- Settling what was loaded and limited succeeds and settles everything. -/
theorem exists_resolved_of_limit {options : Options} {outlines : List FileOutline} {limited : Graph}
    (h : (limit options (Graph.loaded outlines).1 (Graph.loaded outlines).2).result = .ok limited) :
    ∃ settled, (settle options limited (Graph.loaded outlines).2
        (limited.nodesOf (Graph.loaded outlines).2)).result = .ok settled ∧
      Resolved options.heuristics (Graph.loaded outlines).2 limited settled := by
  obtain ⟨ns, rfl⟩ := removeNodes_of_limit h
  obtain ⟨settled, hSettled⟩ := @settle_loaded_isOk options outlines ns
    (Graph.loaded outlines).2 (((Graph.loaded outlines).1.removeNodes
      ns).nodesOf (Graph.loaded outlines).2)
  have hLoaded := loading_insertFiles outlines
  have hShrinks := shrinks_removeNodes (Graph.loaded outlines).1 ns
  refine ⟨settled, hSettled, resolved_of_settle (hShrinks.wellFormed hLoaded.toWellFormed)
    (hShrinks.roots hLoaded.rooted) (fun n hn bindings hBindings b hb => ?_) hSettled⟩
  exact placed_loaded outlines ns hn hBindings hb

/-- **Names are settled in every run**: if all files can be parsed, settling never fails, and every
name that a node binds ends at a node or group of the files, at a table, at a call that makes no object
of the files, or at the unknown module. What was left out is never bound, since it belongs to the files
no more. -/
theorem bindings_resolved {fileSystem : FileSystem} {options : Options} {sources : List String}
    (hFiles : AllParse fileSystem options sources) :
    ∃ read, (outlines fileSystem options sources).result = .ok read ∧
      let loaded := Graph.loaded read
      (options.isWellTyped = true →
        ∃ limited, (limit options loaded.1 loaded.2).result = .ok limited) ∧
      ∀ limited, (limit options loaded.1 loaded.2).result = .ok limited →
        ∃ settled,
          (settle options limited loaded.2 (limited.nodesOf loaded.2)).result = .ok settled ∧
          Resolved options.heuristics loaded.2 limited settled ∧
          (∀ n ∈ settled.nodesOf loaded.2, ∀ b ∈ bindingsOf settled n,
            settled.Final loaded.2 b.target) ∧
          ∀ removed ∉ limited.nodesOf loaded.2, ∀ n ∈ settled.nodesOf loaded.2,
            ∀ b ∈ bindingsOf settled n, b.target ≠ .node removed := by
  obtain ⟨read, hRead, _⟩ := outlines_isOk hFiles
  refine ⟨read, hRead, fun hOptions => limit_isOk hOptions _ _, fun limited hLimited => ?_⟩
  obtain ⟨settled, hSettled, hResolved⟩ := exists_resolved_of_limit hLimited
  refine ⟨settled, hSettled, hResolved, fun n hn b hb => hResolved.final hn hb, ?_⟩
  intro removed hRemoved n hn b hb hTarget
  have hFinal := hResolved.final hn hb
  rw [hTarget] at hFinal
  cases hFinal with
  | node hMem =>
      rw [hResolved.rebinds.nodesOf_eq] at hMem
      exact hRemoved hMem

end CallMap

namespace Tree

/-- A function with parameters. -/
def functionWithAt (line : Int) (name : String) (parameters : List String) (body : List Tree) :
    Tree :=
  .node .functionDef (some line) [("name", .text name)]
    (.filled .args (.node (.other "arguments") none [] (parameters.map fun parameter =>
      .filled .args (.node (.other "arg") (some line) [("arg", .text parameter)] []))) ::
        body.map (.filled .body))

/-- A call with arguments. -/
def callWithAt (line : Int) (callee : Tree) (arguments : List Tree) : Tree :=
  .node .call (some line) [] (.filled .func callee :: arguments.map (.filled .args))

end Tree

namespace CallMap

/-- A module that imports two functions and passes one of them to a third. -/
def passingModule : Tree :=
  .moduleOf
    [.importFromAt 1 "b" "make", .importFromAt 2 "b" "g",
     .functionWithAt 3 "run" ["call"] [.statementAt 4 (.callAt 4 (.nameAt 4 "call"))],
     .statementAt 5 (.callWithAt 5 (.nameAt 5 "run") [.nameAt 5 "make"])]

def passingFiles : FileSystem :=
  { entries := [(["a.py"], .file { content := .ok passingModule }),
    (["b.py"], .file { content := .ok makerModule })] }

/-- One of the two imported functions is left out. -/
def passingOptions : Options := { excludeFunctions := [.text "g"] }

/-- In the sample, the function that is kept is found under its name and under the parameter that it
is passed to; the function that is left out is not found. -/
theorem bindings_resolved_passing :
    AllParse passingFiles passingOptions ["a.py"] ∧
    ∃ read limited settled, (outlines passingFiles passingOptions ["a.py"]).result = .ok read ∧
      (limit passingOptions (Graph.loaded read).1 (Graph.loaded read).2).result = .ok limited ∧
      Resolved true (Graph.loaded read).2 limited settled ∧
      (∀ n ∈ settled.nodesOf (Graph.loaded read).2, ∀ b ∈ bindingsOf settled n,
        settled.Final (Graph.loaded read).2 b.target) ∧
      ((settled.nodesOf (Graph.loaded read).2).flatMap (bindingsOf settled)).map
        (fun b => (b.token, targetText settled b.target)) =
          [("make", "make"), ("g", unknownModule), ("call", "make")] := by
  have hFiles : AllParse passingFiles passingOptions ["a.py"] := by
    intro source hSource
    rw [List.mem_singleton.mp hSource]
    have hAll := @Imports.parses_of_isClosed passingFiles (baseOf "a.py") "a.py" ["a.py", "./b.py"]
      (by decide +kernel) List.mem_cons_self
    exact ⟨hAll _ .start, fun _ => hAll⟩
  obtain ⟨read, hRead, hLimit, hSettle⟩ := bindings_resolved hFiles
  obtain ⟨limited, hLimited⟩ := hLimit (by decide)
  obtain ⟨settled, hSettled, hResolved, hFinal, _⟩ := hSettle limited hLimited
  refine ⟨hFiles, read, limited, settled, hRead, hLimited, hResolved, hFinal, ?_⟩
  have hTest : (outlines passingFiles passingOptions ["a.py"]).result.toOption.any (fun read =>
      (limit passingOptions (Graph.loaded read).1
        (Graph.loaded read).2).result.toOption.any fun limited =>
      (settle passingOptions limited (Graph.loaded read).2
        (limited.nodesOf (Graph.loaded read).2)).result.toOption.any fun settled =>
      decide (((settled.nodesOf (Graph.loaded read).2).flatMap (bindingsOf settled)).map
        (fun b => (b.token, targetText settled b.target)) =
          [("make", "make"), ("g", unknownModule), ("call", "make")])) = true := by decide +kernel
  rw [hRead, Except.toOption, Option.any_some, hLimited, Except.toOption, Option.any_some, hSettled,
    Except.toOption, Option.any_some] at hTest
  exact of_decide_eq_true hTest

end CallMap

end CallGraph
