import CallGraph.Proofs.Choosing
import CallGraph.Proofs.Collecting
import CallGraph.Proofs.Concluding
import CallGraph.Proofs.Mirroring
import CallGraph.Proofs.Reading

/-!
# Which parameter an argument goes to

When a call passes the name of a function, the parameter that receives it is bound to that function.
Names and parameters are numbered apart from each other. The names are those that the arguments of the
call pass, so an argument that passes none, a constant or a call, takes no number. The parameters are
those of the signature, which leaves the positional-only ones out. A name therefore goes to the
parameter in its own place only if as many arguments before it pass no name as the function has
positional-only parameters (`Block.Delivers.eq_iff`). Of a dotted argument only the first name is passed
on, so the name looked for is the whole argument only if this is a plain name.

What a run binds in the end follows from one flow at a time. A flow binds the parameter it goes to and
nothing else (`Graph.boundTo?_applyFlow`), so after all of them a parameter is bound as the last flow
to it says (`Graph.boundTo?_passArguments`).

## Main definitions

* `Tree.positional` — the positional parameters of a definition, in order.
* `Block.Delivers` — where an argument of a call goes.
* `Graph.boundTo?`, `Graph.lastFlow?` — what a name is bound to, and what is passed to it last.

## Main results

* `Graph.mem_flowsOfCall_iff` — what a call passes, number by number.
* `CallMap.arguments_by_number` — which arguments parameters are bound to in a run.
-/

namespace CallGraph

/-! ## Parts of trees -/

namespace Tree

variable {lists : List Field} {t inner tree : Tree}

theorem exists_within_of_mem_levels {n : Nat} {trees : List Tree} (h : t ∈ levels n trees) :
    ∃ tree ∈ trees, t.Within tree := by
  induction n generalizing trees with
  | zero => exact absurd h List.not_mem_nil
  | succ n ih =>
      rcases List.mem_append.mp h with h | h
      · exact ⟨t, h, .refl⟩
      · obtain ⟨inner, hInner, hWithin⟩ := ih h
        obtain ⟨tree, hTree, hMem⟩ := List.mem_flatMap.mp hInner
        exact ⟨tree, hTree, .inside hMem hWithin⟩

theorem within_of_mem_walk (h : t ∈ tree.walk) : t.Within tree := by
  obtain ⟨tree', hTree, hWithin⟩ := exists_within_of_mem_levels h
  rwa [List.mem_singleton.mp hTree] at hWithin

/-- The functions and classes of a namespace are parts of it. -/
theorem within_of_mem_statements (h : t ∈ tree.statements [.body]) : t.Within tree := by
  obtain ⟨inner, hInner, hMem⟩ := List.mem_flatMap.mp h
  exact (of_mem_flat hMem).1.trans (within_of_mem_trees hInner)

end Tree

/-- What is made of all function definitions in a class holds of all functions of its outline. -/
theorem ClassOutline.every_ofTree {onFunction : FunctionOutline → Prop}
    {onClass : ClassOutline → Prop} (definition : Tree)
    (hFunction : ∀ t : Tree, t.Within definition → t.definesFunction = true →
      ∀ scope, onFunction (.ofTree true scope t))
    (hClass : ∀ c, onClass c) (scope : Scope) :
    (ofTree scope definition).Every onFunction onClass := by
  induction definition using Tree.classes_induction generalizing scope with
  | step definition ih =>
      rw [ofTree_eq]
      refine ⟨hClass _, fun f hf => ?_, everyOf_of_forall fun c hc => ?_⟩
      · obtain ⟨t, ht, rfl⟩ := List.mem_map.mp hf
        obtain ⟨hStatement, hDefines⟩ := List.mem_filter.mp ht
        exact hFunction t (Tree.within_of_mem_statements hStatement) hDefines scope
      · obtain ⟨t, ht, rfl⟩ := List.mem_map.mp hc
        have hWithin := Tree.within_of_mem_statements (List.mem_filter.mp ht).1
        exact ih t ht (fun f hf => hFunction f (hf.trans hWithin)) []

/-! ## Places -/

namespace Tree

/-- The names that one list of parameters of a definition declares. -/
def declared (list : Field) (definition : Tree) : List String :=
  (definition.tree? .args).elim [] fun parameters =>
    (parameters.trees list).map fun parameter => (parameter.text? "arg").getD ""

/-- The positional-only parameters of a definition, which are declared in front of a `/`. -/
def positionalOnly : Tree → List String :=
  declared (.other "posonlyargs")

/-- The positional parameters of a definition, in order. -/
def positional (definition : Tree) : List String :=
  definition.positionalOnly ++ definition.declared .args

/-- The parameters of a signature are those that are not positional-only. -/
theorem parameters_ofTree (definition : Tree) :
    (Signature.ofTree definition).parameters = definition.declared .args := by
  rw [Signature.ofTree, declared]
  cases definition.tree? .args <;> rfl

end Tree

namespace Block

/-- A call passes the arguments of its own expression. -/
theorem arguments_of_call? {scopes : Option (List Scope)} {arguments : List String} {callee : Tree}
    {call : Call} (h : call? scopes arguments callee = some call) : call.arguments = arguments := by
  cases callee with
  | node kind line attributes children =>
      unfold call? at h
      split at h
      · cases h
        rfl
      · cases h
        rw [nameCall]
        split <;> first | rfl | (split <;> rfl)
      · simp only [entryCall?, Option.bind_eq_bind, Option.bind_eq_some_iff] at h
        obtain ⟨_, _, _, _, _, _, _, _, hEntry⟩ := h
        split at hEntry
        · obtain ⟨_, _, hToken⟩ := Option.bind_eq_some_iff.mp hEntry
          obtain ⟨_, _, hCall⟩ := Option.bind_eq_some_iff.mp hToken
          cases hCall
          rfl
        · exact absurd hEntry (by simp)
      · obtain ⟨_, _, rfl⟩ := Option.map_eq_some_iff.mp h
        rfl
      · exact absurd h (by simp)

/-- An expression is read as a call, in some scopes. -/
def IsReadAs (expression : Tree) (call : Call) : Prop :=
  ∃ scopes, callMade (some scopes) expression = some call

theorem IsReadAs.arguments_eq {expression : Tree} {call : Call} (h : IsReadAs expression call) :
    call.arguments = arguments expression := by
  obtain ⟨scopes, h⟩ := h
  rw [callMade] at h
  split at h
  · obtain ⟨callee, _, hCall⟩ := Option.bind_eq_some_iff.mp h
    exact arguments_of_call? hCall
  · exact absurd h (by simp)

/-- Whether an argument passes a name. -/
def passesName (argument : Tree) : Bool :=
  (argument? argument).isSome

/-- Where an argument of a call goes: from place `j` of the arguments the name it passes goes to
place `i` of the positional parameters. -/
structure Delivers (expression definition : Tree) (i j : Nat) (parameter argument : String) :
    Prop where
  parameter : definition.positional[i]? = some parameter
  argument : ∃ e, (expression.trees .args)[j]? = some e ∧ argument? e = some argument
  /-- Arguments that pass no name and parameters that are positional-only are not counted. -/
  number : i = definition.positionalOnly.length +
    ((expression.trees .args).take j).countP passesName

/-- The argument at a place is a name or dotted name. -/
def IsNamed (expression : Tree) (j : Nat) (names : List String) : Prop :=
  ∃ e, (expression.trees .args)[j]? = some e ∧ e.Spells names

variable {expression definition : Tree} {parameter argument : String} {i j : Nat}

/-- A name and a parameter have the same number just if an argument goes to the parameter. -/
theorem exists_delivers_iff : (∃ i j, Delivers expression definition i j parameter argument) ↔
    ∃ k : Nat, (arguments expression)[k]? = some argument ∧
      (Signature.ofTree definition).parameters[k]? = some parameter := by
  simp only [arguments, getElem?_filterMap_iff, Tree.parameters_ofTree]
  constructor
  · rintro ⟨i, j, hParameter, ⟨e, hGet, hArgument⟩, rfl⟩
    refine ⟨_, ⟨j, e, hGet, hArgument, rfl⟩, ?_⟩
    rwa [Tree.positional, List.getElem?_append_right (Nat.le_add_right _ _),
      Nat.add_sub_cancel_left] at hParameter
  · rintro ⟨k, ⟨j, e, hGet, hArgument, rfl⟩, hParameter⟩
    refine ⟨_, j, ?_, ⟨e, hGet, hArgument⟩, rfl⟩
    rw [Tree.positional, List.getElem?_append_right (Nat.le_add_right _ _), Nat.add_sub_cancel_left]
    exact hParameter

namespace Delivers

/-- An argument goes to its own place if the arguments before it that pass no name are as many as the
positional-only parameters. -/
theorem eq_iff (h : Delivers expression definition i j parameter argument) :
    i = j ↔ ((expression.trees .args).take j).countP (fun e => !passesName e) =
      definition.positionalOnly.length := by
  obtain ⟨e, hGet, _⟩ := h.argument
  obtain ⟨hLt, _⟩ := List.getElem?_eq_some_iff.mp hGet
  have hAll : j = ((expression.trees .args).take j).countP passesName +
      ((expression.trees .args).take j).countP (fun e => !passesName e) := by
    have hLength := @List.length_eq_countP_add_countP _ passesName ((expression.trees .args).take j)
    simpa [List.length_take_of_le (Nat.le_of_lt hLt)] using hLength
  have hNumber := h.number
  omega

/-- The name that is passed on is all of the argument only if it is a plain name. -/
theorem isNamed_iff (h : Delivers expression definition i j parameter argument) :
    (∃ names, IsNamed expression j names ∧ Dotted.join names = argument) ↔
      IsNamed expression j [argument] := by
  obtain ⟨e, hGet, hArgument⟩ := h.argument
  constructor
  · rintro ⟨names, ⟨e', hGet', hSpells⟩, hJoin⟩
    rw [hGet] at hGet'
    cases hGet'
    rw [argument?_of_spells hSpells] at hArgument
    cases names with
    | nil => exact absurd rfl hSpells.ne_nil
    | cons first rest =>
        cases hArgument
        rcases rest with _ | ⟨next, rest⟩
        · exact ⟨e, hGet, hSpells⟩
        · exact absurd hJoin.symm (Dotted.ne_join_of_ne_nil (List.cons_ne_nil _ _))
  · intro hNamed
    exact ⟨[argument], hNamed, rfl⟩

end Delivers

end Block

/-! ## What one flow binds -/

theorem Binding.exists_mem_of_becomes {related : Binding → Target → Prop} {old new : List Binding}
    (h : List.Forall₂ (Binding.Becomes related) old new) {b : Binding} (hb : b ∈ old) :
    ∃ b' ∈ new, b'.token = b.token := by
  induction h with
  | nil => exact absurd hb List.not_mem_nil
  | cons hFirst _ ih =>
      obtain ⟨target, rfl, _⟩ := hFirst
      rcases List.mem_cons.mp hb with rfl | hb
      · exact ⟨_, List.mem_cons_self, rfl⟩
      · obtain ⟨b', hb', hToken⟩ := ih hb
        exact ⟨b', List.mem_cons_of_mem _ hb', hToken⟩

/-- Whether a flow goes to a parameter of a function. -/
def ArgumentFlow.goesTo (n : NodeId) (name : String) (flow : ArgumentFlow) : Bool :=
  decide (flow.callee = n ∧ flow.parameter = name)

namespace Graph

variable {graph before after : Graph} {nodes : List NodeId} {n : NodeId} {name : String}

/-- What a name of a node is bound to, where it is bound first. -/
def boundTo? (graph : Graph) (n : NodeId) (name : String) : Option Target :=
  (graph.node n).bindings.bind fun bindings =>
    (bindings.find? fun b => decide (b.token = name)).map Binding.target

/-- What is passed to a parameter last. -/
def lastFlow? (graph : Graph) (nodes : List NodeId) (n : NodeId) (name : String) :
    Option ArgumentFlow :=
  ((graph.flows nodes).filter (ArgumentFlow.goesTo n name)).getLast?

theorem find?_rebindFirst (token name : String) (target : Target) (bindings : List Binding) :
    ((rebindFirst token target bindings).find? fun b => decide (b.token = name)).map Binding.target =
      if token = name then
        (bindings.find? fun b => decide (b.token = name)).map fun _ => target
      else (bindings.find? fun b => decide (b.token = name)).map Binding.target := by
  induction bindings with
  | nil => simp [rebindFirst]
  | cons first rest ih =>
      by_cases hToken : first.token = token
      · rw [rebindFirst, if_pos hToken]
        by_cases hName : first.token = name
        · simp [hName, ← hToken]
        · simp [hName, ← hToken]
      · rw [rebindFirst, if_neg hToken]
        by_cases hName : first.token = name
        · have hNe : token ≠ name := fun hEq => hToken (hName.trans hEq.symm)
          simp [hName, hNe]
        · simpa [List.find?_cons, hName] using ih

/-- A flow binds the parameter that it goes to, and nothing else. -/
theorem boundTo?_applyFlow (graph : Graph) (flow : ArgumentFlow) (n : NodeId) (name : String) :
    (graph.applyFlow flow).boundTo? n name = (graph.boundTo? n name).map fun target =>
      if flow.goesTo n name then .node flow.passed else target := by
  rw [boundTo?, boundTo?, bindings_applyFlow]
  by_cases hCallee : n = flow.callee
  · subst hCallee
    rw [if_pos rfl]
    cases (graph.node flow.callee).bindings with
    | none => rfl
    | some bindings =>
        simp only [Option.map_some, Option.bind_some, find?_rebindFirst, ArgumentFlow.goesTo,
          true_and, Option.map_map, decide_eq_true_eq]
        split <;> rfl
  · have hNot : flow.goesTo n name = false :=
      decide_eq_false fun hBoth => hCallee hBoth.1.symm
    simp [hCallee, hNot]

/-- After some flows, a parameter is bound as the last of those to it says. -/
theorem boundTo?_foldl (graph : Graph) (flows : List ArgumentFlow) (n : NodeId) (name : String) :
    (flows.foldl applyFlow graph).boundTo? n name = (graph.boundTo? n name).map fun target =>
      ((flows.filter (ArgumentFlow.goesTo n name)).getLast?).elim target fun flow =>
        .node flow.passed := by
  induction flows using List.reverseRecOn with
  | nil => simp
  | append_singleton flows flow ih =>
      rw [List.foldl_append, List.foldl_cons, List.foldl_nil, boundTo?_applyFlow, ih, Option.map_map,
        List.filter_append]
      cases hTo : flow.goesTo n name with
      | true => simp [hTo, Function.comp_def]
      | false => simp [hTo, Function.comp_def]

/-- Passing arguments binds a parameter to what is passed to it last. -/
theorem boundTo?_passArguments (graph : Graph) (nodes : List NodeId) (n : NodeId) (name : String) :
    (graph.passArguments nodes).boundTo? n name = (graph.boundTo? n name).map fun target =>
      (graph.lastFlow? nodes n name).elim target fun flow => .node flow.passed :=
  boundTo?_foldl graph (graph.flows nodes) n name

/-- What calls pass does not depend on bindings. -/
theorem Rebinds.flows_eq (h : before.Rebinds after) (nodes : List NodeId) :
    after.flows nodes = before.flows nodes := by
  have hToken := h.node_field Node.token
  have hSignature := h.node_field Node.signature
  have hCalls := h.node_field Node.calls
  have hKind := h.group_field Group.kind
  have hCall : after.flowsOfCall nodes = before.flowsOfCall nodes := by
    funext call
    simp only [flowsOfCall, onlyFunction?, withToken?, hToken, hSignature, hKind, h.parentGroup?_eq]
  simp only [flows, hCalls, hCall]

/-- What a call passes: a name that is found among the nodes goes to the parameter with the same
number. -/
theorem mem_flowsOfCall_iff {call : Call} {callee : NodeId} {flow : ArgumentFlow}
    (hCallee : graph.onlyFunction? nodes call.token = some callee) :
    flow ∈ graph.flowsOfCall nodes call ↔ flow.callee = callee ∧
      graph.withToken? flow.argument nodes = some flow.passed ∧
      ∃ k : Nat, call.arguments[k]? = some flow.argument ∧
        ((graph.node callee).signature.getD {}).parameters[k]? = some flow.parameter := by
  rw [flowsOfCall, hCallee]
  simp only [List.mem_filterMap, Option.map_eq_some_iff]
  constructor
  · rintro ⟨pair, hPair, passed, hPassed, rfl⟩
    obtain ⟨k, hk⟩ := List.mem_iff_getElem?.mp hPair
    obtain ⟨hArgument, hParameter⟩ := List.getElem?_zip_eq_some.mp hk
    exact ⟨rfl, hPassed, k, hArgument, hParameter⟩
  · rintro ⟨rfl, hPassed, k, hArgument, hParameter⟩
    exact ⟨(flow.argument, flow.parameter),
      List.mem_iff_getElem?.mpr ⟨k, List.getElem?_zip_eq_some.mpr ⟨hArgument, hParameter⟩⟩,
      flow.passed, hPassed, rfl⟩

theorem callee_mem_of_mem_flows {flow : ArgumentFlow} (h : flow ∈ graph.flows nodes) :
    flow.callee ∈ nodes := by
  obtain ⟨_, _, h⟩ := List.mem_flatMap.mp h
  obtain ⟨call, _, h⟩ := List.mem_flatMap.mp h
  cases hCallee : graph.onlyFunction? nodes call.token with
  | none =>
      rw [flowsOfCall, hCallee] at h
      exact absurd h List.not_mem_nil
  | some callee =>
      rw [((mem_flowsOfCall_iff hCallee).mp h).1]
      unfold onlyFunction? at hCallee
      split at hCallee
      · rename_i m hFilter
        cases hCallee
        exact (List.mem_filter.mp (hFilter ▸ List.mem_singleton_self callee)).1
      · exact absurd hCallee (by simp)

/-- What is passed last is passed, and to this parameter. -/
theorem of_lastFlow?_eq_some {flow : ArgumentFlow} (h : graph.lastFlow? nodes n name = some flow) :
    flow ∈ graph.flows nodes ∧ flow.callee = n ∧ flow.parameter = name := by
  obtain ⟨hMem, hTo⟩ := List.mem_filter.mp (List.mem_of_getLast? h)
  exact ⟨hMem, of_decide_eq_true hTo⟩

theorem boundTo?_isSome {bindings : List Binding} (h : (graph.node n).bindings = some bindings)
    {b : Binding} (hb : b ∈ bindings) : (graph.boundTo? n b.token).isSome = true := by
  rw [boundTo?, h, Option.bind_some, Option.isSome_map, List.find?_isSome]
  exact ⟨b, hb, decide_eq_true rfl⟩

end Graph

/-! ## Where calls and parameters come from -/

theorem Block.exists_within_of_mem_calls {scopes : List Scope} {statements : List Tree} {call : Call}
    (h : call ∈ calls (some scopes) statements) :
    ∃ statement ∈ statements, ∃ expression : Tree,
      expression.Within statement ∧ IsReadAs expression call := by
  rw [calls_eq_filterMap] at h
  obtain ⟨expression, hMem, hCall⟩ := List.mem_filterMap.mp h
  obtain ⟨statement, hStatement, hWalk⟩ := List.mem_flatMap.mp hMem
  exact ⟨statement, hStatement, expression, Tree.within_of_mem_walk hWalk, scopes, hCall⟩

/-- A node is read from parts of a source: its calls from expressions, and its signature from a
definition whose parameters it binds. -/
structure Node.IsReadFrom (source : Tree → Prop) (node : Node) : Prop where
  calls : ∀ call ∈ node.calls, ∃ expression, source expression ∧ Block.IsReadAs expression call
  signature : ∀ signature, node.signature = some signature →
    ∃ definition : Tree, source definition ∧ definition.definesFunction = true ∧
      definition.definedName = node.token ∧ signature = .ofTree definition
  bound : ∀ signature, node.signature = some signature → ∀ parameter ∈ signature.parameters,
    ∃ bindings, node.bindings = some bindings ∧ ∃ b ∈ bindings, b.token = parameter

namespace Graph

/-- Every node is read from a source. -/
def readProperties (source : Tree → Prop) : Properties where
  node := Node.IsReadFrom source
  group _ := True
  node_serial _ h := ⟨h.calls, h.signature, h.bound⟩
  group_contents _ _ _ _ _ h := h

variable {source : Tree → Prop}

theorem isReadFrom_functionNode {definition : Tree}
    (hSource : ∀ t : Tree, t.Within definition → source t)
    (hDefines : definition.definesFunction = true) (isMethod : Bool) (scope : Scope) (g : GroupId)
    (token : String) :
    (functionNode isMethod g token (.ofTree isMethod scope definition)).IsReadFrom source where
  calls call hCall := by
    obtain ⟨statement, hStatement, expression, hWithin, hReadAs⟩ :=
      Block.exists_within_of_mem_calls hCall
    exact ⟨expression, hSource _ (hWithin.trans (Tree.within_of_mem_trees hStatement)), hReadAs⟩
  signature signature hSignature := by
    cases hSignature
    exact ⟨definition, hSource _ .refl, hDefines, rfl, rfl⟩
  bound signature hSignature parameter hParameter := by
    cases hSignature
    refine ⟨_, rfl, bindingOf ⟨parameter, .name unknownOwner, definition.line⟩, ?_, rfl⟩
    have hMem : bindingOf ⟨parameter, .name unknownOwner, definition.line⟩ ∈
        (FunctionOutline.ofTree isMethod scope definition).locals.map bindingOf :=
      List.mem_map_of_mem (List.mem_append_left _ (List.mem_map_of_mem hParameter))
    split
    · exact List.mem_append_left _ hMem
    · exact hMem

theorem readProperties_ofTree {tree : Tree} (hSource : ∀ t : Tree, t.Within tree → source t)
    (path : String) : (readProperties source).OfFile (.ofTree tree path) where
  group := trivial
  root g :=
    { calls := by
        intro call hCall
        obtain ⟨statement, hStatement, expression, hWithin, hReadAs⟩ :=
          Block.exists_within_of_mem_calls hCall
        have hListed : statement ∈ (Members.ofTree tree).listed :=
          Members.mem_listed.mpr (Or.inr (List.mem_append.mp hStatement))
        exact ⟨expression, hSource _ (hWithin.trans (Members.within_ofTree hListed)), hReadAs⟩
      signature := fun _ hSignature => absurd hSignature (by simp [rootNode])
      bound := fun _ hSignature => absurd hSignature (by simp [rootNode]) }
  functions f hf g token := by
    rw [FileOutline.functions_ofTree] at hf
    obtain ⟨t, ht, rfl⟩ := List.mem_map.mp hf
    obtain ⟨hStatement, hDefines⟩ := List.mem_filter.mp ht
    have hWithin := Tree.within_of_mem_statements hStatement
    exact isReadFrom_functionNode (fun inner hInner => hSource inner (hInner.trans hWithin)) hDefines
      false _ g token
  classes c hc := by
    rw [FileOutline.classes_ofTree] at hc
    obtain ⟨t, ht, rfl⟩ := List.mem_map.mp hc
    have hWithin := Tree.within_of_mem_statements (List.mem_filter.mp ht).1
    refine ClassOutline.every_ofTree t (fun f hf hDefines scope g token => ?_) (fun _ _ => trivial) _
    have hInside := hf.trans hWithin
    exact isReadFrom_functionNode (fun inner hInner => hSource inner (hInner.trans hInside)) hDefines
      true scope g token
  imports _ _ _ _ :=
    { calls := fun _ hCall => absurd hCall List.not_mem_nil
      signature := fun _ hSignature => absurd hSignature (by simp [importNode])
      bound := fun _ hSignature => absurd hSignature (by simp [importNode]) }

end Graph

open CallGraph.Graph

namespace CallMap

/-- A tree is part of a file that a run reads. -/
def IsInFiles (files : FileSystem) (read : List FileOutline) (t : Tree) : Prop :=
  ∃ path tree, files.read path = .ok tree ∧ .ofTree tree path ∈ read ∧ t.Within tree

variable {fileSystem : FileSystem} {options : Options} {sources : List String}
  {read : List FileOutline} {limited settled : Graph}

section

variable (hRead : (outlines fileSystem options sources).result = .ok read)
  (hLimited : (limit options (Graph.loaded read).1 (Graph.loaded read).2).result = .ok limited)

include hRead hLimited

/-- The nodes of a run are read from its files, whatever was left out. -/
theorem isReadFrom_of_limit {n : NodeId}
    (hn : n ∈ limited.nodesOf (Graph.loaded read).2) :
    (limited.node n).IsReadFrom (IsInFiles fileSystem read) := by
  obtain ⟨paths, hOutlined, _⟩ := outlines_spec hRead
  have hFiles : ∀ file ∈ read, (readProperties (IsInFiles fileSystem read)).OfFile file := by
    intro file hFile
    obtain ⟨path, _, tree, hTree, rfl⟩ := exists_path_of_outlined hOutlined hFile
    exact readProperties_ofTree (fun t ht => ⟨path, tree, hTree, hFile, ht⟩) path
  have hLoaded := loading_loaded hFiles
  obtain ⟨ns, rfl⟩ := removeNodes_of_limit hLimited
  have hShrinks := shrinks_removeNodes (Graph.loaded read).1 ns
  obtain ⟨g, hListed⟩ := listed_of_mem_nodesOf hn
  have hLt := (hShrinks.wellFormed hLoaded.toWellFormed).listed_lt hListed
  rw [hShrinks.nodes_eq] at hLt
  rw [hShrinks.node_eq]
  exact hLoaded.node_want n hLt

/-- A parameter that something is passed to is bound in the end. -/
theorem isSome_boundTo?_of_mem_flows
    (hResolved : Resolved options.heuristics (Graph.loaded read).2 limited settled)
    {flow : ArgumentFlow}
    (hFlow : flow ∈ limited.flows (limited.nodesOf (Graph.loaded read).2)) :
    (settled.boundTo? flow.callee flow.parameter).isSome = true := by
  have hCallee := callee_mem_of_mem_flows hFlow
  have hParameter := (passes_of_mem_flows hFlow).parameter_mem
  cases hSignature : (limited.node flow.callee).signature with
  | none =>
      rw [hSignature] at hParameter
      exact absurd hParameter List.not_mem_nil
  | some signature =>
      rw [hSignature, Option.getD_some] at hParameter
      obtain ⟨bindings, hBindings, b, hb, hToken⟩ :=
        (isReadFrom_of_limit hRead hLimited hCallee).bound signature hSignature _ hParameter
      rw [nodesOf_eq_flatMap] at hCallee
      obtain ⟨g, hg, hListed⟩ := List.mem_flatMap.mp hCallee
      obtain ⟨bindings', hBindings', hBecomes⟩ :=
        hResolved.bindings g hg flow.callee hListed bindings hBindings
      obtain ⟨b', hb', hToken'⟩ :=
        Binding.exists_mem_of_becomes hBecomes (List.mem_append_left _ hb)
      rw [← hToken, ← hToken']
      exact boundTo?_isSome hBindings' hb'

/-- What a parameter is bound to after a run: what is passed to it last, and what it was bound to
before if nothing is. -/
theorem boundTo?_of_settle (hHeuristics : options.heuristics = true)
    (hSettled : (settle options limited (Graph.loaded read).2
      (limited.nodesOf (Graph.loaded read).2)).result = .ok settled) :
    ∃ middle, (limited.inherit (Graph.loaded read).2).settle
        (Graph.loaded read).2 (limited.nodesOf (Graph.loaded read).2) =
          .ok middle ∧
      ∀ n name, settled.boundTo? n name =
        (limited.lastFlow? (limited.nodesOf (Graph.loaded read).2) n name).elim
          (middle.boundTo? n name) fun flow => some (.node flow.passed) := by
  obtain ⟨settled', hSettled', hResolved⟩ := exists_resolved_of_limit hLimited
  cases hSettled.symm.trans hSettled'
  rw [result_settle] at hSettled
  simp only [hHeuristics, if_true] at hSettled
  obtain ⟨middle, hMiddle, hPass⟩ := exists_of_bind_eq_ok hSettled
  cases hPass
  have hRebinds : limited.Rebinds middle := by
    obtain ⟨ns, rfl⟩ := removeNodes_of_limit hLimited
    have hShrinks := shrinks_removeNodes (Graph.loaded read).1 ns
    have hLoaded := loading_insertFiles read
    exact (inheritedBy_inherit (hShrinks.wellFormed hLoaded.toWellFormed)
      (hShrinks.roots hLoaded.rooted)).toRebinds.trans
        (settle_spec (rebindable_any _) (bound_any _) hMiddle).1
  refine ⟨middle, hMiddle, fun n name => ?_⟩
  have hBound := boundTo?_passArguments middle
    (limited.nodesOf (Graph.loaded read).2) n name
  rw [lastFlow?, hRebinds.flows_eq, ← lastFlow?] at hBound
  cases hLast : limited.lastFlow? (limited.nodesOf (Graph.loaded read).2) n name with
  | none => simpa [hLast] using hBound
  | some flow =>
      obtain ⟨hFlow, rfl, rfl⟩ := of_lastFlow?_eq_some hLast
      -- a parameter is bound from the start, so there is a binding to change
      have hSome := isSome_boundTo?_of_mem_flows hRead hLimited hResolved hFlow
      rw [hBound, Option.isSome_map] at hSome
      obtain ⟨target, hTarget⟩ := Option.isSome_iff_exists.mp hSome
      rw [hBound, hTarget, hLast]
      rfl

end

/--
**Arguments go to parameters by number.** In every run, a parameter is bound in the end to what is
passed to it last. Calls and signatures are read from expressions and definitions in the files, and
these two decide what a call passes: an argument that passes the name of a node goes to the parameter
behind the positional-only ones that has as many before it as there are arguments before this one that
pass a name. This is the parameter in the same place as the argument, and the name looked for is the
whole argument, exactly if as many arguments before it pass no name as there are positional-only
parameters, and it is a plain name.
-/
theorem arguments_by_number (hHeuristics : options.heuristics = true)
    (hRead : (outlines fileSystem options sources).result = .ok read)
    (hLimited : (limit options (Graph.loaded read).1 (Graph.loaded read).2).result = .ok limited)
    (hSettled : (settle options limited (Graph.loaded read).2
      (limited.nodesOf (Graph.loaded read).2)).result = .ok settled) :
    let files := (Graph.loaded read).2
    let nodes := limited.nodesOf files
    (∃ middle, (limited.inherit files).settle files nodes = .ok middle ∧
      ∀ n name, settled.boundTo? n name = (limited.lastFlow? nodes n name).elim
        (middle.boundTo? n name) fun flow => some (.node flow.passed)) ∧
    (∀ n ∈ nodes, (limited.node n).IsReadFrom (IsInFiles fileSystem read)) ∧
    ∀ call expression callee definition, Block.IsReadAs expression call →
      limited.onlyFunction? nodes call.token = some callee →
      (limited.node callee).signature = some (.ofTree definition) →
      (∀ flow, flow ∈ limited.flowsOfCall nodes call ↔ flow.callee = callee ∧
        limited.withToken? flow.argument nodes = some flow.passed ∧
        ∃ i j, Block.Delivers expression definition i j flow.parameter flow.argument) ∧
      ∀ i j parameter argument, Block.Delivers expression definition i j parameter argument →
        ((i = j ∧ ∃ names, Block.IsNamed expression j names ∧ Dotted.join names = argument) ↔
          ((expression.trees .args).take j).countP (fun e => !Block.passesName e) =
              definition.positionalOnly.length ∧
            Block.IsNamed expression j [argument]) := by
  refine ⟨boundTo?_of_settle hRead hLimited hHeuristics hSettled,
    fun n hn => isReadFrom_of_limit hRead hLimited hn,
    fun call expression callee definition hReadAs hCallee hSignature => ⟨fun flow => ?_, ?_⟩⟩
  · rw [mem_flowsOfCall_iff hCallee, hReadAs.arguments_eq, hSignature, Option.getD_some,
      Block.exists_delivers_iff]
  · intro i j parameter argument hDelivers
    rw [hDelivers.eq_iff, hDelivers.isNamed_iff]

/-- `def g(a, /, b, c): b()` -/
def shiftedDefinition : Tree :=
  let parameter := fun name => Tree.node (.other "arg") (some 5) [("arg", .text name)] []
  .node .functionDef (some 5) [("name", .text "g")]
    [.filled .args (.node (.other "arguments") none []
      [.filled (.other "posonlyargs") (parameter "a"), .filled .args (parameter "b"),
       .filled .args (parameter "c")]),
     .filled .body (.statementAt 6 (.callAt 6 (.nameAt 6 "b")))]

/-- `g(f, 1, h)` -/
def shiftedCall : Tree :=
  .callWithAt 7 (.nameAt 7 "g")
    [.nameAt 7 "f", .node .constant (some 7) [("value", .number 1)] [], .nameAt 7 "h"]

/-- A module that passes two functions and a number to a third function. -/
def shiftedModule : Tree :=
  .moduleOf
    [.functionAt 1 "f" [.passAt 2], .functionAt 3 "h" [.passAt 4], shiftedDefinition,
     .statementAt 7 shiftedCall]

def shiftedFiles : FileSystem :=
  { entries := [(["a.py"], .file { content := .ok shiftedModule })] }

/-- In the sample the parameter in the second place is bound to the function in the first, since the
parameter in front of it is positional-only. The last argument goes to its own place, since a number
stands before it. -/
theorem arguments_by_number_shifted :
    ∃ read limited settled, (outlines shiftedFiles {} ["a.py"]).result = .ok read ∧
      (limit {} (Graph.loaded read).1 (Graph.loaded read).2).result =
        .ok limited ∧
      (settle {} limited (Graph.loaded read).2
        (limited.nodesOf (Graph.loaded read).2)).result = .ok settled ∧
      settled.boundTo? ⟨3⟩ "b" = some (.node ⟨1⟩) ∧ settled.boundTo? ⟨3⟩ "c" = some (.node ⟨2⟩) ∧
      (⟨⟨3⟩, "b", "f", ⟨1⟩⟩ : ArgumentFlow) ∈
        limited.flowsOfCall (limited.nodesOf (Graph.loaded read).2)
          { token := "g", line := some 7, arguments := ["f", "h"] } ∧
      Block.Delivers shiftedCall shiftedDefinition 1 0 "b" "f" ∧
      ∃ names, Block.IsNamed shiftedCall 2 names ∧ Dotted.join names = "h" := by
  have hTest : (outlines shiftedFiles {} ["a.py"]).result.toOption.any (fun read =>
      (limit {} (Graph.loaded read).1 (Graph.loaded read).2).result.toOption.any fun limited =>
      let nodes := limited.nodesOf (Graph.loaded read).2
      (settle {} limited (Graph.loaded read).2 nodes).result.toOption.any fun _ =>
      decide (limited.onlyFunction? nodes "g" = some ⟨3⟩ ∧
        (limited.node ⟨3⟩).signature = some (.ofTree shiftedDefinition) ∧
        limited.withToken? "f" nodes = some ⟨1⟩ ∧
        limited.lastFlow? nodes ⟨3⟩ "b" = some ⟨⟨3⟩, "b", "f", ⟨1⟩⟩ ∧
        limited.lastFlow? nodes ⟨3⟩ "c" = some ⟨⟨3⟩, "c", "h", ⟨2⟩⟩)) = true := by decide +kernel
  obtain ⟨read, hRead, hTest⟩ := exists_ok_of_any hTest
  obtain ⟨limited, hLimited, hTest⟩ := exists_ok_of_any hTest
  obtain ⟨settled, hSettled, hTest⟩ := exists_ok_of_any hTest
  obtain ⟨hCallee, hSignature, hFound, hSecond, hThird⟩ := of_decide_eq_true hTest
  obtain ⟨⟨_, _, hBound⟩, _, hPassed⟩ := arguments_by_number rfl hRead hLimited hSettled
  obtain ⟨hFlows, hPlaces⟩ := hPassed { token := "g", line := some 7, arguments := ["f", "h"] }
    shiftedCall ⟨3⟩ shiftedDefinition ⟨[], rfl⟩ hCallee hSignature
  have hFirst : Block.Delivers shiftedCall shiftedDefinition 1 0 "b" "f" :=
    ⟨rfl, ⟨_, rfl, rfl⟩, rfl⟩
  have hLast : Block.Delivers shiftedCall shiftedDefinition 2 2 "c" "h" :=
    ⟨rfl, ⟨_, rfl, rfl⟩, rfl⟩
  have hPlain : Block.IsNamed shiftedCall 2 ["h"] := ⟨_, rfl, .name rfl rfl⟩
  refine ⟨read, limited, settled, hRead, hLimited, hSettled, ?_, ?_,
    (hFlows _).mpr ⟨rfl, hFound, 1, 0, hFirst⟩, hFirst,
    ((hPlaces _ _ _ _ hLast).mpr ⟨rfl, hPlain⟩).2⟩
  · rw [hBound, hSecond]
    rfl
  · rw [hBound, hThird]
    rfl

/-- `def g(a, b): a()` -/
def skippedDefinition : Tree :=
  .functionWithAt 3 "g" ["a", "b"] [.statementAt 4 (.callAt 4 (.nameAt 4 "a"))]

/-- `g(1, h)` -/
def skippedCall : Tree :=
  .callWithAt 5 (.nameAt 5 "g")
    [.node .constant (some 5) [("value", .number 1)] [], .nameAt 5 "h"]

def skippedFiles : FileSystem :=
  { entries := [(["a.py"], .file { content := .ok (.moduleOf
    [.functionAt 1 "h" [.passAt 2], skippedDefinition, .statementAt 5 skippedCall]) })] }

/-- The first parameter is bound to the function that is passed in the second place, though the
argument in the first place is no name. -/
theorem first_parameter_bound_to_second_argument :
    skippedDefinition.positional[0]? = some "a" ∧
      (skippedCall.trees .args)[0]?.bind Block.argument? = none ∧
      ∃ read limited settled, (outlines skippedFiles {} ["a.py"]).result = .ok read ∧
        (limit {} (Graph.loaded read).1 (Graph.loaded read).2).result =
          .ok limited ∧
        (settle {} limited (Graph.loaded read).2
          (limited.nodesOf (Graph.loaded read).2)).result = .ok settled ∧
        (settled.node ⟨2⟩).signature = some (.ofTree skippedDefinition) ∧
        (settled.node ⟨1⟩).token = "h" ∧ settled.boundTo? ⟨2⟩ "a" = some (.node ⟨1⟩) := by
  have hTest : (outlines skippedFiles {} ["a.py"]).result.toOption.any (fun read =>
      (limit {} (Graph.loaded read).1 (Graph.loaded read).2).result.toOption.any fun limited =>
      let nodes := limited.nodesOf (Graph.loaded read).2
      (settle {} limited (Graph.loaded read).2 nodes).result.toOption.any fun settled =>
      decide ((settled.node ⟨2⟩).signature = some (.ofTree skippedDefinition) ∧
        (settled.node ⟨1⟩).token = "h" ∧
        limited.lastFlow? nodes ⟨2⟩ "a" = some ⟨⟨2⟩, "a", "h", ⟨1⟩⟩)) = true := by decide +kernel
  obtain ⟨read, hRead, hTest⟩ := exists_ok_of_any hTest
  obtain ⟨limited, hLimited, hTest⟩ := exists_ok_of_any hTest
  obtain ⟨settled, hSettled, hTest⟩ := exists_ok_of_any hTest
  obtain ⟨hSignature, hToken, hLast⟩ := of_decide_eq_true hTest
  obtain ⟨_, _, hBound⟩ := boundTo?_of_settle hRead hLimited rfl hSettled
  refine ⟨rfl, rfl, read, limited, settled, hRead, hLimited, hSettled, hSignature, hToken, ?_⟩
  rw [hBound, hLast]
  rfl

end CallMap

end CallGraph
