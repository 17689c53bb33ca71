import CallGraph.Proofs.Answering

/-!
# Linking starts from a clear graph

Outlines of legal trees say where everything stands and what it is called. This module follows that
through loading, limiting and settling, and through the making of library nodes: every package has
a name, and every call that names a library finds its node. So the state in which linking starts is
able to answer, and every call that comes up is a fair one.

## Main definitions

* `CallMap.Options.isWellTyped` — the names to be left out are texts.
* `Libraries.Proper` — packages have names, and nodes have tokens without dots.

## Main results

* `prepare_isOk` — nothing in front of linking fails.
* `able_of_prepare` — linking starts from a state in which calls are fair.
-/

namespace CallGraph

open Chart (isLibraryGroup)
open CallGraph.Graph

/-! ## What is loaded -/

theorem clear_bindingOf {binding : Local} (h : binding.Clear) : (bindingOf binding).Clear where
  line := h.line
  settleable := (fromSource_bindingOf binding).2
  plain call hCall := by
    refine h.plain call ?_
    unfold bindingOf at hCall
    cases hSource : binding.source with
    | call other =>
        rw [hSource] at hCall
        cases hCall
        rfl
    | _ =>
        rw [hSource] at hCall
        cases hCall

/-- What is known of every node that is loaded from a clear outline. -/
structure Node.Clear (node : Node) : Prop where
  bindings : ∀ bindings, node.bindings = some bindings → ∀ b ∈ bindings, b.Clear
  calls : ∀ call ∈ node.calls, call.Plain
  token_ne : node.token ≠ ""
  line : node.line.isSome
  function_line : node.signature.isSome → isSetLine node.line = true

/-- What loading makes of clear outlines. -/
def clearProperties : Properties where
  node := Node.Clear
  group group := group.kind = .classBody → group.token ≠ "" ∧ group.line.isSome
  node_serial _ h := { h with }
  group_contents _ _ _ _ _ h := h

theorem clear_map_bindingOf {locals : List Local} (h : ∀ binding ∈ locals, binding.Clear) :
    ∀ b ∈ locals.map bindingOf, b.Clear := by
  intro b hb
  obtain ⟨binding, hBinding, rfl⟩ := List.mem_map.mp hb
  exact clear_bindingOf (h binding hBinding)

theorem clear_functionNode {f : FunctionOutline} (h : f.Clear) (inClass : Bool) (g : GroupId)
    (token : String) : (functionNode inClass g token f).Clear where
  bindings bindings hBindings b hb := by
    cases hBindings
    split at hb
    · rcases List.mem_append.mp hb with hb | hb
      · exact clear_map_bindingOf h.locals b hb
      · rw [List.mem_singleton.mp hb]
        exact ⟨h.bodyLine, nofun, nofun⟩
    · exact clear_map_bindingOf h.locals b hb
  calls := h.calls
  token_ne := h.token_ne
  line := isSome_of_isSetLine h.line
  function_line _ := h.line

theorem clear_rootNode {file : FileOutline} (h : file.Clear) (g : GroupId) :
    (rootNode g file).Clear where
  bindings bindings hBindings := by
    cases hBindings
    exact clear_map_bindingOf h.locals
  calls := h.calls
  token_ne := by simp [rootNode]
  line := rfl
  function_line := nofun

theorem clearProperties_ofFile {file : FileOutline} (h : file.Clear) :
    clearProperties.OfFile file where
  group := nofun
  root g := clear_rootNode h g
  functions f hf g token := clear_functionNode (h.functions f hf) false g token
  classes c hc := ClassOutline.Every.imp (fun _ hf g token => clear_functionNode hf true g token)
    (fun _ hNamed _ _ => hNamed) c (h.classes c hc)
  imports i hi _ _ := ⟨nofun, by simp [importNode], (h.imports i hi).1, (h.imports i hi).2, nofun⟩

/-- What was loaded from clear outlines. -/
theorem loading_clear {outlines : List FileOutline} (h : ∀ file ∈ outlines, file.Clear) :
    Loading clearProperties (Graph.loaded outlines).1 (Graph.loaded outlines).2 :=
  loading_loaded fun file hFile => clearProperties_ofFile (h file hFile)

namespace CallMap

/-! ## What is settled -/

theorem rebindable_clear {graph : Graph} (h : ∀ n, graph.Listed n → (graph.node n).line.isSome) :
    graph.Rebindable Binding.Clear where
  node hb _ := ⟨hb.line, nofun, nofun⟩
  group hb := ⟨hb.line, nofun, nofun⟩
  unknown hb := ⟨hb.line, nofun, nofun⟩
  inherited hn := ⟨h _ hn, nofun, nofun⟩

variable {options : Options} {outlines : List FileOutline} {ns : List NodeId} {settled : Graph}
variable {prepared : Prepared}

/-- What is settled is clear. -/
theorem Prepares.clear (h : Prepares options outlines ns settled prepared)
    (hOutlines : ∀ file ∈ outlines, file.Clear) : settled.Clear := by
  have hSource := loading_insertFiles outlines
  have hLoaded := loading_clear hOutlines
  obtain ⟨hRebinds, hReady⟩ := h.ready
  have hSettles := h.settles
  generalize Graph.loaded outlines = loaded at *
  have hShrinks := shrinks_removeNodes loaded.1 ns
  have hNode : ∀ n : NodeId, n.index < settled.nodes.size → (loaded.1.node n).Clear := by
    intro n hn
    rw [hRebinds.nodes_size, hShrinks.nodes_eq] at hn
    exact hLoaded.node_want n hn
  have hBound : (loaded.1.removeNodes ns).Bound Binding.Clear := by
    intro n bindings hBindings
    rw [hShrinks.node_eq] at hBindings
    exact (hLoaded.node_want n (loaded.1.node_lt_of_bindings hBindings)).bindings bindings hBindings
  have hLines : ∀ n, (loaded.1.removeNodes ns).Listed n →
      ((loaded.1.removeNodes ns).node n).line.isSome := by
    intro n hn
    rw [hShrinks.node_eq]
    exact (hNode n (hReady.sound.lt_of_listed (hRebinds.listed.mpr hn))).line
  obtain ⟨_, hBound', _⟩ := rebinds_of_settle (rebindable_clear hLines) hBound
    (inherits_removeNodes hSource ns _) (fun n hn => listed_of_mem_nodesOf hn) hSettles
  refine ⟨hBound', fun n call hCall => ?_, fun {g s} _ hs => ?_, fun {g n} _ hn => Or.inl ?_,
    fun n hn => ?_⟩
  · rcases Nat.lt_or_ge n.index settled.nodes.size with hLt | hGe
    · rw [node_field_settled hRebinds Node.calls] at hCall
      exact (hNode n hLt).calls call hCall
    · rw [settled.node_eq_default hGe] at hCall
      exact absurd hCall List.not_mem_nil
  · have hLt := hReady.sound.subgroup_lt hs
    rw [hRebinds.subgroups_of_group] at hs
    have hKind := hLoaded.inner_class (hShrinks.mem_subgroups hs)
    rw [hRebinds.groups_size, hShrinks.size_eq] at hLt
    rw [group_field_settled hRebinds Group.token, group_field_settled hRebinds Group.line]
    exact hLoaded.group_want s hLt hKind
  · rw [node_field_settled hRebinds Node.token, node_field_settled hRebinds Node.line]
    have hClear := hNode n (hReady.sound.listed_lt hn)
    exact ⟨hReady.invented n ⟨g, hn⟩, hClear.token_ne, hClear.line⟩
  · rcases Nat.lt_or_ge n.index settled.nodes.size with hLt | hGe
    · rw [node_field_settled hRebinds Node.signature] at hn
      rw [node_field_settled hRebinds Node.line]
      exact (hNode n hLt).function_line hn
    · rw [settled.node_eq_default hGe] at hn
      exact absurd hn Bool.false_ne_true

/-! ## Nothing in front of linking fails -/

/-- Whether a value is a text. -/
def isText : Value → Bool
  | .text _ => true
  | _ => false

/-- The names to be left out, and those to be kept, are texts. -/
def Options.isWellTyped (options : Options) : Bool :=
  options.excludeNamespaces.all isText && options.excludeFunctions.all isText
    && options.onlyNamespaces.all isText && options.onlyFunctions.all isText

theorem warnings_isOk {kind : String} {met : List String} {names : List Value}
    (h : names.all isText = true) : (Limits.warnings kind met names).2 = .ok () := by
  induction names with
  | nil => rfl
  | cons name rest ih =>
      rw [List.all_cons, Bool.and_eq_true] at h
      cases name with
      | text text =>
          rw [Limits.warnings, if_pos (show (Value.text text).isHashable = true from rfl)]
          dsimp only
          split <;> exact ih h.2
      | _ => exact absurd h.1 Bool.false_ne_true

theorem limit_isOk (h : options.isWellTyped = true) (graph : Graph) (files : List GroupId) :
    ∃ limited, (limit options graph files).result = .ok limited := by
  simp only [Options.isWellTyped, Bool.and_eq_true] at h
  obtain ⟨⟨⟨hNamespaces, hFunctions⟩, _⟩, _⟩ := h
  have hFirst : ∃ limited, (limitNamespaces options graph files).result = .ok limited := by
    unfold limitNamespaces
    split
    · exact ⟨_, rfl⟩
    · simp only [Reported.result_bind, Reported.result_report, Reported.result_log,
        Reported.result_liftM, Limits.namespaceWarnings, warnings_isOk hNamespaces]
      exact ⟨_, rfl⟩
  obtain ⟨middle, hMiddle⟩ := hFirst
  rw [limit, Reported.result_bind, hMiddle]
  change ∃ limited, (limitFunctions options middle files).result = .ok limited
  unfold limitFunctions
  split
  · exact ⟨_, rfl⟩
  · simp only [Reported.result_bind, Reported.result_log, Reported.result_liftM,
      Limits.functionWarnings, warnings_isOk hFunctions]
    exact ⟨_, rfl⟩

/-- What was loaded can be settled, whatever the outlines say. -/
theorem settle_loaded_isOk (outlines : List FileOutline) (ns : List NodeId)
    (files : List GroupId) (nodes : List NodeId) :
    ∃ settled, (settle options ((Graph.loaded outlines).1.removeNodes ns) files
      nodes).result = .ok settled := by
  have hLoaded := loading_insertFiles outlines
  generalize Graph.loaded outlines = loaded at *
  have hBound : (loaded.1.removeNodes ns).Bound Binding.Settleable := by
    intro n bindings hBindings b hb
    rw [(shrinks_removeNodes loaded.1 ns).node_eq] at hBindings
    exact (bound_fromSource hLoaded n bindings hBindings b hb).2
  have hInherited : (if options.heuristics then (loaded.1.removeNodes ns).inherit files
      else loaded.1.removeNodes ns).Bound Binding.Settleable := by
    split
    · exact (inherit_spec (rebindable_settleable _) hBound (inherits_removeNodes hLoaded ns _)
        files).2.1
    · exact hBound
  obtain ⟨settled, hSettled⟩ := settle_isOk hInherited files nodes
  rw [result_settle, hSettled]
  exact ⟨_, rfl⟩

/-- Nothing in front of linking fails. -/
theorem prepare_isOk (h : options.isWellTyped = true) (outlines : List FileOutline) :
    ∃ prepared, (prepare options outlines).result = .ok prepared := by
  obtain ⟨limited, hLimited⟩ := limit_isOk h (Graph.loaded outlines).1 (Graph.loaded outlines).2
  obtain ⟨ns, hEq⟩ := removeNodes_of_limit hLimited
  obtain ⟨settled, hSettled⟩ := @settle_loaded_isOk options outlines ns
    (Graph.loaded outlines).2 (limited.nodesOf (Graph.loaded outlines).2)
  rw [← hEq] at hSettled
  simp only [prepare, Reported.result_bind, Reported.result_log, startLinking, hLimited]
  dsimp only [bind, Except.bind]
  rw [hSettled]
  exact ⟨_, rfl⟩

end CallMap

/-! ## Library nodes -/

namespace Libraries

/-- Packages have names, and the tokens of library nodes have no dots. -/
structure Proper (libraries : Libraries) (graph : Graph) : Prop where
  package_ne : ∀ p ∈ libraries.packages, p.1 ≠ ""
  token_plain : ∀ e ∈ libraries.nodes, Dotted.isDotted (graph.node e.2).token = false

variable {libraries : Libraries} {graph : Graph} {roots : List GroupId}

/-- A node is entered under its signature, behind all others. -/
theorem nodes_of_addNode (graph : Graph) (libraries : Libraries) (package signature : String)
    (call : Call) :
    (addNode graph libraries package signature call).2.1.nodes =
      libraries.nodes ++ [(signature, ⟨graph.nodes.size⟩)] := by
  unfold addNode
  dsimp only
  rw [nodes_of_ensurePackage, index_insertNode, nodes_ensurePackage]

theorem Proper.addNode (h : libraries.Proper graph) (hStocked : libraries.Stocked graph roots)
    {package signature : String} {call : Call} (hPackage : package ≠ "")
    (hToken : Dotted.isDotted call.token = false)
    (hSignature : ∃ owner, signature = Dotted.join [owner, call.token]) :
    (Libraries.addNode graph libraries package signature call).2.1.Proper
      (Libraries.addNode graph libraries package signature call).1 := by
  obtain ⟨extra, hStocks, _⟩ := stocks_addNode hStocked package hSignature
  refine ⟨fun p hp => ?_, fun e he => ?_⟩
  · rcases mem_packages_ensurePackage graph libraries package p hp with hOld | hNew
    · exact h.package_ne p hOld
    · rw [hNew]
      exact hPackage
  · rw [nodes_of_addNode] at he
    rcases List.mem_append.mp he with he | he
    · rw [hStocks.node_eq e.2 (hStocked.sound.lt_of_listed (hStocked.node_listed e he))]
      exact h.token_plain e he
    · have hNode : ((Libraries.addNode graph libraries package signature call).1.node
          ⟨graph.nodes.size⟩).token = call.token := by
        unfold Libraries.addNode
        dsimp only
        rw [node_insertNode, if_pos (by rw [nodes_ensurePackage])]
        rfl
      rw [List.mem_singleton.mp he, hNode]
      exact hToken

/-- What is known of the package and the token of a library call. -/
theorem named_of_signature? {call : Call} (h : call.Plain) {signature package : String}
    (hSignature : signature? call = some (signature, package)) :
    package ≠ "" ∧ Dotted.isDotted call.token = false := by
  obtain ⟨owner, hOwner, hEq⟩ := Option.map_eq_some_iff.mp hSignature
  cases hEq
  unfold Query.libraryOwner? at hOwner
  split at hOwner
  · obtain ⟨hOwner, _⟩ := Option.filter_eq_some_iff.mp hOwner
    exact h.named owner hOwner
  · exact absurd hOwner (by simp)

/-- What is known of the package and the token of a call on a library object. -/
theorem named_of_instanceSignature? (hBound : graph.Bound Binding.Clear) {nodes : List NodeId}
    {call : Call} (h : call.Plain) {signature package : String}
    (hSignature : instanceSignature? graph nodes call = some (signature, package)) :
    package ≠ "" ∧ Dotted.isDotted call.token = false := by
  unfold instanceSignature? at hSignature
  obtain ⟨owner, hOwner, hSignature⟩ := Option.bind_eq_some_iff.mp hSignature
  obtain ⟨hOwner, _⟩ := Option.filter_eq_some_iff.mp hOwner
  split at hSignature
  · exact absurd hSignature (by simp)
  · obtain ⟨binding, hBinding, hSignature⟩ := Option.bind_eq_some_iff.mp hSignature
    obtain ⟨⟨made, maker⟩, hLibrary, hSignature⟩ := Option.bind_eq_some_iff.mp hSignature
    cases hSignature
    refine ⟨?_, (h.named owner hOwner).2⟩
    -- The object was made by a call that some body binds.
    obtain ⟨n, _, hBinding⟩ := List.exists_of_findSome?_eq_some hBinding
    have hMem := List.mem_of_find?_eq_some hBinding
    cases hBody : (graph.node n).bindings with
    | none =>
        rw [hBody] at hMem
        exact absurd hMem List.not_mem_nil
    | some bindings =>
        rw [hBody] at hMem
        have hClear := hBound n bindings hBody binding hMem
        unfold Query.libraryCall? at hLibrary
        split at hLibrary
        · rename_i other hTarget
          split at hLibrary
          · rename_i hMaker
            cases hLibrary
            exact ((hClear.plain _ hTarget).named _ hMaker).1
          · exact absurd hLibrary (by simp)
        · exact absurd hLibrary (by simp)

section Fills

variable {calls : List Call} {filled : Libraries} {after : Graph} {new : List NodeId}

theorem Fills.proper (h : Fills calls libraries graph filled after new)
    (hProper : libraries.Proper graph) (hStocked : libraries.Stocked graph roots)
    (hBound : graph.Bound Binding.Clear) (hCalls : ∀ call ∈ calls, call.Plain) :
    filled.Proper after := by
  induction h generalizing roots with
  | nothing => exact hProper
  | @node _ _ _ _ _ _ package _ hCall hSigns _ _ ih =>
      have hOwner := hSigns.parts.2
      have hNamed := hSigns.elim (fun hSignature => named_of_signature? (hCalls _ hCall) hSignature)
        fun hSignature =>
          named_of_instanceSignature? hBound (hCalls _ hCall) hSignature.choose_spec
      obtain ⟨extra, hStocks, _⟩ := stocks_addNode hStocked package hOwner
      exact ih (hProper.addNode hStocked hNamed.1 hNamed.2 hOwner) hStocks.stocked
        (hStocks.grows.bound hBound)

theorem Fills.mem_nodes (h : Fills calls libraries graph filled after new) {e : String × NodeId}
    (he : e ∈ libraries.nodes) : e ∈ filled.nodes := by
  induction h with
  | nothing => exact he
  | node _ _ _ _ ih => exact ih (by rw [nodes_of_addNode]; exact List.mem_append_left _ he)

end Fills

/-- Every signature that is called has a node. -/
theorem signature_mem_ofCalls {calls : List Call} {call : Call} (hCall : call ∈ calls)
    {signature package : String} (hSignature : signature? call = some (signature, package)) :
    ∃ n, (signature, n) ∈ (ofCalls graph libraries calls).2.1.nodes := by
  induction calls generalizing graph libraries with
  | nil => exact absurd hCall List.not_mem_nil
  | cons first rest ih =>
      rw [ofCalls]
      rcases List.mem_cons.mp hCall with rfl | hCall
      · rw [hSignature]
        dsimp only
        split
        · rename_i hSome
          obtain ⟨n, hn⟩ := Option.isSome_iff_exists.mp hSome
          exact ⟨n, (fills_ofCalls (List.Subset.refl _)).mem_nodes (mem_of_lookup hn)⟩
        · exact ⟨⟨graph.nodes.size⟩, (fills_ofCalls (List.Subset.refl _)).mem_nodes
            (by rw [nodes_of_addNode]; simp)⟩
      · split
        · exact ih hCall
        · split
          · exact ih hCall
          · exact ih hCall

end Libraries

namespace CallMap

variable {options : Options} {outlines : List FileOutline} {prepared : Prepared}

/-- Hanging packages leaves the nodes alone. -/
theorem nodes_hangAll (graph : Graph) (files : List GroupId)
    (packages : List (String × GroupId)) :
    (Libraries.hangAll graph files packages).1.nodes = graph.nodes := by
  induction packages generalizing graph files with
  | nil => rfl
  | cons package rest ih =>
      obtain ⟨name, package⟩ := package
      unfold Libraries.hangAll
      split
      · exact ih _ _
      · split <;> exact ih _ _

theorem proper_startWith {graph : Graph} {libraries : Libraries} (h : libraries.Proper graph)
    (files : List GroupId) (nodes : List NodeId) :
    (startWith graph files libraries nodes).libraries.Proper
      (startWith graph files libraries nodes).graph := by
  refine ⟨h.package_ne, fun e he => ?_⟩
  have hNode : (startWith graph files libraries nodes).graph.node e.2 = graph.node e.2 := by
    unfold startWith
    dsimp only
    rw [node_addGroup, Graph.node, nodes_hangAll]
    rfl
  rw [hNode]
  exact h.token_plain e he

/-- Library calls of nodes that linking starts with find their nodes. -/
theorem supplies_start {start : Linking} (hValid : start.Valid [] [])
    (hProper : start.libraries.Proper start.graph) {call : Call} (hPlain : call.Plain)
    (hNode : ∀ {signature package}, Libraries.signature? call = some (signature, package) →
      ∃ n, (signature, n) ∈ start.libraries.nodes) :
    start.graph.Supplies start.nodes call := by
  intro owner hOwner
  have hSignature : Libraries.signature? call =
      some (Dotted.join [owner, call.token], Dotted.first owner) := by
    rw [Libraries.signature?, hOwner]
    rfl
  obtain ⟨n, hn⟩ := hNode hSignature
  have hToken := (Libraries.named_of_signature? hPlain hSignature).2
  obtain ⟨hImport, owner', hEq⟩ := hValid.stocked.node_signature _ hn
  refine ⟨n, ?_, ?_, hImport⟩
  · exact hValid.mem_of_library (hValid.stocked.node_listed _ hn)
      (hValid.stocked.node_library _ hn)
  · exact (Dotted.token_of_join_eq hToken (hProper.token_plain _ hn) hEq).symm

/-- Linking starts from a state in which calls are fair. -/
theorem able_of_prepare (hOutlines : ∀ file ∈ outlines, file.Clear)
    (h : (prepare options outlines).result = .ok prepared) : prepared.start.Able := by
  obtain ⟨ns, settled, hPrepares⟩ := exists_of_prepare h
  have hClear := hPrepares.clear hOutlines
  have hReady := hPrepares.ready.2
  obtain ⟨direct, hStarted, _⟩ := hPrepares.started
  have hStart := hPrepares.starts
  generalize Graph.loaded outlines = loaded at *
  simp only [startLinking, Reported.result_bind, Reported.result_log] at hStart
  obtain ⟨imports, start⟩ := prepared
  cases hStart
  have hCalls : ∀ call ∈ callsOf settled (settled.nodesOf loaded.2), call.Plain := by
    intro call hCall
    obtain ⟨n, _, hCall⟩ := List.mem_flatMap.mp hCall
    exact hClear.calls n call hCall
  have hProper := (fills_passes settled (settled.nodesOf loaded.2)
    (callsOf settled (settled.nodesOf loaded.2))).proper ⟨by simp, by simp⟩ hReady.stocked
    hClear.bound hCalls
  have hStartProper := proper_startWith hProper loaded.2 (settled.nodesOf loaded.2 ++
    (Libraries.ofCalls settled {} (callsOf settled (settled.nodesOf loaded.2))).2.2)
  refine ⟨hStarted.valid, hClear.of_grows hReady.sound hStarted.grows hStarted.valid.stocked
    hStartProper.package_ne, hStartProper.package_ne, fun n hn call hCall => ?_⟩
  rw [hStarted.grows.calls_eq] at hCall
  obtain ⟨all, hNodes, hDirectAll, _, hNew⟩ := hStarted.nodes_eq
  have hMem : n ∈ settled.nodesOf loaded.2 := by
    rw [hNodes] at hn
    by_contra hNot
    -- Library nodes call nothing.
    have hAll : n ∈ all := by
      rcases List.mem_append.mp hn with hn | hn
      · exact hDirectAll n ((List.mem_append.mp hn).resolve_left hNot)
      · exact hn
    rw [settled.node_eq_default (hNew n hAll)] at hCall
    exact absurd hCall List.not_mem_nil
  have hCall : call ∈ callsOf settled (settled.nodesOf loaded.2) :=
    List.mem_flatMap.mpr ⟨n, hMem, hCall⟩
  refine supplies_start hStarted.valid hStartProper (hCalls call hCall) fun hSignature => ?_
  obtain ⟨m, hm⟩ := Libraries.signature_mem_ofCalls hCall hSignature
  exact ⟨m, (Libraries.fills_ofInstances _ (List.Subset.refl _)).mem_nodes hm⟩

end CallMap

end CallGraph
