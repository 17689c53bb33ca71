import CallGraph.Analysis.Library
import CallGraph.Resolve.Trace

/-!
# Linking calls

Every call of every node becomes one edge. All calls of a node are resolved first, one after the
other; a node created on the way is a candidate for the later calls of the same node. Then the edges
are drawn. A call that was not resolved goes to a library node if every program can call its
token, and else to a placeholder; calls that read the same share one placeholder.

The nodes whose calls are linked are those there are at the start; nodes made on the way have no
calls of their own.

## Main definitions

* `Linking.link` — one node.
* `Linking.linkAll` — all of them.
-/

namespace CallGraph

/-- A call with where it goes. -/
structure Link where
  call : Call
  outcome : Outcome
  /-- The node it goes to, if it was resolved. -/
  target : Option NodeId
  deriving Inhabited

/-- What linking has come to. -/
structure Linking where
  graph : Graph
  files : List GroupId
  /-- All nodes, in order; a node may be listed twice. -/
  nodes : List NodeId
  libraries : Libraries
  /-- The group of the placeholders. -/
  missingGroup : GroupId
  /-- The placeholders by the text of the call. -/
  missing : List (String × NodeId)
  edges : List Edge
  /-- The calls that could go to several nodes. -/
  ambiguous : List Call
  deriving Inhabited

/-- What linking depends on besides the graph. -/
structure LinkOptions where
  heuristics : Bool
  /-- Whether edges are labelled with the name through which the target was reached. -/
  aliasLabels : Bool
  deriving DecidableEq, Repr, Inhabited

namespace Linking

/-! ## Resolving the calls of one node -/

/-- Resolves calls one after the other. -/
def resolveCalls (heuristics : Bool) (caller : NodeId) (graph : Graph)
    (candidates : List NodeId) : List Call → Except Fault (Graph × List Link)
  | [] => .ok (graph, [])
  | call :: rest => do
      let outcome ← Query.resolve ⟨graph, heuristics, caller, candidates, call⟩
      let answer := outcome.apply graph candidates
      let others ← resolveCalls heuristics caller answer.graph answer.candidates rest
      return (others.1, ⟨call, outcome, answer.target⟩ :: others.2)

/-- What is asked when calls are resolved one after the other, up to the first that fails. -/
def asked (heuristics : Bool) (caller : NodeId) (graph : Graph) (candidates : List NodeId) :
    List Call → List Query
  | [] => []
  | call :: rest =>
      let query : Query := ⟨graph, heuristics, caller, candidates, call⟩
      query ::
        match query.resolve with
        | .error _ => []
        | .ok outcome =>
            let answer := outcome.apply graph candidates
            asked heuristics caller answer.graph answer.candidates rest

/-! ## Labels -/

/-- Whether a binding stands for a node, or for a group that contains it. -/
def standsFor (graph : Graph) (node : NodeId) : Target → Bool
  | .node other => other == node
  | .group group => (graph.allNodes group).contains node
  | _ => false

/-- The name through which a call reaches its target, if a visible binding of it leads there. -/
def aliasLabel? (graph : Graph) (caller target : NodeId) (call : Call) : Option String :=
  match graph.visible caller call.line with
  | .error _ => none
  | .ok bindings =>
      let name := call.owner.getD call.token
      if bindings.any fun binding =>
          decide (binding.token = name) && standsFor graph target binding.target then
        match call.owner with
        | some owner => some ("as " ++ owner ++ "." ++ call.token ++ "()")
        | none => some ("as " ++ call.token ++ "()")
      else none

/-- Puts a remark behind a label; alone it stands without brackets. -/
def remark (text : String) : Option String → String
  | some label => label ++ " (" ++ text ++ ")"
  | none => text

/-- The label of an edge: the alias, the detour and the table entry through which it was found. -/
def edgeLabel (options : LinkOptions) (graph : Graph) (caller target : NodeId) (link : Link) :
    Option Literal :=
  let viaSuper := decide (link.outcome.via? = some .super)
  let viaFactory := decide (link.outcome.via? = some .factory)
  let plain := if viaSuper then some "via super" else none
  let aliased :=
    if options.aliasLabels then (aliasLabel? graph caller target link.call).or plain else plain
  let superNoted := if viaSuper then some (remark "via super" aliased) else aliased
  let factoryNoted := if viaFactory then some (remark "via factory" superNoted) else superNoted
  match link.call.tableEntry with
  | none => factoryNoted.map Literal.ofText
  | some (table, key) =>
      let entry : Literal := Literal.ofText ("as " ++ table ++ "['") ++ key ++ Literal.ofText "']()"
      some (match factoryNoted with
        | some label => Literal.ofText (label ++ " ") ++ entry
        | none => entry)

/-! ## Targets for calls that were not resolved -/

/-- The library node for a call that every program can make. -/
def builtinTarget (state : Linking) (call : Call) : Linking × NodeId :=
  let signature := Dotted.join [builtinModule, call.token]
  let found := Libraries.ensurePackage state.graph state.libraries builtinModule
  let state := { state with graph := found.1, libraries := found.2.1 }
  match state.libraries.node? signature with
  | some node => (state, node)
  | none =>
      let added := Libraries.addNode state.graph state.libraries builtinModule signature call
      ({ state with graph := added.1, libraries := added.2.1, nodes := state.nodes ++ [added.2.2] },
        added.2.2)

/-- Hangs the package of the names that every program can call into a file of its own. -/
def hangBuiltins (state : Linking) : Linking :=
  match state.libraries.package? builtinModule with
  | none => state
  | some package =>
      if state.files.isEmpty || (state.graph.group package).parent.isSome then state
      else
        match state.files.find? fun file =>
            decide ((state.graph.group file).token = builtinModule
              ∧ (state.graph.group file).kind = .file) with
        | some file => { state with graph := Libraries.hang state.graph file package }
        | none =>
            let added := state.graph.addGroup Libraries.builtinFile
            { state with
              graph := Libraries.hang added.1 added.2 package
              files := state.files ++ [added.2] }

/-- A node that stands for calls whose target was not found. -/
def placeholder (group : GroupId) (token : String) : Node :=
  { token := token, parent := .group group, isMissing := true }

/-- The placeholder for a call whose target was not found. -/
def missingTarget (state : Linking) (call : Call) : Linking × NodeId :=
  match state.missing.lookup call.text with
  | some node => (state, node)
  | none =>
      let added := state.graph.insertNode (placeholder state.missingGroup call.token)
      ({ state with
          graph := added.1
          nodes := state.nodes ++ [added.2]
          missing := state.missing ++ [(call.text, added.2)] },
        added.2)

/-- The target of a call that was not resolved. -/
def fallback (state : Linking) (call : Call) : Linking × NodeId :=
  if call.owner.isNone && isBuiltin call.token then
    let found := state.builtinTarget call
    (hangBuiltins found.1, found.2)
  else state.missingTarget call

/-! ## Edges -/

/-- Notes the call of a link if it could go to several nodes. -/
def note (state : Linking) (link : Link) : Linking :=
  if link.outcome.isAmbiguous then { state with ambiguous := state.ambiguous ++ [link.call] }
  else state

/-- The node that a link goes to. -/
def targetOf (state : Linking) (link : Link) : Linking × NodeId :=
  match link.target with
  | some node => (state, node)
  | none => state.fallback link.call

/-- Draws an edge. -/
def draw (state : Linking) (edge : Edge) : Linking :=
  { state with graph := state.graph.markEdge edge, edges := state.edges ++ [edge] }

/-- Draws the edge of a link. -/
def connect (options : LinkOptions) (caller : NodeId) (state : Linking) (link : Link) :
    Except Fault Linking :=
  match link.outcome with
  | .marker _ => .error (.textLacks "is_trunk")
  | _ =>
      let (state, target) := (state.note link).targetOf link
      .ok (state.draw
        { source := caller, target := target,
          label := edgeLabel options state.graph caller target link })

/-- Draws the edges of several links. -/
def connectAll (options : LinkOptions) (caller : NodeId) (state : Linking) :
    List Link → Except Fault Linking
  | [] => .ok state
  | link :: rest => do connectAll options caller (← state.connect options caller link) rest

/-- The nodes among which the targets of the calls of a node are looked for. -/
def candidates (state : Linking) (imports : List NodeId) : List NodeId :=
  state.nodes ++ imports

/-- Links the calls of one node. -/
def link (options : LinkOptions) (imports : List NodeId) (state : Linking) (caller : NodeId) :
    Except Fault Linking := do
  let resolved ← resolveCalls options.heuristics caller state.graph (state.candidates imports)
    (state.graph.node caller).calls
  connectAll options caller { state with graph := resolved.1 } resolved.2

/-- Links the calls of several nodes. -/
def linkAll (options : LinkOptions) (imports : List NodeId) (state : Linking) :
    List NodeId → Except Fault Linking
  | [] => .ok state
  | caller :: rest => do linkAll options imports (← state.link options imports caller) rest

/-- What is asked when several nodes are linked, up to the first fault. -/
def askedAll (options : LinkOptions) (imports : List NodeId) (state : Linking) :
    List NodeId → List Query
  | [] => []
  | caller :: rest =>
      asked options.heuristics caller state.graph (state.candidates imports)
          (state.graph.node caller).calls ++
        match state.link options imports caller with
        | .error _ => []
        | .ok next => askedAll options imports next rest

/-- Lists the group of the placeholders with the files if it has any. -/
def withMissing (state : Linking) : Linking :=
  if (state.graph.group state.missingGroup).nodes.isEmpty then state
  else { state with files := state.files ++ [state.missingGroup] }

/-- The texts of the ambiguous calls, sorted, each once. -/
def ambiguousTexts (state : Linking) : List String :=
  sortTexts (distinct (state.ambiguous.map Call.text))

end Linking

end CallGraph
