import CallGraph.Resolve.Match

/-!
# Passing functions as arguments

A call may pass the name of a function to a function of a file. If the called function is the only
one of its name, the parameter that receives the name is bound to the function passed, so that
calling the parameter can be resolved.

The names passed are numbered as they are listed with the call, and the parameters as they are
declared.
-/

namespace CallGraph

/-- A function passed to a parameter. -/
structure ArgumentFlow where
  /-- The function that is called. -/
  callee : NodeId
  parameter : String
  /-- The name that is passed. -/
  argument : String
  /-- The function it names. -/
  passed : NodeId
  deriving DecidableEq, Repr, Inhabited

namespace Graph

/-- The only function of a file with a token. -/
def onlyFunction? (graph : Graph) (nodes : List NodeId) (token : String) : Option NodeId :=
  match nodes.filter fun node =>
      decide ((graph.node node).token = token)
        && (graph.parentGroup? node).any fun group =>
          decide ((graph.group group).kind = .file) with
  | [node] => some node
  | _ => none

/-- What a call passes. -/
def flowsOfCall (graph : Graph) (nodes : List NodeId) (call : Call) : List ArgumentFlow :=
  match graph.onlyFunction? nodes call.token with
  | none => []
  | some callee =>
      let parameters := ((graph.node callee).signature.getD {}).parameters
      (call.arguments.zip parameters).filterMap fun pair =>
        (graph.withToken? pair.1 nodes).map fun passed =>
          { callee := callee, parameter := pair.2, argument := pair.1, passed := passed }

/-- What all calls of some nodes pass, in order. -/
def flows (graph : Graph) (nodes : List NodeId) : List ArgumentFlow :=
  nodes.flatMap fun node => (graph.node node).calls.flatMap (graph.flowsOfCall nodes)

/-- Binds a token anew where it is bound first. -/
def rebindFirst (token : String) (target : Target) : List Binding → List Binding
  | [] => []
  | binding :: rest =>
      if binding.token = token then { binding with target := target } :: rest
      else binding :: rebindFirst token target rest

/-- Binds a parameter to the function passed to it. -/
def applyFlow (graph : Graph) (flow : ArgumentFlow) : Graph :=
  graph.modifyNode flow.callee fun entry =>
    { entry with bindings := entry.bindings.map (rebindFirst flow.parameter (.node flow.passed)) }

/-- Binds all parameters that functions are passed to. -/
def passArguments (graph : Graph) (nodes : List NodeId) : Graph :=
  (graph.flows nodes).foldl applyFlow graph

/-- Whether the parameter of a flow is bound in the function called. -/
def reaches (graph : Graph) (flow : ArgumentFlow) : Bool :=
  ((graph.node flow.callee).bindings.getD []).any fun binding =>
    decide (binding.token = flow.parameter)

/-- The log lines about functions passed. -/
def flowLines (graph : Graph) (nodes : List NodeId) : List String :=
  ((graph.flows nodes).filter graph.reaches).map fun flow =>
    "[arg-prop] Propagated arg " ++ flow.argument ++ " -> " ++ (graph.node flow.callee).token ++ "."
      ++ flow.parameter

end Graph

end CallGraph
