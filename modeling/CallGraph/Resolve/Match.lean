import CallGraph.Resolve.Query

/-!
# Matching a call against a binding

A plain call matches a binding of its own token to a function, or to a class that has a
constructor. A call on something matches a binding of the owner to a group that has, or inherits, a
node with the token of the call; it also matches a binding of the owner to one of the names that
stand for something unknown.
-/

namespace CallGraph

/-- What a call matches. -/
inductive Match
  | node (node : NodeId)
  | marker (name : String)
  deriving DecidableEq, Repr, Inhabited

namespace Graph

/-- The first node of a list with a token. -/
def withToken? (graph : Graph) (token : String) (nodes : List NodeId) : Option NodeId :=
  nodes.find? fun node => decide ((graph.node node).token = token)

/-- The node that a group has or inherits under a token. -/
def memberOf? (graph : Graph) (token : String) (group : GroupId) : Option NodeId :=
  graph.withToken? token ((graph.group group).nodes ++ (graph.group group).inherited.flatten)

/-- A name that stands for something unknown. -/
def markerOf (target : Target) : Except Fault (Option Match) :=
  match target with
  | .name name =>
      .ok (if name = unknownOwner || name = unknownModule then some (.marker name) else none)
  | .table _ => .error (.notHashable "dict")
  | .value value => if value.isHashable then .ok none else .error (.notHashable value.typeName)
  | _ => .ok none

/-- The first node of a list with a token that stands in the class of the given path. -/
def inClass (graph : Graph) (path token : String) : List NodeId → Except Fault (Option NodeId)
  | [] => .ok none
  | node :: rest => do
      if (← graph.classPath node) = path && (graph.node node).token = token then
        return some node
      else inClass graph path token rest

/-- What `package.class.token()` matches in a package bound to the first part. -/
def inPackage (graph : Graph) (call : Call) (owner : String) (binding : Binding) :
    Except Fault (Option Match) :=
  match binding.target with
  | .group group =>
      if (graph.group group).kind = .package then
        match Dotted.parts owner with
        | [package, path] =>
            if package = binding.token then do
              return (← graph.inClass path call.token (graph.allNodes group)).map .node
            else .ok none
        | _ => .ok none
      else .ok none
  | _ => .ok none

/-- What a call matches in a binding. -/
def matchBinding (graph : Graph) (call : Call) (binding : Binding) :
    Except Fault (Option Match) :=
  match call.owner with
  | some owner =>
      if owner = binding.token || call.isLibrary then
        match binding.target with
        | .group group =>
            match graph.memberOf? call.token group with
            | some node => .ok (some (.node node))
            | none => graph.inPackage call owner binding
        | target => markerOf target
      else graph.inPackage call owner binding
  | none =>
      if call.token = binding.token then
        match binding.target with
        | .node node => .ok (some (.node node))
        | .group group => .ok ((graph.constructor? group).map .node)
        | _ => .ok none
      else .ok none

end Graph

end CallGraph
