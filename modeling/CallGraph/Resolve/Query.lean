import CallGraph.Graph.Visible

/-!
# Asking where a call goes

Resolving a call is asked with the graph, the node that makes the call, the nodes among which the
target is looked for, and whether rules that guess are in use. The answer may be a node, several
nodes none of which is preferred, a node that has to be created first, or nothing.
-/

namespace CallGraph

/-- A call to be resolved. -/
structure Query where
  graph : Graph
  /-- Whether the rules that guess are in use. -/
  heuristics : Bool
  caller : NodeId
  /-- The nodes among which the target is looked for, in order. -/
  candidates : List NodeId
  call : Call

/-- A detour through which a target was found. -/
inductive Via
  /-- A call on the base class. -/
  | super
  /-- A call of what a function returned. -/
  | factory
  deriving DecidableEq, Repr, Inhabited

/-- Where a call goes. -/
inductive Outcome
  /-- To a node of the graph. -/
  | found (node : NodeId) (via : Option Via)
  /-- To a node that is to be added to the graph. -/
  | create (node : Node) (via : Option Via)
  /-- To a name that stands for something unknown. -/
  | marker (name : String)
  /-- To one of several nodes; the nodes passed over, each with the rule that ruled it out. -/
  | ambiguous (possible : List NodeId) (impossible : List (NodeId × Nat))
  /-- Nowhere. -/
  | unresolved
  deriving Inhabited

namespace Outcome

/-- The detour of an outcome. -/
def via? : Outcome → Option Via
  | .found _ via => via
  | .create _ via => via
  | _ => none

/-- Whether the call is ambiguous. -/
def isAmbiguous : Outcome → Bool
  | .ambiguous _ _ => true
  | _ => false

/-- The outcome for nodes none of which is preferred, if there are any. -/
def ofPossible? (via : Option Via) : List NodeId → Option Outcome
  | [] => none
  | [node] => some (.found node via)
  | nodes => some (.ambiguous nodes [])

end Outcome

namespace Query

/-- The class that the caller is a method of. -/
def callerClass? (query : Query) : Option GroupId :=
  (query.graph.parentGroup? query.caller).filter fun group =>
    decide ((query.graph.group group).kind = .classBody)

/-- The nodes of a list that have the token of the call. -/
def sameToken (query : Query) (nodes : List NodeId) : List NodeId :=
  nodes.filter fun node => decide ((query.graph.node node).token = query.call.token)

/-- The inherited methods of a class that have the token of the call. -/
def inheritedNamesakes (query : Query) (group : GroupId) : List NodeId :=
  query.sameToken (query.graph.group group).inherited.flatten

/-- A constructor that a class does not spell out. -/
def implicitConstructor (group : GroupId) : Node :=
  { token := "__init__", parent := .group group, isConstructor := true, isImplicit := true }

/-- The constructor of a class, to be added if the class does not spell one out. -/
def constructorOf (query : Query) (group : GroupId) : Outcome :=
  match query.graph.constructor? group with
  | some node => .found node none
  | none => .create (implicitConstructor group) none

end Query

end CallGraph
