import CallGraph.Resolve.Library
import CallGraph.Resolve.Match

/-!
# Resolving a call

A call is resolved in stages; the first stage that answers decides.

1. A call on `super` goes to an inherited method (a rule that guesses).
2. A call on `self` goes to a method of the class, else to the constructor of a nested class, else
   to an inherited method (a rule that guesses).
3. A library call goes to the node with its signature.
4. A call on an unknown owner, in a method that also uses `super`, goes to an inherited method (a
   rule that guesses).
5. A call on a variable that holds a library object goes to the library.
6. The visible bindings are tried one after the other.
7. A call of what a function returned goes to what that function names or makes.
8. Nodes with the right token are looked for among all candidates.
9. A class of the right name is constructed.

Resolving changes nothing: a node that is to be created is part of the answer, and `Outcome.apply`
puts it into the graph.

## Main definitions

* `Query.resolve` — the answer.
* `Outcome.apply` — the graph and the candidates after an answer.
-/

namespace CallGraph

namespace Query

/-- Stage 1: inherited methods, for a call on `super`. -/
def viaSuper? (query : Query) : Option Outcome :=
  if query.heuristics && decide (query.call.owner = some "super") then
    query.callerClass?.bind fun group =>
      Outcome.ofPossible? (some .super) (query.inheritedNamesakes group)
  else none

/-- The class nested in a class that has the token of the call. -/
def nestedClass? (query : Query) (group : GroupId) : Option GroupId :=
  (query.graph.group group).subgroups.find? fun subgroup =>
    decide ((query.graph.group subgroup).token = query.call.token)

/-- Stage 2: the class of the caller, for a call on `self`. -/
def viaSelf? (query : Query) : Option Outcome :=
  if query.heuristics && decide (query.call.owner = some "self") then
    query.callerClass?.bind fun group =>
      match Outcome.ofPossible? none (query.sameToken (query.graph.group group).nodes) with
      | some outcome => some outcome
      | none =>
          match query.nestedClass? group with
          | some subgroup => some (query.constructorOf subgroup)
          | none => Outcome.ofPossible? none (query.inheritedNamesakes group)
  else none

/-- Whether the caller also calls `super`, or something on it. -/
def callerUsesSuper (query : Query) : Bool :=
  (query.graph.node query.caller).calls.any fun call =>
    decide (call.token = "super" ∨ call.owner = some "super")

/-- Stage 4: inherited methods, for a call on an unknown owner next to a use of `super`. -/
def viaUnknownOwner? (query : Query) : Option Outcome :=
  if query.heuristics
      && decide (query.call.owner = some unknownOwner ∨ query.call.owner = some "") then
    query.callerClass?.bind fun group =>
      if query.callerUsesSuper then
        Outcome.ofPossible? (some .super) (query.inheritedNamesakes group)
      else none
  else none

/-- Stage 5: the library of an object that a variable holds. -/
def viaInstance? (query : Query) (bindings : List Binding) : Option NodeId :=
  if query.call.namedOwner?.isSome then bindings.findSome? query.byInstance? else none

/-- Stage 6: the first visible binding that matches; a library node with the signature first. -/
def viaBindings? (query : Query) : List Binding → Except Fault (Option Outcome)
  | [] => .ok none
  | binding :: rest => do
      match ← query.graph.matchBinding query.call binding with
      | none => viaBindings? query rest
      | some result =>
          if result = .marker unknownModule then return some .unresolved
          match query.bySignature?, result with
          | some node, _ => return some (.found node none)
          | none, .node node => return some (.found node none)
          | none, .marker name => return some (.marker name)

/-- The function whose result is called: one of a file if there is one. -/
def factory? (query : Query) : Option NodeId :=
  match query.call.factory.filter (· ≠ "") with
  | none => none
  | some factory =>
      let named := query.candidates.filter fun node =>
        decide ((query.graph.node node).token = factory)
      (named.find? fun node =>
        (query.graph.parentGroup? node).any fun group =>
          decide ((query.graph.group group).kind = .file)).or named.head?

/-- The node of the anonymous function that a function returns. -/
def lambdaOf (factory : Node) : Node :=
  { token := factory.token ++ "::<lambda>", parent := factory.parent }

/-- Stage 7: what the called function names as its result, or the anonymous function it makes. -/
def viaFactory? (query : Query) : Option Outcome :=
  query.factory?.bind fun factory =>
    let node := query.graph.node factory
    let signature := node.signature.getD {}
    let named := signature.returns.findSome? fun token =>
      query.graph.withToken? token query.candidates
    match named with
    | some target => some (.found target (some .factory))
    | none =>
        if signature.returnsLambda then some (.create (lambdaOf node) (some .factory)) else none

/-- Whether a candidate may be the target of a call on something: it is not of the caller's file. -/
def isMemberTarget (query : Query) (top : Parent) (node : NodeId) : Bool :=
  decide ((query.graph.node node).token = query.call.token ∧ (query.graph.node node).parent ≠ top)

/-- Whether a candidate may be the target of a plain call: a function of a file, or a constructor of
the class with the token of the call. -/
def isPlainTarget (query : Query) (id : NodeId) : Bool :=
  let node := query.graph.node id
  (decide (node.token = query.call.token)
      && (query.graph.parentGroup? id).any fun group =>
        decide ((query.graph.group group).kind = .file))
    || (decide (query.graph.parentToken? id = some query.call.token) && node.isConstructor)

/-- The topmost entry above the caller. -/
def callerTop? (query : Query) : Option Parent :=
  let above :=
    query.graph.nodesUpwards query.graph.nodes.size (query.graph.node query.caller).parent
  match above.2 with
  | some group => (query.graph.chain group).getLast?.map .group
  | none => above.1.getLast?.map .node

/-- Stage 8: the candidates that may be the target, and the others, each with the rule that ruled
it out. -/
def byToken (query : Query) : Except Fault (List NodeId × List (NodeId × Nat)) :=
  if query.call.isMember then
    match query.callerTop? with
    | none => .error (.nothingHas "parent")
    | some top =>
        .ok (query.candidates.filter (query.isMemberTarget top),
          (query.candidates.filter fun node => !query.isMemberTarget top node).map (·, 1))
  else if query.candidates.any fun node =>
      decide ((query.graph.node node).parent = .nothing) then
    .error (.nothingHas "token")
  else
    .ok (query.candidates.filter query.isPlainTarget,
      (query.candidates.filter fun node => !query.isPlainTarget node).map (·, 2))

/-- Stage 9: the class of a candidate that has the token of the call. -/
def namedClass? (query : Query) : Option GroupId :=
  query.candidates.findSome? fun node =>
    (query.graph.parentGroup? node).filter fun group =>
      decide ((query.graph.group group).kind = .classBody
        ∧ (query.graph.group group).token = query.call.token)

/-- Stages 8 and 9. -/
def direct (query : Query) : Except Fault Outcome := do
  let (possible, impossible) ← query.byToken
  match possible with
  | [] =>
      match query.namedClass? with
      | some group => return query.constructorOf group
      | none => return .unresolved
  | [node] => return .found node none
  | _ => return .ambiguous possible impossible

/-- Stages 1 to 4, which do not look at bindings. -/
def early? (query : Query) : Option Outcome :=
  query.viaSuper?
    |>.or query.viaSelf?
    |>.or (query.bySignature?.map (.found · none))
    |>.or query.viaUnknownOwner?

/-- Stages 5 to 9. -/
def late (query : Query) (bindings : List Binding) : Except Fault Outcome := do
  match query.viaInstance? bindings with
  | some node => return .found node none
  | none =>
      match ← query.viaBindings? bindings with
      | some outcome => return outcome
      | none =>
          match query.viaFactory? with
          | some outcome => return outcome
          | none => query.direct

/-- Where the call goes. -/
def resolve (query : Query) : Except Fault Outcome :=
  match query.early? with
  | some outcome => .ok outcome
  | none => do query.late (← query.graph.visible query.caller query.call.line)

end Query

/-- The graph after an answer, the candidates after it, and the node that the call goes to. -/
structure Answer where
  graph : Graph
  candidates : List NodeId
  target : Option NodeId

/-- Puts the node that an answer creates, if any, into the graph and behind the candidates. -/
def Outcome.apply (outcome : Outcome) (graph : Graph) (candidates : List NodeId) : Answer :=
  match outcome with
  | .found node _ => ⟨graph, candidates, some node⟩
  | .create node _ =>
      let added := graph.insertNode node
      ⟨added.1, candidates ++ [added.2], some added.2⟩
  | _ => ⟨graph, candidates, none⟩

end CallGraph
