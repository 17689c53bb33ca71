import CallGraph.Resolve.Trace

/-!
# Bases known by name only

The analysis settles inheritance before it resolves calls. A graph that was put together by hand
may hold a class that still knows its bases by name only; to look for an inherited method there is
a fault. `Query.ask` is `Query.resolve` with this fault: it finds the stage, if any, that would look
at such a class, and answers as usual if there is none.

## Main definitions

* `Query.ask` — the answer, or the fault.
* `Query.askTrace` — what the log tells up to there.

## Main statements

* `ask_eq_resolve` — nothing changes when no class knows its bases by name only.
-/

namespace CallGraph

namespace Graph

/-- Whether a group knows bases by name only. -/
def hasNamedBases (graph : Graph) (group : GroupId) : Bool :=
  (graph.group group).inherited.isEmpty && (graph.group group).bases.any fun base => base ≠ ""

/-- Whether matching a call against a binding comes to look at bases known by name only. -/
def meetsNamedBases (graph : Graph) (call : Call) (binding : Binding) : Bool :=
  match call.owner, binding.target with
  | some owner, .group group =>
      (decide (owner = binding.token) || call.isLibrary)
        && (graph.withToken? call.token (graph.group group).nodes).isNone
        && graph.hasNamedBases group
  | _, _ => false

/-- What a call matches in a binding, when bases may be known by name only. -/
def askBinding (graph : Graph) (call : Call) (binding : Binding) : Except Fault (Option Match) :=
  if graph.meetsNamedBases call binding then .error (.textLacks "token")
  else graph.matchBinding call binding

/-- Whether matching a call against bindings in turn comes to bases known by name only. -/
def bindingsMeetNamedBases (graph : Graph) (call : Call) : List Binding → Bool
  | [] => false
  | binding :: rest =>
      graph.meetsNamedBases call binding ||
        match graph.matchBinding call binding with
        | .ok none => bindingsMeetNamedBases graph call rest
        | _ => false

end Graph

namespace Query

/-- Whether the class of the caller knows bases by name only. -/
def callerHasNamedBases (query : Query) : Bool :=
  query.callerClass?.any query.graph.hasNamedBases

/-- Whether stage 1 or stage 2 looks at bases known by name only. -/
def ownClassFails (query : Query) : Bool :=
  query.heuristics && query.callerHasNamedBases
    && (decide (query.call.owner = some "super")
      || (decide (query.call.owner = some "self")
        && query.callerClass?.all fun group =>
          (query.sameToken (query.graph.group group).nodes).isEmpty))

/-- Whether stage 4 looks at bases known by name only. -/
def unknownOwnerFails (query : Query) : Bool :=
  query.heuristics && query.callerHasNamedBases && query.early?.isNone
    && decide (query.call.owner = some unknownOwner ∨ query.call.owner = some "")

/-- Whether stage 6 looks at bases known by name only. -/
def bindingsFail (query : Query) : Bool :=
  query.early?.isNone &&
    match query.graph.visible query.caller query.call.line with
    | .ok bindings =>
        (query.viaInstance? bindings).isNone
          && query.graph.bindingsMeetNamedBases query.call bindings
    | .error _ => false

/-- Where the call goes, when bases may be known by name only. -/
def ask (query : Query) : Except Fault Outcome :=
  if query.ownClassFails || query.unknownOwnerFails || query.bindingsFail then
    .error (.textLacks "token")
  else query.resolve

/-- The lines that the log has about a call, up to a stage that fails. -/
def askTrace (query : Query) : List String :=
  if query.ownClassFails then query.startTrace
  else if query.unknownOwnerFails then query.startTrace ++ query.signatureTrace
  else if query.bindingsFail then
    query.startTrace ++ query.signatureTrace ++
      match query.graph.visible query.caller query.call.line with
      | .ok bindings => query.instanceTrace bindings
      | .error _ => []
  else query.trace

/-! ## Settled graphs -/

theorem bindingsMeetNamedBases_eq_false {graph : Graph} {call : Call}
    (settled : ∀ group, graph.hasNamedBases group = false) (bindings : List Binding) :
    graph.bindingsMeetNamedBases call bindings = false := by
  induction bindings with
  | nil => rfl
  | cons binding rest ih =>
      have here : graph.meetsNamedBases call binding = false := by
        unfold Graph.meetsNamedBases
        split <;> simp [settled]
      simp only [Graph.bindingsMeetNamedBases, here, Bool.false_or]
      split
      · exact ih
      · rfl

theorem ask_eq_resolve {query : Query}
    (settled : ∀ group, query.graph.hasNamedBases group = false) :
    query.ask = query.resolve := by
  have caller : query.callerHasNamedBases = false := by
    unfold callerHasNamedBases
    cases query.callerClass? <;> simp [settled]
  have bindings : query.bindingsFail = false := by
    unfold bindingsFail
    split <;> simp [bindingsMeetNamedBases_eq_false settled]
  simp [ask, ownClassFails, unknownOwnerFails, caller, bindings]

end Query

end CallGraph
