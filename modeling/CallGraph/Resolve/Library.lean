import CallGraph.Resolve.Query

/-!
# Library targets

A call on a named owner has a signature: the owner and the token as one dotted name. A node answers
to it if it can be imported under this name, or if its group is named by the first part of the
owner. A call on a variable that holds the result of a library call goes to a library node of the
module that was called.
-/

namespace CallGraph

namespace Query

/-- The owner of a library call, if the call is one. -/
def libraryOwner? (call : Call) : Option String :=
  if call.isLibrary then call.namedOwner? else none

/-- Whether a node with the token of the call answers to the signature of a call on `owner`. -/
def answersTo (query : Query) (owner : String) (id : NodeId) : Bool :=
  let node := query.graph.node id
  node.importTokens.contains (Dotted.join [owner, query.call.token])
    || (query.graph.parentGroup? id).any
      fun group => decide ((query.graph.group group).token = Dotted.first owner)

/-- The first candidate that answers to the signature of the call. -/
def bySignature? (query : Query) : Option NodeId :=
  match libraryOwner? query.call with
  | none => none
  | some owner => (query.sameToken query.candidates).find? (query.answersTo owner)

/-- The call on whose result a binding stands, if it is a call on a named library. -/
def libraryCall? (binding : Binding) : Option (Call × String) :=
  match binding.target with
  | .call call =>
      match call.isLibrary, call.owner with
      | true, some owner => some (call, owner)
      | _, _ => none
  | _ => none

/-- The library node that a call on a bound library object goes to. -/
def byInstance? (query : Query) (binding : Binding) : Option NodeId :=
  if query.call.owner = some binding.token then
    match libraryCall? binding with
    | none => none
    | some (_, owner) =>
        (query.sameToken query.candidates).find? fun node =>
          (query.graph.node node).isLibrary
            && (query.graph.parentGroup? node).any
              fun group => decide ((query.graph.group group).token = Dotted.first owner)
  else none

end Query

end CallGraph
