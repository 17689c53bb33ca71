import CallGraph.Graph.Walk

/-!
# Settling bindings

Before calls are resolved, what the source bound names to is settled as far as the analysed files
tell. A dotted name becomes the node that can be imported under it, else the group, file by file,
else it stays unknown. The result of a plain call is an object of the class with the token of the
call; the last such group in the files is taken. Calls on something and tables stay as they are.
-/

namespace CallGraph

namespace Graph

/-- The node, else the group, that can be imported under a name from one file. -/
def importedFrom? (graph : Graph) (name : String) (file : GroupId) : Option Target :=
  match (graph.allNodes file).find? fun node => (graph.node node).importTokens.contains name with
  | some node => some (.node node)
  | none =>
      ((graph.allGroups file).find? fun group =>
        (graph.group group).importTokens.contains name).map .group

/-- What a name stands for in the files: what can be imported under it from the first file that
has it. -/
def settleName (graph : Graph) (files : List GroupId) (name : String) : Target :=
  (files.findSome? (graph.importedFrom? name)).getD (.name unknownModule)

/-- The last group of the files with a token. -/
def lastNamed? (graph : Graph) (files : List GroupId) (token : String) : Option GroupId :=
  (graph.groupsOf files).reverse.find? fun group => decide ((graph.group group).token = token)

/-- What a binding stands for in the files. -/
def settleTarget (graph : Graph) (files : List GroupId) : Target → Except Fault Target
  | .name name => .ok (graph.settleName files name)
  | .call call =>
      if call.isMember && !call.definiteConstructor then .ok (.call call)
      else
        match graph.lastNamed? files call.token with
        | some group => .ok (.group group)
        | none => .ok (.call call)
  | .table table => .ok (.table table)
  | .node node => .ok (.node node)
  | .group group => .ok (.group group)
  | .value _ => .error .unsettled

/-- Settles bindings one after the other, up to the first that cannot be settled. -/
def settleBindings (graph : Graph) (files : List GroupId) :
    List Binding → List Binding × Except Fault Unit
  | [] => ([], .ok ())
  | binding :: rest =>
      match graph.settleTarget files binding.target with
      | .error fault => (binding :: rest, .error fault)
      | .ok target =>
          let others := settleBindings graph files rest
          ({ binding with target := target } :: others.1, others.2)

/-- Settles the bindings of a node; the graph shows how far it came. -/
def settleNode (graph : Graph) (files : List GroupId) (node : NodeId) :
    Graph × Except Fault Unit :=
  match (graph.node node).bindings with
  | none => (graph, .error .noBindings)
  | some bindings =>
      let settled := graph.settleBindings files bindings
      (graph.modifyNode node fun entry => { entry with bindings := some settled.1 }, settled.2)

/-- Settles the bindings of all nodes that have any. -/
def settle (graph : Graph) (files : List GroupId) : List NodeId → Except Fault Graph
  | [] => .ok graph
  | node :: rest =>
      if (graph.node node).bindings.isNone then settle graph files rest
      else
        match graph.settleNode files node with
        | (settled, .ok ()) => settle settled files rest
        | (_, .error fault) => .error fault

end Graph

end CallGraph
