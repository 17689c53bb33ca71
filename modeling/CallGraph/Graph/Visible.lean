import CallGraph.Graph.Walk
import CallGraph.Ordering

/-!
# Visible bindings

At a line of a function, the names bound in the function at or above this line are visible, then
the names of the groups around it, from the innermost outwards. A group makes names visible only if
it has a root node: the names bound there, its subgroups and its other nodes.

Within one such stretch the binding with the greatest line comes first; bindings on the same line
keep their order. Nothing is sorted when no binding has a line other than zero. Sorting needs a
line for every binding, as soon as there are two of them.
-/

namespace CallGraph

namespace Graph

/-- Whether a line is given and not zero. -/
def isSetLine (line : Option Int) : Bool :=
  match line with
  | some line => line ≠ 0
  | none => false

/-- The order of bindings by line, the greatest first. -/
def laterLine (a b : Binding) : Bool :=
  decide (b.line.getD 0 ≤ a.line.getD 0)

/-- Sorts bindings by line, the greatest first. -/
def latestFirst (bindings : List Binding) : Except Fault (List Binding) :=
  if bindings.any fun binding => isSetLine binding.line then
    if 2 ≤ bindings.length && bindings.any (fun binding => binding.line.isNone) then
      .error .notComparable
    else .ok (sortBy laterLine bindings)
  else .ok bindings

/-- The bindings at or above a line. -/
def upTo (bindings : List Binding) : Option Int → Except Fault (List Binding)
  | none => .ok bindings
  | some line =>
      if bindings.any fun binding => binding.line.isNone then .error .notComparable
      else .ok (bindings.filter fun binding => decide (binding.line.getD 0 ≤ line))

/-- A node as a binding of its own token. -/
def nodeBinding (graph : Graph) (node : NodeId) : Binding :=
  { token := (graph.node node).token, target := .node node, line := (graph.node node).line }

/-- A group as a binding of its own token. -/
def groupBinding (graph : Graph) (group : GroupId) : Binding :=
  { token := (graph.group group).token, target := .group group, line := (graph.group group).line }

/-- Bindings of their own tokens; each needs a token. -/
def ownTokens (bindings : List Binding) : Except Fault (List Binding) :=
  if bindings.any fun binding => binding.token = "" then .error .bindingWithoutToken
  else .ok bindings

/-- The names that a group makes visible. -/
def groupBindings (graph : Graph) (id : GroupId) : Except Fault (List Binding) :=
  let group := graph.group id
  match group.root with
  | none => .ok []
  | some root => do
      let subgroups ← ownTokens (group.subgroups.map graph.groupBinding)
      match (graph.node root).bindings with
      | none => .error .noRootBindings
      | some bindings =>
          let nodes ← ownTokens ((group.nodes.filter (· ≠ root)).map graph.nodeBinding)
          latestFirst (bindings ++ subgroups ++ nodes)

/-- The names that several groups make visible, one group after the other. -/
def groupsBindings (graph : Graph) : List GroupId → Except Fault (List Binding)
  | [] => .ok []
  | group :: rest => do
      let first ← graph.groupBindings group
      let others ← groupsBindings graph rest
      return first ++ others

/-- The names bound in a node itself, at or above a line. -/
def ownBindings (graph : Graph) (node : NodeId) (line : Option Int) :
    Except Fault (List Binding) :=
  match (graph.node node).bindings with
  | none => .error .noBindings
  | some bindings => do latestFirst (← upTo bindings line)

mutual

/--
The names visible in a node at a line; a node above it contributes all that is visible in that
node. The depth bounds how far nodes are nested.
-/
def visibleWithin (graph : Graph) : Nat → NodeId → Option Int → Except Fault (List Binding)
  | 0, node, line => graph.ownBindings node line
  | depth + 1, node, line => do
      let own ← graph.ownBindings node line
      let above := graph.nodesUpwards graph.nodes.size (graph.node node).parent
      let nested ← visibleAbove graph depth above.1
      let groups ←
        match above.2 with
        | some group => graph.groupsBindings (graph.chain group)
        | none => .ok []
      return own ++ nested ++ groups

/-- The names visible in some nodes, one node after the other. -/
def visibleAbove (graph : Graph) : Nat → List NodeId → Except Fault (List Binding)
  | _, [] => .ok []
  | 0, _ => .ok []
  | depth + 1, node :: rest => do
      let first ← visibleWithin graph depth node none
      let others ← visibleAbove graph depth rest
      return first ++ others

end

/-- The names visible in a node at a line, or in the whole node if no line is given. -/
def visible (graph : Graph) (node : NodeId) (line : Option Int) : Except Fault (List Binding) :=
  graph.visibleWithin (2 * graph.nodes.size + 1) node line

end Graph

end CallGraph
