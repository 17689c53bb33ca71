import CallGraph.Analysis.Trim
import CallGraph.Ordering

/-!
# Descriptions

Parts of the graph as plain values, for whoever wants to look at them: calls, bindings, nodes and
groups with all they hold, and charts by names and labels. Nodes and edges of a chart are listed in
the order of what is shown of them.
-/

namespace CallGraph

/-- A call. -/
def Call.describe (call : Call) : Value :=
  .table
    [("call", .text call.token), ("owner", .ofText? call.owner), ("line", .ofNumber? call.line),
     ("library", .flag call.isLibrary), ("args", .ofTexts call.arguments),
     ("indirect",
       match call.tableEntry with
       | some (table, key) => .list [.text "dict", .text table, .ofLiteral key]
       | none => .list []),
     ("factory", .ofText? call.factory)]

/-- A table; surrogates in its keys are replaced. -/
def Table.describe (table : Table) : Value :=
  .table (table.map fun entry => (entry.1.replaced, .text entry.2))

/-- A scope. -/
def Scope.describe (scope : Scope) : Value :=
  .table (scope.map fun entry =>
    (entry.1,
      match entry.2 with
      | .name name => .text name
      | .table table => Table.describe table))

/-- The scope that a value describes: texts are names, tables are tables. -/
def Scope.ofValue (value : Value) : Scope :=
  value.entries.map fun entry =>
    (entry.1,
      match entry.2 with
      | .table entries => .table (entries.map fun item => (Literal.ofText item.1, item.2.asText))
      | other => .name other.asText)

namespace Graph

/-- What a name is bound to. -/
def describeTarget (graph : Graph) : Target → Value
  | .name name => .text name
  | .call call => call.describe
  | .table table => Table.describe table
  | .node node => .table [("node", .text (graph.node node).token)]
  | .group group => .table [("group", .text (graph.group group).token)]
  | .value value => value

/-- A binding. -/
def describeBinding (graph : Graph) (binding : Binding) : Value :=
  .table
    [("var", .text binding.token), ("to", graph.describeTarget binding.target),
     ("line", .ofNumber? binding.line)]

/-- The name of a node; empty if it has none. -/
def nameOrEmpty (graph : Graph) (node : NodeId) : String :=
  match graph.name node with
  | .ok name => name
  | .error _ => ""

/-- What a function shows to its callers, part by part. -/
def describeSignature : Option Signature → List (String × Value)
  | some signature =>
      [("returns", .ofTexts signature.returns), ("returns_lambda", .flag signature.returnsLambda),
       ("params", .ofTexts signature.parameters)]
  | none => [("returns", .nothing), ("returns_lambda", .nothing), ("params", .nothing)]

/-- A node with its calls and bindings. -/
def describeNode (graph : Graph) (id : NodeId) : Value :=
  let node := graph.node id
  .table <|
    [("token", .text node.token), ("line", .ofNumber? node.line),
     ("calls", .list (node.calls.map Call.describe)),
     ("variables",
       match node.bindings with
       | some bindings => .list (bindings.map graph.describeBinding)
       | none => .nothing),
     ("import_tokens", .ofTexts node.importTokens), ("constructor", .flag node.isConstructor),
     ("library", .flag node.isLibrary), ("name", .text (graph.nameOrEmpty id)),
     ("label", .text (graph.label id))]
      ++ describeSignature node.signature

/-- A group to a given depth, with all it holds; `scope` is what its module says about names. -/
def describeGroupTo (graph : Graph) : Nat → Value → GroupId → Value
  | 0, _, _ => .nothing
  | depth + 1, scope, id =>
      let group := graph.group id
      .table
        [("token", .text group.token), ("label", .text (graph.groupLabel id)),
         ("line", .ofNumber? group.line), ("type", .text group.kind.label),
         ("import_tokens", .ofTexts group.importTokens), ("inherits", .ofTexts group.bases),
         ("root", .ofText? (group.root.map fun root => (graph.node root).token)),
         ("scope", scope), ("nodes", .list (group.nodes.map graph.describeNode)),
         ("groups", .list (group.subgroups.map (describeGroupTo graph depth .nothing)))]

/-- A group with all it holds. -/
def describeGroup (graph : Graph) (scope : Value) (id : GroupId) : Value :=
  graph.describeGroupTo graph.groups.size scope id

/-- A group to a given depth by labels. -/
def labelledGroupTo (graph : Graph) : Nat → GroupId → Value
  | 0, _ => .nothing
  | depth + 1, id =>
      let group := graph.group id
      .table
        [("label", .text (graph.groupLabel id)), ("line", .ofNumber? group.line),
         ("type", .text group.kind.label), ("nodes", .ofTexts (group.nodes.map graph.label)),
         ("groups", .list (group.subgroups.map (labelledGroupTo graph depth)))]

/-- A group by labels. -/
def labelledGroup (graph : Graph) (id : GroupId) : Value :=
  graph.labelledGroupTo graph.groups.size id

end Graph

namespace Chart

/-- The order of lists of literals, the first difference deciding. -/
def rowLe : List Literal → List Literal → Bool
  | [], _ => true
  | _ :: _, [] => false
  | a :: as, b :: bs => if a = b then rowLe as bs else decide (a < b)

/-- Values in the order of the rows they stand with. -/
def inRowOrder (rows : List (List Literal × Value)) : List Value :=
  (sortBy (fun a b => rowLe a.1 b.1) rows).map (·.2)

/-- A truth value as a text that sorts false in front of true. -/
def flagRow (value : Bool) : String :=
  if value then "1" else "0"

/-- A node with the row it is sorted by. -/
def nodeRow (graph : Graph) (id : NodeId) : List Literal × Value :=
  let node := graph.node id
  let texts := [graph.nameOrEmpty id, graph.label id]
  let flags := [node.isTrunk, node.isLeaf, node.isLibrary]
  ((texts ++ flags.map flagRow).map Literal.ofText, .list (texts.map .text ++ flags.map .flag))

/-- An edge with the row it is sorted by. -/
def edgeRow (graph : Graph) (edge : Edge) : List Literal × Value :=
  let texts :=
    [graph.nameOrEmpty edge.source, graph.label edge.source, graph.nameOrEmpty edge.target,
     graph.label edge.target]
  (texts.map Literal.ofText ++ [edge.label.getD []],
    .list (texts.map .text ++ [(edge.label.map Value.ofLiteral).getD .nothing]))

/-- A chart by names and labels. -/
def describe (chart : Chart) : Value :=
  .table
    [("nodes", .list (inRowOrder (chart.nodes.map (nodeRow chart.graph)))),
     ("edges", .list (inRowOrder (chart.edges.map (edgeRow chart.graph)))),
     ("groups", .list (chart.files.map chart.graph.labelledGroup))]

/-- Whether the nodes shown and the ends of the edges all have names of their own. -/
def hasUniqueNames (chart : Chart) : Bool :=
  let nodes := distinct (chart.nodes ++ chart.edges.flatMap fun edge => [edge.source, edge.target])
  (distinct (nodes.map chart.graph.nameOrEmpty)).length == nodes.length

end Chart

end CallGraph
