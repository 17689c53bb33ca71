import CallGraph.Graph.Walk

/-!
# Limits

Namespaces (files and classes) and functions can be left out by name, or all others than the named
ones can be. A namespace that is named is left out with everything inside it; a namespace is kept by
name with everything inside it. Left out means that the nodes leave their groups; the groups stay.

Names come as plain values, as they may be given by hand: a value that is not a text matches
nothing.
-/

namespace CallGraph

namespace Limits

/-- Whether a token is among some values. -/
def mentions (names : List Value) (token : String) : Bool :=
  names.any fun name =>
    match name with
    | .text text => decide (text = token)
    | _ => false

/-- Whether a group is passed over: only some namespaces are wanted, and neither the group nor a
group above it is one of them. -/
def isUnwanted (graph : Graph) (only : List Value) (group : GroupId) : Bool :=
  !only.isEmpty
    && (graph.chain group).all fun above => !mentions only (graph.group above).token

/-- Whether a file is passed over by its own token. -/
def isUnwantedFile (graph : Graph) (only : List Value) (file : GroupId) : Bool :=
  !only.isEmpty && !mentions only (graph.group file).token

/-- Leaves out what one group below a file holds. -/
def limitGroup (exclude only : List Value) (graph : Graph) (group : GroupId) : Graph :=
  let graph :=
    if mentions exclude (graph.group group).token then graph.removeNodes (graph.allNodes group)
    else graph
  if isUnwanted graph only group then graph.removeNodes (graph.group group).nodes else graph

/-- Leaves out what one file holds. -/
def limitFile (exclude only : List Value) (graph : Graph) (file : GroupId) : Graph :=
  let graph :=
    if mentions exclude (graph.group file).token then graph.removeNodes (graph.allNodes file)
    else graph
  let graph :=
    if isUnwantedFile graph only file then graph.removeNodes (graph.group file).nodes else graph
  (graph.allGroups file).foldl (limitGroup exclude only) graph

/-- Leaves out namespaces, or all but the wanted ones. -/
def limitNamespaces (graph : Graph) (files : List GroupId) (exclude only : List Value) : Graph :=
  files.foldl (limitFile exclude only) graph

/-- The tokens under which something was left out of a file. -/
def leftOut (graph : Graph) (exclude only : List Value) (file : GroupId) : List String :=
  let token := (graph.group file).token
  (if mentions exclude token || isUnwantedFile graph only file then [token] else [])
    ++ (graph.allGroups file).flatMap fun group =>
      (if mentions exclude (graph.group group).token then [(graph.group group).token] else [])
        ++ if isUnwanted graph only group then [token] else []

/-- The lines printed while namespaces are left out: every group with the groups above it. -/
def namespaceListing (graph : Graph) (files : List GroupId) : List String :=
  (graph.groupsOf files).map fun group =>
    graph.shownGroup group ++ " "
      ++ Text.bracketed ((graph.allParents group).map graph.shownGroup)

/-- The warnings about names to exclude that were not met, up to one that cannot be looked up. -/
def warnings (kind : String) (met : List String) : List Value → List String × Except Fault Unit
  | [] => ([], .ok ())
  | name :: rest =>
      if name.isHashable then
        let others := warnings kind met rest
        let isMet :=
          match name with
          | .text text => met.contains text
          | _ => false
        if isMet then others
        else
          (("Could not exclude " ++ kind ++ " '" ++ name.plain ++ "' because it was not found.")
            :: others.1, others.2)
      else ([], .error (.notHashable name.typeName))

/-- The warnings about namespaces. -/
def namespaceWarnings (graph : Graph) (files : List GroupId) (exclude only : List Value) :
    List String × Except Fault Unit :=
  warnings "namespace" (files.flatMap (leftOut graph exclude only)) exclude

/-- Whether a node is left out by its token. -/
def isLeftOut (graph : Graph) (exclude only : List Value) (node : NodeId) : Bool :=
  mentions exclude (graph.node node).token
    || (!only.isEmpty && !mentions only (graph.node node).token)

/-- Leaves out functions, or all but the wanted ones. -/
def limitFunctions (graph : Graph) (files : List GroupId) (exclude only : List Value) : Graph :=
  files.foldl (fun graph file =>
    graph.removeNodes ((graph.allNodes file).filter (isLeftOut graph exclude only))) graph

/-- The warnings about functions. -/
def functionWarnings (graph : Graph) (files : List GroupId) (exclude only : List Value) :
    List String × Except Fault Unit :=
  let met := ((graph.nodesOf files).filter (isLeftOut graph exclude only)).map fun node =>
    (graph.node node).token
  warnings "function" met exclude

end Limits

end CallGraph
