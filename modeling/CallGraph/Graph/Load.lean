import CallGraph.Graph.Basic

/-!
# Putting outlines into the graph

The outline of a file becomes a file group: first the node of its global code, then one node per
function, then one per import statement, and a subgroup per class. A function of a file can be
imported as `file.function`, a class as `parent.class`. A method also binds `self`, to the class it
stands in.
-/

namespace CallGraph

namespace Graph

/-- A binding as the source gives it. -/
def bindingOf (binding : Local) : Binding :=
  { token := binding.token
    target :=
      match binding.source with
      | .name name => .name name
      | .call call => .call call
      | .table table => .table table
    line := binding.line }

/-- The node of a function of a file or, with `inClass`, of a method of a class. -/
def functionNode (inClass : Bool) (group : GroupId) (groupToken : String)
    (function : FunctionOutline) : Node :=
  let bindings := function.locals.map bindingOf
  { token := function.token
    parent := .group group
    line := function.line
    calls := function.calls
    bindings := some <|
      if inClass then
        bindings ++ [{ token := "self", target := .group group, line := function.bodyLine }]
      else bindings
    importTokens := if inClass then [] else [Dotted.join [groupToken, function.token]]
    isConstructor := inClass && function.isConstructor
    signature := some function.signature }

/-- The group of a class. -/
def classGroup (parentToken : String) (definition : ClassOutline) : Group :=
  { token := definition.token
    kind := .classBody
    display := "Class"
    line := definition.line
    importTokens := [Dotted.join [parentToken, definition.token]]
    bases := definition.bases }

/-- Adds nodes to the ends of their groups. -/
def insertNodes (graph : Graph) (nodes : List Node) : Graph :=
  nodes.foldl (fun graph node => (graph.insertNode node).1) graph

mutual

/-- Adds a class below a group. -/
def insertClass (graph : Graph) (parent : GroupId) (parentToken : String) :
    ClassOutline → Graph
  | .mk token line bases functions classes =>
      let added :=
        graph.insertSubgroup parent
          (classGroup parentToken (.mk token line bases functions classes))
      insertClasses (added.1.insertNodes (functions.map (functionNode true added.2 token)))
        added.2 token classes

/-- Adds classes below a group. -/
def insertClasses (graph : Graph) (parent : GroupId) (parentToken : String) :
    List ClassOutline → Graph
  | [] => graph
  | definition :: rest =>
      insertClasses (insertClass graph parent parentToken definition) parent parentToken rest

end

/-- The group of a file. -/
def fileGroup (file : FileOutline) : Group :=
  { token := file.token, kind := .file, display := "File", line := some 0,
    importTokens := [file.token] }

/-- The node of the code outside all functions. -/
def rootNode (group : GroupId) (file : FileOutline) : Node :=
  { token := "(global)"
    parent := .group group
    line := some 0
    calls := file.calls
    bindings := some (file.locals.map bindingOf) }

/-- The node of an imported module. -/
def importNode (group : GroupId) (groupToken : String) (item : ImportOutline) : Node :=
  { token := item.token
    parent := .group group
    line := item.line
    importTokens := [Dotted.join [groupToken, item.token]]
    isLibrary := true }

/-- Adds a file. -/
def insertFile (graph : Graph) (file : FileOutline) : Graph × GroupId :=
  let added := graph.addGroup (fileGroup file)
  let rooted := added.1.insertNode (rootNode added.2 file)
  let graph := rooted.1.modifyGroup added.2 fun entry => { entry with root := some rooted.2 }
  let graph := graph.insertNodes (file.functions.map (functionNode false added.2 file.token))
  let graph := insertClasses graph added.2 file.token file.classes
  (graph.insertNodes (file.imports.map (importNode added.2 file.token)), added.2)

/-- Adds files, and lists their groups in order. -/
def insertFiles (graph : Graph) : List FileOutline → Graph × List GroupId
  | [] => (graph, [])
  | file :: rest =>
      let added := graph.insertFile file
      let others := insertFiles added.1 rest
      (others.1, added.2 :: others.2)

/-- The graph of the files that were read, with their groups. -/
abbrev loaded (files : List FileOutline) : Graph × List GroupId := empty.insertFiles files

end Graph

end CallGraph
