import CallGraph.Analysis.Builtin
import CallGraph.Graph.Walk
import CallGraph.Resolve.Library

/-!
# Library nodes

Calls into modules that are not analysed need a target all the same. Each signature that is called
gets one node, in a package group named by the first part of the signature. Two kinds of calls make
such nodes: a call on a named owner, and a call on a variable that holds the result of a library
call, whose signature is the library followed by the token.

Packages hang below the first file of the analysis; the module that every program can use has a
file of its own.
-/

namespace CallGraph

/-- The library nodes and packages made so far, in order. -/
structure Libraries where
  packages : List (String × GroupId) := []
  nodes : List (String × NodeId) := []
  deriving Inhabited

namespace Libraries

/-- The node with a signature. -/
def node? (libraries : Libraries) (signature : String) : Option NodeId :=
  libraries.nodes.lookup signature

/-- The package with a name. -/
def package? (libraries : Libraries) (name : String) : Option GroupId :=
  libraries.packages.lookup name

/-- The group of a package. -/
def packageGroup (name : String) : Group :=
  { token := name
    kind := .package
    display := if name = builtinModule then "Built-in Functions" else "Library"
    line := some 0
    importTokens := [name] }

/-- The node of a library function, on the line of the first call. -/
def libraryNode (package : GroupId) (signature : String) (call : Call) : Node :=
  { token := call.token
    parent := .group package
    line := call.line
    importTokens := [signature]
    isLibrary := true }

/-- Finds the package with a name, or adds it. -/
def ensurePackage (graph : Graph) (libraries : Libraries) (name : String) :
    Graph × Libraries × GroupId :=
  match libraries.package? name with
  | some package => (graph, libraries, package)
  | none =>
      let added := graph.addGroup (packageGroup name)
      (added.1, { libraries with packages := libraries.packages ++ [(name, added.2)] }, added.2)

/-- Adds the node with a signature to its package. -/
def addNode (graph : Graph) (libraries : Libraries) (package signature : String) (call : Call) :
    Graph × Libraries × NodeId :=
  let found := ensurePackage graph libraries package
  let added := found.1.insertNode (libraryNode found.2.2 signature call)
  (added.1,
    { found.2.1 with nodes := found.2.1.nodes ++ [(signature, added.2)] },
    added.2)

/-- The signature of a library call and its package. -/
def signature? (call : Call) : Option (String × String) :=
  (Query.libraryOwner? call).map fun owner =>
    (Dotted.join [owner, call.token], Dotted.first owner)

/-- Makes the nodes that calls on named owners go to, and lists them. -/
def ofCalls (graph : Graph) (libraries : Libraries) :
    List Call → Graph × Libraries × List NodeId
  | [] => (graph, libraries, [])
  | call :: rest =>
      match signature? call with
      | none => ofCalls graph libraries rest
      | some (signature, package) =>
          if (libraries.node? signature).isSome then ofCalls graph libraries rest
          else
            let added := addNode graph libraries package signature call
            let others := ofCalls added.1 added.2.1 rest
            (others.1, others.2.1, added.2.2 :: others.2.2)

/-- The first binding of a token in some nodes. -/
def firstBinding? (graph : Graph) (nodes : List NodeId) (token : String) : Option Binding :=
  nodes.findSome? fun node =>
    ((graph.node node).bindings.getD []).find? fun binding => decide (binding.token = token)

/-- The signature of a call on a variable that holds a library object, and its package. -/
def instanceSignature? (graph : Graph) (nodes : List NodeId) (call : Call) :
    Option (String × String) := do
  let owner ← call.namedOwner?
  if Dotted.isDotted owner then none
  else
    let binding ← firstBinding? graph nodes owner
    let library ← Query.libraryCall? binding
    let package := Dotted.first library.2
    return (Dotted.join [package, call.token], package)

/-- Makes the nodes that calls on library objects go to, and lists their signatures and nodes. -/
def ofInstances (nodes : List NodeId) (graph : Graph) (libraries : Libraries) :
    List Call → Graph × Libraries × List (String × NodeId)
  | [] => (graph, libraries, [])
  | call :: rest =>
      match instanceSignature? graph nodes call with
      | none => ofInstances nodes graph libraries rest
      | some (signature, package) =>
          if (libraries.node? signature).isSome then ofInstances nodes graph libraries rest
          else
            let added := addNode graph libraries package signature call
            let others := ofInstances nodes added.1 added.2.1 rest
            (others.1, others.2.1, (signature, added.2.2) :: others.2.2)

/-- The file group that holds the module every program can use. -/
def builtinFile : Group :=
  { token := builtinModule, kind := .file, display := "File", line := some 0 }

/-- Hangs a package below a file. -/
def hang (graph : Graph) (file package : GroupId) : Graph :=
  (graph.appendSubgroup file package).modifyGroup package fun entry =>
    { entry with parent := some file }

/-- Hangs packages into the files, adding a file for the module every program can use. -/
def hangAll (graph : Graph) (files : List GroupId) : List (String × GroupId) →
    Graph × List GroupId
  | [] => (graph, files)
  | (name, package) :: rest =>
      if name = builtinModule then
        let added := graph.addGroup builtinFile
        hangAll (hang added.1 added.2 package) (files ++ [added.2]) rest
      else
        match files with
        | [] => hangAll graph files rest
        | first :: _ => hangAll (hang graph first package) files rest

end Libraries

end CallGraph
