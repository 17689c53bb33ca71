import CallGraph.Block
import CallGraph.Path
import CallGraph.Syntax.Members

/-!
# Outlines

The outline of a file is what the call graph needs of it: the functions and classes it defines,
class inside class, with the calls and bindings of each function; the code outside all functions;
and the modules it imports.

A function is read in the scope of its module. A class that stands directly in a module passes this
scope on to its methods; a class inside another class does not.
-/

namespace CallGraph

/-- What the body of a function tells about calling it. -/
structure Signature where
  /-- The positional parameters, in order. -/
  parameters : List String := []
  /-- The names that the function may return. -/
  returns : List String := []
  /-- Whether the function may return an anonymous function. -/
  returnsLambda : Bool := false
  deriving DecidableEq, Repr, Inhabited

/-- A function or method definition. -/
structure FunctionOutline where
  token : String
  line : Option Int
  signature : Signature
  /-- The parameters and then the names bound in the body. -/
  locals : List Local
  calls : List Call
  /-- The line of the first statement. -/
  bodyLine : Option Int
  deriving DecidableEq, Repr, Inhabited

/-- A class definition. -/
inductive ClassOutline
  | mk (token : String) (line : Option Int) (bases : List String)
      (functions : List FunctionOutline) (classes : List ClassOutline)

namespace ClassOutline

def token : ClassOutline → String
  | .mk token _ _ _ _ => token

def line : ClassOutline → Option Int
  | .mk _ line _ _ _ => line

/-- The base classes that are plain names. -/
def bases : ClassOutline → List String
  | .mk _ _ bases _ _ => bases

def functions : ClassOutline → List FunctionOutline
  | .mk _ _ _ functions _ => functions

def classes : ClassOutline → List ClassOutline
  | .mk _ _ _ _ classes => classes

end ClassOutline

/-- An import statement of a module: the first module it names. -/
structure ImportOutline where
  token : String
  line : Option Int
  deriving DecidableEq, Repr, Inhabited

/-- What a file defines. -/
structure FileOutline where
  token : String
  /-- The names bound outside all functions. -/
  locals : List Local
  /-- The calls made outside all functions. -/
  calls : List Call
  /-- What the module level says about names. -/
  scope : Scope
  functions : List FunctionOutline
  classes : List ClassOutline
  imports : List ImportOutline

namespace Signature

/-- The signature of a function definition. -/
def ofTree (definition : Tree) : Signature :=
  let results := definition.walk.filterMap fun tree =>
    if tree.kind = .returnValue then tree.tree? .value else none
  { parameters :=
      match definition.tree? .args with
      | some arguments => (arguments.trees .args).map fun argument => (argument.text? "arg").getD ""
      | none => []
    returns := results.filterMap Tree.identifier?
    returnsLambda := results.any fun result => decide (result.kind = .lambda) }

end Signature

namespace FunctionOutline

/-- Reads a function definition in the scope of its module. -/
def ofTree (isMethod : Bool) (moduleScope : Scope) (definition : Tree) : FunctionOutline :=
  let statements := definition.trees .body
  let signature := Signature.ofTree definition
  let found := Block.locals [moduleScope] [] statements
  let scope := if isMethod then Block.withSelf found.2 else found.2
  { token := (definition.text? "name").getD ""
    line := definition.line
    signature := signature
    locals := signature.parameters.map (⟨·, .name unknownOwner, definition.line⟩) ++ found.1
    calls := Block.calls (some [scope, moduleScope]) statements
    bodyLine := statements.head?.bind Tree.line }

/-- Whether a method constructs the objects of its class. -/
def isConstructor (function : FunctionOutline) : Bool :=
  function.token == "__init__" || function.token == "__new__"

end FunctionOutline

namespace ClassOutline

/-- The plain names among the bases of a class definition. -/
def basesOf (definition : Tree) : List String :=
  (definition.trees .bases).filterMap Tree.identifier?

mutual

/-- Reads a class definition, its methods in the given scope. -/
def ofMembers (scope : Scope) : ClassMembers → ClassOutline
  | .mk definition (.mk classes functions _ _) =>
      .mk ((definition.text? "name").getD "") definition.line (basesOf definition)
        (functions.map (FunctionOutline.ofTree true scope))
        (nested classes)

/-- Reads the classes inside a class; their methods see no module scope. -/
def nested : List ClassMembers → List ClassOutline
  | [] => []
  | definition :: rest => ofMembers [] definition :: nested rest

end

end ClassOutline

namespace ImportOutline

/-- Reads an import statement. -/
def ofTree (statement : Tree) : ImportOutline :=
  { token := ((statement.trees .names).head?.bind (Tree.text? · "name")).getD ""
    line := statement.line }

end ImportOutline

namespace FileOutline

/-- The ending of the source files that can be analysed. -/
def sourceSuffix : String := "py"

/-- The name under which a file is imported. -/
def importToken (path : String) : String :=
  Path.stem ".py" path

/-- Reads a file from its syntax tree; the remaining statements are read in front of the imports. -/
def ofTree (tree : Tree) (path : String) : FileOutline :=
  let members := Members.ofTree tree
  let statements := members.body ++ members.imports
  let found := Block.locals [] [] statements
  { token := importToken path
    locals := found.1
    calls := Block.calls (some [found.2]) statements
    scope := found.2
    functions := members.functions.map (FunctionOutline.ofTree false found.2)
    classes := members.classes.map (ClassOutline.ofMembers found.2)
    imports := members.imports.map ImportOutline.ofTree }

end FileOutline

end CallGraph
