import CallGraph.Text.Dotted
import CallGraph.Text.Literal

/-!
# Syntax trees of Python sources

The analysis starts from the syntax tree of a file. A tree node has a kind, the line it starts on
(some kinds have none), attributes that are plain values, and children, each listed under the field
it fills. A field that holds several trees is listed once per tree, in order; a place of such a
field that holds nothing is a gap.

Only a few kinds and fields decide anything in the analysis. They have names of their own here, and
all the others are carried along by the name they came with.

## Main definitions

* `Tree.walk` — all nodes of a tree in breadth-first order, the order in which statements are met.
* `Tree.valueChain` — a node, the tree that its `value` field holds, and so on.
-/

namespace CallGraph

/-- The kinds of tree nodes. -/
inductive Kind
  | module
  | functionDef
  | asyncFunctionDef
  | classDef
  | importModules
  | importFrom
  | assign
  | returnValue
  | call
  | member
  | name
  | subscript
  | constant
  | dict
  | lambda
  | other (label : String)
  deriving DecidableEq, Repr, Inhabited

/-- The name of a kind. -/
def Kind.label : Kind → String
  | .module => "Module"
  | .functionDef => "FunctionDef"
  | .asyncFunctionDef => "AsyncFunctionDef"
  | .classDef => "ClassDef"
  | .importModules => "Import"
  | .importFrom => "ImportFrom"
  | .assign => "Assign"
  | .returnValue => "Return"
  | .call => "Call"
  | .member => "Attribute"
  | .name => "Name"
  | .subscript => "Subscript"
  | .constant => "Constant"
  | .dict => "Dict"
  | .lambda => "Lambda"
  | .other label => label

/-- The kinds that have a constructor of their own. -/
def Kind.named : List Kind :=
  [.module, .functionDef, .asyncFunctionDef, .classDef, .importModules, .importFrom, .assign,
    .returnValue, .call, .member, .name, .subscript, .constant, .dict, .lambda]

/-- The kind with a given name. -/
def Kind.ofLabel (label : String) : Kind :=
  (named.find? fun kind => kind.label == label).getD (.other label)

/-- The fields that hold trees. -/
inductive Field
  | body
  | func
  | args
  | value
  | targets
  | keys
  | values
  | slice
  | names
  | bases
  | other (label : String)
  deriving DecidableEq, Repr, Inhabited

/-- The field with a given name. -/
def Field.ofLabel : String → Field
  | "body" => .body
  | "func" => .func
  | "args" => .args
  | "value" => .value
  | "targets" => .targets
  | "keys" => .keys
  | "values" => .values
  | "slice" => .slice
  | "names" => .names
  | "bases" => .bases
  | label => .other label

/-- A plain value of an attribute: a name, a whole number, a constant text, or a constant of another
type. -/
inductive Atom
  | text (value : String)
  | number (value : Int)
  | literal (value : Literal)
  | other (type shown : String)
  deriving DecidableEq, Repr, Inhabited

mutual

/-- A node of a syntax tree. -/
inductive Tree
  | node (kind : Kind) (line : Option Int) (attributes : List (String × Atom))
      (children : List Child)

/-- A child of a node: the tree that stands in a field, or a place of the field left empty. -/
inductive Child
  | filled (field : Field) (tree : Tree)
  | gap (field : Field)

end

instance : Inhabited Tree := ⟨.node .module none [] []⟩

namespace Child

/-- The field that a child belongs to. -/
def field : Child → Field
  | .filled field _ => field
  | .gap field => field

/-- The tree of a child; a gap has none. -/
def tree? : Child → Option Tree
  | .filled _ tree => some tree
  | .gap _ => none

end Child

namespace Tree

def kind : Tree → Kind
  | .node kind _ _ _ => kind

def line : Tree → Option Int
  | .node _ line _ _ => line

def attributes : Tree → List (String × Atom)
  | .node _ _ attributes _ => attributes

def children : Tree → List Child
  | .node _ _ _ children => children

/-- An attribute that is a text. -/
def text? (tree : Tree) (key : String) : Option String :=
  match tree.attributes.lookup key with
  | some (.text value) => some value
  | _ => none

/-- An attribute that is a constant text. -/
def literal? (tree : Tree) (key : String) : Option Literal :=
  match tree.attributes.lookup key with
  | some (.literal value) => some value
  | _ => none

/-- An attribute that is a whole number. -/
def number? (tree : Tree) (key : String) : Option Int :=
  match tree.attributes.lookup key with
  | some (.number value) => some value
  | _ => none

/-- The places of a field in order, `none` for a gap. -/
def places (tree : Tree) (field : Field) : List (Option Tree) :=
  (tree.children.filter fun child => decide (child.field = field)).map Child.tree?

/-- The trees of a field in order. -/
def trees (tree : Tree) (field : Field) : List Tree :=
  (tree.places field).filterMap id

/-- The tree of a field that holds one. -/
def tree? (tree : Tree) (field : Field) : Option Tree :=
  (tree.trees field).head?

/-- The children that are trees, in order. -/
def subtrees (tree : Tree) : List Tree :=
  tree.children.filterMap Child.tree?

/-- The identifier of a name. -/
def identifier? (tree : Tree) : Option String :=
  if tree.kind = .name then tree.text? "id" else none

/-! ## Walking a tree -/

mutual

/-- The number of levels of a tree. -/
def height : Tree → Nat
  | .node _ _ _ children => heightOfChildren children + 1

/-- The number of levels of the highest child. -/
def heightOfChildren : List Child → Nat
  | [] => 0
  | .filled _ tree :: rest => max tree.height (heightOfChildren rest)
  | .gap _ :: rest => heightOfChildren rest

end

/-- The next `n` levels of some trees, level by level. -/
def levels : Nat → List Tree → List Tree
  | 0, _ => []
  | n + 1, trees => trees ++ levels n (trees.flatMap subtrees)

/-- All nodes of a tree, breadth first. -/
def walk (tree : Tree) : List Tree :=
  levels tree.height [tree]

mutual

/-- A tree, the tree in its `value` field, the tree in the `value` field of that one, and so on. -/
def valueChain : Tree → List Tree
  | .node kind line attributes children =>
      .node kind line attributes children :: valueChainOfChildren children

/-- The chain that starts at the first `value` among some children. -/
def valueChainOfChildren : List Child → List Tree
  | [] => []
  | .filled .value tree :: _ => tree.valueChain
  | _ :: rest => valueChainOfChildren rest

end

end Tree

end CallGraph
