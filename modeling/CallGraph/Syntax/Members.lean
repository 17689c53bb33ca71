import CallGraph.Syntax.Tree

/-!
# The members of a namespace

A module or class body is sorted into what it defines: classes, functions, import statements and
the remaining statements. A compound statement that has a body of its own (a conditional, a loop, a
guarded block) is not a member: the statements of its body take its place, except that an import
statement found there is dropped, as are the statements that stand outside the `body` field.

The members of each class are sorted along with it, so that everything built from a namespace later
recurses on `Members` itself.
-/

namespace CallGraph

mutual

/-- What a namespace defines, each list in source order. -/
inductive Members
  | mk (classes : List ClassMembers) (functions body imports : List Tree)

/-- A class definition with what the class defines. -/
inductive ClassMembers
  | mk (definition : Tree) (members : Members)

end

namespace ClassMembers

def definition : ClassMembers → Tree
  | .mk definition _ => definition

def members : ClassMembers → Members
  | .mk _ members => members

end ClassMembers

namespace Members

def classes : Members → List ClassMembers
  | .mk classes _ _ _ => classes

def functions : Members → List Tree
  | .mk _ functions _ _ => functions

/-- The statements that are neither definitions nor imports. -/
def body : Members → List Tree
  | .mk _ _ body _ => body

def imports : Members → List Tree
  | .mk _ _ _ imports => imports

/-- A namespace that defines nothing. -/
def empty : Members := .mk [] [] [] []

/-- The members of two stretches of source, one behind the other. -/
def append (front back : Members) : Members :=
  .mk (front.classes ++ back.classes) (front.functions ++ back.functions)
    (front.body ++ back.body) (front.imports ++ back.imports)

instance : Append Members := ⟨append⟩

/-- The same members without the import statements. -/
def withoutImports (members : Members) : Members :=
  .mk members.classes members.functions members.body []

mutual

/-- What one statement contributes to the namespace it stands in. -/
def ofStatement : Tree → Members
  | .node kind line attributes children =>
      match kind with
      | .functionDef | .asyncFunctionDef => .mk [] [.node kind line attributes children] [] []
      | .classDef =>
          .mk [.mk (.node kind line attributes children) (ofChildren children)] [] [] []
      | .importModules => .mk [] [] [] [.node kind line attributes children]
      | _ =>
          if (Tree.node kind line attributes children).trees .body = [] then
            .mk [] [] [.node kind line attributes children] []
          else
            (ofChildren children).withoutImports

/-- The members of the namespace whose body is among some children. -/
def ofChildren : List Child → Members
  | [] => empty
  | .filled .body tree :: rest => ofStatement tree ++ ofChildren rest
  | _ :: rest => ofChildren rest

end

/-- The members of a module or class. -/
def ofTree (tree : Tree) : Members :=
  ofChildren tree.children

end Members

end CallGraph
