import CallGraph.Block
import CallGraph.Syntax.Members

/-!
# Surveys

A survey counts what the readers find in a source, without building a graph. Bindings are counted
twice, once read with scopes and once statement by statement without any: tables, and calls through
tables, are only known with scopes, so the two counts tell how much the scopes contribute.
-/

namespace CallGraph

namespace Block

/-- The names that one tree node binds when there are no scopes. -/
def unscopedNames (tree : Tree) : List String :=
  match tree.kind with
  | .assign =>
      let value := (tree.tree? .value).getD default
      if value.kind = .call && ((value.tree? .func).bind (call? none [])).isSome then
        targetNames tree
      else []
  | .importModules | .importFrom =>
      (tree.trees .names).map fun item => (importedItem tree item).1
  | _ => []

end Block

namespace Survey

/-- The calls of a module, read in the scope that the module fills. -/
def callCount (module : Tree) : Nat :=
  let statements := module.trees .body
  (Block.calls (some [(Block.locals [] [] statements).2]) statements).length

/-- The bindings of a module, read with scopes and again without. -/
def bindingCount (module : Tree) : Nat :=
  (Block.locals [] [] (module.trees .body)).1.length
    + (module.walk.flatMap Block.unscopedNames).length

/-- The classes, functions, statements and imports of a module. -/
def memberCounts (module : Tree) : List Nat :=
  let members := Members.ofTree module
  [members.classes.length, members.functions.length, members.body.length, members.imports.length]

/-- The calls and bindings of a source, the statements of a file, and the members of a sample. -/
def counts (source file sample : Tree) : List Nat :=
  [callCount source, bindingCount source, (file.trees .body).length] ++ memberCounts sample

end Survey

end CallGraph
