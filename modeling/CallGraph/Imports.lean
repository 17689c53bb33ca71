import CallGraph.FileSystem
import CallGraph.Outline

/-!
# Following imports

A file may import modules that lie beside it. From a first file, the files it imports are read too,
and the files these import, each path once; a file stands in front of what it imports. All names are
looked for below one base directory.

Paths are compared as texts: a file that is reached under two spellings is read twice.

## Main definitions

* `Imports.dependencies` — the paths that a syntax tree imports.
* `Imports.follow` — the files reached from a path.
-/

namespace CallGraph

namespace Imports

/-- The path of a module below a directory. -/
def modulePath (base name : String) : String :=
  Path.joinAll base (Dotted.parts name) ++ ".py"

/-- The path of a module below a directory, if there is something. -/
def resolve (files : FileSystem) (base name : String) : Option String :=
  if files.pathExists (modulePath base name) then some (modulePath base name) else none

/-- The directory so many levels above a directory. -/
def ancestor (base : String) : Nat → String
  | 0 => base
  | levels + 1 => ancestor (Path.directory base) levels

/-- The path of an item that is imported relative to the package: beside the file, else so many
levels above. -/
def resolveRelative (files : FileSystem) (base : String) (levels : Nat) (name : String) :
    Option String :=
  let beside := Path.join base name ++ ".py"
  if files.pathExists beside then some beside
  else if levels = 0 then none
  else
    let above := Path.join (ancestor base levels) name ++ ".py"
    if files.pathExists above then some above else none

/-- The names that an import statement lists. -/
def itemNames (statement : Tree) : List String :=
  (statement.trees .names).map fun item => (item.text? "name").getD ""

/-- The paths that one tree node imports. -/
def dependenciesOf (files : FileSystem) (base : String) (tree : Tree) : List String :=
  match tree.kind with
  | .importModules => (itemNames tree).filterMap (resolve files base)
  | .importFrom =>
      match (tree.text? "module").filter (· ≠ "") with
      | some name =>
          match resolve files base name with
          | some path => [path]
          | none => (itemNames tree).filterMap (resolve files base)
      | none =>
          (itemNames tree).filterMap
            (resolveRelative files base ((tree.number? "level").getD 0).toNat)
  | _ => []

/-- The paths that a syntax tree imports, in the order in which they are met. -/
def dependencies (files : FileSystem) (base : String) (tree : Tree) : List String :=
  tree.walk.flatMap (dependenciesOf files base)

/-- All paths that any file imports. -/
def pool (files : FileSystem) (base : String) : List String :=
  files.trees.flatMap (dependencies files base)

/-- What following came to: the paths taken, and the outlines of the files or the fault that ended
it. -/
structure Followed where
  taken : List String
  outlines : Except Fault (List FileOutline)

/-- Follows the paths still to be read, in front of those found later. The fuel bounds the number
of paths read. -/
def followWithin (files : FileSystem) (base : String) :
    Nat → List String → List String → Followed
  | 0, taken, _ => ⟨taken, .ok []⟩
  | fuel + 1, taken, pending =>
      match pending.dropWhile taken.contains with
      | [] => ⟨taken, .ok []⟩
      | path :: rest =>
          match files.read path with
          | .error fault => ⟨path :: taken, .error fault⟩
          | .ok tree =>
              let others :=
                followWithin files base fuel (path :: taken) (dependencies files base tree ++ rest)
              ⟨others.taken, others.outlines.map (FileOutline.ofTree tree path :: ·)⟩

/-- Follows the imports from a path; `taken` are the paths that need no reading any more. -/
def follow (files : FileSystem) (base : String) (taken : List String) (path : String) : Followed :=
  followWithin files base (distinct (path :: pool files base)).length taken [path]

end Imports

end CallGraph
