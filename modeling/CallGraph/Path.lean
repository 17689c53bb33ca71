import CallGraph.Text.Dotted

/-!
# Paths

Paths are texts with components between slashes. They are joined and cut as texts: two texts that
lead to one file stay two paths, and nothing is normalised here.
-/

namespace CallGraph.Path

open CallGraph.Text

/-- `path` below `directory`; an absolute `path` stands for itself. -/
def join (directory path : String) : String :=
  if startsWith path "/" then path
  else if directory = "" || endsWith directory "/" then directory ++ path
  else directory ++ "/" ++ path

/-- Joins several components below a directory, one after the other. -/
def joinAll (directory : String) (components : List String) : String :=
  components.foldl join directory

/-- The components between slashes; empty ones are kept. -/
def components (path : String) : List String :=
  splitAtChar '/' path

/-- What stands behind the last slash. -/
def fileName (path : String) : String :=
  (components path).getLastD ""

/--
What stands in front of the last slash, without slashes at its end, unless it consists of slashes
only.
-/
def directory (path : String) : String :=
  match beforeLast? ['/'] path.toList with
  | none => ""
  | some front =>
      let head := front ++ ['/']
      if head.all (· == '/') then String.ofList head
      else String.ofList (head.reverse.dropWhile (· == '/')).reverse

/-- The file name in front of the last `mark`; the whole file name if there is none. -/
def stem (mark path : String) : String :=
  let name := (fileName path).toList
  String.ofList ((beforeLast? mark.toList name).getD name)

end CallGraph.Path
