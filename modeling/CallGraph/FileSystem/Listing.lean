import CallGraph.FileSystem
import CallGraph.Syntax.Decode

/-!
# Files handed over as a listing

A listing names files by their paths from a working directory, each with its syntax tree or why it
has none. Of two paths that lead to one place the later one counts.
-/

namespace CallGraph

namespace FileSystem

/-- The entry that an item of a listing describes. -/
def entryOf (base : Place) (item : Value) : Place × Entry :=
  (normalize base (item.get "path").asText,
    if (item.get "dir").isSet then .directory
    else .file { content := parsedOf item, isExecutable := (item.get "exec").isSet })

/-- Puts an entry behind the others, in place of one at the same place. -/
def put (entries : List (Place × Entry)) (entry : Place × Entry) : List (Place × Entry) :=
  (entries.filter fun other => other.1 ≠ entry.1) ++ [entry]

/-- The files of a listing. -/
def ofListing (base : Place) (items : List Value) : FileSystem :=
  { entries := (items.map (entryOf base)).foldl put [], base := base }

/-- The places of the entries. -/
def places (files : FileSystem) : List Place :=
  files.entries.map (·.1)

end FileSystem

end CallGraph
