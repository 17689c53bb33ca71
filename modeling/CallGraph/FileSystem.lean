import CallGraph.Fault
import CallGraph.Ordering
import CallGraph.Path
import CallGraph.Syntax.Tree

/-!
# Files

The analysis sees the files below a root: for each file its syntax tree, or why it has none. A
directory exists if it is listed, if something is listed below it, or if it is on the way to the
working directory.

A path that starts with a slash is followed from the root, every other path from the working
directory. It is followed component by component, and every component needs a directory to stand in:
a dot or an empty component stays in it, two dots lead to the directory above, which for the root is
the root itself.

## Main definitions

* `FileSystem.normalize` — the place that a path spells.
* `FileSystem.locate` — the place that a path leads to.
* `FileSystem.below` — the files below a directory.
-/

namespace CallGraph

/-- What is known of a file. -/
structure SourceFile where
  /-- The syntax tree of its text, if it can be parsed. -/
  content : Except ParseFailure Tree
  isExecutable : Bool := false

/-- An entry of the file system. -/
inductive Entry
  | file (file : SourceFile)
  | directory

/-- The components of the way from the root to an entry. -/
abbrev Place := List String

/-- The listed files and directories, in order; of two entries at one place the first counts. -/
structure FileSystem where
  entries : List (Place × Entry)
  /-- The place of the working directory. -/
  base : Place := []

namespace FileSystem

/-- A file system in which only the root exists. -/
def empty : FileSystem := { entries := [] }

/-- The place one component away from a place, whatever is there. -/
def step (place : Place) (part : String) : Place :=
  if part = "" || part = "." then place
  else if part = ".." then place.dropLast
  else place ++ [part]

/-- The place from which a path is followed. -/
def start (base : Place) (path : String) : Place :=
  if Text.startsWith path "/" then [] else base

/-- The place that a path spells, whether or not the directories on its way exist. -/
def normalize (base : Place) (path : String) : Place :=
  (Path.components path).foldl step (start base path)

/-- What is at a place. -/
def entry? (files : FileSystem) (place : Place) : Option Entry :=
  match files.entries.lookup place with
  | some entry => some entry
  | none =>
      if place.isPrefixOf files.base || files.entries.any fun entry => place.isPrefixOf entry.1 then
        some .directory
      else none

/-- Whether a place is a directory. -/
def isDirectoryAt (files : FileSystem) (place : Place) : Bool :=
  match files.entry? place with
  | some .directory => true
  | _ => false

/-- The place one component away from a place. -/
def enter (files : FileSystem) (place : Place) (part : String) : Except PathFault Place :=
  if !files.isDirectoryAt place then .error .notDirectory
  else if (files.entry? (step place part)).isSome then .ok (step place part)
  else .error .missing

/-- The place that some components lead to. -/
def enterAll (files : FileSystem) (place : Place) : List String → Except PathFault Place
  | [] => .ok place
  | part :: rest => do enterAll files (← files.enter place part) rest

/-- The place that a path leads to. -/
def locate (files : FileSystem) (path : String) : Except PathFault Place :=
  if path = "" then .error .missing
  else files.enterAll (start files.base path) (Path.components path)

/-- What a path leads to. -/
def find? (files : FileSystem) (path : String) : Option Entry :=
  match files.locate path with
  | .ok place => files.entry? place
  | .error _ => none

/-- Whether a path leads to something. -/
def pathExists (files : FileSystem) (path : String) : Bool :=
  (files.find? path).isSome

/-- Whether a path leads to a file. -/
def isFile (files : FileSystem) (path : String) : Bool :=
  match files.find? path with
  | some (.file _) => true
  | _ => false

/-- The syntax tree of the file that a path leads to. -/
def read (files : FileSystem) (path : String) : Except Fault Tree :=
  match files.locate path with
  | .error fault => .error (.path fault path)
  | .ok place =>
      match files.entry? place with
      | some (.file file) =>
          match file.content with
          | .ok tree => .ok tree
          | .error failure => .error (.parse failure)
      | some .directory => .error (.path .directory path)
      | none => .error (.path .missing path)

/-- The syntax trees of all files. -/
def trees (files : FileSystem) : List Tree :=
  files.entries.filterMap fun entry =>
    match entry.2 with
    | .file file => file.content.toOption
    | .directory => none

/-! ## Listing directories -/

/-- What lies below a place, relative to it. -/
def relativeTo (place : Place) (entries : List (Place × Entry)) : List (Place × Entry) :=
  entries.filterMap fun entry =>
    if place.isPrefixOf entry.1 && place.length < entry.1.length then
      some (entry.1.drop place.length, entry.2)
    else none

/-- The names of the files directly in a directory. -/
def fileNames (entries : List (Place × Entry)) : List String :=
  entries.filterMap fun entry =>
    match entry with
    | ([name], .file _) => some name
    | _ => none

/-- The names of the directories directly in a directory. -/
def directoryNames (entries : List (Place × Entry)) : List String :=
  distinct <| entries.filterMap fun entry =>
    match entry with
    | ([name], .directory) => some name
    | (name :: _ :: _, _) => some name
    | _ => none

/-- The paths of the files below a directory to a given depth: the files of a directory stand in
front of those of its subdirectories. -/
def filesTo (top : String) : Nat → List (Place × Entry) → List String
  | 0, _ => []
  | depth + 1, entries =>
      (fileNames entries).map (Path.join top)
        ++ (directoryNames entries).flatMap fun name =>
          filesTo (Path.join top name) depth (relativeTo [name] entries)

/-- The paths of the files below the directory that a path leads to. -/
def below (files : FileSystem) (path : String) : List String :=
  match files.locate path with
  | .error _ => []
  | .ok place =>
      if files.isDirectoryAt place then
        let entries := relativeTo place files.entries
        filesTo path ((entries.map fun entry => entry.1.length).foldl max 0) entries
      else []

/-! ## Writing and running -/

/-- The place of the file that writing to a path would leave there. -/
def writable (files : FileSystem) (path : String) : Except PathFault Place :=
  match files.locate path with
  | .ok place => if files.isDirectoryAt place then .error .directory else .ok place
  | .error fault =>
      let parts := Path.components path
      if path = "" then .error .missing
      else do
        let parent ← files.enterAll (start files.base path) parts.dropLast
        if files.isDirectoryAt parent then
          if (files.entry? (parent ++ [parts.getLastD ""])).isNone then
            return parent ++ [parts.getLastD ""]
          else .error fault
        else .error .notDirectory

/-- A text without the double quotes at both ends. -/
def unquote (text : String) : String :=
  String.ofList ((text.toList.dropWhile (· == '"')).reverse.dropWhile (· == '"')).reverse

/-- Whether a path leads to a file that can be run. -/
def isExecutable (files : FileSystem) (path : String) : Bool :=
  match files.find? path with
  | some (.file file) => file.isExecutable
  | _ => false

/-- Whether a program is found in the directories of a search path. -/
def isInstalled (files : FileSystem) (searchPath program : String) : Bool :=
  (Text.splitAtChar ':' searchPath).any fun directory =>
    files.isExecutable (Path.join (unquote directory) program)

end FileSystem

end CallGraph
