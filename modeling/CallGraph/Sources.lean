import CallGraph.FileSystem
import CallGraph.Journal
import CallGraph.Outline

/-!
# Finding the sources

The sources are named by paths. A path of a file names this file, whatever its ending; a path of a
directory names the files below it that have the ending of the language. If no language is given, it
is that of the first file with a known ending.
-/

namespace CallGraph

namespace Sources

/-- A file found, and whether it was named by its own path. -/
structure Found where
  path : String
  isNamed : Bool
  deriving DecidableEq, Repr, Inhabited

/-- The files that one path names. -/
def namedBy (files : FileSystem) (path : String) : List Found :=
  if files.isFile path then [⟨path, true⟩] else (files.below path).map (⟨·, false⟩)

/-- The files that some paths name, path by path in sorted order. -/
def find (files : FileSystem) (paths : List String) : List Found :=
  (sortTexts paths).flatMap (namedBy files)

/-- The language that the ending of a path stands for. -/
def languageOf? (path : String) : Option String :=
  if Dotted.last path = FileOutline.sourceSuffix then some FileOutline.sourceSuffix else none

/-- The language of some files. -/
def detect (found : List Found) : Reported String :=
  match found.findSome? fun file => languageOf? file.path with
  | some language => do
      Reported.info ("Implicitly detected language as " ++ Text.quoted language ++ ".")
      return language
  | none => .fail (.languageNotDetected (found.map fun file => (file.path, file.isNamed)))

/-- Whether a file is taken: it was named, or has the ending of the language. -/
def isTaken (language : Value) (file : Found) : Except Fault Bool :=
  if file.isNamed then .ok true
  else
    match language with
    | .text ending => .ok (Text.endsWith file.path ("." ++ ending))
    | other => .error (.languageType other.typeName)

/-- The paths of the files that are taken. -/
def select (language : Value) : List Found → Reported (List String)
  | [] => return []
  | file :: rest => do
      if ← isTaken language file then
        let others ← select language rest
        return file.path :: others
      else
        Reported.info ("Skipping " ++ Text.quoted file.path ++ " which is not a " ++ language.plain
          ++ " file. If this is incorrect, include it explicitly.")
        select language rest

/-- The language given or, if none is, that of the files. -/
def languageFor (found : List Found) (language : Value) : Reported Value :=
  if language.isSet then return language
  else do
    let detected ← detect found
    return Value.text detected

/-- The paths to be analysed and their language. `shown` is how messages show the paths given. -/
def discover (files : FileSystem) (paths : List String) (shown : String) (language : Value) :
    Reported (List String × Value) := do
  let found := find files paths
  if found.isEmpty then
    Reported.fail (.nothingFound shown)
  else
    Reported.info ("Found " ++ Text.decimalNat found.length ++ " files from sources argument.")
    let language ← languageFor found language
    let selected ← select language found
    if selected.isEmpty then
      Reported.fail .nothingOfLanguage
    else
      let sources := sortTexts (distinct selected)
      Reported.info ("Processing " ++ Text.decimalNat sources.length ++ " source file(s).")
      Reported.log .info (sources.map ("  " ++ ·))
      return (sources, language)

end Sources

end CallGraph
