import CallGraph.Text.Quote
import CallGraph.Value

/-!
# Faults

Everything that can stop the program, as causes, with the wording of each in `Fault.message`.
-/

namespace CallGraph

/-- Why the text of a file has no syntax tree. -/
structure ParseFailure where
  /-- The kind of failure. -/
  kind : String
  message : String
  /-- The failure as the log shows it. -/
  shown : String
  deriving DecidableEq, Repr, Inhabited

/-- Why a path could not be opened. -/
inductive PathFault
  | missing
  | directory
  | notDirectory
  deriving DecidableEq, Repr, Inhabited

namespace PathFault

/-- The number of the failure. -/
def number : PathFault → Nat
  | .missing => 2
  | .directory => 21
  | .notDirectory => 20

/-- The failure in words. -/
def reason : PathFault → String
  | .missing => "No such file or directory"
  | .directory => "Is a directory"
  | .notDirectory => "Not a directory"

end PathFault

/-- A refused combination of the options that choose a subset. -/
inductive SubsetFault
  | upwardWithoutTarget
  | downwardWithoutTarget
  | targetWithoutDepth
  | negativeUpward
  | negativeDownward
  deriving DecidableEq, Repr, Inhabited

namespace SubsetFault

def message : SubsetFault → String
  | .upwardWithoutTarget => "--upstream-depth requires --target-function"
  | .downwardWithoutTarget => "--downstream-depth requires --target-function"
  | .targetWithoutDepth => "--target-function requires --upstream-depth or --downstream-depth"
  | .negativeUpward => "--upstream-depth must be >= 0. Exclude argument for complete depth."
  | .negativeDownward => "--downstream-depth must be >= 0. Exclude argument for complete depth."

end SubsetFault

/-- A cause that stops the program. -/
inductive Fault
  /-- Walking up from a node or group met nothing where an entry was needed; `wanted` is what was
  asked of it. -/
  | nothingHas (wanted : String)
  /-- A node stands where a group is needed; `wanted` is what was asked of it. -/
  | nodeLacks (wanted : String)
  /-- A text stands where a node is needed. -/
  | textLacks (wanted : String)
  /-- The bindings of a node that has none were asked for. -/
  | noBindings
  /-- The bindings of a file were asked for whose root has none. -/
  | noRootBindings
  /-- Entries without a place in the order were to be sorted. -/
  | notComparable
  /-- A value that is no key was looked up. -/
  | notHashable (type : String)
  /-- A binding stands for a plain value when bindings are settled. -/
  | unsettled
  /-- A binding without a name. -/
  | bindingWithoutToken
  /-- A binding to nothing. -/
  | bindingWithoutTarget
  /-- There is no kind of groups of this name. -/
  | unknownGroupKind (label : String)
  /-- A list has no entry at the place asked for. -/
  | noSuchIndex
  /-- Something else stands where a class definition is needed. -/
  | notAClass
  /-- There is no language of this name. -/
  | unknownLanguage (shown : String)
  /-- An option that takes a list was given something else. -/
  | notAList (option : String)
  /-- There is no log level of this name. -/
  | unknownLevel (shown : String)
  /-- A log level is neither a number nor a name. -/
  | levelType (shown : String)
  /-- A language that is not a text. -/
  | languageType (type : String)
  /-- The sources name no file. -/
  | nothingFound (shown : String)
  /-- No file found has the ending of a known language. -/
  | languageNotDetected (files : List (String × Bool))
  /-- No file found is of the language. -/
  | nothingOfLanguage
  /-- The output has an ending that cannot be written. -/
  | outputEnding
  /-- Images need a program that is not there. -/
  | noImageProgram
  /-- A path could not be opened. -/
  | path (fault : PathFault) (path : String)
  /-- A file could not be parsed. -/
  | parse (failure : ParseFailure)
  /-- Code points that an encoding lacks, given by their numbers, stand from a position on in what
  was to be written. -/
  | notEncodable (encoding complaint : String) (codes : List Nat) (position : Nat)
  | subset (fault : SubsetFault)
  /-- No node is named by the target of a subset. -/
  | targetNotFound (target : String)
  /-- Several nodes are named by the target of a subset. -/
  | targetAmbiguous (target : String) (shown : List String)
  /-- More and less logging were asked for at once. -/
  | verboseAndQuiet
  /-- A key that is not in a table. -/
  | noSuchKey (key : String)
  /-- An item that is not a text among texts to be joined. -/
  | notAText (index : Nat) (type : String)
  /-- A value that holds no items where items are needed. -/
  | notIterable (type : String)
  deriving DecidableEq, Repr, Inhabited

namespace Fault

/-- The wording of a fault. -/
def message : Fault → String
  | .nothingHas wanted => "'NoneType' object has no attribute " ++ Text.quoted wanted
  | .nodeLacks wanted => "'Node' object has no attribute " ++ Text.quoted wanted
  | .textLacks wanted => "'str' object has no attribute " ++ Text.quoted wanted
  | .noBindings => "'NoneType' object is not iterable"
  | .noRootBindings => "unsupported operand type(s) for +: 'NoneType' and 'list'"
  | .notComparable => "'<' not supported between instances of 'NoneType' and 'int'"
  | .notHashable type => "unhashable type: " ++ Text.quoted type
  | .unsettled => "variable.points_to must be a Node or Group at this point"
  | .bindingWithoutToken => "token must be provided"
  | .bindingWithoutTarget => "points_to must not be None"
  | .unknownGroupKind label => "Invalid group_type: " ++ label
  | .noSuchIndex => "list index out of range"
  | .notAClass => "make_class_group expects ast.ClassDef"
  | .unknownLanguage shown => shown
  | .notAList option => option ++ " must be a list"
  | .unknownLevel shown => "Unknown level: " ++ shown
  | .levelType shown => "Level not an integer or a valid string: " ++ shown
  | .languageType type => "can only concatenate str (not \"" ++ type ++ "\") to str"
  | .nothingFound shown => "No source files found from " ++ shown
  | .languageNotDetected files =>
      let listed := Text.bracketed (files.map fun file =>
        "(" ++ Text.quoted file.1 ++ ", " ++ Text.truth file.2 ++ ")")
      "(" ++ Text.quoted ("Language could not be detected from input " ++ listed ++ ". ") ++ ", "
        ++ Text.quoted "Try explicitly passing the language flag." ++ ")"
  | .nothingOfLanguage =>
      "Could not find any source files given \x7braw_source_paths\x7d "
        ++ "and language \x7blanguage\x7d."
  | .outputEnding =>
      "Output filename must end in one of: \x7b'png', 'svg', 'dot', 'gv', 'json'\x7d."
  | .noImageProgram =>
      "Can't generate a flowchart image because neither `dot` nor `dot.exe` was found. "
        ++ "Either install graphviz (see the README) or, if you just want an intermediate text "
        ++ "file, set your --output file to use a supported text extension: "
        ++ "\x7b'dot', 'gv', 'json'\x7d"
  | .path fault name =>
      "[Errno " ++ Text.decimalNat fault.number ++ "] " ++ fault.reason ++ ": " ++ Text.quoted name
  | .parse failure => failure.message
  | .notEncodable encoding complaint codes position =>
      let which :=
        match codes with
        | [code] =>
            let shown :=
              if code < 0x100 then "\\x" ++ Text.hex 2 code
              else if code < 0x10000 then "\\u" ++ Text.hex 4 code
              else "\\U" ++ Text.hex 8 code
            " '" ++ shown ++ "' in position " ++ Text.decimalNat position
        | _ =>
            "s in position " ++ Text.decimalNat position ++ "-"
              ++ Text.decimalNat (position + codes.length - 1)
      "'" ++ encoding ++ "' codec can't encode character" ++ which ++ ": " ++ complaint
  | .subset fault => fault.message
  | .targetNotFound target =>
      "Could not find node " ++ Text.quoted target ++ " to build a subset."
  | .targetAmbiguous target shown =>
      "Found multiple nodes for " ++ Text.quoted target ++ ": " ++ Text.bracketed shown
        ++ ". Try either a `class.func` or `filename::class.func`."
  | .verboseAndQuiet => "Passed both --verbose and --quiet flags"
  | .noSuchKey key => Text.quoted key
  | .notAText index type =>
      "sequence item " ++ Text.decimalNat index ++ ": expected str instance, " ++ type ++ " found"
  | .notIterable type => Text.quoted type ++ " object is not iterable"

/-- A fault of reading a file as the log shows it; a path fault without the path. -/
def shown : Fault → String
  | .parse failure => failure.shown
  | .path .directory _ => "IsADirectoryError(21, 'Is a directory')"
  | .path .missing _ => "FileNotFoundError(2, 'No such file or directory')"
  | .path .notDirectory _ => "NotADirectoryError(20, 'Not a directory')"
  | fault => fault.message

end Fault

end CallGraph
