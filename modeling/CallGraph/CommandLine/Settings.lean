import CallGraph.CommandLine.Word
import CallGraph.Text.Quote

/-!
# Reading the command line

The words are gone through once. A switch that takes an argument takes the one it carries or the
word behind it; switches with a single dash may share a word. The first stretch of words that are
no switches names the sources, and words that nothing takes are refused in the end.

Asking for help or for the version ends the reading at once.
-/

namespace CallGraph.CommandLine

/-- What the command line sets. -/
structure Settings where
  sources : List String := []
  output : String := "out.svg"
  language : Option String := none
  targetFunction : Option String := none
  upwardDepth : Int := 0
  downwardDepth : Int := 0
  excludeFunctions : String := ""
  excludeNamespaces : String := ""
  includeOnlyFunctions : String := ""
  includeOnlyNamespaces : String := ""
  noGrouping : Bool := false
  noTrimming : Bool := false
  hideLegend : Bool := false
  skipParseErrors : Bool := false
  quiet : Bool := false
  verbose : Bool := false
  aliasLabels : Bool := false
  heuristics : Bool := true
  showLibraries : Bool := false
  deriving DecidableEq, Repr, Inhabited

/-- Why reading the command line ended without settings. -/
inductive Stop
  | help
  | version
  | fault (fault : UsageFault)
  deriving DecidableEq, Repr, Inhabited

namespace UsageFault

/-- The wording of a fault. -/
def message : UsageFault → String
  | .ambiguous word spellings =>
      "ambiguous option: " ++ word ++ " could match " ++ Text.joinWith ", " spellings
  | .argumentMissing switch => about switch "expected one argument"
  | .argumentIgnored switch text =>
      about switch ("ignored explicit argument " ++ Text.quoted text)
  | .notANumber switch text => about switch ("invalid int value: " ++ Text.quoted text)
  | .notAChoice switch text choices =>
      about switch ("invalid choice: " ++ Text.quoted text ++ " (choose from "
        ++ Text.joinWith ", " (choices.map Text.quoted) ++ ")")
  | .rivals switch other => about switch ("not allowed with argument " ++ other.label)
  | .sourcesMissing => "the following arguments are required: sources"
  | .unrecognized words => "unrecognized arguments: " ++ Text.joinWith " " words

end UsageFault

namespace Settings

/-- The languages that can be asked for. -/
def languages : List String := ["py", "js", "rb", "php"]

/-- The kinds of sources that can be asked for. -/
def sourceTypes : List String := ["script", "module"]

/-- An argument that has to be one of several. -/
def choice (switch : Switch) (choices : List String) (text : String) : Except Stop String :=
  if choices.contains text then .ok text else .error (.fault (.notAChoice switch text choices))

/-- An argument that has to be a whole number. -/
def number (switch : Switch) (text : String) : Except Stop Int :=
  match Text.integer? text with
  | some number => .ok number
  | none => .error (.fault (.notANumber switch text))

/-- What a switch sets; those that only matter to other languages set nothing. -/
def apply (settings : Settings) (switch : Switch) (argument : String) : Except Stop Settings := do
  match switch with
  | .help => .error .help
  | .version => .error .version
  | .output => return { settings with output := argument }
  | .language => return { settings with language := some (← choice switch languages argument) }
  | .targetFunction => return { settings with targetFunction := some argument }
  | .upwardDepth => return { settings with upwardDepth := ← number switch argument }
  | .downwardDepth => return { settings with downwardDepth := ← number switch argument }
  | .excludeFunctions => return { settings with excludeFunctions := argument }
  | .excludeNamespaces => return { settings with excludeNamespaces := argument }
  | .includeOnlyFunctions => return { settings with includeOnlyFunctions := argument }
  | .includeOnlyNamespaces => return { settings with includeOnlyNamespaces := argument }
  | .noGrouping => return { settings with noGrouping := true }
  | .noTrimming => return { settings with noTrimming := true }
  | .hideLegend => return { settings with hideLegend := true }
  | .skipParseErrors => return { settings with skipParseErrors := true }
  | .sourceType => do
      let _ ← choice switch sourceTypes argument
      return settings
  | .rubyVersion => return settings
  | .quiet => return { settings with quiet := true }
  | .verbose => return { settings with verbose := true }
  | .aliasLabels => return { settings with aliasLabels := true }
  | .heuristics => return { settings with heuristics := true }
  | .noHeuristics => return { settings with heuristics := false }
  | .showLibraries => return { settings with showLibraries := true }
  | .noLibraries => return { settings with showLibraries := false }

end Settings

/-- How far the words have been read. -/
structure Reading where
  settings : Settings := {}
  /-- The words of the stretch that names the sources, once it has begun. -/
  stretch : Option (List String) := none
  /-- Whether the stretch may still grow. -/
  isOpen : Bool := true
  /-- The switches met so far. -/
  met : List Switch := []
  /-- The words that nothing takes. -/
  left : List String := []
  deriving Inhabited

namespace Reading

/-- A switch is met, with an argument or an empty text. -/
def take (reading : Reading) (switch : Switch) (argument : String) : Except Stop Reading := do
  match switch.rival?.filter reading.met.contains with
  | some other => .error (.fault (.rivals switch other))
  | none => pure ()
  return { reading with
    settings := ← reading.settings.apply switch argument
    met := switch :: reading.met }

/-- Switches are met, one after the other. -/
def takeAll (reading : Reading) : List (Switch × String) → Except Stop Reading
  | [] => .ok reading
  | (switch, argument) :: rest => do (← reading.take switch argument).takeAll rest

/-- What a word that holds switches comes to: the switches with their arguments, whether the last
one takes its argument from the next word, and what is left of the word. -/
structure Unfolded where
  taken : List (Switch × String) := []
  wanting : Option Switch := none
  left : List String := []
  deriving Inhabited

/-- Unfolds the switches that share a word with one dash; `chars` is what follows the switch. -/
def unfoldShort (switch : Switch) : List Char → Except Stop Unfolded
  | [] =>
      .ok (if switch.takesArgument then { wanting := some switch } else { taken := [(switch, "")] })
  | c :: rest =>
      if switch.takesArgument then
        .ok { taken := [(switch, String.ofList (if c = '=' then rest else c :: rest))] }
      else if c = '=' then
        .error (.fault (.argumentIgnored switch (String.ofList rest)))
      else if c = '-' then
        .error (.fault (.argumentIgnored switch (String.ofList (c :: rest))))
      else
        match Switch.ofSpelling? (String.ofList ['-', c]) with
        | none =>
            .ok { taken := [(switch, "")], left := [String.ofList ('-' :: c :: rest)] }
        | some next => do
            let others ← unfoldShort next rest
            return { others with taken := (switch, "") :: others.taken }

/-- Unfolds the switches of a word. -/
def unfold (switch : Switch) (isShort : Bool) : Option Attached → Except Stop Unfolded
  | none =>
      .ok (if switch.takesArgument then { wanting := some switch } else { taken := [(switch, "")] })
  | some attached =>
      if switch.takesArgument then .ok { taken := [(switch, attached.text)] }
      else if !isShort || attached.behindEquals || attached.text = "" then
        .error (.fault (.argumentIgnored switch attached.text))
      else unfoldShort switch attached.text.toList

/-- A word that is no switch: it belongs to the stretch of the sources, or nothing takes it. -/
def addWord (reading : Reading) (word : String) : Reading :=
  match reading.stretch with
  | none => { reading with stretch := some [word] }
  | some words =>
      if reading.isOpen then { reading with stretch := some (words ++ [word]) }
      else { reading with left := reading.left ++ [word] }

/-- A switch ends the stretch of the sources. -/
def close (reading : Reading) : Reading :=
  { reading with isOpen := reading.stretch.isNone }

/-- Goes through the words. -/
def go (reading : Reading) : List (String × Word) → Except Stop Reading
  | [] => .ok reading
  | (word, .argument) :: rest => go (reading.addWord word) rest
  | (word, .separator) :: rest => go (reading.addWord word) rest
  | (word, .unknown) :: rest => go { reading.close with left := reading.left ++ [word] } rest
  | (_, .known switch isShort attached) :: rest => do
      let unfolded ← unfold switch isShort attached
      let reading := { reading.close with left := reading.left ++ unfolded.left }
      match unfolded.wanting, rest with
      | none, rest => go (← reading.takeAll unfolded.taken) rest
      | some last, (argument, .argument) :: others =>
          go (← reading.takeAll (unfolded.taken ++ [(last, argument)])) others
      | some last, _ => .error (.fault (.argumentMissing last))

/-- The settings that were read; the stretch of the sources has to hold a source. -/
def finish (reading : Reading) : Except Stop Settings :=
  match (reading.stretch.getD []).erase "--" with
  | [] => .error (.fault .sourcesMissing)
  | sources =>
      if reading.left.isEmpty then .ok { reading.settings with sources := sources }
      else .error (.fault (.unrecognized reading.left))

end Reading

/-- The settings that the words of a command line make. -/
def Settings.ofWords (words : List String) : Except Stop Settings :=
  match Word.readAll words with
  | .error fault => .error (.fault fault)
  | .ok read => do (← Reading.go {} read).finish

end CallGraph.CommandLine
