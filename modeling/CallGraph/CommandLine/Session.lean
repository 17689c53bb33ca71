import CallGraph.CommandLine.Settings
import CallGraph.Program

/-!
# A run from the command line

A word `level=…` anywhere sets the log level, by number or by name; it is no word of the command
line proper. A level that nobody knows is reported at once, and then the log keeps the style that
it has before anything is set up.

## Main definitions

* `Session.ofWords` — what a command line comes to.
-/

namespace CallGraph.CommandLine

/-! ## Log levels -/

/-- A letter in upper case, as far as it leads to one of the plain letters. -/
def upperLetter (c : Char) : Char :=
  if 'a' ≤ c && c ≤ 'z' then Char.ofNat (c.toNat - 32)
  else if c.toNat = 0x131 then 'I'
  else if c.toNat = 0x17f then 'S'
  else c

/-- The name of the format in which lines are shown before anything is set up. -/
def formatName : String := "BASIC_FORMAT"

/-- The format in which lines are shown before anything is set up. -/
def formatText : String := "%(levelname)s:%(name)s:%(message)s"

/-- A text behind another, if it starts with that. -/
def behind? (front text : String) : Option String :=
  if Text.startsWith text front then some (String.ofList (text.toList.drop front.length)) else none

/-- The level that a text names, without what qualifies it in front. -/
def levelName (text : String) : String :=
  (behind? "logging." text).getD text

/-- The level that a name stands for. -/
def levelOf? (name : String) : Option Value :=
  match Text.integer? name with
  | some number => some (.number number)
  | none =>
      let upper := String.ofList (name.toList.map upperLetter)
      if upper = formatName then some (.text formatText)
      else (Program.namedLevels.lookup upper).map .number

/-- What the words set of the log. -/
structure LogSetting where
  /-- The level that the last such word sets, if it is known. -/
  level : Option Value := none
  /-- The names of the levels that nobody knows. -/
  unknown : List String := []
  /-- The words of the command line proper. -/
  words : List String := []
  deriving Inhabited

namespace LogSetting

/-- Takes one word. -/
def add (setting : LogSetting) (word : String) : LogSetting :=
  match behind? "level=" word with
  | none => { setting with words := setting.words ++ [word] }
  | some text =>
      let name := levelName text
      match levelOf? name with
      | some level => { setting with level := some level }
      | none => { setting with level := none, unknown := setting.unknown ++ [name] }

/-- What some words set of the log. -/
def ofWords (words : List String) : LogSetting :=
  words.foldl add {}

/-- The log style that is in use before the program sets one up. -/
def style? (setting : LogSetting) : Option LogStyle :=
  if setting.unknown.isEmpty then none else some .initial

/-- The warnings about unknown levels. -/
def warnings (setting : LogSetting) : List Report :=
  setting.unknown.map fun name =>
    .log .warning ("Unknown logging level " ++ Text.quoted name ++ " passed via CLI; ignoring.")

end LogSetting

/-! ## Options -/

/-- The items of a list with commas; empty ones do not count. -/
def listOf (text : String) : Value :=
  .list (((Text.splitAtChar ',' text).filter (· ≠ "")).map .text)

/-- The log level that the settings ask for. -/
def levelFor (settings : Settings) (setting : LogSetting) : Value :=
  setting.level.getD <|
    .number (if settings.quiet then 30 else if settings.verbose then 10 else 20)

/-- The options that the settings make. -/
def optionsOf (settings : Settings) (setting : LogSetting) : Except Fault Program.Options := do
  if settings.verbose && settings.quiet then .error .verboseAndQuiet
  else
    let subset ← Subset.ofOptions? settings.targetFunction settings.upwardDepth
      settings.downwardDepth
    return { language :=
               match settings.language with
               | some language => .text language
               | none => .nothing
             hideLegend := settings.hideLegend
             excludeNamespaces := listOf settings.excludeNamespaces
             excludeFunctions := listOf settings.excludeFunctions
             onlyNamespaces := listOf settings.includeOnlyNamespaces
             onlyFunctions := listOf settings.includeOnlyFunctions
             noGrouping := settings.noGrouping
             noTrimming := settings.noTrimming
             skipParseErrors := settings.skipParseErrors
             subset := subset
             aliasLabels := settings.aliasLabels
             level := levelFor settings setting
             logStyle := setting.style?
             heuristics := settings.heuristics
             showLibraries := settings.showLibraries }

/-! ## Sessions -/

/-- The name of the program. -/
def programName : String := "code2flow"

/-- The version of the program. -/
def version : String := "2.5.1"

/-- The lines printed before the command line is read. -/
def banner (program : String) : List String :=
  ["DEBUG: local name 'parser' is not defined in engine.main()",
   "DEBUG: local name 'arg_parser' -> type=ArgumentParser repr=ArgumentParser(prog="
     ++ Text.quoted program ++ ", usage=None, description='Generate flow charts from your source "
     ++ "code. See the README at https://github.com/scottrogowski/code2flow.', "
     ++ "formatter_class=<class 'argparse.ArgumentDefaultsHelpFormatter'>, "
     ++ "conflict_handler='error', add_help=True)"]

/-- What a command line asks for. -/
inductive Request
  /-- To be ended with a status, after a line printed or a line of error. -/
  | ended (status : Nat) (printed : List String) (complaint : String)
  /-- To fail before anything is analysed. -/
  | failed (fault : Fault)
  /-- To run the program. -/
  | run (sources : List String) (destination : Program.Destination) (options : Program.Options)

/-- What a command line comes to: what is printed and logged at first, and what it asks for. -/
structure Session where
  printed : List String
  warnings : List Report
  request : Request

namespace Session

/-- What a command line comes to that ends without a run. -/
def ended (program : String) : Stop → Request
  | .help => .ended 0 [] ""
  | .version => .ended 0 [program ++ " " ++ version] ""
  | .fault fault => .ended 2 [] (program ++ ": error: " ++ fault.message)

/-- What a command line comes to. -/
def ofWords (program : String) (words : List String) : Session :=
  let setting := LogSetting.ofWords words
  { printed := banner program
    warnings := setting.warnings
    request :=
      match Settings.ofWords setting.words with
      | .error stop => ended program stop
      | .ok settings =>
          match optionsOf settings setting with
          | .error fault => .failed fault
          | .ok options => .run settings.sources (.file settings.output) options }

end Session

end CallGraph.CommandLine
