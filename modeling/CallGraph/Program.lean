import CallGraph.Analysis.CallMap
import CallGraph.Analysis.Subset
import CallGraph.Output.Dot
import CallGraph.Output.JsonGraph
import CallGraph.Output.Sorted
import CallGraph.Sources

/-!
# The program

One run of the program: options are checked, sources found, the chart built, cut down to a subset
and sorted, and its text written. An image is made by another program from the text; the run only
leaves the text for it and reports how it ended.

## Main definitions

* `Program.prepare` — everything up to the sorted chart.
* `Program.encode` — what can be written to a file.
* `Program.write` — the text of a chart, and the image.
* `Program.run` — both.
-/

namespace CallGraph

/-- What surrounds a run. -/
structure Environment where
  files : FileSystem
  /-- The encoding of the texts that are written. -/
  encoding : Encoding := .utf8
  /-- The directories in which programs are found, with colons between them. -/
  searchPath : String
  /-- The status with which the program that makes images ends. -/
  imageStatus : Int := 0

namespace Program

/-- Where the text goes. -/
inductive Destination
  /-- To a stream that was handed in. -/
  | stream
  | file (path : String)
  deriving DecidableEq, Repr, Inhabited

/-- The options of a run, as they are given. -/
structure Options where
  language : Value := .nothing
  hideLegend : Bool := true
  excludeNamespaces : Value := .nothing
  excludeFunctions : Value := .nothing
  onlyNamespaces : Value := .nothing
  onlyFunctions : Value := .nothing
  noGrouping : Bool := false
  noTrimming : Bool := false
  skipParseErrors : Bool := false
  subset : Option Subset := none
  aliasLabels : Bool := false
  level : Value := .number 20
  /-- A log style that is in use already and that the level does not change. -/
  logStyle : Option LogStyle := none
  heuristics : Bool := true
  showLibraries : Bool := false
  deriving Inhabited

/-! ## Checking options -/

/-- A list that an option takes; an option that is not set is an empty list. -/
def listOption (name : String) (value : Value) : Except Fault (List Value) :=
  if value.isSet then
    match value with
    | .list items => .ok items
    | _ => .error (.notAList name)
  else .ok []

/-- The log levels that have names. -/
def namedLevels : List (String × Int) :=
  [("CRITICAL", 50), ("FATAL", 50), ("ERROR", 40), ("WARN", 30), ("WARNING", 30), ("INFO", 20),
   ("DEBUG", 10), ("NOTSET", 0)]

/-- The threshold of a log level. -/
def threshold : Value → Except Fault Int
  | .nothing => .ok Level.warning.number
  | .number level => .ok level
  | .flag value => .ok (if value then 1 else 0)
  | .text name =>
      match namedLevels.lookup name with
      | some level => .ok level
      | none => .error (.unknownLevel (Text.quoted name))
  | other => .error (.levelType other.shown)

/-- The log style of a run. -/
def styleOf (options : Options) : Except Fault LogStyle :=
  match options.logStyle with
  | some style => .ok style
  | none => do return { threshold := ← threshold options.level }

/-- The options of the analysis. -/
def mapOptions (options : Options) : Except Fault CallMap.Options := do
  let excludeNamespaces ← listOption "exclude_namespaces" options.excludeNamespaces
  let excludeFunctions ← listOption "exclude_functions" options.excludeFunctions
  let onlyNamespaces ← listOption "include_only_namespaces" options.onlyNamespaces
  let onlyFunctions ← listOption "include_only_functions" options.onlyFunctions
  let style ← styleOf options
  return { noTrimming := options.noTrimming
           excludeNamespaces := excludeNamespaces
           excludeFunctions := excludeFunctions
           onlyNamespaces := onlyNamespaces
           onlyFunctions := onlyFunctions
           skipParseErrors := options.skipParseErrors
           aliasLabels := options.aliasLabels
           heuristics := options.heuristics
           showLibraries := options.showLibraries
           traces := style.shows .debug }

/-! ## Output -/

/-- The endings of images. -/
def imageEndings : List String := ["png", "svg"]

/-- The endings of texts. -/
def textEndings : List String := ["dot", "gv", "json"]

/-- Where a text goes and what is made of it. -/
structure Output where
  /-- The path of the text; `none` for a stream. -/
  path : Option String
  /-- Whether the text is JSON. -/
  isJson : Bool := false
  /-- The path and the ending of the image to be made. -/
  image : Option (String × String) := none
  deriving DecidableEq, Repr, Inhabited

/-- The output that a destination asks for. An image goes through a text beside it. -/
def outputOf (environment : Environment) : Destination → Except Fault Output
  | .stream => .ok { path := none }
  | .file path =>
      match Dotted.splitLast? path with
      | none => .error .outputEnding
      | some (front, ending) =>
          if textEndings.contains ending then
            .ok { path := some path, isJson := ending == "json" }
          else if imageEndings.contains ending then
            if environment.files.isInstalled environment.searchPath "dot"
                || environment.files.isInstalled environment.searchPath "dot.exe" then
              .ok { path := some (front ++ ".gv"), image := some (path, ending) }
            else .error .noImageProgram
          else .error .outputEnding

/-! ## The run -/

/-- A chart that is ready to be written. -/
structure Prepared where
  /-- The chart in the order in which it is written. -/
  chart : Chart
  output : Output

/-- Cuts a chart down to a subset, if one is asked for. -/
def restrict (subset : Option Subset) (chart : Chart) : Reported Chart :=
  match subset with
  | none => return chart
  | some subset => do
      Reported.info "Filtering into subset..."
      liftM (chart.restrict subset)

/-- Everything up to the sorted chart. -/
def prepare (environment : Environment) (sources : List String) (destination : Destination)
    (options : Options) : Reported Prepared := do
  let mapOptions ← liftM (mapOptions options)
  let (paths, language) ←
    Sources.discover environment.files sources (Text.quotedList sources) options.language
  let output ← liftM (outputOf environment destination)
  let chart ← CallMap.build environment.files mapOptions language paths
  let chart ← restrict options.subset chart
  let sorted ← liftM chart.sorted
  Reported.info "Generating output file..."
  return ⟨sorted, output⟩

/-- The text of a chart; it may hold surrogates. -/
def textOf (options : Options) (output : Output) (chart : Chart) : Except Fault Literal :=
  let numbering := Numbering.byAppearance chart
  if output.isJson then (JsonGraph.render numbering chart).map Literal.ofText
  else Dot.render { hideLegend := options.hideLegend, noGrouping := options.noGrouping }
    numbering chart

/-- Checks that a path can be written to. -/
def checkWritable (environment : Environment) (path : String) : Except Fault Unit :=
  match environment.files.writable path with
  | .ok _ => .ok ()
  | .error fault => .error (.path fault path)

/-- The text that a file can hold. -/
def encode (encoding : Encoding) (content : Literal) : Except Fault String :=
  match encoding.text? content with
  | some text => .ok text
  | none =>
      let front := content.takeWhile encoding.fits
      let others := (content.drop front.length).takeWhile fun point => !encoding.fits point
      .error (.notEncodable encoding.name encoding.complaint (others.map CodePoint.code)
        front.length)

/-- Opens a file to be written. -/
def openFile (environment : Environment) (path : String) : Reported Unit := do
  liftM (checkWritable environment path)
  Reported.report [.opened path]

/-- Makes the image of a text. -/
def makeImage (environment : Environment) (text path ending : String) : Reported Unit := do
  Reported.info "Running graphviz to make the image..."
  openFile environment path
  if environment.files.isInstalled environment.searchPath "dot" then
    Reported.log .warning <|
      if environment.imageStatus = 0 then []
      else
        ["*** Graphviz returned non-zero exit code! Try running "
          ++ Text.quoted ("dot -T" ++ ending ++ " " ++ text ++ " -v -O") ++ " for more detail ***"]
    Reported.info ("Completed your flowchart! To see it, open " ++ Text.quoted path ++ ".")
  else Reported.fail (.path .missing "dot")

/-- How messages show where a text went. -/
def shownPath : Option String → String
  | some path => Text.quoted path
  | none => "<stream>"

/-- Writes a text to the file, which is opened first, or to the stream. -/
def writeText (environment : Environment) (output : Output) (text : Except Fault Literal) :
    Reported Unit :=
  match output.path with
  | some path => do
      openFile environment path
      let content ← liftM text
      Reported.report [.written path (← liftM (encode environment.encoding content))]
  | none => do Reported.report [.streamed (← liftM text)]

/-- Writes the text of a chart and makes its image. -/
def write (environment : Environment) (options : Options) (prepared : Prepared) :
    Reported Unit := do
  let output := prepared.output
  writeText environment output (textOf options output prepared.chart)
  Reported.info ("Wrote output file " ++ shownPath output.path ++ " with "
    ++ Text.decimalNat prepared.chart.nodes.length ++ " nodes and "
    ++ Text.decimalNat prepared.chart.edges.length ++ " edges.")
  Reported.log .info <|
    if output.isJson then []
    else ["For better machine readability, you can also try outputting in a json format."]
  match output.image, output.path with
  | some (image, ending), some path => makeImage environment path image ending
  | _, _ => pure ()

/-- A whole run. -/
def run (environment : Environment) (sources : List String) (destination : Destination)
    (options : Options) : Reported Unit := do
  write environment options (← prepare environment sources destination options)

/-- What a run comes to for someone who watches it. -/
structure Watched where
  reports : List Report
  fault : Option Fault
  /-- The chart, if it came to be written. -/
  chart : Option Chart

/-- A whole run, with the chart that came to be written. -/
def watch (environment : Environment) (sources : List String) (destination : Destination)
    (options : Options) : Watched :=
  let prepared := prepare environment sources destination options
  match prepared.result with
  | .error fault => ⟨prepared.reports, some fault, none⟩
  | .ok ready =>
      let written := write environment options ready
      { reports := prepared.reports ++ written.reports
        fault :=
          match written.result with
          | .ok _ => none
          | .error fault => some fault
        chart :=
          if written.reports.any fun report => report.path?.isSome || report.content?.isSome then
            some ready.chart
          else none }

end Program

end CallGraph
