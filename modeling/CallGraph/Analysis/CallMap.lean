import CallGraph.Analysis.ArgumentFlow
import CallGraph.Analysis.Inheritance
import CallGraph.Analysis.Limits
import CallGraph.Analysis.Link
import CallGraph.Analysis.Settle
import CallGraph.Analysis.Trim
import CallGraph.Graph.Load
import CallGraph.Imports
import CallGraph.Journal

/-!
# From sources to a chart

The whole analysis: the sources are read, their imports followed, unwanted parts left out, bindings
settled, calls linked, and what is not connected is taken out. Each part is a function of its own
that reports nothing; here they are put in order, with what the log tells in between.

## Main definitions

* `CallMap.build` — the chart of some sources.
-/

namespace CallGraph

namespace CallMap

/-- What the analysis depends on besides the sources. -/
structure Options where
  noTrimming : Bool := false
  excludeNamespaces : List Value := []
  excludeFunctions : List Value := []
  onlyNamespaces : List Value := []
  onlyFunctions : List Value := []
  /-- Files that cannot be parsed are passed over. -/
  skipParseErrors : Bool := false
  aliasLabels : Bool := false
  /-- Whether rules that guess are in use. -/
  heuristics : Bool := true
  showLibraries : Bool := false
  /-- Whether the log traces how each call is resolved. -/
  traces : Bool := false
  deriving Inhabited

/-! ## Reading -/

/-- Reads the syntax trees of the sources. -/
def readAll (files : FileSystem) (skip : Bool) : List String → Reported (List (String × Tree))
  | [] => return []
  | source :: rest =>
      match files.read source with
      | .ok tree => do
          let others ← readAll files skip rest
          return (source, tree) :: others
      | .error fault =>
          if skip then do
            Reported.warn ("Could not parse " ++ Text.quoted source ++ ". (" ++ fault.shown
              ++ ") Skipping...")
            readAll files skip rest
          else Reported.fail fault

/-- The directory below which the imports of a source are looked for. -/
def baseOf (source : String) : String :=
  let directory := Path.directory source
  if directory = "" then "." else directory

/-- The outlines of the sources and of what they import. -/
def outlineAll (files : FileSystem) (skip : Bool) :
    List String → List (String × Tree) → Reported (List FileOutline)
  | _, [] => return []
  | taken, (source, _) :: rest =>
      let followed := Imports.follow files (baseOf source) taken source
      match followed.outlines with
      | .ok outlines => do
          let others ← outlineAll files skip followed.taken rest
          return outlines ++ others
      | .error fault =>
          if skip then do
            Reported.warn ("Could not parse dependency tree for " ++ Text.quoted source ++ " ("
              ++ fault.shown ++ "). Skipping...")
            outlineAll files skip followed.taken rest
          else Reported.fail fault

/-- The outlines that the analysis works on. -/
def outlines (files : FileSystem) (options : Options) (sources : List String) :
    Reported (List FileOutline) := do
  let read ← readAll files options.skipParseErrors sources
  if options.heuristics then outlineAll files options.skipParseErrors [] read
  else return read.map fun source => FileOutline.ofTree source.2 source.1

/-! ## Leaving out -/

/-- Leaves out namespaces. -/
def limitNamespaces (options : Options) (graph : Graph) (files : List GroupId) :
    Reported Graph :=
  if options.excludeNamespaces.isEmpty && options.onlyNamespaces.isEmpty then return graph
  else do
    let (exclude, only) := (options.excludeNamespaces, options.onlyNamespaces)
    Reported.report ((Limits.namespaceListing graph files).map .print)
    let warnings := Limits.namespaceWarnings graph files exclude only
    Reported.log .warning warnings.1
    liftM warnings.2
    return Limits.limitNamespaces graph files exclude only

/-- Leaves out functions. -/
def limitFunctions (options : Options) (graph : Graph) (files : List GroupId) : Reported Graph :=
  if options.excludeFunctions.isEmpty && options.onlyFunctions.isEmpty then return graph
  else do
    let (exclude, only) := (options.excludeFunctions, options.onlyFunctions)
    let warnings := Limits.functionWarnings graph files exclude only
    Reported.log .warning warnings.1
    liftM warnings.2
    return Limits.limitFunctions graph files exclude only

/-- Leaves out namespaces and functions. -/
def limit (options : Options) (graph : Graph) (files : List GroupId) : Reported Graph := do
  limitFunctions options (← limitNamespaces options graph files) files

/-! ## What the log tells about the graph -/

/-- A target in running text. -/
def targetText (graph : Graph) : Target → String
  | .name name => name
  | .call call => call.shown
  | .table table => Text.quotedTable table
  | .node node => (graph.node node).token
  | .group group => (graph.group group).token
  | .value value => value.plain

/-- A binding as the log lists it. -/
def bindingText (graph : Graph) (binding : Binding) : String :=
  binding.token ++ "->" ++ targetText graph binding.target

/-- The names of bindings that the log looks at more closely. -/
def watchedNames : List String := ["arg_parser", "parser"]

/-- What the log tells about one binding that it looks at more closely. -/
def watchedLine (graph : Graph) (node : NodeId) (binding : Binding) : String :=
  let about :=
    match binding.target with
    | .call call =>
        "Call owner_token=" ++ Text.orNone call.owner ++ " token=" ++ call.token ++ " is_library="
          ++ Text.truth call.isLibrary
    | .node target =>
        "Node token=" ++ (graph.node target).token ++ " parent="
          ++ Text.orNone (graph.parentToken? target) ++ " is_library="
          ++ Text.truth (graph.node target).isLibrary
    | .group group =>
        "Group token=" ++ (graph.group group).token ++ " display_type="
          ++ (graph.group group).display
    | .name name => "points_to type=str repr=" ++ Text.quoted name
    | .table table => "points_to type=dict repr=" ++ Text.quotedTable table
    | .value value => "points_to type=" ++ value.typeName ++ " repr=" ++ value.shown
  "[DEBUG_VAR] " ++ binding.token ++ " -> " ++ about ++ " (node=" ++ (graph.node node).token ++ ")"

/-- The bindings of a node; none if it has no body. -/
def bindingsOf (graph : Graph) (node : NodeId) : List Binding :=
  (graph.node node).bindings.getD []

/-- The lines about bindings that the log looks at more closely. -/
def watchedLines (graph : Graph) (nodes : List NodeId) : List String :=
  nodes.flatMap fun node =>
    ((bindingsOf graph node).filter fun binding => watchedNames.contains binding.token).map
      (watchedLine graph node)

/-- The calls of some nodes. -/
def callsOf (graph : Graph) (nodes : List NodeId) : List Call :=
  nodes.flatMap fun node => (graph.node node).calls

/-- The lines that list groups, nodes, calls and bindings. -/
def inventory (graph : Graph) (files : List GroupId) (nodes : List NodeId) : List String :=
  ["Found groups " ++ Text.quotedList ((graph.groupsOf files).map graph.groupLabel) ++ ".",
   "Found nodes " ++ Text.quotedList (sortTexts (nodes.map graph.ownedToken)) ++ ".",
   "Found calls "
     ++ Text.quotedList (sortTexts (distinct ((callsOf graph nodes).map Call.text))) ++ ".",
   "Found variables "
     ++ Text.quotedList (sortTexts (distinct ((nodes.flatMap (bindingsOf graph)).map
       (bindingText graph)))) ++ "."]

/-! ## Linking -/

/-- The graph in which bindings are settled, with the log lines about it. -/
def settle (options : Options) (graph : Graph) (files : List GroupId) (nodes : List NodeId) :
    Reported Graph := do
  Reported.log .warning ((graph.repeatedTokens (graph.groupsOf files)).map fun token =>
    "Duplicate group full token " ++ Text.quoted token ++ ". Naming collision possible.")
  let inherited := if options.heuristics then graph.inherit files else graph
  let settled ← liftM (inherited.settle files nodes)
  if options.heuristics then
    Reported.log .debug (if options.traces then settled.flowLines nodes else [])
    return settled.passArguments nodes
  else return settled

/-- The file group of the placeholders for calls whose target is not found. -/
def missingFile : Group :=
  { token := "NotFound", kind := .file, display := "File", line := some 0 }

/-- The start of linking when the library nodes are made: their packages are hung into the files,
and they are listed behind the other nodes. -/
def startWith (graph : Graph) (files : List GroupId) (libraries : Libraries)
    (nodes : List NodeId) : Linking :=
  let hung := Libraries.hangAll graph files libraries.packages
  let listed := libraries.packages.flatMap fun package => hung.1.allNodes package.2
  let missing := hung.1.addGroup missingFile
  { graph := missing.1, files := hung.2, nodes := nodes ++ listed, libraries := libraries,
    missingGroup := missing.2, missing := [], edges := [], ambiguous := [] }

/-- The start of linking: library nodes are made and hung into the files. -/
def startLinking (graph : Graph) (files : List GroupId) (nodes : List NodeId) :
    Reported Linking := do
  let calls := callsOf graph nodes
  let direct := Libraries.ofCalls graph {} calls
  let all := nodes ++ direct.2.2
  let indirect := Libraries.ofInstances all direct.1 direct.2.1 calls
  Reported.log .debug (indirect.2.2.map fun made =>
    "[LIB_SYNTH] synthesized " ++ made.1 ++ " -> node token=" ++ (indirect.1.node made.2).token
      ++ " parent=" ++ Text.orNone (indirect.1.parentToken? made.2))
  return startWith indirect.1 files indirect.2.1 all

/-- Links all calls. -/
def link (options : Options) (imports : List NodeId) (start : Linking) : Reported Linking := do
  let linkOptions : LinkOptions := ⟨options.heuristics, options.aliasLabels⟩
  Reported.log .debug
    (if options.traces then (start.askedAll linkOptions imports start.nodes).flatMap Query.trace
     else [])
  let linked ← liftM (start.linkAll linkOptions imports start.nodes)
  let listed := linked.withMissing
  Reported.log .info <|
    match listed.ambiguousTexts with
    | [] => []
    | texts =>
        ["Skipped processing these calls because the algorithm linked them to multiple function "
          ++ "definitions: " ++ Text.quotedList texts ++ "."]
  return listed

/-! ## The chart -/

/-- The warnings about a chart without nodes. -/
def emptyWarnings : List String :=
  ["No functions found! Most likely, your file(s) do not have functions that call each other. "
    ++ "Note that to generate a flowchart, you need to have both the function calls and the "
    ++ "function definitions. Or, you might be excluding too many with --exclude-* / --include-* "
    ++ "/ --target-function arguments. ",
   "Code2flow will generate an empty output file."]

/-- What is left of a chart when libraries are hidden and what is not connected is taken out. -/
def cut (options : Options) (chart : Chart) : Chart :=
  if options.noTrimming then chart
  else if options.showLibraries then chart.trim
  else chart.hideLibraries.trim

/-- What linking the calls starts from: the state, and the nodes of imports, which are candidates
for every call. -/
structure Prepared where
  imports : List NodeId
  start : Linking

/-- Everything in front of linking: the outlines are loaded and limited, the bindings settled and
the library nodes made. -/
def prepare (options : Options) (outlines : List FileOutline) : Reported Prepared := do
  let loaded := Graph.loaded outlines
  let files := loaded.2
  let graph ← limit options loaded.1 files
  let nodes := graph.nodesOf files
  let graph ← settle options graph files nodes
  Reported.log .info (watchedLines graph nodes)
  Reported.log .info (inventory graph files nodes)
  let start ← startLinking graph files nodes
  return ⟨files.flatMap graph.allImports, start⟩

/-- The chart of a linked graph before anything is cut from it. -/
def chartOf (linked : Linking) : Chart :=
  { graph := linked.graph, files := linked.files, nodes := linked.nodes, edges := linked.edges }

/-- The chart of the outlines of files. -/
def ofOutlines (options : Options) (outlines : List FileOutline) : Reported Chart := do
  let prepared ← prepare options outlines
  let linked ← link options prepared.imports prepared.start
  let chart := cut options (chartOf linked)
  Reported.log .warning
    (if !options.noTrimming && chart.nodes.isEmpty then emptyWarnings else [])
  return chart

/-- Whether a language can be analysed. -/
def checkLanguage : Value → Except Fault Unit
  | .text name =>
      if name = FileOutline.sourceSuffix then .ok ()
      else .error (.unknownLanguage (Text.quoted name))
  | other =>
      if other.isHashable then .error (.unknownLanguage other.shown)
      else .error (.notHashable other.typeName)

/-- The chart of some sources. -/
def build (files : FileSystem) (options : Options) (language : Value) (sources : List String) :
    Reported Chart := do
  liftM (checkLanguage language)
  ofOutlines options (← outlines files options sources)

end CallMap

end CallGraph
