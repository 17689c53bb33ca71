import CallGraph.Text.Dotted

/-!
# The switches of the command line

Every switch has one or two spellings, and either stands alone or takes one argument. The order of
the spellings is the order in which messages list those that an abbreviation could mean.
-/

namespace CallGraph.CommandLine

/-- The switches. -/
inductive Switch
  | help
  | output
  | language
  | targetFunction
  | upwardDepth
  | downwardDepth
  | excludeFunctions
  | excludeNamespaces
  | includeOnlyFunctions
  | includeOnlyNamespaces
  | noGrouping
  | noTrimming
  | hideLegend
  | skipParseErrors
  | sourceType
  | rubyVersion
  | quiet
  | verbose
  | aliasLabels
  | heuristics
  | noHeuristics
  | version
  | showLibraries
  | noLibraries
  deriving DecidableEq, Repr, Inhabited

namespace Switch

/-- All switches, in the order in which they are declared. -/
def all : List Switch :=
  [.help, .output, .language, .targetFunction, .upwardDepth, .downwardDepth, .excludeFunctions,
   .excludeNamespaces, .includeOnlyFunctions, .includeOnlyNamespaces, .noGrouping, .noTrimming,
   .hideLegend, .skipParseErrors, .sourceType, .rubyVersion, .quiet, .verbose, .aliasLabels,
   .heuristics, .noHeuristics, .version, .showLibraries, .noLibraries]

/-- The spellings of a switch. -/
def spellings : Switch → List String
  | .help => ["-h", "--help"]
  | .output => ["--output", "-o"]
  | .language => ["--language"]
  | .targetFunction => ["--target-function"]
  | .upwardDepth => ["--upstream-depth"]
  | .downwardDepth => ["--downstream-depth"]
  | .excludeFunctions => ["--exclude-functions"]
  | .excludeNamespaces => ["--exclude-namespaces"]
  | .includeOnlyFunctions => ["--include-only-functions"]
  | .includeOnlyNamespaces => ["--include-only-namespaces"]
  | .noGrouping => ["--no-grouping"]
  | .noTrimming => ["--no-trimming"]
  | .hideLegend => ["--hide-legend"]
  | .skipParseErrors => ["--skip-parse-errors"]
  | .sourceType => ["--source-type"]
  | .rubyVersion => ["--ruby-version"]
  | .quiet => ["--quiet", "-q"]
  | .verbose => ["--verbose", "-v"]
  | .aliasLabels => ["--alias-labels"]
  | .heuristics => ["--heuristics"]
  | .noHeuristics => ["--no-heuristics"]
  | .version => ["--version"]
  | .showLibraries => ["--show-libraries"]
  | .noLibraries => ["--no-libraries"]

/-- Whether a switch takes an argument. -/
def takesArgument : Switch → Bool
  | .output | .language | .targetFunction | .upwardDepth | .downwardDepth | .excludeFunctions
  | .excludeNamespaces | .includeOnlyFunctions | .includeOnlyNamespaces | .sourceType
  | .rubyVersion => true
  | _ => false

/-- The switch that excludes a switch. -/
def rival? : Switch → Option Switch
  | .showLibraries => some .noLibraries
  | .noLibraries => some .showLibraries
  | _ => none

/-- A switch as messages name it. -/
def label (switch : Switch) : String :=
  Text.joinWith "/" switch.spellings

/-- All spellings with their switches. -/
def table : List (String × Switch) :=
  all.flatMap fun switch => switch.spellings.map (·, switch)

/-- The switch with a spelling. -/
def ofSpelling? (spelling : String) : Option Switch :=
  table.lookup spelling

end Switch

end CallGraph.CommandLine
