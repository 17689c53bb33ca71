import CallGraph.Analysis.ArgumentFlow
import CallGraph.Analysis.Builtin
import CallGraph.Analysis.CallMap
import CallGraph.Analysis.Inheritance
import CallGraph.Analysis.Library
import CallGraph.Analysis.Limits
import CallGraph.Analysis.Link
import CallGraph.Analysis.Settle
import CallGraph.Analysis.Subset
import CallGraph.Analysis.Trim
import CallGraph.Block
import CallGraph.Call
import CallGraph.CommandLine.Session
import CallGraph.CommandLine.Settings
import CallGraph.CommandLine.Switch
import CallGraph.CommandLine.Word
import CallGraph.Fault
import CallGraph.FileSystem
import CallGraph.FileSystem.Listing
import CallGraph.Graph.Basic
import CallGraph.Graph.Load
import CallGraph.Graph.Visible
import CallGraph.Graph.Walk
import CallGraph.Imports
import CallGraph.Items
import CallGraph.Journal
import CallGraph.Main
import CallGraph.Ordering
import CallGraph.Outline
import CallGraph.Output.Description
import CallGraph.Output.Dot
import CallGraph.Output.JsonGraph
import CallGraph.Output.Numbering
import CallGraph.Output.Sorted
import CallGraph.Path
import CallGraph.Program
import CallGraph.Proofs.Answering
import CallGraph.Proofs.Binding
import CallGraph.Proofs.Borrowing
import CallGraph.Proofs.Building
import CallGraph.Proofs.Charting
import CallGraph.Proofs.Choosing
import CallGraph.Proofs.Clarity
import CallGraph.Proofs.Climbing
import CallGraph.Proofs.Collecting
import CallGraph.Proofs.Concluding
import CallGraph.Proofs.Constructing
import CallGraph.Proofs.Contents
import CallGraph.Proofs.Cutting
import CallGraph.Proofs.Decoding
import CallGraph.Proofs.Definitions
import CallGraph.Proofs.Descending
import CallGraph.Proofs.Discovering
import CallGraph.Proofs.Excluding
import CallGraph.Proofs.Following
import CallGraph.Proofs.Forest
import CallGraph.Proofs.Grammar
import CallGraph.Proofs.Growth
import CallGraph.Proofs.Inheriting
import CallGraph.Proofs.Keeping
import CallGraph.Proofs.Labelling
import CallGraph.Proofs.Landing
import CallGraph.Proofs.Leading
import CallGraph.Proofs.Limiting
import CallGraph.Proofs.Linking
import CallGraph.Proofs.Lists
import CallGraph.Proofs.Loading
import CallGraph.Proofs.Mirroring
import CallGraph.Proofs.Names
import CallGraph.Proofs.Nesting
import CallGraph.Proofs.Passing
import CallGraph.Proofs.Placing
import CallGraph.Proofs.Preparing
import CallGraph.Proofs.Pruning
import CallGraph.Proofs.Quoting
import CallGraph.Proofs.Reading
import CallGraph.Proofs.Repeating
import CallGraph.Proofs.Resolving
import CallGraph.Proofs.Scoping
import CallGraph.Proofs.Selecting
import CallGraph.Proofs.Separating
import CallGraph.Proofs.Settling
import CallGraph.Proofs.Signatures
import CallGraph.Proofs.Skipping
import CallGraph.Proofs.Sorting
import CallGraph.Proofs.Spelling
import CallGraph.Proofs.Starting
import CallGraph.Proofs.Stocking
import CallGraph.Proofs.Subsetting
import CallGraph.Proofs.Succeeding
import CallGraph.Proofs.Tables
import CallGraph.Proofs.Uniqueness
import CallGraph.Proofs.Untrimmed
import CallGraph.Proofs.Weighing
import CallGraph.Proofs.Writing
import CallGraph.Resolve.Basic
import CallGraph.Resolve.Library
import CallGraph.Resolve.Match
import CallGraph.Resolve.NamedBases
import CallGraph.Resolve.Query
import CallGraph.Resolve.Trace
import CallGraph.Scope
import CallGraph.Sources
import CallGraph.Survey
import CallGraph.Syntax.Decode
import CallGraph.Syntax.Members
import CallGraph.Syntax.Tree
import CallGraph.Text.Dotted
import CallGraph.Text.Integer
import CallGraph.Text.Literal
import CallGraph.Text.Numeral
import CallGraph.Text.Printable
import CallGraph.Text.Quote
import CallGraph.Value
import CallGraph.Value.Reader
import CallGraph.Value.Writer
