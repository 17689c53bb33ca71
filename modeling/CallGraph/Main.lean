import CallGraph.CommandLine.Session
import CallGraph.FileSystem.Listing
import CallGraph.Value.Reader

/-!
# The command

The words of the command line say what to analyse. The files come as a JSON listing on standard
input, each with its path and its syntax tree. Texts are written to files, the log goes to the
error output.

No program that makes images can be run from here, so only texts can be asked for.
-/

namespace CallGraph.Command

/-- Reads standard input to its end. -/
partial def readAll (input : IO.FS.Stream) (text : String) : IO String := do
  let line ← input.getLine
  if line.isEmpty then return text else readAll input (text ++ line)

/-- Carries out what was reported. -/
def perform (style : LogStyle) (report : Report) : IO Unit := do
  match report with
  | .print text => IO.println text
  | .opened path => IO.FS.writeFile path ""
  | .written path text => IO.FS.writeFile path text
  | .streamed content => IO.print (Text.loggedLiteral content)
  | other =>
      match style.line? other with
      | some line => IO.eprintln line
      | none => pure ()

/-- Carries out the request of a session; the result is the status of the command. -/
def serve (files : FileSystem) (warnings : List Report) : CommandLine.Request → IO UInt32
  | .ended status printed complaint => do
      printed.forM IO.println
      unless complaint.isEmpty do IO.eprintln complaint
      return status.toUInt32
  | .failed fault => do
      warnings.forM (perform .initial)
      IO.eprintln fault.message
      return 1
  | .run sources destination options => do
      let style := (Program.styleOf options).toOption.getD .initial
      let run := Program.run { files := files, searchPath := "" } sources destination options
      (warnings ++ run.reports).forM (perform style)
      match run.result with
      | .ok _ => return 0
      | .error fault => do
          IO.eprintln fault.message
          return 1

end CallGraph.Command

/-- Runs the command. -/
def main (words : List String) : IO UInt32 := do
  let text ← CallGraph.Command.readAll (← IO.getStdin) ""
  let listing := (CallGraph.Value.ofJson? text).getD .nothing
  let session := CallGraph.CommandLine.Session.ofWords CallGraph.CommandLine.programName words
  session.printed.forM IO.println
  CallGraph.Command.serve (CallGraph.FileSystem.ofListing [] listing.elements) session.warnings
    session.request
