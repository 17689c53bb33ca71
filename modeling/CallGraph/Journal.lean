import CallGraph.Fault

/-!
# Journals

The program reports while it works: lines of the log, each at a level, lines printed, and what it
wrote. A `Reported` computation is a result, or the fault that stopped it, together with what was
reported up to there; reports never influence the result.

## Main statements

* `result_pure`, `result_bind` — the result of a sequence is the sequence of the results.
* `reports_bind_of_ok`, `reports_bind_of_error` — a fault keeps what was reported before it.
-/

namespace CallGraph

/-- How much a log line matters. -/
inductive Level
  | debug
  | info
  | warning
  deriving DecidableEq, Repr, Inhabited

namespace Level

/-- The number that thresholds are compared with. -/
def number : Level → Int
  | .debug => 10
  | .info => 20
  | .warning => 30

/-- The name of a level. -/
def label : Level → String
  | .debug => "DEBUG"
  | .info => "INFO"
  | .warning => "WARNING"

end Level

/-- Something reported: a line, or a file that was written. -/
inductive Report
  | log (level : Level) (text : String)
  | print (text : String)
  /-- A file was opened to be written, which leaves it empty. -/
  | opened (path : String)
  /-- A text was written to a file that was opened. -/
  | written (path text : String)
  /-- Something was written to the stream that was handed in. -/
  | streamed (content : Literal)
  deriving DecidableEq, Repr, Inhabited

namespace Report

/-- The line that a report prints. -/
def printed? : Report → Option String
  | .print text => some text
  | _ => none

/-- The path of the file that a report leaves behind. -/
def path? : Report → Option String
  | .opened path | .written path _ => some path
  | _ => none

/-- What a report says was written. -/
def content? : Report → Option Literal
  | .written _ text => some (Literal.ofText text)
  | .streamed content => some content
  | _ => none

end Report

/-- How log lines are shown. -/
structure LogStyle where
  /-- Lines below this level are not shown. -/
  threshold : Int
  /-- Whether lines name their level in place of the program. -/
  labelled : Bool := false
  deriving DecidableEq, Repr, Inhabited

namespace LogStyle

/-- The style in use when nothing has been set up. -/
def initial : LogStyle := { threshold := Level.warning.number, labelled := true }

/-- Whether lines of a level are shown. -/
def shows (style : LogStyle) (level : Level) : Bool :=
  decide (style.threshold ≤ level.number)

/-- The line that a report adds to the log. -/
def line? (style : LogStyle) : Report → Option String
  | .log level text =>
      if style.shows level then
        some ((if style.labelled then level.label ++ ":root:" else "Code2Flow: ") ++ text)
      else none
  | _ => none

end LogStyle

/-- A computation that reports. -/
structure Reported (α : Type _) where
  reports : List Report
  result : Except Fault α

namespace Reported

variable {α β : Type _}

/-- A result without reports. -/
def done (a : α) : Reported α := ⟨[], .ok a⟩

/-- Goes on with a result; a fault ends the computation. -/
def andThen (first : Reported α) (next : α → Reported β) : Reported β :=
  match first.result with
  | .ok a =>
      let rest := next a
      ⟨first.reports ++ rest.reports, rest.result⟩
  | .error fault => ⟨first.reports, .error fault⟩

instance : Monad Reported where
  pure := done
  bind := andThen

/-- A computation that does not report. -/
def ofExcept (result : Except Fault α) : Reported α := ⟨[], result⟩

instance : MonadLift (Except Fault) Reported := ⟨ofExcept⟩

/-- Stops with a fault. -/
def fail (fault : Fault) : Reported α := ⟨[], .error fault⟩

/-- Reports some lines. -/
def report (reports : List Report) : Reported Unit := ⟨reports, .ok ()⟩

/-- Reports log lines at one level. -/
def log (level : Level) (texts : List String) : Reported Unit :=
  report (texts.map (.log level))

/-- Reports a log line of the usual level. -/
def info (text : String) : Reported Unit := log .info [text]

/-- Reports a warning. -/
def warn (text : String) : Reported Unit := log .warning [text]

@[simp] theorem result_pure (a : α) : (pure a : Reported α).result = .ok a := rfl

@[simp] theorem result_bind (first : Reported α) (next : α → Reported β) :
    (first >>= next).result = (do (next (← first.result)).result) := by
  change (andThen first next).result = _
  unfold andThen
  cases first.result <;> rfl

theorem reports_bind_of_ok {first : Reported α} {next : α → Reported β} {a : α}
    (h : first.result = .ok a) :
    (first >>= next).reports = first.reports ++ (next a).reports := by
  change (andThen first next).reports = _
  simp only [andThen, h]

theorem reports_bind_of_error {first : Reported α} {next : α → Reported β} {fault : Fault}
    (h : first.result = .error fault) : (first >>= next).reports = first.reports := by
  change (andThen first next).reports = _
  simp only [andThen, h]

@[simp] theorem result_report (reports : List Report) : (report reports).result = .ok () := rfl

@[simp] theorem result_log (level : Level) (texts : List String) :
    (log level texts).result = .ok () := rfl

@[simp] theorem result_ofExcept (result : Except Fault α) : (ofExcept result).result = result := rfl

@[simp] theorem result_liftM (result : Except Fault α) :
    (liftM result : Reported α).result = result := rfl

end Reported

end CallGraph
