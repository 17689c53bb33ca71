import CallGraph.Proofs.Decoding
import CallGraph.Proofs.Labelling

/-!
# What a run leaves on the disk

Everything up to the sorted chart only reads, so a run that fails there leaves the disk as it was.
Then the output file is opened, which empties it, and its text is made and written. A chart that got
so far can always be written down; what may fail is putting the text into the file, since the encoding
of the environment may not have all its characters, and no encoding has surrogates. So there is one
way for a run to fail that leaves something behind: the output file is left empty. With an encoding
that has all characters, this takes an edge whose label has a surrogate in it.

## Main definitions

* `Disk` — the texts on the disk, `Report.onto` — what a report does to them.
* `Reported.Quiet` — a computation that touches no file.
* `Program.Destination.IsText` — a stream, or a path with the ending of a text.
* `Program.Stumbles` — a run that opens a file which cannot hold its text.

## Main results

* `Program.quiet_prepare` — everything up to the sorted chart is quiet.
* `Program.stumbles_iff` — with all characters, only labels with surrogates are in the way.
* `Program.not_stumbles_of_json` — a chart in JSON needs no more than ASCII.
* `Program.disk_of_run` — what a run leaves on the disk.
-/

namespace CallGraph

/-! ## The disk -/

/-- The texts on the disk, by the places of the files. -/
abbrev Disk := Place → Option String

/-- A disk with a text put at a place. -/
def Disk.put (disk : Disk) (place : Place) (text : String) : Disk :=
  fun other => if other = place then some text else disk other

@[simp] theorem Disk.put_put (disk : Disk) (place : Place) (first last : String) :
    (disk.put place first).put place last = disk.put place last := by
  funext other
  unfold put
  split <;> rfl

/-- A disk after a text is written to a path. -/
def FileSystem.store (files : FileSystem) (path text : String) (disk : Disk) : Disk :=
  match files.writable path with
  | .ok place => disk.put place text
  | .error _ => disk

theorem FileSystem.store_of_writable {files : FileSystem} {path : String} {place : Place}
    (h : files.writable path = .ok place) (text : String) (disk : Disk) :
    files.store path text disk = disk.put place text := by
  rw [store, h]

/-- A disk after what was reported. -/
def Report.onto (files : FileSystem) (disk : Disk) : Report → Disk
  | .opened path => files.store path "" disk
  | .written path text => files.store path text disk
  | _ => disk

namespace Reported

variable {α β : Type _} {files : FileSystem}

/-- The disk after a computation. -/
def leaves (computation : Reported α) (files : FileSystem) (disk : Disk) : Disk :=
  computation.reports.foldl (Report.onto files) disk

theorem liftM_ok_bind (a : α) (next : α → Reported β) :
    (liftM (Except.ok a : Except Fault α) >>= next) = next a :=
  rfl

theorem liftM_error_bind (fault : Fault) (next : α → Reported β) :
    (liftM (Except.error fault : Except Fault α) >>= next) = ⟨[], .error fault⟩ :=
  rfl

theorem leaves_bind_of_ok {first : Reported α} {next : α → Reported β} {a : α}
    (h : first.result = .ok a) (disk : Disk) :
    (first >>= next).leaves files disk = (next a).leaves files (first.leaves files disk) := by
  rw [leaves, reports_bind_of_ok h, List.foldl_append]
  rfl

theorem leaves_bind_of_error {first : Reported α} {next : α → Reported β} {fault : Fault}
    (h : first.result = .error fault) (disk : Disk) :
    (first >>= next).leaves files disk = first.leaves files disk := by
  rw [leaves, reports_bind_of_error h]
  rfl

/-! ## Computations that touch no file -/

/-- Nothing that is reported is about a file. -/
def Quiet (computation : Reported α) : Prop :=
  ∀ report ∈ computation.reports, report.path? = none

theorem Quiet.leaves_eq {computation : Reported α} (h : computation.Quiet) (disk : Disk) :
    computation.leaves files disk = disk := by
  unfold leaves
  unfold Quiet at h
  generalize computation.reports = reports at h
  induction reports with
  | nil => rfl
  | cons report rest ih =>
      obtain ⟨hFirst, hRest⟩ := List.forall_mem_cons.mp h
      have hSame : report.onto files disk = disk := by
        cases report with
        | log level text => rfl
        | print text => rfl
        | opened path => exact absurd hFirst (by simp [Report.path?])
        | written path text => exact absurd hFirst (by simp [Report.path?])
        | streamed content => rfl
      rw [List.foldl_cons, hSame]
      exact ih hRest

theorem quiet_pure (a : α) : (pure a : Reported α).Quiet :=
  fun _ hReport => absurd hReport List.not_mem_nil

theorem quiet_fail (fault : Fault) : (fail fault : Reported α).Quiet :=
  fun _ hReport => absurd hReport List.not_mem_nil

theorem quiet_liftM (result : Except Fault α) : (liftM result : Reported α).Quiet :=
  fun _ hReport => absurd hReport List.not_mem_nil

theorem quiet_log (level : Level) (texts : List String) : (log level texts).Quiet := by
  intro report hReport
  obtain ⟨text, _, rfl⟩ := List.mem_map.mp hReport
  rfl

theorem quiet_prints (texts : List String) : (report (texts.map .print)).Quiet := by
  intro report hReport
  obtain ⟨text, _, rfl⟩ := List.mem_map.mp hReport
  rfl

theorem Quiet.bind {first : Reported α} {next : α → Reported β} (hFirst : first.Quiet)
    (hNext : ∀ a, (next a).Quiet) : (first >>= next).Quiet := by
  cases h : first.result with
  | ok a =>
      rw [Quiet, reports_bind_of_ok h]
      exact List.forall_mem_append.mpr ⟨hFirst, hNext a⟩
  | error fault =>
      rw [Quiet, reports_bind_of_error h]
      exact hFirst

/-- What only reports lines changes neither the result nor the disk. -/
theorem leaves_bind_of_quiet {first : Reported Unit} {next : Unit → Reported Unit}
    (hQuiet : ∀ a, (next a).Quiet) (hOk : ∀ a, (next a).result = .ok ()) (disk : Disk) :
    (first >>= next).result = first.result ∧
      (first >>= next).leaves files disk = first.leaves files disk := by
  cases h : first.result with
  | ok a =>
      rw [result_bind, h, leaves_bind_of_ok h, (hQuiet a).leaves_eq]
      exact ⟨hOk a, rfl⟩
  | error fault =>
      rw [result_bind, h, leaves_bind_of_error h]
      exact ⟨rfl, rfl⟩

end Reported

open Reported

/-! ## Finding sources -/

namespace Sources

theorem quiet_detect (found : List Found) : (detect found).Quiet := by
  unfold detect
  split
  · exact (quiet_log _ _).bind fun _ => quiet_pure _
  · exact quiet_fail _

theorem quiet_select (language : Value) (found : List Found) : (select language found).Quiet := by
  induction found with
  | nil => exact quiet_pure _
  | cons file rest ih =>
      rw [select]
      refine (quiet_liftM _).bind fun taken => ?_
      split
      · exact ih.bind fun _ => quiet_pure _
      · exact (quiet_log _ _).bind fun _ => ih

theorem quiet_languageFor (found : List Found) (language : Value) :
    (languageFor found language).Quiet := by
  unfold languageFor
  split
  · exact quiet_pure _
  · exact (quiet_detect found).bind fun _ => quiet_pure _

theorem quiet_discover (files : FileSystem) (paths : List String) (shown : String)
    (language : Value) : (discover files paths shown language).Quiet := by
  unfold discover
  dsimp only
  split
  · exact quiet_fail _
  · refine (quiet_log _ _).bind fun _ => (quiet_languageFor _ _).bind fun language =>
      (quiet_select _ _).bind fun selected => ?_
    split
    · exact quiet_fail _
    · exact (quiet_log _ _).bind fun _ => (quiet_log _ _).bind fun _ => quiet_pure _

end Sources

/-! ## Building the chart -/

namespace CallMap

variable {files : FileSystem} {options : Options} {graph : Graph} {roots : List GroupId}

theorem quiet_readAll (skip : Bool) (sources : List String) :
    (readAll files skip sources).Quiet := by
  induction sources with
  | nil => exact quiet_pure _
  | cons source rest ih =>
      rw [readAll]
      split
      · exact ih.bind fun _ => quiet_pure _
      · split
        · exact (quiet_log _ _).bind fun _ => ih
        · exact quiet_fail _

theorem quiet_outlineAll (skip : Bool) (taken : List String) (read : List (String × Tree)) :
    (outlineAll files skip taken read).Quiet := by
  induction read generalizing taken with
  | nil => exact quiet_pure _
  | cons entry rest ih =>
      obtain ⟨source, tree⟩ := entry
      rw [outlineAll]
      split
      · exact (ih _).bind fun _ => quiet_pure _
      · split
        · exact (quiet_log _ _).bind fun _ => ih _
        · exact quiet_fail _

theorem quiet_outlines (sources : List String) : (outlines files options sources).Quiet := by
  refine (quiet_readAll _ sources).bind fun read => ?_
  split
  · exact quiet_outlineAll _ _ _
  · exact quiet_pure _

theorem quiet_limitNamespaces : (limitNamespaces options graph roots).Quiet := by
  unfold limitNamespaces
  split
  · exact quiet_pure _
  · exact (quiet_prints _).bind fun _ => (quiet_log _ _).bind fun _ => (quiet_liftM _).bind fun _ =>
      quiet_pure _

theorem quiet_limitFunctions : (limitFunctions options graph roots).Quiet := by
  unfold limitFunctions
  split
  · exact quiet_pure _
  · exact (quiet_log _ _).bind fun _ => (quiet_liftM _).bind fun _ => quiet_pure _

theorem quiet_settle (nodes : List NodeId) : (settle options graph roots nodes).Quiet := by
  unfold settle
  refine (quiet_log _ _).bind fun _ => (quiet_liftM _).bind fun settled => ?_
  split
  · exact (quiet_log _ _).bind fun _ => quiet_pure _
  · exact quiet_pure _

theorem quiet_prepare (read : List FileOutline) : (prepare options read).Quiet := by
  unfold prepare limit startLinking
  exact (quiet_limitNamespaces.bind fun _ => quiet_limitFunctions).bind fun _ =>
    (quiet_settle _).bind fun _ => (quiet_log _ _).bind fun _ => (quiet_log _ _).bind fun _ =>
      ((quiet_log _ _).bind fun _ => quiet_pure _).bind fun _ => quiet_pure _

theorem quiet_build (language : Value) (sources : List String) :
    (build files options language sources).Quiet := by
  unfold build ofOutlines link
  exact (quiet_liftM _).bind fun _ => (quiet_outlines sources).bind fun read =>
    (quiet_prepare read).bind fun _ =>
      ((quiet_log _ _).bind fun _ => (quiet_liftM _).bind fun _ => (quiet_log _ _).bind fun _ =>
        quiet_pure _).bind fun _ => (quiet_log _ _).bind fun _ => quiet_pure _

end CallMap

namespace Program

variable {environment : Environment} {sources : List String} {destination : Destination}
variable {options : Options} {ready : Prepared} {output : Output}

theorem quiet_restrict (subset : Option Subset) (chart : Chart) :
    (restrict subset chart).Quiet := by
  cases subset with
  | none => exact quiet_pure chart
  | some subset => exact (quiet_log _ _).bind fun _ => quiet_liftM _

/-- Everything up to the sorted chart only reads. -/
theorem quiet_prepare : (prepare environment sources destination options).Quiet := by
  unfold prepare
  exact (quiet_liftM _).bind fun _ => (Sources.quiet_discover _ _ _ _).bind fun _ =>
    (quiet_liftM _).bind fun _ => (CallMap.quiet_build _ _).bind fun _ =>
      (quiet_restrict _ _).bind fun _ => (quiet_liftM _).bind fun _ => (quiet_log _ _).bind fun _ =>
        quiet_pure _

end Program

/-! ## Texts with surrogates -/

theorem Dot.isText_escapeQuotes (label : Literal) :
    (Dot.escapeQuotes label).isText = label.isText := by
  unfold Dot.escapeQuotes Literal.isText
  rw [List.all_flatMap]
  congr 1
  funext point
  split
  · rename_i hQuote
    rw [hQuote]
    rfl
  · simp

theorem Dot.isText_edge (numbering : Numbering) (edge : Edge) :
    (Dot.edge numbering edge).isText = true ↔ edge.Textual := by
  unfold Dot.edge Edge.Textual
  cases hLabel : edge.label with
  | none => simp
  | some label =>
      by_cases hNil : label = []
      · have hEmpty : Literal.isText [] = true := rfl
        simp [hNil, Option.filter_some, hEmpty]
      · simp [Option.filter_some, hNil, Dot.isText_escapeQuotes]

/-- A chart is written down without surrogates if its labels are texts, and only then. -/
theorem Dot.isText_render {style : Dot.Style} {numbering : Numbering} {chart : Chart}
    {content : Literal} (h : Dot.render style numbering chart = .ok content) :
    content.isText = true ↔ chart.Textual := by
  obtain ⟨nodes, _, h⟩ := exists_of_bind_eq_ok h
  rw [← Except.ok.inj h]
  have hEdges : Literal.isText (chart.edges.flatMap fun link =>
      Dot.edge numbering link ++ Literal.ofText ";\n") = true ↔ chart.Textual := by
    rw [Literal.isText, List.all_flatMap, List.all_eq_true]
    refine forall₂_congr fun link _ => ?_
    rw [← Dot.isText_edge numbering link, ← Literal.isText, Literal.isText_append,
      Literal.isText_ofText, Bool.and_true]
  rw [← hEdges]
  simp only [Literal.isText_append, Literal.isText_ofText, Bool.true_and, Bool.and_true]

namespace Program

variable {environment : Environment} {sources : List String} {destination : Destination}
variable {options : Options} {ready : Prepared} {output : Output} {content : Literal}

/-- The text of a chart that is written as JSON. -/
theorem exists_of_textOf_json {chart : Chart} (hJson : output.isJson = true)
    (h : textOf options output chart = .ok content) :
    ∃ text, JsonGraph.render (Numbering.byAppearance chart) chart = .ok text ∧
      content = Literal.ofText text := by
  rw [textOf, if_pos hJson] at h
  cases hRender : JsonGraph.render (Numbering.byAppearance chart) chart with
  | error fault =>
      rw [hRender] at h
      exact absurd h (by simp [Except.map])
  | ok text =>
      rw [hRender] at h
      exact ⟨text, rfl, (Except.ok.inj h).symm⟩

theorem isText_textOf {chart : Chart} (h : textOf options output chart = .ok content) :
    content.isText = true ↔ output.isJson = true ∨ chart.Textual := by
  by_cases hJson : output.isJson = true
  · obtain ⟨text, _, rfl⟩ := exists_of_textOf_json hJson h
    simp [hJson]
  · rw [textOf, if_neg hJson] at h
    rw [Dot.isText_render h, or_iff_right hJson]

/-! ## Writing -/

/-- A stream, or a path with the ending of a text. -/
def Destination.IsText : Destination → Prop
  | .stream => True
  | .file path => ∃ front, ∃ ending ∈ textEndings, Dotted.splitLast? path = some (front, ending)

/-- The output of a text destination: no image is made. -/
theorem outputOf_of_isText (h : destination.IsText)
    (hOutput : outputOf environment destination = .ok output) :
    output.image = none ∧ (destination = .stream → output.path = none) ∧
      ∀ path, destination = .file path → output.path = some path := by
  cases destination with
  | stream =>
      cases hOutput
      exact ⟨rfl, fun _ => rfl, fun _ hFile => absurd hFile (by simp)⟩
  | file path =>
      obtain ⟨front, ending, hEnding, hSplit⟩ := h
      rw [outputOf, hSplit] at hOutput
      dsimp only at hOutput
      rw [if_pos (List.contains_iff_mem.mpr hEnding)] at hOutput
      cases hOutput
      refine ⟨rfl, fun hStream => absurd hStream (by simp), fun other hFile => ?_⟩
      cases hFile
      rfl

theorem outputOf_of_prepare
    (h : (prepare environment sources destination options).result = .ok ready) :
    outputOf environment destination = .ok ready.output := by
  simp only [prepare, Reported.result_bind, Reported.result_liftM] at h
  obtain ⟨chosen, _, h⟩ := exists_of_bind_eq_ok h
  obtain ⟨found, _, h⟩ := exists_of_bind_eq_ok h
  obtain ⟨output, hOutput, h⟩ := exists_of_bind_eq_ok h
  obtain ⟨chart, _, h⟩ := exists_of_bind_eq_ok h
  obtain ⟨shown, _, h⟩ := exists_of_bind_eq_ok h
  obtain ⟨sorted, _, h⟩ := exists_of_bind_eq_ok h
  obtain ⟨_, _, h⟩ := exists_of_bind_eq_ok h
  cases h
  exact hOutput

/-- The fault of a text that the file cannot hold. -/
theorem encode_of_none {encoding : Encoding} (h : encoding.text? content = none) :
    ∃ codes position, encode encoding content =
      .error (.notEncodable encoding.name encoding.complaint codes position) := by
  rw [encode, h]
  exact ⟨_, _, rfl⟩

section Path

variable {path : String} {place : Place}

theorem openFile_of_writable (h : environment.files.writable path = .ok place) :
    openFile environment path = ⟨[.opened path], .ok ()⟩ := by
  rw [openFile, checkWritable, h]
  rfl

theorem openFile_of_fault {fault : PathFault} (h : environment.files.writable path = .error fault) :
    openFile environment path = ⟨[], .error (.path fault path)⟩ := by
  rw [openFile, checkWritable, h]
  rfl

/-- A path that cannot be written to. -/
theorem writeText_of_fault {fault : PathFault} (hPath : output.path = some path)
    (h : environment.files.writable path = .error fault) (text : Except Fault Literal) :
    writeText environment output text = ⟨[], .error (.path fault path)⟩ := by
  rw [writeText, hPath]
  dsimp only
  rw [openFile_of_fault h]
  rfl

/-- A text that the file can hold. -/
theorem writeText_of_text {text : String} (hPath : output.path = some path)
    (h : environment.files.writable path = .ok place)
    (hText : environment.encoding.text? content = some text) :
    writeText environment output (.ok content) = ⟨[.opened path, .written path text], .ok ()⟩ := by
  have hEncode : encode environment.encoding content = .ok text := by rw [encode, hText]
  rw [writeText, hPath]
  dsimp only
  rw [openFile_of_writable h, liftM_ok_bind, hEncode, liftM_ok_bind]
  rfl

/-- A text that the file cannot hold: the file was opened before that is found out. -/
theorem writeText_of_none (hPath : output.path = some path)
    (h : environment.files.writable path = .ok place)
    (hText : environment.encoding.text? content = none) :
    ∃ codes position, writeText environment output (.ok content) =
      ⟨[.opened path], .error (.notEncodable environment.encoding.name
        environment.encoding.complaint codes position)⟩ := by
  obtain ⟨codes, position, hEncode⟩ := encode_of_none hText
  refine ⟨codes, position, ?_⟩
  rw [writeText, hPath]
  dsimp only
  rw [openFile_of_writable h, liftM_ok_bind, hEncode, liftM_error_bind]
  rfl

end Path

theorem writeText_of_stream (hPath : output.path = none) (content : Literal) :
    writeText environment output (.ok content) = ⟨[.streamed content], .ok ()⟩ := by
  rw [writeText, hPath]
  rfl

/-- Unless an image is made, only log lines follow the text. -/
theorem write_of_no_image (environment : Environment) (options : Options)
    (hImage : ready.output.image = none) (disk : Disk) :
    (write environment options ready).result =
        (writeText environment ready.output (textOf options ready.output ready.chart)).result ∧
      (write environment options ready).leaves environment.files disk =
        (writeText environment ready.output (textOf options ready.output ready.chart)).leaves
          environment.files disk := by
  refine leaves_bind_of_quiet (fun _ => ?_) (fun _ => ?_) disk
  · refine (quiet_log _ _).bind fun _ => (quiet_log _ _).bind fun _ => ?_
    rw [hImage]
    exact quiet_pure _
  · simp only [result_bind, Reported.info, result_log, hImage]
    rfl

/-- The text of a chart that got so far is made, and what the run comes to is what writing it comes
to. -/
theorem run_of_prepare (hText : destination.IsText)
    (h : (prepare environment sources destination options).result = .ok ready) (disk : Disk) :
    ∃ content, textOf options ready.output ready.chart = .ok content ∧
      (run environment sources destination options).result =
        (writeText environment ready.output (.ok content)).result ∧
      (run environment sources destination options).leaves environment.files disk =
        (writeText environment ready.output (.ok content)).leaves environment.files disk := by
  obtain ⟨hImage, _, _⟩ := outputOf_of_isText hText (outputOf_of_prepare h)
  obtain ⟨content, hContent⟩ := (founded_of_prepare h).1.exists_text options ready.output
  obtain ⟨hResult, hLeaves⟩ := write_of_no_image environment options hImage disk
  refine ⟨content, hContent, ?_, ?_⟩
  · rw [run, result_bind, h]
    change (write environment options ready).result = _
    rw [hResult, hContent]
  · rw [run, leaves_bind_of_ok h, quiet_prepare.leaves_eq, hLeaves, hContent]

/-! ## What a file cannot hold -/

/-- The run comes to a file that it may write to, with a text that the file cannot hold. -/
def Stumbles (environment : Environment) (sources : List String) (destination : Destination)
    (options : Options) (place : Place) : Prop :=
  ∃ path ready content, destination = .file path ∧ environment.files.writable path = .ok place ∧
    (prepare environment sources destination options).result = .ok ready ∧
    textOf options ready.output ready.chart = .ok content ∧
    environment.encoding.text? content = none

/-- With an encoding that has all characters, a run stumbles over labels that are no texts, and over
nothing else. -/
theorem stumbles_iff (hHolds : ∀ c, environment.encoding.holds c = true) {place : Place} :
    Stumbles environment sources destination options place ↔
      ∃ path ready, destination = .file path ∧ environment.files.writable path = .ok place ∧
        (prepare environment sources destination options).result = .ok ready ∧
        ready.output.isJson = false ∧ ¬ready.chart.Textual := by
  have hNone {content : Literal} {ready : Prepared}
      (h : textOf options ready.output ready.chart = .ok content) :
      environment.encoding.text? content = none ↔
        ready.output.isJson = false ∧ ¬ready.chart.Textual := by
    rw [Encoding.text?_of_holds hHolds, Literal.text?, ite_eq_right_iff,
      ← Bool.not_eq_true ready.output.isJson, ← not_or, ← isText_textOf h]
    exact forall_congr' fun _ => iff_false_intro (Option.some_ne_none _)
  constructor
  · rintro ⟨path, ready, content, hFile, hPlace, hReady, hContent, hText⟩
    exact ⟨path, ready, hFile, hPlace, hReady, (hNone hContent).mp hText⟩
  · rintro ⟨path, ready, hFile, hPlace, hReady, hLabel⟩
    obtain ⟨content, hContent⟩ := (founded_of_prepare hReady).1.exists_text options ready.output
    exact ⟨path, ready, content, hFile, hPlace, hReady, hContent, (hNone hContent).mpr hLabel⟩

/-- A chart in JSON can be written with every encoding that has the printable characters of ASCII,
whatever its names are. -/
theorem not_stumbles_of_json
    (hHolds : ∀ c, Value.Printable [c] → environment.encoding.holds c = true)
    {front path : String} (hJson : Dotted.splitLast? path = some (front, "json")) (place : Place) :
    ¬Stumbles environment sources (.file path) options place := by
  rintro ⟨_, ready, content, -, -, hReady, hContent, hNone⟩
  have hOutput := outputOf_of_prepare hReady
  rw [outputOf, hJson] at hOutput
  have hIsJson : ready.output.isJson = true := by
    rw [← Except.ok.inj hOutput]
    rfl
  obtain ⟨text, hRender, rfl⟩ := exists_of_textOf_json hIsJson hContent
  obtain ⟨nodes, _, hNodes⟩ := exists_of_bind_eq_ok hRender
  have hFits : (Literal.ofText text).all environment.encoding.fits = true := by
    rw [Literal.ofText, List.all_map, List.all_eq_true]
    intro c hc
    rw [← Except.ok.inj hNodes] at hc
    exact hHolds c fun d hd => Value.printable_json _ d (List.mem_singleton.mp hd ▸ hc)
  have hText := Encoding.text?_eq_some_iff.mpr ⟨rfl, hFits⟩
  exact absurd (hNone.symm.trans hText) (Option.some_ne_none text).symm

/-! ## The ends of a run -/

/-- What a run to a stream comes to. -/
theorem run_of_stream
    (h : (prepare environment sources .stream options).result = .ok ready) (disk : Disk) :
    (run environment sources .stream options).result = .ok () ∧
      (run environment sources .stream options).leaves environment.files disk = disk := by
  have hText : Destination.stream.IsText := trivial
  obtain ⟨_, hPath, _⟩ := outputOf_of_isText hText (outputOf_of_prepare h)
  obtain ⟨content, _, hResult, hLeaves⟩ := run_of_prepare hText h disk
  rw [hResult, hLeaves, writeText_of_stream (hPath rfl)]
  exact ⟨rfl, rfl⟩

section Path

variable {path : String} {place : Place}

/-- What a run to a path comes to that cannot be written to. -/
theorem run_of_fault (hText : (Destination.file path).IsText) {fault : PathFault}
    (hFault : environment.files.writable path = .error fault)
    (h : (prepare environment sources (.file path) options).result = .ok ready) (disk : Disk) :
    (run environment sources (.file path) options).result = .error (.path fault path) ∧
      (run environment sources (.file path) options).leaves environment.files disk = disk := by
  obtain ⟨_, _, hPath⟩ := outputOf_of_isText hText (outputOf_of_prepare h)
  obtain ⟨content, _, hResult, hLeaves⟩ := run_of_prepare hText h disk
  rw [hResult, hLeaves, writeText_of_fault (hPath path rfl) hFault]
  exact ⟨rfl, rfl⟩

/-- What a run to a path comes to whose text the file can hold. -/
theorem run_of_text (hText : (Destination.file path).IsText)
    (hPlace : environment.files.writable path = .ok place)
    (h : (prepare environment sources (.file path) options).result = .ok ready)
    (hStumbles : ¬Stumbles environment sources (.file path) options place) (disk : Disk) :
    (run environment sources (.file path) options).result = .ok () ∧
      ∃ text, textOf options ready.output ready.chart = .ok (Literal.ofText text) ∧
        (run environment sources (.file path) options).leaves environment.files disk =
          disk.put place text := by
  obtain ⟨_, _, hPath⟩ := outputOf_of_isText hText (outputOf_of_prepare h)
  obtain ⟨content, hContent, hResult, hLeaves⟩ := run_of_prepare hText h disk
  obtain ⟨text, hHeld⟩ := Option.ne_none_iff_exists'.mp fun hNone =>
    hStumbles ⟨path, ready, content, rfl, hPlace, h, hContent, hNone⟩
  rw [hResult, hLeaves, writeText_of_text (hPath path rfl) hPlace hHeld]
  refine ⟨rfl, text, (Encoding.text?_eq_some_iff.mp hHeld).1 ▸ hContent, ?_⟩
  change environment.files.store path text (environment.files.store path "" disk) = _
  rw [FileSystem.store_of_writable hPlace, FileSystem.store_of_writable hPlace, Disk.put_put]

/-- What a run comes to that stumbles. -/
theorem run_of_stumbles (hText : destination.IsText)
    (h : Stumbles environment sources destination options place) (disk : Disk) :
    (∃ codes position, (run environment sources destination options).result =
        .error (.notEncodable environment.encoding.name environment.encoding.complaint codes
          position)) ∧
      (run environment sources destination options).leaves environment.files disk =
        disk.put place "" := by
  obtain ⟨path, ready, content, rfl, hPlace, hReady, hContent, hNone⟩ := h
  obtain ⟨_, _, hPath⟩ := outputOf_of_isText hText (outputOf_of_prepare hReady)
  obtain ⟨_, hSame, hResult, hLeaves⟩ := run_of_prepare hText hReady disk
  obtain rfl := Except.ok.inj (hContent.symm.trans hSame)
  obtain ⟨codes, position, hWrite⟩ := writeText_of_none (hPath path rfl) hPlace hNone
  rw [hResult, hLeaves, hWrite]
  refine ⟨⟨codes, position, rfl⟩, ?_⟩
  change environment.files.store path "" disk = _
  rw [FileSystem.store_of_writable hPlace]

end Path

/-- All ways in which a run to a stream or to the path of a text can end. -/
theorem run_cases (hText : destination.IsText) (disk : Disk) :
    ((∃ fault, (run environment sources destination options).result = .error fault) ∧
      (run environment sources destination options).leaves environment.files disk = disk) ∨
    (∃ place, Stumbles environment sources destination options place) ∨
    ((run environment sources destination options).result = .ok () ∧
      (destination = .stream →
        (run environment sources destination options).leaves environment.files disk = disk) ∧
      ∀ path, destination = .file path → ∃ place ready text,
        environment.files.writable path = .ok place ∧
        (prepare environment sources destination options).result = .ok ready ∧
        textOf options ready.output ready.chart = .ok (Literal.ofText text) ∧
        (run environment sources destination options).leaves environment.files disk =
          disk.put place text) := by
  cases h : (prepare environment sources destination options).result with
  | error fault =>
      refine Or.inl ⟨⟨fault, ?_⟩, ?_⟩
      · rw [run, result_bind, h]
        rfl
      · rw [run, leaves_bind_of_error h, quiet_prepare.leaves_eq]
  | ok ready =>
      cases destination with
      | stream =>
          obtain ⟨hResult, hLeaves⟩ := run_of_stream h disk
          exact Or.inr (Or.inr ⟨hResult, fun _ => hLeaves, fun _ hFile => absurd hFile (by simp)⟩)
      | file path =>
          cases hPlace : environment.files.writable path with
          | error fault =>
              obtain ⟨hResult, hLeaves⟩ := run_of_fault hText hPlace h disk
              exact Or.inl ⟨⟨_, hResult⟩, hLeaves⟩
          | ok place =>
              by_cases hStumbles : Stumbles environment sources (.file path) options place
              · exact Or.inr (Or.inl ⟨place, hStumbles⟩)
              · obtain ⟨hResult, text, hContent, hLeaves⟩ := run_of_text hText hPlace h hStumbles disk
                refine Or.inr (Or.inr ⟨hResult, fun hStream => absurd hStream (by simp), ?_⟩)
                intro other hFile
                cases hFile
                exact ⟨place, ready, text, hPlace, rfl, hContent, hLeaves⟩

/--
What a run to a stream or to the path of a text leaves on the disk. If it fails, nothing is created
or changed, except that a text which the file cannot hold leaves the output file empty. With an
encoding that has all characters, only a chart that is not written as JSON and has a label with a
surrogate in it has such a text, and sources that spell no surrogates have no such labels; with one
that has the printable characters of ASCII, no chart that is written as JSON has. If the run succeeds,
a stream leaves the disk as it is, and of a path exactly this file is written, with the text of the
chart.
-/
theorem disk_of_run (hText : destination.IsText) (disk : Disk) :
    (∀ fault, (run environment sources destination options).result = .error fault →
      (run environment sources destination options).leaves environment.files disk = disk ∨
        ∃ place, Stumbles environment sources destination options place) ∧
    (∀ place, Stumbles environment sources destination options place →
      (∃ codes position, (run environment sources destination options).result =
        .error (.notEncodable environment.encoding.name environment.encoding.complaint codes
          position)) ∧
      (run environment sources destination options).leaves environment.files disk =
        disk.put place "") ∧
    ((∀ c, environment.encoding.holds c = true) →
      (∀ place, Stumbles environment sources destination options place ↔
        ∃ path ready, destination = .file path ∧ environment.files.writable path = .ok place ∧
          (prepare environment sources destination options).result = .ok ready ∧
          ready.output.isJson = false ∧ ¬ready.chart.Textual) ∧
      (environment.files.SpellsTexts →
        ∀ place, ¬Stumbles environment sources destination options place)) ∧
    ((∀ c, Value.Printable [c] → environment.encoding.holds c = true) →
      ∀ path front, destination = .file path → Dotted.splitLast? path = some (front, "json") →
        ∀ place, ¬Stumbles environment sources destination options place) ∧
    ((run environment sources destination options).result = .ok () →
      (destination = .stream →
        (run environment sources destination options).leaves environment.files disk = disk) ∧
      ∀ path, destination = .file path → ∃ place ready text,
        environment.files.writable path = .ok place ∧
        (prepare environment sources destination options).result = .ok ready ∧
        textOf options ready.output ready.chart = .ok (Literal.ofText text) ∧
        (run environment sources destination options).leaves environment.files disk =
          disk.put place text) := by
  refine ⟨fun fault hFault => ?_, fun place hStumbles => run_of_stumbles hText hStumbles disk,
    fun hHolds => ⟨fun place => stumbles_iff hHolds, fun hFiles place hStumbles => ?_⟩,
    fun hHolds path front hFile hJson place => ?_, fun hOk => ?_⟩
  · rcases run_cases hText disk with ⟨_, hLeaves⟩ | hStumbles | ⟨hOk, _⟩
    · exact Or.inl hLeaves
    · exact Or.inr hStumbles
    · exact absurd (hFault.symm.trans hOk) (by simp)
  · obtain ⟨_, ready, _, _, hReady, _, hTextual⟩ := (stumbles_iff hHolds).mp hStumbles
    exact hTextual ((founded_of_prepare hReady).2 hFiles)
  · rw [hFile]
    exact not_stumbles_of_json hHolds hJson place
  · rcases run_cases hText disk with ⟨⟨fault, hFault⟩, _⟩ | ⟨place, hStumbles⟩ | ⟨_, hStream, hPath⟩
    · exact absurd (hFault.symm.trans hOk) (by simp)
    · obtain ⟨⟨codes, position, hFault⟩, _⟩ := run_of_stumbles hText hStumbles disk
      exact absurd (hFault.symm.trans hOk) (by simp)
    · exact ⟨hStream, hPath⟩

/-- A function that is called through a table, in which it stands under a key. -/
def tableModule (key : Literal) : Tree :=
  let keyAt := fun line : Int => Tree.node .constant (some line) [("value", .literal key)] []
  .moduleOf
    [.functionAt 1 "f" [.passAt 2],
     .node .assign (some 3) []
       [.filled .targets (.nameAt 3 "table"),
        .filled .value (.node .dict (some 3) []
          [.filled .keys (keyAt 3), .filled .values (.nameAt 3 "f")])],
     .functionAt 4 "g"
       [.statementAt 5 (.callAt 5 (.node .subscript (some 5) []
         [.filled .value (.nameAt 5 "table"), .filled .slice (keyAt 5)]))]]

/-- The environment in which the only file holds such a module. -/
def tableEnvironment (key : Literal) : Environment :=
  { files := { entries := [(["a.py"], .file { content := .ok (tableModule key) })] }, searchPath := "" }

theorem disk_of_run_table :
    (run (tableEnvironment (Literal.ofText "k")) ["a.py"] (.file "out.dot") {}).result = .ok () ∧
      ∃ text, (run (tableEnvironment (Literal.ofText "k")) ["a.py"] (.file "out.dot") {}).leaves
        (tableEnvironment (Literal.ofText "k")).files (fun _ => none) =
          Disk.put (fun _ => none) ["out.dot"] text := by
  have hText : (Destination.file "out.dot").IsText := ⟨"out", "dot", by decide, by decide +kernel⟩
  have hSpells : (tableEnvironment (Literal.ofText "k")).files.SpellsTexts :=
    FileSystem.spellsTexts_of_trees (by decide +kernel)
  obtain ⟨ready, hReady, _⟩ := CallMap.exists_ok_of_any
    (show (prepare (tableEnvironment (Literal.ofText "k")) ["a.py"] (.file "out.dot")
      {}).result.toOption.any (fun _ => true) = true by decide +kernel)
  obtain ⟨_, _, hAll, _, hWritten⟩ := disk_of_run hText (fun _ => none)
  have hOk := (run_of_text hText rfl hReady ((hAll fun _ => rfl).2 hSpells _) fun _ => none).1
  obtain ⟨place, _, text, hPlace, _, _, hLeaves⟩ := (hWritten hOk).2 "out.dot" rfl
  obtain rfl : ["out.dot"] = place := Except.ok.inj hPlace
  exact ⟨hOk, text, hLeaves⟩

/-- A failing run may leave a file behind that was not there. -/
theorem failing_run_creates_file :
    ¬∀ environment sources destination options fault disk, Destination.IsText destination →
      (run environment sources destination options).result = .error fault →
      (run environment sources destination options).leaves environment.files disk = disk := by
  have hText : (Destination.file "out.dot").IsText := ⟨"out", "dot", by decide, by decide +kernel⟩
  obtain ⟨ready, hReady, hLabel⟩ := CallMap.exists_ok_of_any
    (show (prepare (tableEnvironment [.surrogate 0]) ["a.py"] (.file "out.dot")
      {}).result.toOption.any (fun ready => !ready.output.isJson && ready.chart.edges.any fun edge =>
        edge.label.any fun label => !label.isText) = true by decide +kernel)
  simp only [Bool.and_eq_true, Bool.not_eq_true', List.any_eq_true, Option.any_eq_true] at hLabel
  obtain ⟨hJson, edge, hEdge, label, hSome, hSurrogate⟩ := hLabel
  have hStumbles : Stumbles (tableEnvironment [.surrogate 0]) ["a.py"] (.file "out.dot") {}
      ["out.dot"] := by
    refine (stumbles_iff fun _ => rfl).mpr
      ⟨"out.dot", ready, rfl, rfl, hReady, hJson, fun hTextual => ?_⟩
    exact absurd (hTextual edge hEdge label hSome) (by simp [hSurrogate])
  obtain ⟨⟨codes, position, hFault⟩, hLeaves⟩ := run_of_stumbles hText hStumbles fun _ => none
  intro hSame
  have hNone := congrFun (hLeaves.symm.trans (hSame _ _ _ _ _ (fun _ => none) hText hFault))
    ["out.dot"]
  simp [Disk.put] at hNone

end Program

end CallGraph
