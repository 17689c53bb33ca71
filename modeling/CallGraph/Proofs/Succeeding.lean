import CallGraph.Proofs.Charting
import CallGraph.Proofs.Starting

/-!
# When the analysis succeeds

If all sources and all files that following their imports comes to can be parsed, reading them
succeeds, and so does everything in front of linking. What is left are the calls: the analysis
succeeds if and only if none of them is blocked (`succeeds_iff_of_parses`).

A call is blocked when it has to look at the names in sight and a function without a line is among
them: an anonymous function that was made up for an earlier call. It is blocked, too, when a binding
has the name that stands for an unknown owner. So whether the analysis succeeds depends on the order
in which calls come up; `fails_parsed_sample` is a program of two files on which it fails.

## Main definitions

* `FileSystem.Parses` — the file at a path can be parsed.
* `Imports.Reaches` — the paths that following imports comes to.
* `CallMap.AllParse` — all files of a run can be parsed.

## Main results

* `outlines_isOk` — reading succeeds.
* `succeeds_iff_of_parses` — when the analysis succeeds.
-/

namespace CallGraph

/-- The file at a path can be parsed: it reads as a tree that the grammar allows. -/
def FileSystem.Parses (files : FileSystem) (path : String) : Prop :=
  ∃ tree, files.read path = .ok tree ∧ tree.isLegal = true

/-! ## Following imports -/

namespace Imports

/-- The paths that following imports from a path comes to. -/
inductive Reaches (files : FileSystem) (base start : String) : String → Prop
  | start : Reaches files base start start
  | step {path next : String} {tree : Tree} (hPath : Reaches files base start path)
      (hRead : files.read path = .ok tree) (hNext : next ∈ dependencies files base tree) :
      Reaches files base start next

variable {files : FileSystem} {base start : String}

/-- Following stays among the paths it can come to, so it reads all it looks at. -/
theorem followWithin_isOk (h : ∀ path, Reaches files base start path → files.Parses path)
    (fuel : Nat) (taken : List String) {pending : List String}
    (hPending : ∀ path ∈ pending, Reaches files base start path) :
    ∃ outlines, (followWithin files base fuel taken pending).outlines = .ok outlines ∧
      ∀ file ∈ outlines, file.Clear := by
  induction fuel generalizing taken pending with
  | zero => exact ⟨[], rfl, by simp⟩
  | succ fuel ih =>
      rw [followWithin]
      cases hRest : pending.dropWhile taken.contains with
      | nil => exact ⟨[], rfl, by simp⟩
      | cons path rest =>
          have hReached : ∀ p ∈ path :: rest, Reaches files base start p := fun p hp =>
            hPending p ((List.dropWhile_sublist _).subset (hRest ▸ hp))
          have hPath := hReached path List.mem_cons_self
          obtain ⟨tree, hRead, hLegal⟩ := h path hPath
          have hNext : ∀ p ∈ dependencies files base tree ++ rest, Reaches files base start p := by
            intro p hp
            rcases List.mem_append.mp hp with hp | hp
            · exact .step hPath hRead hp
            · exact hReached p (List.mem_cons_of_mem _ hp)
          obtain ⟨others, hOthers, hClear⟩ := ih (path :: taken) hNext
          dsimp only
          rw [hRead]
          dsimp only
          rw [hOthers]
          exact ⟨_, rfl, List.forall_mem_cons.mpr
            ⟨FileOutline.clear_ofTree hLegal path, hClear⟩⟩

/-- Whether some paths are all that following imports from one of them comes to, and can be
parsed. -/
def isClosed (files : FileSystem) (base : String) (paths : List String) : Bool :=
  paths.all fun path =>
    match files.read path with
    | .ok tree => tree.isLegal && (dependencies files base tree).all paths.contains
    | .error _ => false

theorem parses_of_isClosed {paths : List String} (h : isClosed files base paths = true)
    (hStart : start ∈ paths) : ∀ path, Reaches files base start path → files.Parses path := by
  have hPaths : ∀ path ∈ paths, ∃ tree, files.read path = .ok tree ∧ tree.isLegal = true ∧
      ∀ next ∈ dependencies files base tree, next ∈ paths := by
    intro path hPath
    have hClosed := List.all_eq_true.mp h path hPath
    split at hClosed
    · rename_i tree hRead
      rw [Bool.and_eq_true, List.all_eq_true] at hClosed
      exact ⟨tree, hRead, hClosed.1, fun next hNext => by simpa using hClosed.2 next hNext⟩
    · exact absurd hClosed Bool.false_ne_true
  have hReached : ∀ path, Reaches files base start path → path ∈ paths := by
    intro path hPath
    induction hPath with
    | start => exact hStart
    | @step path next tree _ hRead hNext ih =>
        obtain ⟨other, hOther, _, hAll⟩ := hPaths path ih
        rw [hRead] at hOther
        cases hOther
        exact hAll next hNext
  intro path hPath
  obtain ⟨tree, hRead, hLegal, _⟩ := hPaths path (hReached path hPath)
  exact ⟨tree, hRead, hLegal⟩

end Imports

/-! ## Reading -/

namespace CallMap

variable {files : FileSystem} {options : Options} {sources : List String}

/-- All files of a run can be parsed: the sources and, if imports are followed, all files that this
comes to. -/
def AllParse (files : FileSystem) (options : Options) (sources : List String) : Prop :=
  ∀ source ∈ sources, files.Parses source ∧ (options.heuristics = true →
    ∀ path, Imports.Reaches files (baseOf source) source path → files.Parses path)

theorem readAll_isOk {skip : Bool} (h : ∀ source ∈ sources, files.Parses source) :
    ∃ read, (readAll files skip sources).result = .ok read ∧
      ∀ entry ∈ read, entry.1 ∈ sources ∧ entry.2.isLegal = true := by
  induction sources with
  | nil => exact ⟨[], rfl, by simp⟩
  | cons source rest ih =>
      obtain ⟨hSource, hRest⟩ := List.forall_mem_cons.mp h
      obtain ⟨tree, hRead, hLegal⟩ := hSource
      obtain ⟨others, hOthers, hAll⟩ := ih hRest
      refine ⟨(source, tree) :: others, ?_, List.forall_mem_cons.mpr
        ⟨⟨List.mem_cons_self, hLegal⟩, fun entry hEntry => ?_⟩⟩
      · rw [readAll, hRead]
        dsimp only
        rw [Reported.result_bind, hOthers]
        rfl
      · exact ⟨List.mem_cons_of_mem _ (hAll entry hEntry).1, (hAll entry hEntry).2⟩

theorem outlineAll_isOk {skip : Bool} {read : List (String × Tree)} (taken : List String)
    (h : ∀ entry ∈ read, ∀ path, Imports.Reaches files (baseOf entry.1) entry.1 path →
      files.Parses path) :
    ∃ outlines, (outlineAll files skip taken read).result = .ok outlines ∧
      ∀ file ∈ outlines, file.Clear := by
  induction read generalizing taken with
  | nil => exact ⟨[], rfl, by simp⟩
  | cons entry rest ih =>
      obtain ⟨hEntry, hRest⟩ := List.forall_mem_cons.mp h
      obtain ⟨source, tree⟩ := entry
      have hStart : ∀ path ∈ [source], Imports.Reaches files (baseOf source) source path := by
        intro path hPath
        rw [List.mem_singleton.mp hPath]
        exact .start
      obtain ⟨first, hFirst, hClear⟩ := Imports.followWithin_isOk hEntry
        (distinct (source :: Imports.pool files (baseOf source))).length taken hStart
      obtain ⟨others, hOthers, hOthersClear⟩ :=
        ih (Imports.follow files (baseOf source) taken source).taken hRest
      refine ⟨first ++ others, ?_, List.forall_mem_append.mpr ⟨hClear, hOthersClear⟩⟩
      unfold outlineAll
      dsimp only
      rw [show (Imports.follow files (baseOf source) taken source).outlines = .ok first from hFirst]
      dsimp only
      rw [Reported.result_bind, hOthers]
      rfl

/-- Reading succeeds when all files can be parsed, and the outlines are clear. -/
theorem outlines_isOk (h : AllParse files options sources) :
    ∃ read, (outlines files options sources).result = .ok read ∧ ∀ file ∈ read, file.Clear := by
  obtain ⟨trees, hTrees, hAll⟩ :=
    @readAll_isOk files sources options.skipParseErrors fun source hSource => (h source hSource).1
  unfold outlines
  rw [Reported.result_bind, hTrees]
  change ∃ read, (if options.heuristics then outlineAll files options.skipParseErrors [] trees
    else return trees.map fun source => FileOutline.ofTree source.2 source.1).result = .ok read ∧ _
  split
  · rename_i hHeuristics
    exact outlineAll_isOk [] fun entry hEntry => (h entry.1 (hAll entry hEntry).1).2 hHeuristics
  · refine ⟨_, rfl, fun file hFile => ?_⟩
    obtain ⟨entry, hEntry, rfl⟩ := List.mem_map.mp hFile
    exact FileOutline.clear_ofTree (hAll entry hEntry).2 entry.1

/-! ## The analysis -/

/-- After everything in front of it, linking decides whether there is a chart. -/
theorem build_isOk_iff {read : List FileOutline} {prepared : Prepared}
    (hRead : (outlines files options sources).result = .ok read)
    (hPrepared : (prepare options read).result = .ok prepared) :
    (∃ chart, (build files options (.text "py") sources).result = .ok chart) ↔
      ∃ linked, prepared.start.linkAll ⟨options.heuristics, options.aliasLabels⟩ prepared.imports
        prepared.start.nodes = .ok linked := by
  constructor
  · rintro ⟨chart, hChart⟩
    obtain ⟨read', prepared', linked, hRun, _⟩ := exists_run_of_build hChart
    cases hRead.symm.trans hRun.reads
    cases hPrepared.symm.trans hRun.prepares
    exact ⟨linked, hRun.finishes⟩
  · rintro ⟨linked, hLinked⟩
    have hLanguage : checkLanguage (.text "py") = .ok () := rfl
    simp only [build, ofOutlines, link, Reported.result_bind, Reported.result_liftM,
      Reported.result_log, hLanguage]
    dsimp only [bind, Except.bind]
    rw [hRead]
    dsimp only
    rw [hPrepared]
    dsimp only
    rw [hLinked]
    exact ⟨_, rfl⟩

/-- All that is asked while calls are linked is asked in a clear graph. -/
theorem fair_asked {read : List FileOutline} {prepared : Prepared}
    (hRead : ∀ file ∈ read, file.Clear) (h : (prepare options read).result = .ok prepared) :
    ∀ query ∈ prepared.asked options, query.Fair :=
  Linking.fair_askedAll (able_of_prepare hRead h) (linkable_of_prepare h) fun _ hn => hn

/-- A call is obscured only behind one that was resolved to a node made for it. -/
theorem creates_of_obscured {read : List FileOutline} {prepared : Prepared}
    (h : (prepare options read).result = .ok prepared) {query : Query} {front back : List Query}
    (hSplit : prepared.asked options = front ++ query :: back) (hObscured : query.Obscured) :
    ∃ earlier ∈ front, earlier.Creates := by
  obtain ⟨_, _, _, hStarted, _⟩ := started_of_prepare h
  exact Linking.creates_of_obscured (linkable_of_prepare h) hStarted.not_hasInvented hSplit
    hObscured

/--
When all files parse and the options have the types they should have, linking is reached. The
analysis then succeeds if and only if none of the calls it asks about is blocked. The names in sight
of a caller can be sorted if and only if no function that was made up is among them, and that is so
until a call is resolved to one.
-/
theorem succeeds_iff_of_parses (hOptions : options.isWellTyped = true)
    (hFiles : AllParse files options sources) :
    ∃ read prepared, (outlines files options sources).result = .ok read ∧
      (prepare options read).result = .ok prepared ∧
      ((∃ chart, (build files options (.text "py") sources).result = .ok chart) ↔
        ∀ query ∈ prepared.asked options, ¬query.Blocked) ∧
      (∀ query ∈ prepared.asked options,
        (∃ bindings, query.graph.visible query.caller query.call.line = .ok bindings) ↔
          ¬query.Obscured) ∧
      ∀ front query back, prepared.asked options = front ++ query :: back → query.Obscured →
        ∃ earlier ∈ front, earlier.Creates := by
  obtain ⟨read, hRead, hClear⟩ := outlines_isOk hFiles
  obtain ⟨prepared, hPrepared⟩ := prepare_isOk hOptions read
  have hFair := fair_asked hClear hPrepared
  refine ⟨read, prepared, hRead, hPrepared, ?_,
    fun query hQuery => (hFair query hQuery).visible_isOk_iff,
    fun _ _ _ hSplit hObscured => creates_of_obscured hPrepared hSplit hObscured⟩
  rw [build_isOk_iff hRead hPrepared, Linking.linkAll_isOk_iff]
  exact forall₂_congr fun query hQuery => (hFair query hQuery).answered_iff

/-! ## Two small programs -/

end CallMap

namespace Tree

def returnAt (line : Int) (value : Tree) : Tree :=
  .node .returnValue (some line) [] [.filled .value value]

/-- An anonymous function without parameters, with the number one as its value. -/
def lambdaAt (line : Int) : Tree :=
  .node .lambda (some line) []
    [.filled .args (.node (.other "arguments") none [] []),
     .filled .body (.node .constant (some line) [("value", .number 1)] [])]

end Tree

namespace CallMap

/-- A module of two functions: the first returns an anonymous function, the second calls the
first. -/
def makerModule : Tree :=
  .moduleOf
    [.functionAt 1 "make" [.returnAt 2 (.lambdaAt 2)],
     .functionAt 3 "g" [.statementAt 4 (.callAt 4 (.nameAt 4 "make"))]]

/-- A module that imports the other one, with a function that has one statement. -/
def userModule (statement : Tree) : Tree :=
  .moduleOf [.importAt 1 "b", .functionAt 2 "f" [.statementAt 3 statement]]

def makerFiles (statement : Tree) : FileSystem :=
  { entries := [(["a.py"], .file { content := .ok (userModule statement) }),
    (["b.py"], .file { content := .ok makerModule })] }

/-- `b.make()` -/
def makeCall : Tree := .callAt 3 (.memberAt 3 (.nameAt 3 "b") "make")

theorem allParse_makerFiles {statement : Tree}
    (h : Imports.isClosed (makerFiles statement) (baseOf "a.py") ["a.py", "./b.py"] = true) :
    AllParse (makerFiles statement) {} ["a.py"] := by
  intro source hSource
  rw [List.mem_singleton.mp hSource]
  have hAll := @Imports.parses_of_isClosed _ _ "a.py" _ h List.mem_cons_self
  exact ⟨hAll _ .start, fun _ => hAll⟩

/-- A computed fault is the fault. -/
theorem eq_error_of_fault {α : Type} {result : Except Fault α} {fault : Fault}
    (h : (match result with
      | .error other => decide (other = fault)
      | .ok _ => false) = true) : result = .error fault := by
  cases result with
  | error other => rw [of_decide_eq_true h]
  | ok _ => exact absurd h Bool.false_ne_true

/-- Calling what the maker returns puts the anonymous function in sight of the second function of
the maker's module, whose names can then not be sorted. -/
theorem fails_parsed_sample :
    AllParse (makerFiles (.callAt 3 makeCall)) {} ["a.py"] ∧
      (build (makerFiles (.callAt 3 makeCall)) {} (.text "py") ["a.py"]).result =
        .error .notComparable :=
  ⟨allParse_makerFiles (by decide +kernel), eq_error_of_fault (by decide +kernel)⟩

/-- Calling only the maker succeeds, so no call is blocked; calling what it returns does not, so
some call is. -/
theorem succeeds_iff_of_parses_sample :
    (∃ read prepared chart,
      (outlines (makerFiles makeCall) {} ["a.py"]).result = .ok read ∧
      (prepare {} read).result = .ok prepared ∧
      (build (makerFiles makeCall) {} (.text "py") ["a.py"]).result = .ok chart ∧
      chart.edges.length = 2 ∧ ∀ query ∈ prepared.asked {}, ¬query.Blocked) ∧
    ∃ read prepared,
      (outlines (makerFiles (.callAt 3 makeCall)) {} ["a.py"]).result = .ok read ∧
      (prepare {} read).result = .ok prepared ∧ ∃ query ∈ prepared.asked {}, query.Blocked := by
  constructor
  · obtain ⟨read, prepared, hRead, hPrepared, hIff, _⟩ := succeeds_iff_of_parses
      (show ({} : Options).isWellTyped = true by decide)
      (allParse_makerFiles (show Imports.isClosed (makerFiles makeCall) _ _ = true by
        decide +kernel))
    obtain ⟨chart, hChart, hEdges⟩ := exists_ok_of_any
      (show (build (makerFiles makeCall) {} (.text "py") ["a.py"]).result.toOption.any
        (fun chart => chart.edges.length == 2) = true by decide +kernel)
    exact ⟨read, prepared, chart, hRead, hPrepared, hChart, by simpa using hEdges,
      hIff.mp ⟨chart, hChart⟩⟩
  · obtain ⟨read, prepared, hRead, hPrepared, hIff, _⟩ := succeeds_iff_of_parses
      (show ({} : Options).isWellTyped = true by decide)
      (allParse_makerFiles (show Imports.isClosed (makerFiles (.callAt 3 makeCall)) _ _ = true by
        decide +kernel))
    have hFails : (build (makerFiles (.callAt 3 makeCall)) {} (.text "py") ["a.py"]).result =
        .error .notComparable := eq_error_of_fault (by decide +kernel)
    refine ⟨read, prepared, hRead, hPrepared, ?_⟩
    by_contra hNone
    push Not at hNone
    obtain ⟨chart, hChart⟩ := hIff.mpr hNone
    exact absurd (hFails.symm.trans hChart) nofun

end CallMap

end CallGraph
