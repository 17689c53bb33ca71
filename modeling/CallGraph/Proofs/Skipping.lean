import CallGraph.Proofs.Collecting
import CallGraph.Proofs.Contents

/-!
# What skipping leaves out

When files that cannot be parsed are to be skipped, reading never fails. But what is skipped is a
whole search: the outlines that following a source has come to are dropped when one of its imports
cannot be read, and the paths that it had taken by then stay taken. So a file is lost that can be
read itself, and no later source brings it back.

A search is described by the order in which it visits paths, depth first and each path once
(`Imports.Visits`). It takes them up to the first that cannot be read (`Imports.tried`,
`taken_follow`), and its outlines are kept if there is no such path. The searches of a run are those
of its sources, each past all that was taken before (`CallMap.Searches`). A source that can be read
therefore has a group if and only if the one search that takes it visits no path that cannot be
read, and all of them have one if and only if all that they import, directly or not, can be read
(`skipped_sources`).

## Main definitions

* `Imports.Visits` — the order in which a search visits paths.
* `Imports.tried` — the paths that a search takes.
* `CallMap.Searches` — what the searches of a run visit.

## Main results

* `taken_follow` — what a search takes, whether it fails or not.
* `outlineAll_skips` — the outlines are those of the searches that do not fail.
* `skipped_sources` — which sources have groups.
-/

namespace CallGraph

/-- Whether the file at a path can be read. -/
def FileSystem.canRead (files : FileSystem) (path : String) : Bool :=
  (files.read path).isOk

theorem FileSystem.canRead_iff {files : FileSystem} {path : String} :
    files.canRead path = true ↔ ∃ tree, files.read path = .ok tree := by
  unfold canRead
  cases files.read path <;> simp [Except.isOk, Except.toBool]

namespace Imports

variable {files : FileSystem} {base : String} {taken pending visited : List String}
  {path : String}

/-! ## The order of a search -/

/-- What the file at a path imports; nothing if it cannot be read. -/
def nextOf (files : FileSystem) (base path : String) : List String :=
  match files.read path with
  | .ok tree => dependencies files base tree
  | .error _ => []

theorem imported_iff_mem_nextOf {next : String} :
    Imported files base path next ↔ next ∈ nextOf files base path := by
  unfold nextOf
  cases hRead : files.read path with
  | ok tree => exact imported_iff hRead
  | error fault => simp [Imported, hRead]

/-- The order in which a search visits paths that are not taken: depth first, each of them once. A
path that cannot be read leads nowhere. -/
inductive Visits (files : FileSystem) (base : String) :
    List String → List String → List String → Prop
  | done {taken : List String} : Visits files base taken [] []
  | pass {taken rest visited : List String} {path : String} (hTaken : path ∈ taken)
      (hRest : Visits files base taken rest visited) :
      Visits files base taken (path :: rest) visited
  | visit {taken rest visited : List String} {path : String} (hFree : path ∉ taken)
      (hRest : Visits files base (path :: taken) (nextOf files base path ++ rest) visited) :
      Visits files base taken (path :: rest) (path :: visited)

theorem Closed.mem_nextOf {known : List String} (h : Closed files base known) {next : String}
    (hNext : next ∈ nextOf files base path) : next ∈ known := by
  unfold nextOf at hNext
  split at hNext
  · rename_i tree hRead
    exact h path tree hRead next hNext
  · exact absurd hNext List.not_mem_nil

/-- There is such an order: every visit leaves fewer known paths. -/
theorem exists_visits_of_closed {known : List String} (hClosed : Closed files base known)
    (hPending : ∀ p ∈ pending, p ∈ known) : ∃ visited, Visits files base taken pending visited := by
  induction hUnread : unread known taken using Nat.strong_induction_on
      generalizing taken pending with
  | _ count ih =>
    induction pending with
    | nil => exact ⟨[], .done⟩
    | cons path rest ihRest =>
        obtain ⟨hPath, hRest⟩ := List.forall_mem_cons.mp hPending
        by_cases hTaken : path ∈ taken
        · obtain ⟨visited, hVisited⟩ := ihRest hRest
          exact ⟨visited, .pass hTaken hVisited⟩
        · have hNext : ∀ p ∈ nextOf files base path ++ rest, p ∈ known :=
            List.forall_mem_append.mpr ⟨fun _ => hClosed.mem_nextOf, hRest⟩
          obtain ⟨visited, hVisited⟩ :=
            ih _ (by rw [← hUnread]; exact unread_lt hPath hTaken) hNext rfl
          exact ⟨path :: visited, .visit hTaken hVisited⟩

theorem exists_visits (files : FileSystem) (base : String) (taken : List String) (path : String) :
    ∃ visited, Visits files base taken [path] visited :=
  exists_visits_of_closed (closed_distinct files base path) (mem_distinct_start files base path)

/-- There is no more than one order. -/
theorem Visits.unique {visited' : List String} (h : Visits files base taken pending visited)
    (h' : Visits files base taken pending visited') : visited = visited' := by
  induction h generalizing visited' with
  | done =>
      cases h'
      rfl
  | pass hTaken _ ih =>
      cases h' with
      | pass _ hRest => exact ih hRest
      | visit hFree _ => exact absurd hTaken hFree
  | visit hFree _ ih =>
      cases h' with
      | pass hTaken _ => exact absurd hTaken hFree
      | visit _ hRest => rw [ih hRest]

/-- A path that is taken is no start. -/
theorem reachedPast_cons_of_mem {rest : List String} {other : String} (h : path ∈ taken) :
    ReachedPast files base (· ∈ taken) (path :: rest) other ↔
      ReachedPast files base (· ∈ taken) rest other := by
  constructor
  · intro hReached
    refine hReached.mono (fun _ hp => hp) fun p hp hNew => ?_
    rcases List.mem_cons.mp hp with rfl | hp
    · exact absurd h hNew
    · exact .start hp hNew
  · intro hReached
    exact hReached.mono (fun _ hp => hp) fun p hp hNew => .start (List.mem_cons_of_mem _ hp) hNew

/-- What is visited is what imports lead to. -/
theorem Visits.mem_iff (h : Visits files base taken pending visited) (other : String) :
    other ∈ visited ↔ ReachedPast files base (· ∈ taken) pending other := by
  induction h with
  | done => simp [not_reachedPast]
  | pass hTaken _ ih => rw [ih, reachedPast_cons_of_mem hTaken]
  | @visit taken rest _ path hFree _ ih =>
      have hFirst : (path :: rest).dropWhile taken.contains = path :: rest := by simp [hFree]
      rw [List.mem_cons, ih, reachedPast_iff hFirst fun _ => imported_iff_mem_nextOf]

theorem Visits.free (h : Visits files base taken pending visited) (hPath : path ∈ visited) :
    path ∉ taken :=
  ((h.mem_iff path).mp hPath).free

/-- A search from a path that is not taken visits it first. -/
theorem Visits.exists_cons (h : Visits files base taken [path] visited) (hFree : path ∉ taken) :
    ∃ rest, visited = path :: rest := by
  cases h with
  | pass hTaken _ => exact absurd hTaken hFree
  | @visit _ _ rest _ _ _ => exact ⟨rest, rfl⟩

/-! ## What a search takes -/

/-- The paths up to the first that cannot be read, and that one. -/
def tried (files : FileSystem) : List String → List String
  | [] => []
  | path :: rest => path :: if files.canRead path then tried files rest else []

theorem tried_eq_self (h : ∀ p ∈ visited, files.canRead p = true) :
    tried files visited = visited := by
  induction visited with
  | nil => rfl
  | cons path rest ih =>
      obtain ⟨hPath, hRest⟩ := List.forall_mem_cons.mp h
      rw [tried, if_pos hPath, ih hRest]

theorem tried_subset (files : FileSystem) (visited : List String) :
    ∀ p ∈ tried files visited, p ∈ visited := by
  induction visited with
  | nil => exact fun _ hp => hp
  | cons path rest ih =>
      intro p hp
      rw [tried] at hp
      split at hp
      · rcases List.mem_cons.mp hp with rfl | hp
        · exact List.mem_cons_self
        · exact List.mem_cons_of_mem _ (ih p hp)
      · rw [List.mem_singleton.mp hp]
        exact List.mem_cons_self

theorem followWithin_cons_of_mem {fuel : Nat} {rest : List String} (h : path ∈ taken) :
    followWithin files base fuel taken (path :: rest) =
      followWithin files base fuel taken rest := by
  cases fuel with
  | zero => rfl
  | succ fuel =>
      have hDrop : (path :: rest).dropWhile taken.contains = rest.dropWhile taken.contains := by
        simp [h]
      rw [followWithin, followWithin, hDrop]

/-- A search takes what it visits up to the first path that cannot be read. -/
theorem taken_followWithin {known : List String} {fuel : Nat} (hClosed : Closed files base known)
    (hPending : ∀ p ∈ pending, p ∈ known) (hFuel : unread known taken ≤ fuel)
    (h : Visits files base taken pending visited) :
    (followWithin files base fuel taken pending).taken =
      (tried files visited).reverse ++ taken := by
  induction h generalizing fuel with
  | done =>
      rw [followWithin_of_dropWhile rfl]
      rfl
  | pass hTaken _ ih =>
      rw [followWithin_cons_of_mem hTaken]
      exact ih (List.forall_mem_cons.mp hPending).2 hFuel
  | @visit taken rest visited path hFree _ ih =>
      obtain ⟨hPath, hRest⟩ := List.forall_mem_cons.mp hPending
      have hLess := unread_lt hPath hFree
      obtain ⟨fuel, rfl⟩ := Nat.exists_eq_succ_of_ne_zero (show fuel ≠ 0 by omega)
      have hFirst : (path :: rest).dropWhile taken.contains = path :: rest := by simp [hFree]
      rw [followWithin, hFirst, tried]
      dsimp only
      cases hRead : files.read path with
      | error fault =>
          have hNot : ¬files.canRead path = true := by simp [FileSystem.canRead_iff, hRead]
          rw [if_neg hNot]
          rfl
      | ok tree =>
          have hNext : nextOf files base path = dependencies files base tree := by
            simp only [nextOf, hRead]
          rw [if_pos (FileSystem.canRead_iff.mpr ⟨tree, hRead⟩)]
          rw [hNext] at ih
          dsimp only
          rw [ih (known_append hClosed hRead hRest) (by omega)]
          simp

theorem taken_follow (h : Visits files base taken [path] visited) :
    (follow files base taken path).taken = (tried files visited).reverse ++ taken :=
  taken_followWithin (closed_distinct files base path) (mem_distinct_start files base path)
    (unread_le_fuel files base taken path) h

/-- A search ends well if and only if all it visits can be read. -/
theorem follow_isOk_iff_of_visits (h : Visits files base taken [path] visited) :
    (∃ outlines, (follow files base taken path).outlines = .ok outlines) ↔
      ∀ p ∈ visited, files.canRead p = true := by
  rw [follow_isOk_iff]
  simp only [FileSystem.canRead_iff, h.mem_iff]

end Imports

namespace CallMap

open CallGraph.Imports

variable {files : FileSystem} {options : Options} {taken sources visited : List String}

/-! ## The searches of a run -/

/-- What the searches from some sources visit. Each goes past the paths that were taken before, also
by searches that failed. -/
inductive Searches (files : FileSystem) : List String → List String → List String → Prop
  | first {taken rest visited : List String} {source : String}
      (hVisits : Visits files (baseOf source) taken [source] visited) :
      Searches files taken (source :: rest) visited
  | later {taken rest visited front : List String} {source : String}
      (hVisits : Visits files (baseOf source) taken [source] front)
      (hRest : Searches files ((tried files front).reverse ++ taken) rest visited) :
      Searches files taken (source :: rest) visited

theorem Searches.free (h : Searches files taken sources visited) {path : String}
    (hPath : path ∈ visited) : path ∉ taken := by
  induction h with
  | first hVisits => exact hVisits.free hPath
  | later _ _ ih => exact fun hTaken => ih hPath (List.mem_append_right _ hTaken)

/-- The searches of a source and of those behind it. -/
theorem searches_cons_iff {source : String} {rest front : List String}
    (hVisits : Visits files (baseOf source) taken [source] front) :
    Searches files taken (source :: rest) visited ↔
      visited = front ∨ Searches files ((tried files front).reverse ++ taken) rest visited := by
  constructor
  · intro h
    cases h with
    | first hFirst => exact Or.inl (hFirst.unique hVisits)
    | later hFirst hRest =>
        rw [hFirst.unique hVisits] at hRest
        exact Or.inr hRest
  · rintro (rfl | hRest)
    · exact .first hVisits
    · exact .later hVisits hRest

/-- No path is taken by two searches. -/
theorem Searches.unique (h : Searches files taken sources visited) {visited' : List String}
    (h' : Searches files taken sources visited') {path : String}
    (hPath : path ∈ tried files visited) (hPath' : path ∈ tried files visited') :
    visited = visited' := by
  induction h with
  | first hVisits =>
      rcases (searches_cons_iff hVisits).mp h' with rfl | hRest
      · rfl
      · have hFree := hRest.free (tried_subset files _ _ hPath')
        exact absurd (List.mem_append_left _ (List.mem_reverse.mpr hPath)) hFree
  | later hVisits hRest ih =>
      rcases (searches_cons_iff hVisits).mp h' with rfl | hRest'
      · have hFree := hRest.free (tried_subset files _ _ hPath)
        exact absurd (List.mem_append_left _ (List.mem_reverse.mpr hPath')) hFree
      · exact ih hRest' hPath

/-- Every source is taken by one of the searches, unless it was taken before. -/
theorem exists_searches_of_mem {source : String} (h : source ∈ sources) (hFree : source ∉ taken) :
    ∃ visited, Searches files taken sources visited ∧ source ∈ tried files visited := by
  induction sources generalizing taken with
  | nil => exact absurd h List.not_mem_nil
  | cons first rest ih =>
      obtain ⟨front, hFront⟩ := exists_visits files (baseOf first) taken first
      by_cases hTried : source ∈ tried files front
      · exact ⟨front, .first hFront, hTried⟩
      · rcases List.mem_cons.mp h with rfl | hRest
        · obtain ⟨others, rfl⟩ := hFront.exists_cons hFree
          exact absurd List.mem_cons_self hTried
        · obtain ⟨visited, hVisited, hSource⟩ :=
            @ih ((tried files front).reverse ++ taken) hRest (by simp [hTried, hFree])
          exact ⟨visited, .later hFront hVisited, hSource⟩

/-- The outlines of the paths that were visited by a search that did not fail. -/
structure Skipped (files : FileSystem) (taken sources : List String)
    (outlines : List FileOutline) (paths : List String) : Prop where
  outlined : List.Forall₂ files.HasOutline paths outlines
  mem_iff : ∀ path, path ∈ paths ↔ ∃ visited, Searches files taken sources visited ∧
    path ∈ visited ∧ ∀ p ∈ visited, files.canRead p = true

theorem Skipped.cons_of_reads {source : String} {rest front paths paths' : List String}
    {first others : List FileOutline} (hVisits : Visits files (baseOf source) taken [source] front)
    (hReads : ∀ p ∈ front, files.canRead p = true)
    (hOutlined : List.Forall₂ files.HasOutline paths first)
    (hPaths : ∀ path, path ∈ paths ↔ path ∈ front)
    (h : Skipped files ((tried files front).reverse ++ taken) rest others paths') :
    Skipped files taken (source :: rest) (first ++ others) (paths ++ paths') where
  outlined := List.rel_append hOutlined h.outlined
  mem_iff path := by
    rw [List.mem_append, hPaths, h.mem_iff]
    simp only [searches_cons_iff hVisits, or_and_right, exists_or, exists_eq_left]
    exact or_congr_left (iff_self_and.mpr fun _ => hReads)

theorem Skipped.cons_of_fails {source : String} {rest front paths : List String}
    {others : List FileOutline} (hVisits : Visits files (baseOf source) taken [source] front)
    (hFails : ¬∀ p ∈ front, files.canRead p = true)
    (h : Skipped files ((tried files front).reverse ++ taken) rest others paths) :
    Skipped files taken (source :: rest) others paths where
  outlined := h.outlined
  mem_iff path := by
    rw [h.mem_iff]
    simp only [searches_cons_iff hVisits, or_and_right, exists_or, exists_eq_left, hFails,
      and_false, false_or]

/-- With skipping, the outlines are those of the searches that do not fail. -/
theorem outlineAll_skips (files : FileSystem) (taken : List String) (read : List (String × Tree)) :
    ∃ outlines paths, (outlineAll files true taken read).result = .ok outlines ∧
      Skipped files taken (read.map Prod.fst) outlines paths := by
  induction read generalizing taken with
  | nil =>
      refine ⟨[], [], rfl, .nil, fun path => ?_⟩
      constructor
      · intro hPath
        exact absurd hPath List.not_mem_nil
      · -- Without sources nothing is searched.
        rintro ⟨_, hSearches, _⟩
        cases hSearches
  | cons entry rest ih =>
      obtain ⟨source, tree⟩ := entry
      obtain ⟨front, hFront⟩ := exists_visits files (baseOf source) taken source
      have hTaken := taken_follow hFront
      obtain ⟨others, paths', hOthers, hSkipped⟩ := ih ((tried files front).reverse ++ taken)
      unfold outlineAll
      dsimp only
      rw [hTaken]
      cases hFirst : (follow files (baseOf source) taken source).outlines with
      | ok first =>
          obtain ⟨paths, hPaths⟩ := explored_of_follow hFirst
          refine ⟨first ++ others, paths ++ paths', ?_,
            Skipped.cons_of_reads hFront ((follow_isOk_iff_of_visits hFront).mp ⟨first, hFirst⟩)
              hPaths.outlined (fun path => ?_) hSkipped⟩
          · dsimp only
            rw [Reported.result_bind, hOthers]
            rfl
          · rw [hPaths.mem_iff, hFront.mem_iff]
      | error fault =>
          refine ⟨others, paths', ?_, Skipped.cons_of_fails hFront (fun hReads => ?_) hSkipped⟩
          · dsimp only
            rw [if_pos rfl, Reported.result_bind, hOthers]
            rfl
          · obtain ⟨outlines, hOk⟩ := (follow_isOk_iff_of_visits hFront).mpr hReads
            cases hFirst.symm.trans hOk

/-! ## Which sources are kept -/

theorem collected_cons_iff {source : String} {rest front : List String} {path : String}
    (hVisits : Visits files (baseOf source) taken [source] front) :
    Collected files (· ∈ taken) (source :: rest) path ↔
      path ∈ front ∨ Collected files (· ∈ front.reverse ++ taken) rest path := by
  rw [Collected]
  simp only [← hVisits.mem_iff, List.mem_append, List.mem_reverse, or_comm]

/-- All sources are kept if and only if all that they come to can be read. The first search that
fails loses its own source. -/
theorem forall_kept_iff :
    (∀ source ∈ sources, source ∉ taken → ∃ visited, Searches files taken sources visited ∧
      source ∈ visited ∧ ∀ p ∈ visited, files.canRead p = true) ↔
    ∀ path, Collected files (· ∈ taken) sources path → files.canRead path = true := by
  induction sources generalizing taken with
  | nil => simp [Collected]
  | cons first rest ih =>
      obtain ⟨front, hFront⟩ := exists_visits files (baseOf first) taken first
      by_cases hReads : ∀ p ∈ front, files.canRead p = true
      · have hTried := tried_eq_self hReads
        have hRest := @ih (front.reverse ++ taken)
        simp only [searches_cons_iff hFront, hTried, collected_cons_iff hFront]
        constructor
        · intro h
          refine fun path hPath =>
            hPath.elim (hReads path) (hRest.mp (fun source hSource hFree => ?_) path)
          obtain ⟨visited, rfl | hVisited, hIn, hAll⟩ := h source (List.mem_cons_of_mem _ hSource)
            fun hTaken => hFree (List.mem_append_right _ hTaken)
          · exact absurd (List.mem_append_left _ (List.mem_reverse.mpr hIn)) hFree
          · exact ⟨visited, hVisited, hIn, hAll⟩
        · intro h source hSource hFree
          by_cases hIn : source ∈ front
          · exact ⟨front, Or.inl rfl, hIn, hReads⟩
          · have hBehind : source ∈ rest := by
              rcases List.mem_cons.mp hSource with rfl | hBehind
              · obtain ⟨others, rfl⟩ := hFront.exists_cons hFree
                exact absurd List.mem_cons_self hIn
              · exact hBehind
            obtain ⟨visited, hVisited, hKept⟩ := hRest.mpr (fun path hPath => h path (Or.inr hPath))
              source hBehind (by simp [hIn, hFree])
            exact ⟨visited, Or.inr hVisited, hKept⟩
      · constructor
        · intro h
          have hFree : first ∉ taken := by
            intro hTaken
            cases hFront with
            | pass _ hDone =>
                cases hDone
                exact hReads (by simp)
            | visit hFree _ => exact hFree hTaken
          obtain ⟨visited, hVisited, hIn, hAll⟩ := h first List.mem_cons_self hFree
          obtain ⟨others, rfl⟩ := hFront.exists_cons hFree
          have hSame := hVisited.unique (.first hFront)
            (show first ∈ tried files visited by rwa [tried_eq_self hAll]) List.mem_cons_self
          exact absurd (hSame ▸ hAll) hReads
        · intro h
          refine absurd (fun p hp => h p ?_) hReads
          exact (collected_cons_iff hFront).mpr (Or.inl hp)

/-- With skipping, the sources are read that can be read. -/
theorem readAll_skips (files : FileSystem) (sources : List String) :
    ∃ read, (readAll files true sources).result = .ok read ∧
      read.map Prod.fst = sources.filter files.canRead := by
  induction sources with
  | nil => exact ⟨[], rfl, rfl⟩
  | cons source rest ih =>
      obtain ⟨others, hOthers, hPaths⟩ := ih
      cases hRead : files.read source with
      | ok tree =>
          refine ⟨(source, tree) :: others, ?_, ?_⟩
          · rw [readAll, hRead]
            dsimp only
            rw [Reported.result_bind, hOthers]
            rfl
          · rw [List.filter_cons_of_pos (FileSystem.canRead_iff.mpr ⟨tree, hRead⟩), ← hPaths]
            rfl
      | error fault =>
          refine ⟨others, ?_, ?_⟩
          · rw [readAll, hRead]
            dsimp only
            rw [if_pos rfl, Reported.result_bind, hOthers]
            rfl
          · rw [List.filter_cons_of_neg (by simp [FileSystem.canRead_iff, hRead]), hPaths]

/-- The file at a path has a group in the graph of a run. -/
def HasGroup (read : List FileOutline) (paths : List String) (path : String) : Prop :=
  ∃ g, (path, g) ∈ paths.zip (Graph.loaded read).2

theorem hasGroup_iff {read : List FileOutline} {paths : List String} {path : String}
    (h : List.Forall₂ files.HasOutline paths read) : HasGroup read paths path ↔ path ∈ paths := by
  constructor
  · rintro ⟨g, hg⟩
    exact (List.of_mem_zip hg).1
  · refine exists_mem_zip ?_
    rw [length_insertFiles, h.length_eq]

/-- The groups of the files are the first groups of a run. -/
theorem Run.groups_prefix {read : List FileOutline} {prepared : Prepared} {linked : Linking}
    (h : Run files options sources read prepared linked) :
    (Graph.loaded read).2 <+: linked.files := by
  obtain ⟨_, _, _, hStarted, _⟩ := started_of_prepare h.prepares
  obtain ⟨_, hProgress, _⟩ := h.links.progress
  exact hStarted.files_prefix.trans hProgress.files_prefix

/-- With skipping, reading always succeeds. -/
theorem outlines_skips (files : FileSystem) (sources : List String)
    (hSkip : options.skipParseErrors = true) (hHeuristics : options.heuristics = true) :
    ∃ read paths, (outlines files options sources).result = .ok read ∧
      Skipped files [] (sources.filter files.canRead) read paths := by
  obtain ⟨trees, hTrees, hSources⟩ := readAll_skips files sources
  obtain ⟨read, paths, hRead, hSkipped⟩ := outlineAll_skips files [] trees
  refine ⟨read, paths, ?_, hSources ▸ hSkipped⟩
  unfold outlines
  rw [hSkip, Reported.result_bind, hTrees, hHeuristics]
  exact hRead

/-- A path that is taken by a search has a group if and only if the search does not fail. -/
theorem Skipped.hasGroup_iff_of_tried {read : List FileOutline} {paths : List String}
    {path : String} (h : Skipped files taken sources read paths)
    (hVisited : Searches files taken sources visited) (hPath : path ∈ tried files visited) :
    HasGroup read paths path ↔ ∀ p ∈ visited, files.canRead p = true := by
  rw [hasGroup_iff h.outlined, h.mem_iff]
  constructor
  · rintro ⟨other, hOther, hIn, hAll⟩
    rw [hVisited.unique hOther hPath (by rwa [tried_eq_self hAll])]
    exact hAll
  · exact fun hAll => ⟨visited, hVisited, tried_subset files _ _ hPath, hAll⟩

/--
With skipping, reading always succeeds, but it loses files that can be read. A source that can be
read is taken by exactly one search, and it has a group if and only if this search visits no path
that cannot be read. So all sources that can be read have groups if and only if everything that
following them comes to can be read as well.
-/
theorem skipped_sources (hSkip : options.skipParseErrors = true)
    (hHeuristics : options.heuristics = true) :
    ∃ read paths, (outlines files options sources).result = .ok read ∧
      List.Forall₂ files.HasOutline paths read ∧
      (∀ prepared linked, Run files options sources read prepared linked →
        (Graph.loaded read).2 <+: linked.files) ∧
      (∀ source ∈ sources, files.canRead source = true →
        ∃ visited, Searches files [] (sources.filter files.canRead) visited ∧
          source ∈ tried files visited ∧
          (∀ other, Searches files [] (sources.filter files.canRead) other →
            source ∈ tried files other → other = visited) ∧
          (HasGroup read paths source ↔ ∀ path ∈ visited, files.canRead path = true)) ∧
      ((∀ source ∈ sources, files.canRead source = true → HasGroup read paths source) ↔
        ∀ path, Collected files (fun _ => False) (sources.filter files.canRead) path →
          files.canRead path = true) := by
  obtain ⟨read, paths, hRead, hSkipped⟩ := outlines_skips files sources hSkip hHeuristics
  refine ⟨read, paths, hRead, hSkipped.outlined, fun _ _ hRun => hRun.groups_prefix,
    fun source hSource hReads => ?_, ?_⟩
  · obtain ⟨visited, hVisited, hTaken⟩ := exists_searches_of_mem
      (List.mem_filter.mpr ⟨hSource, hReads⟩) (show source ∉ [] from List.not_mem_nil)
    exact ⟨visited, hVisited, hTaken, fun other hOther hIn => hOther.unique hVisited hIn hTaken,
      hSkipped.hasGroup_iff_of_tried hVisited hTaken⟩
  · have hKept := @forall_kept_iff files [] (sources.filter files.canRead)
    simp only [List.not_mem_nil, not_false_eq_true, true_imp_iff, List.mem_filter, and_imp] at hKept
    rw [← hKept]
    simp only [hasGroup_iff hSkipped.outlined, hSkipped.mem_iff]

/-- A module with two imports, of which the second cannot be parsed, and two more modules. -/
def brokenFiles : FileSystem :=
  { entries := [(["a.py"], .file { content := .ok (.moduleOf
      [.importAt 1 "c", .importAt 2 "b",
       .functionAt 3 "f" [.statementAt 4 (.callAt 4 (.nameAt 4 "g"))],
       .functionAt 5 "g" [.passAt 6]]) }),
    (["b.py"], .file { content := .error ⟨"SyntaxError", "invalid syntax", "SyntaxError()"⟩ }),
    (["c.py"], .file { content := .ok (.moduleOf
      [.functionAt 1 "h" [.passAt 2]]) }),
    (["d.py"], .file { content := .ok (.moduleOf
      [.functionAt 1 "k" [.passAt 2]]) })] }

/-- The search from the first module takes the third one before it fails. -/
theorem visits_brokenFiles :
    Visits brokenFiles (baseOf "./a.py") [] ["./a.py"] ["./a.py", "./c.py", "./b.py"] := by
  have hFirst : nextOf brokenFiles (baseOf "./a.py") "./a.py" = ["./c.py", "./b.py"] := by
    decide +kernel
  have hSecond : nextOf brokenFiles (baseOf "./a.py") "./c.py" = [] := by decide +kernel
  have hThird : nextOf brokenFiles (baseOf "./a.py") "./b.py" = [] := by decide +kernel
  refine .visit (by decide) ?_
  rw [hFirst]
  refine .visit (by decide) ?_
  rw [hSecond]
  refine .visit (by decide) ?_
  rw [hThird]
  exact .done

/-- Nothing is left to visit from the second source; the third one is read. -/
theorem searches_brokenFiles :
    Searches brokenFiles [] ["./a.py", "./c.py", "./d.py"] ["./d.py"] := by
  have hNext : nextOf brokenFiles (baseOf "./d.py") "./d.py" = [] := by decide +kernel
  refine .later visits_brokenFiles (.later (.pass (by decide +kernel) .done) (.first ?_))
  refine .visit (by decide +kernel) ?_
  rw [hNext]
  exact .done

/-- Of three sources that can be read, only the last one has a group. -/
theorem skipped_sources_broken :
    ∃ read paths, (outlines brokenFiles { skipParseErrors := true }
        ["./a.py", "./c.py", "./d.py"]).result = .ok read ∧
      List.Forall₂ brokenFiles.HasOutline paths read ∧
      ¬HasGroup read paths "./a.py" ∧ ¬HasGroup read paths "./c.py" ∧
      HasGroup read paths "./d.py" := by
  obtain ⟨read, paths, hRead, hOutlined, _, hSources, _⟩ := @skipped_sources brokenFiles
    { skipParseErrors := true } ["./a.py", "./c.py", "./d.py"] rfl rfl
  have hFilter : ["./a.py", "./c.py", "./d.py"].filter brokenFiles.canRead =
      ["./a.py", "./c.py", "./d.py"] := by decide +kernel
  rw [hFilter] at hSources
  have hFails : ¬∀ path ∈ ["./a.py", "./c.py", "./b.py"], brokenFiles.canRead path = true := by
    decide +kernel
  refine ⟨read, paths, hRead, hOutlined, ?_, ?_, ?_⟩
  · obtain ⟨visited, _, _, hUnique, hIff⟩ := hSources "./a.py" (by decide) (by decide +kernel)
    rw [hIff, ← hUnique _ (.first visits_brokenFiles) (by decide +kernel)]
    exact hFails
  · obtain ⟨visited, _, _, hUnique, hIff⟩ := hSources "./c.py" (by decide) (by decide +kernel)
    rw [hIff, ← hUnique _ (.first visits_brokenFiles) (by decide +kernel)]
    exact hFails
  · obtain ⟨visited, _, _, hUnique, hIff⟩ := hSources "./d.py" (by decide) (by decide +kernel)
    rw [hIff, ← hUnique _ searches_brokenFiles (by decide +kernel)]
    decide +kernel

/-- A source that can be read is marked as taken by a search that fails, and has no group. -/
theorem source_lost_broken :
    brokenFiles.canRead "./c.py" = true ∧ brokenFiles.canRead "./a.py" = true ∧
      ∃ read paths, (outlines brokenFiles { skipParseErrors := true }
          ["./a.py", "./c.py", "./d.py"]).result = .ok read ∧
        List.Forall₂ brokenFiles.HasOutline paths read ∧
        "./c.py" ∈ (follow brokenFiles (baseOf "./a.py") [] "./a.py").taken ∧
        ¬HasGroup read paths "./c.py" ∧ ¬HasGroup read paths "./a.py" := by
  obtain ⟨read, paths, hRead, hSkipped⟩ := @outlines_skips { skipParseErrors := true } brokenFiles
    ["./a.py", "./c.py", "./d.py"] rfl rfl
  have hFilter : ["./a.py", "./c.py", "./d.py"].filter brokenFiles.canRead =
      ["./a.py", "./c.py", "./d.py"] := by decide +kernel
  rw [hFilter] at hSkipped
  have hFails : ¬∀ path ∈ ["./a.py", "./c.py", "./b.py"], brokenFiles.canRead path = true := by
    decide +kernel
  refine ⟨by decide +kernel, by decide +kernel, read, paths, hRead, hSkipped.outlined, ?_, ?_, ?_⟩
  · rw [taken_follow visits_brokenFiles]
    decide +kernel
  · rw [hSkipped.hasGroup_iff_of_tried (.first visits_brokenFiles) (by decide +kernel)]
    exact hFails
  · rw [hSkipped.hasGroup_iff_of_tried (.first visits_brokenFiles) (by decide +kernel)]
    exact hFails

end CallMap

end CallGraph
