import CallGraph.Proofs.Following
import CallGraph.Proofs.Grammar

/-!
# The files that are collected

The sources are taken one after the other. From each of them imports are followed, below the
directory of this source and past all paths that were taken before. `CallMap.Collected` says which
paths this comes to, and the outlines of a run are those of the collected paths, each path once.

Paths are told apart by their texts. What follows is about texts; where they lead is another matter.

## Main definitions

* `CallMap.Collected` — the paths that some sources come to.
* `FileSystem.AllLegal` — every file that can be read has a legal tree.

## Main results

* `outlines_spec` — the outlines of a run are those of the collected paths.
-/

namespace CallGraph

/-- Every file that can be read has a legal tree. -/
def FileSystem.AllLegal (files : FileSystem) : Prop :=
  ∀ path tree, files.read path = .ok tree → tree.isLegal = true

theorem FileSystem.allLegal_of_trees {files : FileSystem}
    (h : files.trees.all Tree.isLegal = true) : files.AllLegal := by
  intro path tree hRead
  exact List.all_eq_true.mp h tree (Imports.mem_trees_of_read hRead)

namespace CallMap

open CallGraph.Imports

variable {files : FileSystem} {options : Options} {sources : List String} {skip : Bool}

/-! ## Which paths are collected -/

/-- The paths that some sources come to, past all paths to be avoided. Each source is followed past
the paths of the sources in front of it. -/
def Collected (files : FileSystem) (avoid : String → Prop) : List String → String → Prop
  | [], _ => False
  | source :: rest, path =>
      ReachedPast files (baseOf source) avoid [source] path ∨
        Collected files
          (fun other => avoid other ∨ ReachedPast files (baseOf source) avoid [source] other) rest
          path

theorem collected_append {avoid : String → Prop} {front back : List String} {path : String} :
    Collected files avoid (front ++ back) path ↔
      Collected files avoid front path ∨
        Collected files (fun other => avoid other ∨ Collected files avoid front other) back
          path := by
  induction front generalizing avoid with
  | nil => simp [Collected]
  | cons source rest ih =>
      rw [List.cons_append, Collected, Collected, ih]
      simp only [Collected, or_assoc]

/-- A source is collected unless it is to be avoided. -/
theorem collected_of_mem {avoid : String → Prop} {source : String} (h : source ∈ sources)
    (hFree : ¬avoid source) : Collected files avoid sources source := by
  induction sources generalizing avoid with
  | nil => exact absurd h List.not_mem_nil
  | cons first rest ih =>
      by_cases hFirst : ReachedPast files (baseOf first) avoid [first] source
      · exact Or.inl hFirst
      · rcases List.mem_cons.mp h with rfl | hRest
        · exact Or.inl (.start List.mem_cons_self hFree)
        · exact Or.inr (ih hRest (not_or.mpr ⟨hFree, hFirst⟩))

/-- What is reached from a source, past what the sources in front of it come to, is collected. -/
theorem collected_of_reached {front back : List String} {start path : String}
    (h : ReachedPast files (baseOf start) (Collected files (fun _ => False) front) [start] path) :
    Collected files (fun _ => False) (front ++ start :: back) path := by
  rw [collected_append]
  exact Or.inr (Or.inl (by simpa only [false_or] using h))

/-- What such a path imports is collected as well, from this source or from one in front of it. -/
theorem collected_of_imported {front back : List String} {start path next : String}
    (h : ReachedPast files (baseOf start) (Collected files (fun _ => False) front) [start] path)
    (hNext : Imported files (baseOf start) path next) :
    Collected files (fun _ => False) (front ++ start :: back) next := by
  by_cases hFront : Collected files (fun _ => False) front next
  · rw [collected_append]
    exact Or.inl hFront
  · exact collected_of_reached (h.step hNext hFront)

/-! ## Reading -/

theorem readAll_spec {read : List (String × Tree)}
    (h : (readAll files skip sources).result = .ok read) :
    (∀ entry ∈ read, entry.1 ∈ sources ∧ files.read entry.1 = .ok entry.2) ∧
      (skip = false → read.map Prod.fst = sources) := by
  induction sources generalizing read with
  | nil =>
      cases h
      exact ⟨by simp, fun _ => rfl⟩
  | cons source rest ih =>
      rw [readAll] at h
      split at h
      · rename_i tree hRead
        rw [Reported.result_bind] at h
        obtain ⟨others, hOthers, h⟩ := exists_of_bind_eq_ok h
        cases h
        obtain ⟨hAll, hSources⟩ := ih hOthers
        refine ⟨List.forall_mem_cons.mpr ⟨⟨List.mem_cons_self, hRead⟩, fun entry hEntry => ?_⟩,
          fun hSkip => ?_⟩
        · exact ⟨List.mem_cons_of_mem _ (hAll entry hEntry).1, (hAll entry hEntry).2⟩
        · rw [List.map_cons, hSources hSkip]
      · split at h
        · rename_i hSkip
          rw [Reported.result_bind] at h
          obtain ⟨_, _, hOthers⟩ := exists_of_bind_eq_ok h
          obtain ⟨hAll, _⟩ := ih hOthers
          refine ⟨fun entry hEntry => ?_, fun hNot => absurd (hSkip.symm.trans hNot) (by simp)⟩
          exact ⟨List.mem_cons_of_mem _ (hAll entry hEntry).1, (hAll entry hEntry).2⟩
        · exact absurd h (by simp [Reported.fail])

/-- What following the sources comes to: the outlines of different paths, each reached from one of
the sources, and none of which was taken before. -/
structure Gathered (files : FileSystem) (taken sources : List String)
    (outlines : List FileOutline) (paths : List String) : Prop where
  outlined : List.Forall₂ files.HasOutline paths outlines
  nodup : paths.Nodup
  fresh : ∀ path ∈ paths, path ∉ taken
  reached : ∀ path ∈ paths, ∃ source ∈ sources,
    ReachedPast files (baseOf source) (fun _ => False) [source] path

/-- What one source comes to. -/
theorem gathered_of_explored {taken : List String} {source : String} {followed : Followed}
    {outlines : List FileOutline} {paths : List String}
    (h : Explored files (baseOf source) taken [source] followed outlines paths) :
    Gathered files taken [source] outlines paths where
  outlined := h.outlined
  nodup := h.nodup
  fresh path hPath := ((h.mem_iff path).mp hPath).free
  reached path hPath := ⟨source, List.mem_cons_self, ((h.mem_iff path).mp hPath).mono
    (fun _ hAvoid => absurd hAvoid not_false) fun _ hStart _ => .start hStart not_false⟩

theorem Gathered.append {taken sources' : List String} {first others : List FileOutline}
    {paths paths' : List String} (hFirst : Gathered files taken sources first paths)
    (hOthers : Gathered files (paths.reverse ++ taken) sources' others paths') :
    Gathered files taken (sources ++ sources') (first ++ others) (paths ++ paths') where
  outlined := List.rel_append hFirst.outlined hOthers.outlined
  nodup := by
    refine List.nodup_append.mpr ⟨hFirst.nodup, hOthers.nodup, fun p hp q hq hSame => ?_⟩
    have hFresh := hOthers.fresh q hq
    rw [List.mem_append, List.mem_reverse] at hFresh
    exact hFresh (Or.inl (hSame ▸ hp))
  fresh := by
    refine List.forall_mem_append.mpr ⟨hFirst.fresh, fun p hp => ?_⟩
    have hFresh := hOthers.fresh p hp
    exact fun hTaken => hFresh (List.mem_append_right _ hTaken)
  reached := by
    refine List.forall_mem_append.mpr ⟨fun p hp => ?_, fun p hp => ?_⟩
    · obtain ⟨source, hSource, hReached⟩ := hFirst.reached p hp
      exact ⟨source, List.mem_append_left _ hSource, hReached⟩
    · obtain ⟨source, hSource, hReached⟩ := hOthers.reached p hp
      exact ⟨source, List.mem_append_right _ hSource, hReached⟩

/-- One source after the other: what was taken before is not read again, also when a source is passed
over. -/
theorem exists_gathered_of_outlineAll {read : List (String × Tree)} {taken : List String}
    {outlines : List FileOutline} (h : (outlineAll files skip taken read).result = .ok outlines) :
    ∃ paths, Gathered files taken (read.map Prod.fst) outlines paths ∧
      (skip = false → ∀ path, path ∈ paths ↔
        Collected files (· ∈ taken) (read.map Prod.fst) path) := by
  induction read generalizing taken outlines with
  | nil =>
      cases h
      exact ⟨[], ⟨.nil, List.nodup_nil, by simp, by simp⟩, fun _ path => by simp [Collected]⟩
  | cons entry rest ih =>
      obtain ⟨source, tree⟩ := entry
      unfold outlineAll at h
      dsimp only at h
      split at h
      · rename_i first hFirst
        rw [Reported.result_bind] at h
        obtain ⟨others, hOthers, h⟩ := exists_of_bind_eq_ok h
        cases h
        obtain ⟨paths, hPaths⟩ := explored_of_follow hFirst
        obtain ⟨paths', hGathered, hIff⟩ := ih hOthers
        rw [hPaths.taken_eq] at hGathered
        refine ⟨paths ++ paths', (gathered_of_explored hPaths).append hGathered,
          fun hSkip path => ?_⟩
        -- What the next sources avoid is what was taken and what this one came to.
        have hAvoid : (fun other => other ∈ (follow files (baseOf source) taken source).taken) =
            fun other => other ∈ taken ∨
              ReachedPast files (baseOf source) (· ∈ taken) [source] other := by
          funext other
          rw [hPaths.taken_eq, List.mem_append, List.mem_reverse, hPaths.mem_iff, or_comm]
        rw [List.mem_append, hPaths.mem_iff, hIff hSkip, hAvoid]
        rfl
      · split at h
        · rename_i hSkip
          rw [Reported.result_bind] at h
          obtain ⟨_, _, hOthers⟩ := exists_of_bind_eq_ok h
          obtain ⟨paths, hGathered, _⟩ := ih hOthers
          refine ⟨paths, ⟨hGathered.outlined, hGathered.nodup, fun p hp hTaken => ?_,
            fun p hp => ?_⟩, fun hNot => absurd (hSkip.symm.trans hNot) (by simp)⟩
          · exact hGathered.fresh p hp (subset_followWithin files _ _ taken _ p hTaken)
          · obtain ⟨other, hOther, hReached⟩ := hGathered.reached p hp
            exact ⟨other, List.mem_cons_of_mem _ hOther, hReached⟩
        · exact absurd h (by simp [Reported.fail])

/-! ## The outlines of a run -/

/-- The outlines of a run are those of some paths. When imports are followed, these are different,
each is reached from a source, and unless sources are passed over they are the collected ones. -/
theorem outlines_spec {read : List FileOutline}
    (h : (outlines files options sources).result = .ok read) :
    ∃ paths, List.Forall₂ files.HasOutline paths read ∧
      (options.heuristics = true → paths.Nodup ∧
        (∀ path ∈ paths, ∃ source ∈ sources,
          ReachedPast files (baseOf source) (fun _ => False) [source] path) ∧
        (options.skipParseErrors = false →
          ∀ path, path ∈ paths ↔ Collected files (fun _ => False) sources path)) := by
  unfold outlines at h
  rw [Reported.result_bind] at h
  obtain ⟨trees, hTrees, h⟩ := exists_of_bind_eq_ok h
  obtain ⟨hAll, hSources⟩ := readAll_spec hTrees
  split at h
  · obtain ⟨paths, hGathered, hIff⟩ := exists_gathered_of_outlineAll h
    refine ⟨paths, hGathered.outlined, fun _ => ⟨hGathered.nodup, fun path hPath => ?_,
      fun hSkip path => ?_⟩⟩
    · obtain ⟨source, hSource, hReached⟩ := hGathered.reached path hPath
      obtain ⟨entry, hEntry, rfl⟩ := List.mem_map.mp hSource
      exact ⟨entry.1, (hAll entry hEntry).1, hReached⟩
    · rw [hIff hSkip, hSources hSkip]
      simp only [List.not_mem_nil]
  · rename_i hHeuristics
    cases h
    refine ⟨trees.map Prod.fst, ?_, fun hNot => absurd hNot hHeuristics⟩
    rw [List.forall₂_map_left_iff, List.forall₂_map_right_iff, List.forall₂_same]
    exact fun entry hEntry => ⟨entry.2, (hAll entry hEntry).2, rfl⟩

/-- An outline of a run is that of one of its paths. -/
theorem exists_path_of_outlined {paths : List String} {read : List FileOutline}
    (h : List.Forall₂ files.HasOutline paths read) {file : FileOutline} (hFile : file ∈ read) :
    ∃ path ∈ paths, files.HasOutline path file := by
  induction h with
  | nil => exact absurd hFile List.not_mem_nil
  | @cons path first _ _ hFirst _ ih =>
      rcases List.mem_cons.mp hFile with rfl | hFile
      · exact ⟨path, List.mem_cons_self, hFirst⟩
      · obtain ⟨other, hOther, hOutline⟩ := ih hFile
        exact ⟨other, List.mem_cons_of_mem _ hOther, hOutline⟩

/-- The outlines of legal files are clear. -/
theorem clear_of_outlines {read : List FileOutline} (hLegal : files.AllLegal)
    (h : (outlines files options sources).result = .ok read) : ∀ file ∈ read, file.Clear := by
  obtain ⟨paths, hOutlined, _⟩ := outlines_spec h
  intro file hFile
  obtain ⟨path, _, tree, hRead, rfl⟩ := exists_path_of_outlined hOutlined hFile
  exact FileOutline.clear_ofTree (hLegal path tree hRead) path

theorem length_insertFiles (graph : Graph) (read : List FileOutline) :
    (graph.insertFiles read).2.length = read.length := by
  induction read generalizing graph with
  | nil => rfl
  | cons file rest ih => simp [Graph.insertFiles, ih]

end CallMap

end CallGraph
