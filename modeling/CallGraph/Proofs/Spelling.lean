import CallGraph.Proofs.Collecting
import CallGraph.Proofs.Names
import CallGraph.Sources

/-!
# Spellings of paths

One file can be named by several texts, and paths are told apart by their texts. So a file is
analysed twice if two of the collected paths are two spellings of its place.

A path is plainly spelled if none of its components is empty, a dot or two dots. A place has one
plain spelling only. Imports of a plainly spelled source that names a directory are plainly spelled
as well, so if all sources are, no file is analysed twice. A source without a directory is different:
what it imports is looked for below the directory `.`, and comes out with another spelling.

## Main definitions

* `Path.IsPlain` — a plainly spelled path.
* `FileSystem.ImportsPlainly` — imports name modules by complete names without slashes.

## Main results

* `eq_normalize_of_locate` — a path leads to the place that it spells, if it leads anywhere.
* `normalize_of_isPlain` — a plainly spelled path spells the place of its components.
* `analysed_once_iff` — when no file is analysed twice.
-/

namespace CallGraph

/-! ## Plain paths -/

namespace Path

open CallGraph.Text

/-- A component that leads one step down. -/
def IsStep (part : String) : Prop :=
  part ≠ "" ∧ part ≠ "." ∧ part ≠ ".."

/-- A plainly spelled path: every component leads one step down. -/
def IsPlain (path : String) : Prop :=
  ∀ part ∈ components path, IsStep part

instance (part : String) : Decidable (IsStep part) := inferInstanceAs (Decidable (_ ∧ _))

instance (path : String) : Decidable (IsPlain path) :=
  inferInstanceAs (Decidable (∀ part ∈ components path, IsStep part))

/-- Whether a path names a directory in front of the file. -/
def hasDirectory (path : String) : Bool :=
  hasChar '/' path

variable {directory path item : String}

theorem components_append (front back : String) :
    components (front ++ "/" ++ back) = components front ++ components back :=
  splitAtChar_append '/' rfl

theorem components_of_not_mem (h : '/' ∉ item.toList) : components item = [item] :=
  splitAtChar_of_not_mem h

/-- A plainly spelled path neither starts nor ends with a slash, and it is not empty. -/
theorem IsPlain.ends (h : IsPlain path) :
    path ≠ "" ∧ startsWith path "/" = false ∧ endsWith path "/" = false := by
  refine ⟨?_, ?_, ?_⟩
  · rintro rfl
    exact (h "" (by decide)).1 rfl
  · rw [← Bool.not_eq_true]
    intro hStarts
    obtain ⟨rest, hRest⟩ := List.isPrefixOf_iff_prefix.mp hStarts
    have hPath : path = "" ++ "/" ++ String.ofList rest := by
      rw [← String.toList_inj, ← hRest]
      simp
    rw [hPath] at h
    exact (h "" (by rw [components_append]; simp [components, splitAtChar, splitChars])).1 rfl
  · rw [← Bool.not_eq_true]
    intro hEnds
    obtain ⟨rest, hRest⟩ := List.isSuffixOf_iff_suffix.mp hEnds
    have hPath : path = String.ofList rest ++ "/" ++ "" := by
      rw [← String.toList_inj, ← hRest]
      simp
    rw [hPath] at h
    exact (h "" (by rw [components_append]; simp [components, splitAtChar, splitChars])).1 rfl

theorem startsWith_of_not_mem (h : '/' ∉ item.toList) : startsWith item "/" = false := by
  rw [← Bool.not_eq_true]
  intro hStarts
  obtain ⟨rest, hRest⟩ := List.isPrefixOf_iff_prefix.mp hStarts
  exact h (by rw [← hRest]; simp)

/-- A step below the working directory or below a plainly spelled one. -/
theorem isPlain_join (hDirectory : directory = "" ∨ IsPlain directory)
    (hItem : '/' ∉ item.toList) (hStep : IsStep item) : IsPlain (join directory item) := by
  have hSingle : IsPlain item := by
    intro part hPart
    rw [components_of_not_mem hItem, List.mem_singleton] at hPart
    rw [hPart]
    exact hStep
  unfold join
  rw [startsWith_of_not_mem hItem, if_neg Bool.false_ne_true]
  rcases hDirectory with rfl | hPlain
  · simpa using hSingle
  · obtain ⟨hne, _, hEnds⟩ := hPlain.ends
    rw [if_neg (by simp [hne, hEnds])]
    intro part hPart
    rw [components_append, List.mem_append] at hPart
    exact hPart.elim (hPlain part) (hSingle part)

/-- An ending goes to the last component. -/
theorem join_append (hItem : '/' ∉ item.toList) {ending : String} (hEnding : '/' ∉ ending.toList) :
    join directory item ++ ending = join directory (item ++ ending) := by
  have hBoth : '/' ∉ (item ++ ending).toList := by simp [hItem, hEnding]
  unfold join
  rw [startsWith_of_not_mem hItem, startsWith_of_not_mem hBoth]
  split
  · rename_i hAbsurd
    exact absurd hAbsurd Bool.false_ne_true
  · split <;> simp only [String.append_assoc]

theorem isStep_append_py (item : String) : IsStep (item ++ ".py") := by
  have hLength : 3 ≤ (item ++ ".py").toList.length := by simp
  refine ⟨?_, ?_, ?_⟩
  all_goals
    intro hSame
    rw [hSame] at hLength
    exact absurd hLength (by decide)

theorem not_mem_append_py (h : '/' ∉ item.toList) : '/' ∉ (item ++ ".py").toList := by
  simp [h]

/-- What stands in front of the last slash of a plainly spelled path. -/
theorem directory_append {front back : List Char} (hFront : IsPlain (String.ofList front))
    (hBack : '/' ∉ back) :
    Path.directory (String.ofList (front ++ '/' :: back)) = String.ofList front := by
  obtain ⟨hne, _, hEnds⟩ := hFront.ends
  rcases List.eq_nil_or_concat front with rfl | ⟨rest, c, rfl⟩
  · exact absurd rfl hne
  · have hc : c ≠ '/' := by
      rintro rfl
      rw [← Bool.not_eq_true] at hEnds
      exact hEnds (List.isSuffixOf_iff_suffix.mpr ⟨rest, by simp⟩)
    unfold Path.directory
    rw [String.toList_ofList, beforeLast?_append hBack]
    simp [hc]

/-- The directory of a plainly spelled path is plainly spelled, unless there is none. -/
theorem directory_of_isPlain (h : IsPlain path) :
    if hasDirectory path then IsPlain (Path.directory path) else Path.directory path = "" := by
  split
  · rename_i hSlash
    obtain ⟨back, front, hPath, hBack⟩ := List.eq_append_cons_of_mem
      (List.mem_reverse.mpr (List.contains_iff_mem.mp hSlash))
    have hChars : path = String.ofList (front.reverse ++ '/' :: back.reverse) := by
      rw [← String.toList_inj, ← List.reverse_inj, hPath]
      simp
    have hText : path = String.ofList front.reverse ++ "/" ++ String.ofList back.reverse := by
      rw [hChars, ← String.toList_inj]
      simp
    have hFront : IsPlain (String.ofList front.reverse) := by
      intro part hPart
      refine h part ?_
      rw [hText, components_append]
      exact List.mem_append_left _ hPart
    rw [hChars, directory_append hFront (by simpa using hBack)]
    exact hFront
  · rename_i hSlash
    unfold Path.directory
    rw [beforeLast?_eq_none fun hMem => hSlash (List.contains_iff_mem.mpr hMem)]

end Path

/-! ## The place of a plain path -/

namespace FileSystem

variable {files : FileSystem}

theorem isSome_of_isDirectoryAt {place : Place} (h : files.isDirectoryAt place = true) :
    (files.entry? place).isSome = true := by
  unfold isDirectoryAt at h
  split at h
  · rename_i hEntry
    rw [hEntry]
    rfl
  · exact absurd h Bool.false_ne_true

/-- A dot or an empty component stays in a directory. -/
theorem enter_stay {part : String} {place : Place} (hPart : part = "" ∨ part = ".")
    (h : files.isDirectoryAt place = true) : files.enter place part = .ok place := by
  have hStep : step place part = place := by rw [step, if_pos (by simpa using hPart)]
  rw [enter, h, hStep, isSome_of_isDirectoryAt h]
  rfl

/-- A component that leads somewhere leads one step further. -/
theorem eq_step_of_enter {part : String} {place next : Place}
    (h : files.enter place part = .ok next) : next = step place part := by
  unfold enter at h
  split at h
  · exact absurd h (by simp)
  · split at h
    · exact (Except.ok.inj h).symm
    · exact absurd h (by simp)

theorem eq_foldl_of_enterAll {parts : List String} {place result : Place}
    (h : files.enterAll place parts = .ok result) : result = parts.foldl step place := by
  induction parts generalizing place with
  | nil =>
      cases h
      rfl
  | cons part rest ih =>
      rw [enterAll] at h
      cases hNext : files.enter place part with
      | error fault =>
          rw [hNext] at h
          exact absurd h (by simp [bind, Except.bind])
      | ok next =>
          rw [hNext] at h
          rw [ih h, eq_step_of_enter hNext, List.foldl_cons]

/-- A path leads to the place that it spells, if it leads anywhere. -/
theorem eq_normalize_of_locate {path : String} {place : Place}
    (h : files.locate path = .ok place) : place = normalize files.base path := by
  unfold locate at h
  split at h
  · exact absurd h (by simp)
  · exact eq_foldl_of_enterAll h

theorem foldl_step_of_isStep {parts : List String} (h : ∀ part ∈ parts, Path.IsStep part)
    (place : Place) : parts.foldl step place = place ++ parts := by
  induction parts generalizing place with
  | nil => rw [List.append_nil]; rfl
  | cons part rest ih =>
      obtain ⟨⟨hEmpty, hDot, hDots⟩, hRest⟩ := List.forall_mem_cons.mp h
      have hStep : step place part = place ++ [part] := by
        rw [step, if_neg (by simp [hEmpty, hDot]), if_neg hDots]
      rw [List.foldl_cons, hStep, ih hRest, List.append_assoc, List.singleton_append]

/-- A plainly spelled path spells the place of its components below the working directory. -/
theorem normalize_of_isPlain {path : String} (h : Path.IsPlain path) (base : Place) :
    normalize base path = base ++ Path.components path := by
  obtain ⟨_, hStarts, _⟩ := h.ends
  rw [normalize, start, hStarts, if_neg Bool.false_ne_true, foldl_step_of_isStep h]

/-- A path that is not absolute can also be spelled with a dot in front. -/
theorem locate_dot {path : String} {place : Place} (hRelative : Text.startsWith path "/" = false)
    (h : files.locate path = .ok place) : files.locate ("./" ++ path) = .ok place := by
  have hText : "./" ++ path = "." ++ "/" ++ path := rfl
  have hStart : start files.base ("./" ++ path) = start files.base path := by
    rw [start, start, hRelative, if_neg (by simp [Text.startsWith, List.isPrefixOf]),
      if_neg Bool.false_ne_true]
  unfold locate at h ⊢
  split at h
  · exact absurd h (by simp)
  · rw [if_neg (by simp [← String.toList_inj]), hStart, hText, Path.components_append,
      Path.components_of_not_mem (by decide), List.singleton_append]
    -- The path leads somewhere, so it starts in a directory.
    have hDirectory : files.isDirectoryAt (start files.base path) = true := by
      cases hParts : Path.components path with
      | nil => exact absurd hParts (by simp [Path.components, Text.splitAtChar, Text.splitChars_ne_nil])
      | cons part rest =>
          rw [hParts, enterAll] at h
          by_contra hNot
          rw [Bool.not_eq_true] at hNot
          simp [enter, hNot, bind, Except.bind] at h
    rw [enterAll, enter_stay (Or.inr rfl) hDirectory]
    exact h

/-- A place has one plain spelling. -/
theorem eq_of_locate_eq {path other : String} (h : Path.IsPlain path) (h' : Path.IsPlain other)
    {place : Place} (hLocate : files.locate path = .ok place)
    (hSame : files.locate path = files.locate other) : path = other := by
  have hPath := eq_normalize_of_locate hLocate
  have hOther := eq_normalize_of_locate (hSame.symm.trans hLocate)
  rw [hPath, normalize_of_isPlain h, normalize_of_isPlain h'] at hOther
  exact Text.splitAtChar_injective '/' (List.append_cancel_left hOther)

end FileSystem

/-! ## Plain imports -/

/-- A complete module name without slashes. -/
def Dotted.isModuleName (name : String) : Bool :=
  isComplete name && !Text.hasChar '/' name

/-- The names in an import statement are module names. -/
def Imports.namesPlainly (statement : Tree) : Bool :=
  (itemNames statement).all Dotted.isModuleName
    && ((statement.text? "module").filter (· ≠ "")).all Dotted.isModuleName

/-- The imports of all files that can be read name modules by complete names without slashes. -/
def FileSystem.ImportsPlainly (files : FileSystem) : Prop :=
  ∀ path tree, files.read path = .ok tree → ∀ statement ∈ tree.walk,
    statement.kind = .importModules ∨ statement.kind = .importFrom →
      Imports.namesPlainly statement = true

theorem FileSystem.importsPlainly_of_trees {files : FileSystem}
    (h : (files.trees.all fun tree => tree.walk.all fun statement =>
      !decide (statement.kind = .importModules ∨ statement.kind = .importFrom) ||
        Imports.namesPlainly statement) = true) : files.ImportsPlainly := by
  intro path tree hRead statement hStatement hKind
  have hTree := List.all_eq_true.mp h tree (Imports.mem_trees_of_read hRead)
  have hOne := List.all_eq_true.mp hTree statement hStatement
  simpa [hKind] using hOne

namespace Imports

open CallGraph.Path

variable {files : FileSystem} {base path next : String}

/-- The parts of a module name are steps. -/
theorem isStep_of_mem_parts {name part : String} (h : Dotted.isModuleName name = true)
    (hPart : part ∈ Dotted.parts name) : IsStep part ∧ '/' ∉ part.toList := by
  rw [Dotted.isModuleName, Bool.and_eq_true] at h
  have hDots := Dotted.not_dotted_of_mem_parts hPart
  refine ⟨⟨?_, ?_, ?_⟩, ?_⟩
  · exact of_decide_eq_true (List.all_eq_true.mp h.1 part hPart)
  · rintro rfl
    exact absurd hDots (by decide)
  · rintro rfl
    exact absurd hDots (by decide)
  · obtain ⟨piece, hPiece, rfl⟩ := List.mem_map.mp hPart
    rw [String.toList_ofList]
    intro hSlash
    have hMem := Text.mem_of_mem_splitChars hPiece hSlash
    simp [Text.hasChar, hMem] at h

/-- Steps below a plainly spelled directory lead to one. -/
theorem isPlain_joinAll {parts : List String} (hBase : base = "" ∨ IsPlain base)
    (hParts : ∀ part ∈ parts, IsStep part ∧ '/' ∉ part.toList) :
    joinAll base parts = "" ∨ IsPlain (joinAll base parts) := by
  induction parts generalizing base with
  | nil => exact hBase
  | cons part rest ih =>
      obtain ⟨⟨hStep, hSlash⟩, hRest⟩ := List.forall_mem_cons.mp hParts
      exact ih (Or.inr (isPlain_join hBase hSlash hStep)) hRest

/-- An item below a plainly spelled directory. -/
theorem isPlain_item (hBase : base = "" ∨ IsPlain base) {item : String}
    (hItem : '/' ∉ item.toList) : IsPlain (Path.join base item ++ ".py") := by
  rw [join_append hItem (by decide)]
  exact isPlain_join hBase (not_mem_append_py hItem) (isStep_append_py item)

/-- A module below a plainly spelled directory. -/
theorem isPlain_modulePath (hBase : base = "" ∨ IsPlain base) {name : String}
    (hName : Dotted.isModuleName name = true) : IsPlain (modulePath base name) := by
  have hParts : ∀ part ∈ Dotted.parts name, IsStep part ∧ '/' ∉ part.toList :=
    fun part hPart => isStep_of_mem_parts hName hPart
  unfold modulePath
  rcases List.eq_nil_or_concat (Dotted.parts name) with hNil | ⟨front, last, hSplit⟩
  · exact absurd hNil (Dotted.parts_ne_nil name)
  · rw [hSplit, List.concat_eq_append] at hParts ⊢
    obtain ⟨hFront, hLast⟩ := List.forall_mem_append.mp hParts
    have hJoin : joinAll base (front ++ [last]) = Path.join (joinAll base front) last := by
      simp [joinAll]
    rw [hJoin]
    exact isPlain_item (isPlain_joinAll hBase hFront) (hLast last List.mem_cons_self).2

theorem isPlain_ancestor (hBase : base = "" ∨ IsPlain base) (levels : Nat) :
    ancestor base levels = "" ∨ IsPlain (ancestor base levels) := by
  induction levels generalizing base with
  | zero => exact hBase
  | succ levels ih =>
      refine ih ?_
      rcases hBase with rfl | hPlain
      · exact Or.inl rfl
      · have hDirectory := directory_of_isPlain hPlain
        split at hDirectory
        · exact Or.inr hDirectory
        · exact Or.inl hDirectory

theorem not_mem_of_isModuleName {name : String} (h : Dotted.isModuleName name = true) :
    '/' ∉ name.toList := by
  rw [Dotted.isModuleName, Bool.and_eq_true] at h
  simpa [Text.hasChar] using h.2

/-- Below a plainly spelled directory, imports lead to plainly spelled paths. -/
theorem isPlain_of_imported (hFiles : files.ImportsPlainly) (hBase : IsPlain base)
    (h : Imported files base path next) : IsPlain next := by
  obtain ⟨tree, hRead, statement, hStatement, hCandidate⟩ := h
  have hNames := hFiles path tree hRead statement hStatement
  have hItem : statement.kind = .importModules ∨ statement.kind = .importFrom →
      ∀ item ∈ itemNames statement, Dotted.isModuleName item = true := by
    intro hKind item hItem
    have hBoth := hNames hKind
    rw [namesPlainly, Bool.and_eq_true] at hBoth
    exact List.all_eq_true.mp hBoth.1 item hItem
  cases hCandidate with
  | module hKind hName _ => exact isPlain_modulePath (Or.inr hBase) (hItem (Or.inl hKind) _ hName)
  | @source name hKind hModule hName _ =>
      have hBoth := hNames (Or.inr hKind)
      rw [namesPlainly, Bool.and_eq_true, hModule] at hBoth
      exact isPlain_modulePath (Or.inr hBase) (by simpa [hName] using hBoth.2)
  | item hKind _ _ _ hName _ =>
      exact isPlain_modulePath (Or.inr hBase) (hItem (Or.inr hKind) _ hName)
  | beside hKind _ hName _ =>
      exact isPlain_item (Or.inr hBase) (not_mem_of_isModuleName (hItem (Or.inr hKind) _ hName))
  | above hKind _ hName _ _ _ _ =>
      exact isPlain_item (isPlain_ancestor (Or.inr hBase) _)
        (not_mem_of_isModuleName (hItem (Or.inr hKind) _ hName))

theorem isPlain_of_reachedPast {avoid : String → Prop} {starts : List String}
    (hFiles : files.ImportsPlainly) (hBase : IsPlain base) (hStarts : ∀ start ∈ starts, IsPlain start)
    (h : ReachedPast files base avoid starts path) : IsPlain path := by
  induction h with
  | start hStart _ => exact hStarts _ hStart
  | step _ hNext _ _ => exact isPlain_of_imported hFiles hBase hNext

end Imports

namespace CallMap

open CallGraph.Imports CallGraph.Path

variable {files : FileSystem} {options : Options} {sources : List String}

theorem exists_place_of_read {path : String} {tree : Tree} (h : files.read path = .ok tree) :
    ∃ place, files.locate path = .ok place := by
  unfold FileSystem.read at h
  split at h
  · exact absurd h (by simp)
  · rename_i place hPlace
    exact ⟨place, hPlace⟩

/-- Without a directory, imports are looked for below the dot. -/
theorem baseOf_of_not_hasDirectory {source : String} (h : hasDirectory source = false) :
    baseOf source = "." := by
  have hSlash : '/' ∉ source.toList := by simpa [hasDirectory, Text.hasChar] using h
  have hDirectory : Path.directory source = "" := by
    unfold Path.directory
    rw [Text.beforeLast?_eq_none hSlash]
  unfold baseOf
  rw [hDirectory]
  rfl

theorem isPlain_baseOf {source : String} (h : IsPlain source) (hSlash : hasDirectory source = true) :
    IsPlain (baseOf source) := by
  have hDirectory := directory_of_isPlain h
  rw [if_pos hSlash] at hDirectory
  unfold baseOf
  dsimp only
  rw [if_neg hDirectory.ends.1]
  exact hDirectory

/--
The files that are analysed when imports are followed are those of the collected paths, each path
once and each with a group of its own. A file is analysed twice exactly if two different paths among
them spell one place, so the texts of the paths alone decide it. If all sources are plainly spelled
and name a directory, there are no such paths. But there are if a source that names no directory
imports a module that is given as a source too, by a path that is not absolute, be it the same one.
-/
theorem analysed_once_iff {read : List FileOutline}
    (h : (outlines files options sources).result = .ok read)
    (hHeuristics : options.heuristics = true) :
    ∃ paths, List.Forall₂ files.HasOutline paths read ∧ paths.Nodup ∧
      (Graph.loaded read).2.length = paths.length ∧
      (Graph.loaded read).2.Nodup ∧
      ((paths.map files.locate).Nodup ↔
        ∀ path ∈ paths, ∀ other ∈ paths, FileSystem.normalize files.base path =
          FileSystem.normalize files.base other → path = other) ∧
      (files.ImportsPlainly → (∀ source ∈ sources, IsPlain source ∧ hasDirectory source = true) →
        (paths.map files.locate).Nodup) ∧
      (options.skipParseErrors = false →
        (∀ path, path ∈ paths ↔ Collected files (fun _ => False) sources path) ∧
        ∀ front source back other, sources = front ++ source :: back →
          ¬Collected files (fun _ => False) front source → hasDirectory source = false →
          other ∈ sources → Text.startsWith other "/" = false →
          Imported files "." source ("./" ++ other) →
          ¬(paths.map files.locate).Nodup) := by
  obtain ⟨paths, hOutlined, hPaths⟩ := outlines_spec h
  obtain ⟨hNodup, hReached, hCollected⟩ := hPaths hHeuristics
  have hPlaces : ∀ path ∈ paths, files.locate path = .ok (FileSystem.normalize files.base path) := by
    intro path hPath
    obtain ⟨tree, hRead⟩ := readable_of_outlined hOutlined path hPath
    obtain ⟨place, hPlace⟩ := exists_place_of_read hRead
    rw [hPlace, FileSystem.eq_normalize_of_locate hPlace]
  have hInj := List.nodup_map_iff_inj_on (f := files.locate) hNodup
  have hIff : (paths.map files.locate).Nodup ↔ ∀ path ∈ paths, ∀ other ∈ paths,
      FileSystem.normalize files.base path = FileSystem.normalize files.base other →
        path = other := by
    rw [hInj]
    refine forall₂_congr fun path hPath => forall₂_congr fun other hOther => ?_
    rw [hPlaces path hPath, hPlaces other hOther, Except.ok.injEq]
  refine ⟨paths, hOutlined, hNodup, ?_, (loading_insertFiles read).rooted.nodup, hIff,
    fun hFiles hSources => hInj.mpr ?_, fun hSkip => ⟨hCollected hSkip, ?_⟩⟩
  · rw [length_insertFiles, hOutlined.length_eq]
  · have hPlain : ∀ path ∈ paths, IsPlain path := by
      intro path hPath
      obtain ⟨source, hSource, hReach⟩ := hReached path hPath
      obtain ⟨hPlain, hSlash⟩ := hSources source hSource
      refine isPlain_of_reachedPast hFiles (isPlain_baseOf hPlain hSlash) ?_ hReach
      simpa using hPlain
    intro path hPath other hOther hSame
    exact FileSystem.eq_of_locate_eq (hPlain path hPath) (hPlain other hOther)
      (hPlaces path hPath) hSame
  · intro front source back other hSplit hFirst hSlash hOther hRelative hImported hOnce
    rw [← baseOf_of_not_hasDirectory hSlash] at hImported
    have hDotted : "./" ++ other ∈ paths := by
      rw [hCollected hSkip, hSplit]
      exact collected_of_imported (.start List.mem_cons_self hFirst) hImported
    have hBare : other ∈ paths := by
      rw [hCollected hSkip]
      exact collected_of_mem hOther not_false
    have hPlace := hPlaces other hBare
    have hSame := hInj.mp hOnce _ hDotted _ hBare
      ((FileSystem.locate_dot hRelative hPlace).trans hPlace.symm)
    have hLength := congrArg (fun text : String => text.toList.length) hSame
    simp only [String.toList_append, List.length_append] at hLength
    have hDot : "./".toList.length = 2 := rfl
    omega

/-- Two modules, of which the first imports the second, at the given places. -/
def importingFiles (first second : Place) : FileSystem :=
  { entries := [(first, .file { content := .ok (.moduleOf [.importAt 1 "b"]) }),
    (second, .file { content := .ok (.moduleOf
      [.functionAt 1 "run" [.statementAt 2 (.callAt 2 (.nameAt 2 "stop"))],
       .functionAt 3 "stop" [.node (.other "Pass") (some 4) [] []]]) })] }

/-- In a directory, each of the two files is analysed once, though one imports the other. -/
theorem analysed_once_iff_directory :
    ∃ read paths,
      (outlines (importingFiles ["d", "a.py"] ["d", "b.py"]) {} ["d/a.py", "d/b.py"]).result =
        .ok read ∧
      read.map (·.token) = ["a", "b"] ∧
      List.Forall₂ (importingFiles ["d", "a.py"] ["d", "b.py"]).HasOutline paths read ∧
      paths.Nodup ∧
      (∀ path, path ∈ paths ↔ Collected (importingFiles ["d", "a.py"] ["d", "b.py"])
        (fun _ => False) ["d/a.py", "d/b.py"] path) ∧
      (paths.map (importingFiles ["d", "a.py"] ["d", "b.py"]).locate).Nodup := by
  obtain ⟨read, hRead, hTokens⟩ := exists_ok_of_any
    (show (outlines (importingFiles ["d", "a.py"] ["d", "b.py"]) {}
      ["d/a.py", "d/b.py"]).result.toOption.any
        (fun read => read.map (·.token) == ["a", "b"]) = true by decide +kernel)
  obtain ⟨paths, hOutlined, hNodup, _, _, _, hPlain, hCollected⟩ := analysed_once_iff hRead rfl
  have hFiles : (importingFiles ["d", "a.py"] ["d", "b.py"]).ImportsPlainly :=
    FileSystem.importsPlainly_of_trees (by decide +kernel)
  exact ⟨read, paths, hRead, by simpa using hTokens, hOutlined, hNodup, (hCollected rfl).1,
    hPlain hFiles (by decide +kernel)⟩

/-- In the working directory, the imported file is analysed twice, and its functions are there
twice. -/
theorem analysed_twice_bare :
    ∃ found read paths chart,
      (Sources.discover (importingFiles ["a.py"] ["b.py"]) ["b.py", "a.py"] "" (.text "py")).result
        = .ok found ∧
      found.1 = ["a.py", "b.py"] ∧
      (outlines (importingFiles ["a.py"] ["b.py"]) {} ["a.py", "b.py"]).result = .ok read ∧
      List.Forall₂ (importingFiles ["a.py"] ["b.py"]).HasOutline paths read ∧
      ¬(paths.map (importingFiles ["a.py"] ["b.py"]).locate).Nodup ∧
      (build (importingFiles ["a.py"] ["b.py"]) {} (.text "py") ["a.py", "b.py"]).result =
        .ok chart ∧
      chart.nodes.map (fun n => ((chart.graph.node n).token, (chart.graph.node n).line)) =
        [("run", some 1), ("stop", some 3), ("run", some 1), ("stop", some 3)] := by
  obtain ⟨found, hFound, hSources⟩ := exists_ok_of_any
    (show (Sources.discover (importingFiles ["a.py"] ["b.py"]) ["b.py", "a.py"] ""
      (.text "py")).result.toOption.any (fun found => found.1 == ["a.py", "b.py"]) = true
      by decide +kernel)
  obtain ⟨chart, hChart, hNodes⟩ := exists_ok_of_any
    (show (build (importingFiles ["a.py"] ["b.py"]) {} (.text "py")
      ["a.py", "b.py"]).result.toOption.any (fun chart => chart.nodes.map
        (fun n => ((chart.graph.node n).token, (chart.graph.node n).line)) ==
          [("run", some 1), ("stop", some 3), ("run", some 1), ("stop", some 3)]) = true
      by decide +kernel)
  obtain ⟨tree, hTree, hImports⟩ := exists_ok_of_any
    (show ((importingFiles ["a.py"] ["b.py"]).read "a.py").toOption.any (fun tree =>
      (dependencies (importingFiles ["a.py"] ["b.py"]) (baseOf "a.py") tree).contains "./b.py")
        = true by decide +kernel)
  obtain ⟨read, _, _, hRun, _⟩ := exists_run_of_build hChart
  obtain ⟨paths, hOutlined, hPaths⟩ := outlines_spec hRun.reads
  obtain ⟨_, _, hCollected⟩ := hPaths rfl
  have hImported : Imported (importingFiles ["a.py"] ["b.py"]) (baseOf "a.py") "a.py" "./b.py" :=
    (imported_iff hTree).mpr (List.contains_iff_mem.mp hImports)
  have hDotted : "./b.py" ∈ paths :=
    (hCollected rfl _).mpr
      (@collected_of_imported _ [] _ _ _ _ (.start List.mem_cons_self not_false) hImported)
  have hBare : "b.py" ∈ paths :=
    (hCollected rfl _).mpr (collected_of_mem (by simp) not_false)
  obtain ⟨_, hRead⟩ := readable_of_outlined hOutlined "b.py" hBare
  obtain ⟨place, hPlace⟩ := exists_place_of_read hRead
  refine ⟨found, read, paths, chart, hFound, by simpa using hSources, hRun.reads, hOutlined,
    fun hOnce => ?_, hChart, by simpa using hNodes⟩
  have hSame := List.inj_on_of_nodup_map hOnce hDotted hBare
    ((FileSystem.locate_dot (by decide) hPlace).trans hPlace.symm)
  exact absurd hSame (by decide)

end CallMap

end CallGraph
