import CallGraph.Proofs.Climbing
import Mathlib.Data.List.Nodup
import Mathlib.Data.String.Basic

/-!
# Finding the sources is a function of sets

The sources of a run are named by paths: files by their own, and directories for the files below
them. Which paths come out does not depend on the order in which paths are given, on repetitions, or
on the way on which a file was found. This is shown by saying what is found without the lists that
are made on the way (`Sources.Finds`, `Sources.Takes`). The result is the only strictly rising list
with the paths taken, and the language can only be one, so that the first file with a known ending
decides nothing more than that there is one.

A file that was found below a directory can also be named by the path that was found for it, since
this path leads to it (`FileSystem.isFile_of_isBelow`). For that the file system has to be a tree:
places are made of names, each is listed once, and nothing lies below a file.

## Main definitions

* `FileSystem.IsTree` — the entries form a tree.
* `FileSystem.IsBelow` — a path leads from a directory to a file below it.
* `Sources.Finds`, `Sources.Takes` — the paths found, and those of them that are analysed.

## Main results

* `mem_below_iff`, `nodup_below` — listing a directory yields every file below it once.
* `toOption_discover` — the result of finding the sources.
* `discover_exact` — which sources are found, and what this depends on.
-/

namespace CallGraph

/-! ## What lies below a directory -/

/-- Whether an entry is a file. -/
def Entry.isFile : Entry → Bool
  | .file _ => true
  | .directory => false

namespace FileSystem

open CallGraph.Path

variable {files : FileSystem}

/-- The entries form a tree: places are made of names, each is listed once, and nothing lies below a
file. -/
structure IsTree (files : FileSystem) : Prop where
  names : ∀ entry ∈ files.entries, ∀ part ∈ entry.1, IsStep part ∧ IsName part
  nodup : (files.entries.map Prod.fst).Nodup
  leaf : ∀ entry ∈ files.entries, entry.2.isFile = true →
    ∀ other ∈ files.entries, entry.1 <+: other.1 → other.1 = entry.1

/-- A path leads from a directory, by the names on the way, to a file below it. -/
def IsBelow (files : FileSystem) (top path : String) : Prop :=
  ∃ place rest file, files.locate top = .ok place ∧ files.isDirectoryAt place = true ∧ rest ≠ [] ∧
    (place ++ rest, Entry.file file) ∈ files.entries ∧ path = joinAll top rest

/-- The places of the files below a directory to a given depth, relative to it and in the order in
which they are listed. -/
def placesTo : Nat → List (Place × Entry) → List Place
  | 0, _ => []
  | depth + 1, entries =>
      (fileNames entries).map ([·])
        ++ (directoryNames entries).flatMap fun name =>
          (placesTo depth (relativeTo [name] entries)).map (name :: ·)

theorem filesTo_eq_map (top : String) (depth : Nat) (entries : List (Place × Entry)) :
    filesTo top depth entries = (placesTo depth entries).map (joinAll top) := by
  induction depth generalizing top entries with
  | zero => rfl
  | succ depth ih =>
      simp only [filesTo, placesTo, ih, List.map_append, List.map_map, List.map_flatMap]
      rfl

theorem mem_fileNames {entries : List (Place × Entry)} {name : String} :
    name ∈ fileNames entries ↔ ∃ file, ([name], Entry.file file) ∈ entries := by
  unfold fileNames
  rw [List.mem_filterMap]
  constructor
  · rintro ⟨⟨place, entry⟩, hEntry, hName⟩
    split at hName
    · rename_i file hSame
      cases hSame
      cases hName
      exact ⟨file, hEntry⟩
    · exact absurd hName (by simp)
  · rintro ⟨file, hEntry⟩
    exact ⟨_, hEntry, rfl⟩

theorem mem_directoryNames {entries : List (Place × Entry)} {name : String} {rest : Place}
    {entry : Entry} (hRest : rest ≠ []) (h : (name :: rest, entry) ∈ entries) :
    name ∈ directoryNames entries := by
  rw [directoryNames, mem_distinct, List.mem_filterMap]
  obtain ⟨next, others, rfl⟩ := List.exists_cons_of_ne_nil hRest
  exact ⟨_, h, rfl⟩

theorem mem_relativeTo {place rest : Place} {entry : Entry} {entries : List (Place × Entry)} :
    (rest, entry) ∈ relativeTo place entries ↔ rest ≠ [] ∧ (place ++ rest, entry) ∈ entries := by
  unfold relativeTo
  rw [List.mem_filterMap]
  constructor
  · rintro ⟨⟨whole, found⟩, hFound, hRest⟩
    split at hRest
    · rename_i hInside
      rw [Bool.and_eq_true, List.isPrefixOf_iff_prefix, decide_eq_true_eq] at hInside
      obtain ⟨⟨others, rfl⟩, hLength⟩ := hInside
      cases hRest
      rw [List.drop_left]
      refine ⟨?_, hFound⟩
      rintro rfl
      simp at hLength
    · exact absurd hRest (by simp)
  · rintro ⟨hRest, hEntry⟩
    refine ⟨_, hEntry, ?_⟩
    have hLength : 0 < rest.length := List.length_pos_of_ne_nil hRest
    simp [hLength]

theorem mem_placesTo {depth : Nat} {entries : List (Place × Entry)} {rest : Place} :
    rest ∈ placesTo depth entries ↔
      rest ≠ [] ∧ rest.length ≤ depth ∧ ∃ file, (rest, Entry.file file) ∈ entries := by
  induction depth generalizing entries rest with
  | zero =>
      refine iff_of_false List.not_mem_nil ?_
      rintro ⟨hRest, hLength, _⟩
      exact hRest (List.eq_nil_of_length_eq_zero (Nat.le_zero.mp hLength))
  | succ depth ih =>
      rw [placesTo, List.mem_append, List.mem_map, List.mem_flatMap]
      constructor
      · rintro (⟨name, hName, rfl⟩ | ⟨name, _, hRest⟩)
        · exact ⟨by simp, by simp, mem_fileNames.mp hName⟩
        · obtain ⟨others, hOthers, rfl⟩ := List.mem_map.mp hRest
          obtain ⟨_, hLength, file, hFile⟩ := ih.mp hOthers
          exact ⟨by simp, by simpa using hLength, file, (mem_relativeTo.mp hFile).2⟩
      · rintro ⟨hRest, hLength, file, hFile⟩
        obtain ⟨name, others, rfl⟩ := List.exists_cons_of_ne_nil hRest
        by_cases hOthers : others = []
        · subst hOthers
          exact Or.inl ⟨name, mem_fileNames.mpr ⟨file, hFile⟩, rfl⟩
        · refine Or.inr ⟨name, mem_directoryNames hOthers hFile, List.mem_map.mpr ⟨others, ?_, rfl⟩⟩
          exact ih.mpr ⟨hOthers, by simpa using hLength, file, mem_relativeTo.mpr ⟨hOthers, hFile⟩⟩

theorem nodup_fileNames {entries : List (Place × Entry)} (h : (entries.map Prod.fst).Nodup) :
    ((fileNames entries).map ([·])).Nodup := by
  refine h.sublist (map_filterMap_sublist (fun entry name hName => ?_) entries)
  split at hName
  · cases hName
    rfl
  · exact absurd hName (by simp)

theorem nodup_relativeTo {place : Place} {entries : List (Place × Entry)}
    (h : (entries.map Prod.fst).Nodup) : ((relativeTo place entries).map Prod.fst).Nodup := by
  have hWhole : (((relativeTo place entries).map Prod.fst).map (place ++ ·)).Nodup := by
    rw [List.map_map]
    refine h.sublist (map_filterMap_sublist (fun entry rest hRest => ?_) entries)
    split at hRest
    · rename_i hInside
      rw [Bool.and_eq_true, List.isPrefixOf_iff_prefix] at hInside
      cases hRest
      exact List.prefix_append_drop hInside.1 |>.symm
    · exact absurd hRest (by simp)
  exact List.Nodup.of_map _ hWhole

theorem nodup_placesTo {depth : Nat} {entries : List (Place × Entry)}
    (h : (entries.map Prod.fst).Nodup) : (placesTo depth entries).Nodup := by
  induction depth generalizing entries with
  | zero => exact List.nodup_nil
  | succ depth ih =>
      rw [placesTo, List.nodup_append', List.nodup_flatMap]
      refine ⟨nodup_fileNames h, ⟨fun name _ => ?_, ?_⟩, ?_⟩
      · exact (ih (nodup_relativeTo h)).map (List.cons_injective)
      · refine (nodup_distinct _).imp fun hNames rest hRest hOther => ?_
        obtain ⟨_, _, rfl⟩ := List.mem_map.mp hRest
        obtain ⟨_, _, hSame⟩ := List.mem_map.mp hOther
        exact hNames (List.cons.inj hSame).1.symm
      · intro rest hRest hOther
        obtain ⟨name, _, rfl⟩ := List.mem_map.mp hRest
        obtain ⟨other, _, hOther⟩ := List.mem_flatMap.mp hOther
        obtain ⟨others, hOthers, hSame⟩ := List.mem_map.mp hOther
        exact (mem_placesTo.mp hOthers).1 (List.cons.inj hSame).2

/-! ## Paths of what lies below -/

/-- Below a directory that does not end in a slash, each name adds one component. -/
theorem components_joinAll {directory : String} {names : List String} (hne : directory ≠ "")
    (hEnds : Text.endsWith directory "/" = false) (hNames : ∀ name ∈ names, IsName name) :
    components (joinAll directory names) = components directory ++ names := by
  induction names generalizing directory with
  | nil => rw [List.append_nil]; rfl
  | cons name rest ih =>
      obtain ⟨hName, hRest⟩ := List.forall_mem_cons.mp hNames
      have hJoin : Path.join directory name = directory ++ "/" ++ name := by
        rw [join_of_isName hName, if_neg (by simp [hne, hEnds])]
      have hStep : components (joinAll (Path.join directory name) rest) =
          components (Path.join directory name) ++ rest :=
        ih (by rw [hJoin]; simp) (by rw [hJoin]; exact not_endsWith_of_isName hName _) hRest
      rw [hJoin, components_append, components_of_not_mem hName.2, ← List.append_cons,
        ← hJoin] at hStep
      exact hStep

/-- The components of the paths below a directory: those of the directory, and then the names. A
slash at the end of the directory makes no component. -/
theorem exists_components_joinAll {top : String} (hTop : top ≠ "") :
    ∃ front, (components top = front ∨ components top = front ++ [""]) ∧
      ∀ names, names ≠ [] → (∀ name ∈ names, IsName name) →
        components (joinAll top names) = front ++ names := by
  cases hEnds : Text.endsWith top "/" with
  | false => exact ⟨components top, Or.inl rfl, fun _ _ => components_joinAll hTop hEnds⟩
  | true =>
      obtain ⟨chars, hChars⟩ := endsWith_slash_iff.mp hEnds
      have hText : top = String.ofList chars ++ "/" ++ "" := by
        rw [← String.toList_inj, hChars]
        simp
      refine ⟨components (String.ofList chars), Or.inr ?_, fun names hne hNames => ?_⟩
      · conv_lhs => rw [hText, components_append]
        rfl
      · obtain ⟨name, rest, rfl⟩ := List.exists_cons_of_ne_nil hne
        obtain ⟨hName, hRest⟩ := List.forall_mem_cons.mp hNames
        have hJoin : Path.join top name = String.ofList chars ++ "/" ++ name := by
          rw [join_of_isName hName, if_pos (by simp [hEnds])]
          conv_lhs => rw [hText]
          simp [String.append_assoc]
        have hStep : components (joinAll (Path.join top name) rest) =
            components (Path.join top name) ++ rest :=
          components_joinAll (by rw [hJoin]; simp)
            (by rw [hJoin]; exact not_endsWith_of_isName hName _) hRest
        rw [hJoin, components_append, components_of_not_mem hName.2, ← List.append_cons,
          ← hJoin] at hStep
        exact hStep

theorem joinAll_injective {top : String} (hTop : top ≠ "") {names others : List String}
    (hNames : names ≠ [] ∧ ∀ name ∈ names, IsName name)
    (hOthers : others ≠ [] ∧ ∀ name ∈ others, IsName name)
    (h : joinAll top names = joinAll top others) : names = others := by
  obtain ⟨front, _, hJoin⟩ := exists_components_joinAll hTop
  have hSame := congrArg components h
  rw [hJoin names hNames.1 hNames.2, hJoin others hOthers.1 hOthers.2] at hSame
  exact List.append_cancel_left hSame

/-- Paths below a directory start as the directory does. -/
theorem exists_joinAll_eq_append {names : List String} (h : ∀ name ∈ names, IsName name)
    (top : String) : ∃ tail, joinAll top names = top ++ tail := by
  induction names generalizing top with
  | nil => exact ⟨"", by simp [joinAll]⟩
  | cons name rest ih =>
      obtain ⟨hName, hRest⟩ := List.forall_mem_cons.mp h
      obtain ⟨tail, hTail⟩ := ih hRest (Path.join top name)
      have hJoin : ∃ more, Path.join top name = top ++ more := by
        rw [join_of_isName hName]
        split
        · exact ⟨name, rfl⟩
        · exact ⟨"/" ++ name, String.append_assoc⟩
      obtain ⟨more, hMore⟩ := hJoin
      rw [hMore] at hTail
      exact ⟨more ++ tail, by rw [← String.append_assoc, ← hTail, ← hMore]; rfl⟩

theorem enterAll_append (place : Place) (parts others : List String) :
    files.enterAll place (parts ++ others) =
      (do files.enterAll (← files.enterAll place parts) others) := by
  induction parts generalizing place with
  | nil => rfl
  | cons part rest ih =>
      rw [List.cons_append, enterAll, enterAll]
      cases files.enter place part with
      | error fault => rfl
      | ok next => exact ih next

theorem entry?_of_mem (hTree : files.IsTree) {place : Place} {entry : Entry}
    (h : (place, entry) ∈ files.entries) : files.entry? place = some entry := by
  rw [ entry?, lookup_of_mem hTree.nodup h]

/-- What leads to something further down in a tree is a directory. -/
theorem isDirectoryAt_of_mem (hTree : files.IsTree) {place rest : Place} {entry : Entry}
    (hRest : rest ≠ []) (h : (place ++ rest, entry) ∈ files.entries) :
    files.isDirectoryAt place = true := by
  have hInside : (files.entries.any fun other => place.isPrefixOf other.1) = true :=
    List.any_eq_true.mpr ⟨_, h, by simp⟩
  unfold isDirectoryAt
  cases hEntry : files.entries.lookup place with
  | none => simp [ entry?, hEntry, hInside]
  | some found =>
      cases found with
      | directory => simp [ entry?, hEntry]
      | file file =>
          obtain ⟨front, back, hSplit, _⟩ := List.lookup_eq_some_iff.mp hEntry
          have hFile : (place, Entry.file file) ∈ files.entries := by
            rw [hSplit]
            simp
          have hSame := hTree.leaf _ hFile rfl _ h (List.prefix_append place rest)
          exact absurd (List.append_right_eq_self.mp hSame) hRest

/-- In a tree, the names on the way lead to what is listed. -/
theorem enterAll_of_mem (hTree : files.IsTree) {place rest : Place} {entry : Entry}
    (hPlace : files.isDirectoryAt place = true) (h : (place ++ rest, entry) ∈ files.entries) :
    files.enterAll place rest = .ok (place ++ rest) := by
  induction rest generalizing place with
  | nil => rw [List.append_nil]; rfl
  | cons part others ih =>
      obtain ⟨⟨hne, hDot, hDots⟩, _⟩ := hTree.names _ h part (by simp)
      rw [List.append_cons] at h ⊢
      have hNext : (files.entry? (place ++ [part])).isSome = true := by
        by_cases hOthers : others = []
        · rw [hOthers, List.append_nil] at h
          rw [entry?_of_mem hTree h]
          rfl
        · exact isSome_of_isDirectoryAt (isDirectoryAt_of_mem hTree hOthers h)
      have hEnter : files.enter place part = .ok (place ++ [part]) := by
        simp [enter, step, hPlace, hne, hDot, hDots, hNext]
      rw [enterAll, hEnter]
      by_cases hOthers : others = []
      · rw [hOthers, List.append_nil]
        rfl
      · exact ih (isDirectoryAt_of_mem hTree hOthers h) h

/-- The path that was made for a file below a directory leads to it. -/
theorem locate_joinAll (hTree : files.IsTree) {top : String} {place rest : Place} {entry : Entry}
    (hLocate : files.locate top = .ok place) (hPlace : files.isDirectoryAt place = true)
    (hRest : rest ≠ []) (h : (place ++ rest, entry) ∈ files.entries) :
    files.locate (joinAll top rest) = .ok (place ++ rest) := by
  have hNames : ∀ name ∈ rest, IsName name :=
    fun name hName => (hTree.names _ h name (List.mem_append_right _ hName)).2
  unfold locate at hLocate
  split at hLocate
  · exact absurd hLocate (by simp)
  · rename_i hTop
    obtain ⟨front, hFront, hJoin⟩ := exists_components_joinAll hTop
    obtain ⟨tail, hTail⟩ := exists_joinAll_eq_append hNames top
    have hEmpty : joinAll top rest ≠ "" := by
      rw [hTail]
      exact fun hNil => hTop (String.append_eq_empty_iff.mp hNil).1
    have hStart : start files.base (joinAll top rest) = start files.base top := by
      obtain ⟨c, chars, hChars⟩ := List.exists_cons_of_ne_nil
        fun hNil => hTop (String.toList_eq_nil_iff.mp hNil)
      rw [start, start, hTail, Text.startsWith, Text.startsWith, String.toList_append, hChars]
      rfl
    have hEnter : files.enterAll (start files.base top) front = .ok place := by
      rcases hFront with hFront | hFront
      · rw [← hFront, hLocate]
      · -- The empty component behind the last slash stays in the directory.
        rw [hFront, enterAll_append] at hLocate
        cases hBefore : files.enterAll (start files.base top) front with
        | error fault =>
            rw [hBefore] at hLocate
            exact absurd hLocate (by simp [bind, Except.bind])
        | ok before =>
            rw [hBefore] at hLocate
            have hLast : files.enterAll before [""] = .ok place := hLocate
            have hPlace := eq_foldl_of_enterAll hLast
            rw [hPlace]
            rfl
    rw [locate, if_neg hEmpty, hStart, hJoin rest hRest hNames, enterAll_append, hEnter]
    exact enterAll_of_mem hTree hPlace h

/-- What was found below a directory can be named by its own path. -/
theorem isFile_of_isBelow (hTree : files.IsTree) {top path : String}
    (h : files.IsBelow top path) : files.isFile path = true := by
  obtain ⟨place, rest, file, hLocate, hPlace, hRest, hFile, rfl⟩ := h
  rw [isFile, find?, locate_joinAll hTree hLocate hPlace hRest hFile]
  dsimp only
  rw [entry?_of_mem hTree hFile]

/-- Listing a directory yields the files below it. -/
theorem mem_below_iff {top path : String} : path ∈ files.below top ↔ files.IsBelow top path := by
  unfold below IsBelow
  cases files.locate top with
  | error fault => simp
  | ok place =>
      dsimp only
      split
      · rename_i hPlace
        rw [filesTo_eq_map, List.mem_map]
        constructor
        · rintro ⟨rest, hRest, rfl⟩
          obtain ⟨hne, _, file, hFile⟩ := mem_placesTo.mp hRest
          exact ⟨place, rest, file, rfl, hPlace, hne, (mem_relativeTo.mp hFile).2, rfl⟩
        · rintro ⟨_, rest, file, hSame, _, hne, hFile, rfl⟩
          cases hSame
          have hRelative := mem_relativeTo.mpr ⟨hne, hFile⟩
          have hLength := List.mem_map_of_mem (f := fun entry => entry.1.length) hRelative
          exact ⟨rest, mem_placesTo.mpr ⟨hne, le_foldl_max hLength, file, hRelative⟩, rfl⟩
      · rename_i hPlace
        refine iff_of_false List.not_mem_nil ?_
        rintro ⟨_, _, _, hSame, hDirectory, _⟩
        cases hSame
        exact hPlace hDirectory

/-- In a tree, it yields each of them once. -/
theorem nodup_below (hTree : files.IsTree) (top : String) : (files.below top).Nodup := by
  unfold below
  cases hLocate : files.locate top with
  | error fault => exact List.nodup_nil
  | ok place =>
      dsimp only
      split
      · rw [filesTo_eq_map]
        refine (nodup_placesTo (nodup_relativeTo hTree.nodup)).map_on ?_
        have hTop : top ≠ "" := by
          rintro rfl
          exact absurd hLocate (by simp [locate])
        have hNames : ∀ depth, ∀ rest ∈ placesTo depth (relativeTo place files.entries),
            rest ≠ [] ∧ ∀ name ∈ rest, IsName name := by
          intro depth rest hRest
          obtain ⟨hne, _, file, hFile⟩ := mem_placesTo.mp hRest
          exact ⟨hne, fun name hName => (hTree.names _ (mem_relativeTo.mp hFile).2 name
            (List.mem_append_right _ hName)).2⟩
        exact fun rest hRest other hOther =>
          joinAll_injective hTop (hNames _ rest hRest) (hNames _ other hOther)
      · exact List.nodup_nil

end FileSystem

/-- A path below a directory has more than one component. -/
theorem FileSystem.ne_of_isBelow {files : FileSystem} (hTree : files.IsTree)
    {top path name : String} (h : files.IsBelow top path) (hName : '/' ∉ name.toList) :
    path ≠ name := by
  obtain ⟨place, rest, file, hLocate, _, hRest, hFile, rfl⟩ := h
  have hTop : top ≠ "" := by
    rintro rfl
    exact absurd hLocate (by simp [locate])
  obtain ⟨front, hFront, hJoin⟩ := exists_components_joinAll hTop
  rintro rfl
  have hSingle := hJoin rest hRest fun name hName =>
    (hTree.names _ hFile name (List.mem_append_right _ hName)).2
  rw [Path.components_of_not_mem hName] at hSingle
  have hLength := congrArg List.length hSingle
  have hPositive := List.length_pos_of_ne_nil hRest
  rw [List.length_append, List.length_singleton] at hLength
  obtain rfl : front = [] := List.eq_nil_of_length_eq_zero (by omega)
  rcases hFront with hFront | hFront
  · exact absurd hFront (by simp [Path.components, Text.splitAtChar, Text.splitChars_ne_nil])
  · exact hTop (Text.splitAtChar_injective '/' hFront)

/-- A name that is more than its last part ends in a dot and this part. -/
theorem Dotted.endsWith_of_last {name tail : String} (h : last name = tail) (hne : name ≠ tail) :
    Text.endsWith name ("." ++ tail) = true := by
  have hDot : '.' ∈ name.toList := by
    by_contra hNot
    have hParts : parts name = [name] := Text.splitAtChar_of_not_mem hNot
    rw [last, hParts] at h
    exact hne h
  obtain ⟨back, front, hName, hBack⟩ :=
    List.eq_append_cons_of_mem (List.mem_reverse.mpr hDot)
  have hText : name = String.ofList front.reverse ++ "." ++ String.ofList back.reverse := by
    rw [← String.toList_inj, ← List.reverse_inj, hName]
    simp
  have hLast : last name = String.ofList back.reverse := by
    rw [last, hText, parts_append]
    have hParts : parts (String.ofList back.reverse) = [String.ofList back.reverse] :=
      Text.splitAtChar_of_not_mem (by simpa using hBack)
    rw [hParts, List.getLastD_eq_getLast?, List.getLast?_concat]
    rfl
  rw [Text.endsWith, List.isSuffixOf_iff_suffix, ← h, hLast]
  exact ⟨front.reverse, by rw [hText]; simp⟩

/-! ## Texts in rising order -/

theorem pairwise_sortTexts (texts : List String) : (sortTexts texts).Pairwise (· ≤ ·) := by
  refine (pairwise_sortBy (fun a b => ?_) (fun a b c => ?_) texts).imp of_decide_eq_true
  · simpa using le_total a b
  · simpa using le_trans

theorem sortTexts_distinct_rises (texts : List String) :
    (sortTexts (distinct texts)).Pairwise (· < ·) := by
  have hNodup : (sortTexts (distinct texts)).Nodup :=
    (perm_sortBy _ _).nodup_iff.mpr (nodup_distinct texts)
  exact List.Pairwise.imp₂ (fun _ _ => lt_of_le_of_ne) (pairwise_sortTexts _) hNodup

/-- Only the set of texts decides about the rising list of them. -/
theorem sortTexts_distinct_congr {texts others : List String}
    (h : ∀ text, text ∈ texts ↔ text ∈ others) :
    sortTexts (distinct texts) = sortTexts (distinct others) := by
  have hPerm : (distinct texts).Perm (distinct others) := by
    rw [List.perm_ext_iff_of_nodup (nodup_distinct texts) (nodup_distinct others)]
    intro text
    rw [mem_distinct, mem_distinct, h]
  refine List.Perm.eq_of_pairwise (fun _ _ _ _ => le_antisymm) (pairwise_sortTexts _)
    (pairwise_sortTexts _) ?_
  exact (perm_sortBy _ _).trans (hPerm.trans (perm_sortBy _ _).symm)

/-! ## The steps of finding sources -/

namespace Reported

variable {α β : Type _} {first : Reported α} {next : α → Reported β}

theorem result_info (text : String) : (info text).result = .ok () := rfl

theorem result_bind_of_ok {a : α} (h : first.result = .ok a) :
    (first >>= next).result = (next a).result := by
  rw [result_bind, h]
  rfl

theorem result_bind_of_error {fault : Fault} (h : first.result = .error fault) :
    (first >>= next).result = .error fault := by
  rw [result_bind, h]
  rfl

end Reported

namespace Sources

variable {files : FileSystem} {paths : List String} {found : List Found} {path ending : String}

/-- The paths of the files that some paths name: a file by itself, anything else for what is below
it. -/
def Finds (files : FileSystem) (paths : List String) (path : String) : Prop :=
  path ∈ paths ∧ files.isFile path = true ∨
    ∃ top ∈ paths, files.isFile top = false ∧ files.IsBelow top path

/-- The paths of the files that are analysed: those that were named, and those with the ending of
the language. -/
def Takes (files : FileSystem) (paths : List String) (ending path : String) : Prop :=
  path ∈ paths ∧ files.isFile path = true ∨
    ∃ top ∈ paths, files.isFile top = false ∧ files.IsBelow top path ∧
      Text.endsWith path ("." ++ ending) = true

/-- The paths of the files found that are taken. -/
def selected (ending : String) (found : List Found) : List String :=
  (found.filter fun file => file.isNamed || Text.endsWith file.path ("." ++ ending)).map (·.path)

/-- The ending given or, if there is none, the known one if a file has it. -/
def chosen? (language : Option String) (found : List Found) : Option String :=
  (language.filter (· ≠ "")).or
    (if found.any fun file => decide (Dotted.last file.path = "py") then some "py" else none)

theorem result_select (ending : String) (found : List Found) :
    (select (.text ending) found).result = .ok (selected ending found) := by
  induction found with
  | nil => rfl
  | cons file rest ih =>
      have hTaken : isTaken (.text ending) file =
          .ok (file.isNamed || Text.endsWith file.path ("." ++ ending)) := by
        unfold isTaken
        cases file.isNamed <;> rfl
      rw [select, Reported.result_bind_of_ok (Reported.result_liftM _ |>.trans hTaken)]
      cases hFits : file.isNamed || Text.endsWith file.path ("." ++ ending) with
      | false =>
          rw [if_neg Bool.false_ne_true, Reported.result_bind_of_ok (Reported.result_info _), ih,
            selected, selected, List.filter_cons_of_neg (by simp [hFits])]
      | true =>
          rw [if_pos rfl, Reported.result_bind_of_ok ih, selected, selected,
            List.filter_cons_of_pos (by simp [hFits])]
          rfl

theorem findSome?_languageOf? (found : List Found) :
    (found.findSome? fun file => languageOf? file.path) =
      if found.any fun file => decide (Dotted.last file.path = "py") then some "py" else none := by
  induction found with
  | nil => rfl
  | cons file rest ih =>
      rw [List.findSome?_cons, List.any_cons, ih]
      by_cases hLast : Dotted.last file.path = "py" <;>
        simp [languageOf?, FileOutline.sourceSuffix, hLast]

theorem toOption_detect (found : List Found) : (detect found).result.toOption =
    if found.any fun file => decide (Dotted.last file.path = "py") then some "py" else none := by
  rw [← findSome?_languageOf?, detect]
  cases found.findSome? fun file => languageOf? file.path <;> rfl

theorem toOption_languageFor (language : Option String) (found : List Found) :
    (languageFor found (.ofText? language)).result.toOption =
      (chosen? language found).map Value.text := by
  rw [chosen?, ← toOption_detect]
  by_cases hGiven : (Value.ofText? language).isSet = true
  · obtain ⟨given, rfl⟩ : ∃ given, language = some given := by
      cases language with
      | none => exact absurd hGiven Bool.false_ne_true
      | some given => exact ⟨given, rfl⟩
    have hFilter : (some given).filter (fun given => decide (given ≠ "")) = some given :=
      Option.filter_some.trans (if_pos hGiven)
    rw [languageFor, if_pos hGiven, hFilter]
    rfl
  · have hNone : language.filter (fun given => decide (given ≠ "")) = none := by
      cases language with
      | none => rfl
      | some given => exact Option.filter_some.trans (if_neg hGiven)
    rw [languageFor, if_neg hGiven, hNone, Option.none_or]
    cases hDetect : (detect found).result with
    | error fault => rw [Reported.result_bind_of_error hDetect]; rfl
    | ok detected => rw [Reported.result_bind_of_ok hDetect]; rfl

/-- Finding the sources: the language is chosen, and there has to be a file to be taken. -/
theorem toOption_discover (files : FileSystem) (paths : List String) (shown : String)
    (language : Option String) :
    (discover files paths shown (.ofText? language)).result.toOption =
      (chosen? language (find files paths)).bind fun ending =>
        if (selected ending (find files paths)).isEmpty then none
        else some (sortTexts (distinct (selected ending (find files paths))), .text ending) := by
  have hChosen := toOption_languageFor language (find files paths)
  unfold discover
  dsimp only
  split
  · rename_i hEmpty
    rw [List.isEmpty_iff] at hEmpty
    rw [hEmpty]
    cases chosen? language [] <;> rfl
  · rw [Reported.result_bind_of_ok (Reported.result_info _)]
    cases hLanguage : (languageFor (find files paths) (.ofText? language)).result with
    | error fault =>
        rw [hLanguage] at hChosen
        rw [Reported.result_bind_of_error hLanguage, Option.map_eq_none_iff.mp hChosen.symm]
        rfl
    | ok given =>
        rw [hLanguage] at hChosen
        obtain ⟨ending, hEnding, rfl⟩ := Option.map_eq_some_iff.mp hChosen.symm
        rw [Reported.result_bind_of_ok hLanguage, hEnding,
          Reported.result_bind_of_ok (result_select ending _), Option.bind_some]
        split
        · rfl
        · rfl

/-! ## What is found and what is taken -/

theorem mem_find {file : Found} : file ∈ find files paths ↔ ∃ top ∈ paths,
    files.isFile top = true ∧ file = ⟨top, true⟩ ∨
      files.isFile top = false ∧ ∃ path, files.IsBelow top path ∧ file = ⟨path, false⟩ := by
  unfold find sortTexts
  simp only [List.mem_flatMap, mem_sortBy]
  refine exists_congr fun top => and_congr_right fun _ => ?_
  unfold namedBy
  cases hFile : files.isFile top with
  | true => simp
  | false =>
      simp only [Bool.false_eq_true, if_false, List.mem_map, FileSystem.mem_below_iff, false_and,
        true_and, false_or]
      exact exists_congr fun path => and_congr_right fun _ => eq_comm

theorem exists_mem_find_iff : (∃ file ∈ find files paths, file.path = path) ↔
    Finds files paths path := by
  constructor
  · rintro ⟨file, hFile, rfl⟩
    obtain ⟨top, hTop, ⟨hIs, rfl⟩ | ⟨hIs, path, hBelow, rfl⟩⟩ := mem_find.mp hFile
    · exact Or.inl ⟨hTop, hIs⟩
    · exact Or.inr ⟨top, hTop, hIs, hBelow⟩
  · rintro (⟨hPath, hIs⟩ | ⟨top, hTop, hIs, hBelow⟩)
    · exact ⟨⟨path, true⟩, mem_find.mpr ⟨path, hPath, Or.inl ⟨hIs, rfl⟩⟩, rfl⟩
    · exact ⟨⟨path, false⟩, mem_find.mpr ⟨top, hTop, Or.inr ⟨hIs, path, hBelow, rfl⟩⟩, rfl⟩

theorem mem_selected : path ∈ selected ending (find files paths) ↔
    Takes files paths ending path := by
  unfold selected
  simp only [List.mem_map, List.mem_filter, Bool.or_eq_true]
  constructor
  · rintro ⟨file, ⟨hFile, hFits⟩, rfl⟩
    obtain ⟨top, hTop, ⟨hIs, rfl⟩ | ⟨hIs, path, hBelow, rfl⟩⟩ := mem_find.mp hFile
    · exact Or.inl ⟨hTop, hIs⟩
    · exact Or.inr ⟨top, hTop, hIs, hBelow, hFits.resolve_left Bool.false_ne_true⟩
  · rintro (⟨hPath, hIs⟩ | ⟨top, hTop, hIs, hBelow, hEnds⟩)
    · exact ⟨⟨path, true⟩, ⟨mem_find.mpr ⟨path, hPath, Or.inl ⟨hIs, rfl⟩⟩, Or.inl rfl⟩, rfl⟩
    · exact ⟨⟨path, false⟩,
        ⟨mem_find.mpr ⟨top, hTop, Or.inr ⟨hIs, path, hBelow, rfl⟩⟩, Or.inr hEnds⟩, rfl⟩

theorem any_find_iff :
    ((find files paths).any fun file => decide (Dotted.last file.path = "py")) = true ↔
      ∃ path, Finds files paths path ∧ Dotted.last path = "py" := by
  simp only [List.any_eq_true, decide_eq_true_eq, ← exists_mem_find_iff]
  constructor
  · rintro ⟨file, hFile, hLast⟩
    exact ⟨file.path, ⟨file, hFile, rfl⟩, hLast⟩
  · rintro ⟨path, ⟨file, hFile, rfl⟩, hLast⟩
    exact ⟨file, hFile, hLast⟩

/-- Paths that find and take the same come to the same result. -/
theorem toOption_discover_congr {others : List String} {language : Option String}
    (hFinds : ∀ path, Finds files others path ↔ Finds files paths path)
    (hTakes : ∀ ending, chosen? language (find files paths) = some ending →
      ∀ path, Takes files others ending path ↔ Takes files paths ending path)
    (shown shown' : String) :
    (discover files others shown' (.ofText? language)).result.toOption =
      (discover files paths shown (.ofText? language)).result.toOption := by
  have hAny : ((find files others).any fun file => decide (Dotted.last file.path = "py")) =
      (find files paths).any fun file => decide (Dotted.last file.path = "py") := by
    rw [Bool.eq_iff_iff, any_find_iff, any_find_iff]
    simp only [hFinds]
  have hChosen : chosen? language (find files others) = chosen? language (find files paths) := by
    rw [chosen?, chosen?, hAny]
  rw [toOption_discover, toOption_discover, hChosen]
  refine Option.bind_congr fun ending hEnding => ?_
  have hMem : ∀ path, path ∈ selected ending (find files others) ↔
      path ∈ selected ending (find files paths) := by
    intro path
    rw [mem_selected, mem_selected, hTakes ending hEnding]
  have hEmpty : (selected ending (find files others)).isEmpty =
      (selected ending (find files paths)).isEmpty := by
    rw [Bool.eq_iff_iff, List.isEmpty_iff, List.isEmpty_iff, List.eq_nil_iff_forall_not_mem,
      List.eq_nil_iff_forall_not_mem]
    simp only [hMem]
  rw [hEmpty, sortTexts_distinct_congr hMem]

/-- What is taken: what is named, and what is found and has the ending. -/
theorem takes_iff : Takes files paths ending path ↔
    path ∈ paths ∧ files.isFile path = true ∨
      Finds files paths path ∧ Text.endsWith path ("." ++ ending) = true := by
  constructor
  · rintro (hNamed | ⟨top, hTop, hIs, hBelow, hEnds⟩)
    · exact Or.inl hNamed
    · exact Or.inr ⟨Or.inr ⟨top, hTop, hIs, hBelow⟩, hEnds⟩
  · rintro (hNamed | ⟨hNamed | ⟨top, hTop, hIs, hBelow⟩, hEnds⟩)
    · exact Or.inl hNamed
    · exact Or.inl hNamed
    · exact Or.inr ⟨top, hTop, hIs, hBelow, hEnds⟩

/-- A path with the known ending is taken, however it was found. -/
theorem takes_of_finds (hTree : files.IsTree) (h : Finds files paths path)
    (hLast : Dotted.last path = "py") : Takes files paths "py" path := by
  rcases h with hNamed | ⟨top, hTop, hIs, hBelow⟩
  · exact Or.inl hNamed
  · refine Or.inr ⟨top, hTop, hIs, hBelow, Dotted.endsWith_of_last hLast ?_⟩
    exact FileSystem.ne_of_isBelow hTree hBelow (by decide)

theorem isFile_of_takes (hTree : files.IsTree) (h : Takes files paths ending path) :
    files.isFile path = true := by
  rcases h with hNamed | ⟨_, _, _, hBelow, _⟩
  · exact hNamed.2
  · exact FileSystem.isFile_of_isBelow hTree hBelow

theorem finds_of_takes (h : Takes files paths ending path) : Finds files paths path :=
  (takes_iff.mp h).elim Or.inl And.left

section Named

variable {others : List String}

/-- Naming files that are found anyway finds nothing new. -/
theorem finds_iff_of_named (hPaths : ∀ path ∈ paths, path ∈ others)
    (hOthers : ∀ path ∈ others, path ∈ paths ∨ files.isFile path = true ∧ Finds files paths path)
    (path : String) : Finds files others path ↔ Finds files paths path := by
  constructor
  · rintro (⟨hPath, hIs⟩ | ⟨top, hTop, hIs, hBelow⟩)
    · exact (hOthers path hPath).elim (fun h => Or.inl ⟨h, hIs⟩) And.right
    · refine Or.inr ⟨top, (hOthers top hTop).resolve_right fun h => ?_, hIs, hBelow⟩
      exact absurd (hIs.symm.trans h.1) Bool.false_ne_true
  · rintro (⟨hPath, hIs⟩ | ⟨top, hTop, hBelow⟩)
    · exact Or.inl ⟨hPaths path hPath, hIs⟩
    · exact Or.inr ⟨top, hPaths top hTop, hBelow⟩

/-- Naming files that are taken anyway takes nothing new. -/
theorem takes_iff_of_named (hFinds : ∀ path, Finds files others path ↔ Finds files paths path)
    (hPaths : ∀ path ∈ paths, path ∈ others)
    (hOthers : ∀ path ∈ others, path ∈ paths ∨ Takes files paths ending path) (path : String) :
    Takes files others ending path ↔ Takes files paths ending path := by
  rw [takes_iff, hFinds]
  constructor
  · rintro (⟨hPath, hIs⟩ | hFound)
    · exact (hOthers path hPath).elim (fun h => Or.inl ⟨h, hIs⟩) id
    · exact takes_iff.mpr (Or.inr hFound)
  · intro h
    exact (takes_iff.mp h).imp_left fun hNamed => ⟨hPaths path hNamed.1, hNamed.2⟩

end Named

/-- What a successful search comes to. -/
theorem spec_of_discover {shown : String} {language : Option String} {sources : List String}
    {value : Value}
    (h : (discover files paths shown (.ofText? language)).result = .ok (sources, value)) :
    ∃ ending, chosen? language (find files paths) = some ending ∧ value = .text ending ∧
      sources.Pairwise (· < ·) ∧ ∀ path, path ∈ sources ↔ Takes files paths ending path := by
  have hResult := toOption_discover files paths shown language
  rw [h] at hResult
  obtain ⟨ending, hEnding, hSources⟩ := Option.bind_eq_some_iff.mp hResult.symm
  split at hSources
  · exact absurd hSources (by simp)
  · cases hSources
    refine ⟨ending, hEnding, rfl, sortTexts_distinct_rises _, fun path => ?_⟩
    rw [sortTexts, mem_sortBy, mem_distinct, mem_selected]

theorem chosen?_of_given (h : ending ≠ "") (found : List Found) :
    chosen? (some ending) found = some ending := by
  rw [chosen?, Option.filter_some, if_pos (decide_eq_true h)]
  rfl

theorem chosen?_of_unset {language : Option String} (h : language = none ∨ language = some "") :
    chosen? language (find files paths) = some ending ↔
      ending = "py" ∧ ∃ path, Finds files paths path ∧ Dotted.last path = "py" := by
  have hNone : language.filter (fun given => decide (given ≠ "")) = none := by
    rcases h with rfl | rfl <;> rfl
  rw [chosen?, hNone, Option.none_or, ← any_find_iff]
  split
  · rename_i hAny
    rw [Option.some_inj, and_iff_left hAny, eq_comm]
  · rename_i hAny
    exact iff_of_false (by simp) fun hBoth => hAny hBoth.2

/-- A search succeeds if an ending is chosen and there is something to be taken. -/
theorem discover_isOk_iff {shown : String} {language : Option String} :
    (∃ result, (discover files paths shown (.ofText? language)).result = .ok result) ↔
      ∃ ending, chosen? language (find files paths) = some ending ∧
        ∃ path, Takes files paths ending path := by
  have hResult := toOption_discover files paths shown language
  have hNone : ∀ ending, (selected ending (find files paths)).isEmpty = true ↔
      ¬∃ path, Takes files paths ending path := by
    intro ending
    simp only [List.isEmpty_iff, List.eq_nil_iff_forall_not_mem, mem_selected, not_exists]
  constructor
  · rintro ⟨result, hOk⟩
    rw [hOk] at hResult
    obtain ⟨ending, hEnding, hSources⟩ := Option.bind_eq_some_iff.mp hResult.symm
    refine ⟨ending, hEnding, ?_⟩
    by_contra hNothing
    rw [if_pos ((hNone ending).mpr hNothing)] at hSources
    exact absurd hSources (by simp)
  · rintro ⟨ending, hEnding, hSome⟩
    rw [hEnding, Option.bind_some, if_neg fun hEmpty => (hNone ending).mp hEmpty hSome] at hResult
    cases hDiscover : (discover files paths shown (.ofText? language)).result with
    | ok result => exact ⟨result, rfl⟩
    | error fault =>
        rw [hDiscover] at hResult
        exact absurd hResult (by simp [Except.toOption])

/-! ## Finding sources -/

/--
In a file system that is a tree, listing a directory yields every file below it once, and finding
the sources depends on sets only:

* the sources found are in strictly rising order, and they are the paths given that are files and
  the paths of the files below the other paths given that have the ending of the language;
* with a language, there is a result if and only if there is such a path; without one, if and only
  if the part behind the last dot of some path found, or the whole path, is the known ending;
* the result, and whether there is one, stays the same when paths are given in another order or
  several times, and when files are named that are among the sources already.
-/
theorem discover_exact (hTree : files.IsTree) (paths : List String) (language : Option String)
    (shown : String) :
    (∀ top, (files.below top).Nodup ∧ ∀ path, path ∈ files.below top ↔ files.IsBelow top path) ∧
    (∀ sources value,
      (discover files paths shown (.ofText? language)).result = .ok (sources, value) →
        sources.Pairwise (· < ·) ∧ value = .text ((language.filter (· ≠ "")).getD "py") ∧
          ∀ path, path ∈ sources ↔
            Takes files paths ((language.filter (· ≠ "")).getD "py") path) ∧
    (∀ ending, language = some ending → ending ≠ "" →
      ((∃ result, (discover files paths shown (.ofText? language)).result = .ok result) ↔
        ∃ path, Takes files paths ending path)) ∧
    (language = none ∨ language = some "" →
      ((∃ result, (discover files paths shown (.ofText? language)).result = .ok result) ↔
        ∃ path, Finds files paths path ∧ Dotted.last path = "py")) ∧
    ∀ others shown', (∀ path ∈ paths, path ∈ others) →
      (∀ path ∈ others, path ∈ paths ∨ ∃ sources value,
        (discover files paths shown (.ofText? language)).result = .ok (sources, value) ∧
          path ∈ sources) →
      (discover files others shown' (.ofText? language)).result.toOption =
        (discover files paths shown (.ofText? language)).result.toOption := by
  refine ⟨fun top => ⟨FileSystem.nodup_below hTree top, fun _ => FileSystem.mem_below_iff⟩,
    fun sources value hOk => ?_, ?_, fun hUnset => ?_, fun others shown' hPaths hOthers => ?_⟩
  · obtain ⟨ending, hEnding, hValue, hRises, hMem⟩ := spec_of_discover hOk
    have hSame : ending = (language.filter (· ≠ "")).getD "py" := by
      cases language with
      | none => exact ((chosen?_of_unset (Or.inl rfl)).mp hEnding).1
      | some given =>
          by_cases hGiven : given = ""
          · subst hGiven
            exact ((chosen?_of_unset (Or.inr rfl)).mp hEnding).1
          · rw [chosen?_of_given hGiven, Option.some_inj] at hEnding
            rw [Option.filter_some, if_pos (decide_eq_true hGiven), hEnding]
            rfl
    rw [← hSame]
    exact ⟨hRises, hValue, hMem⟩
  · rintro ending rfl hne
    rw [discover_isOk_iff, chosen?_of_given hne]
    simp
  · rw [discover_isOk_iff]
    constructor
    · rintro ⟨ending, hEnding, _⟩
      exact ((chosen?_of_unset hUnset).mp hEnding).2
    · rintro ⟨path, hFinds, hLast⟩
      exact ⟨"py", (chosen?_of_unset hUnset).mpr ⟨rfl, path, hFinds, hLast⟩, path,
        takes_of_finds hTree hFinds hLast⟩
  · have hTaken : ∀ path ∈ others, path ∈ paths ∨ ∃ ending,
        chosen? language (find files paths) = some ending ∧ Takes files paths ending path := by
      intro path hPath
      refine (hOthers path hPath).imp_right ?_
      rintro ⟨sources, value, hOk, hSource⟩
      obtain ⟨ending, hEnding, _, _, hMem⟩ := spec_of_discover hOk
      exact ⟨ending, hEnding, (hMem path).mp hSource⟩
    have hFinds : ∀ path, Finds files others path ↔ Finds files paths path := by
      refine finds_iff_of_named hPaths fun path hPath => (hTaken path hPath).imp_right ?_
      rintro ⟨_, _, hTakes⟩
      exact ⟨isFile_of_takes hTree hTakes, finds_of_takes hTakes⟩
    refine toOption_discover_congr hFinds (fun ending hEnding => ?_) shown shown'
    refine takes_iff_of_named hFinds hPaths fun path hPath => (hTaken path hPath).imp_right ?_
    rintro ⟨other, hOther, hTakes⟩
    rw [hEnding, Option.some_inj] at hOther
    rwa [hOther]

/-- A directory with a directory in it, and a file beside it; not all have the known ending. -/
def sourceFiles : FileSystem :=
  { entries := [(["d", "a.py"], .file { content := .ok (.moduleOf []) }),
    (["d", "e", "b.py"], .file { content := .ok (.moduleOf []) }),
    (["d", "e", "c.txt"], .file { content := .ok (.moduleOf []) }),
    (["n.txt"], .file { content := .ok (.moduleOf []) })] }

theorem isTree_sourceFiles : sourceFiles.IsTree where
  names := by decide
  nodup := by decide
  leaf := by decide

/-- A file is named and a directory is listed; naming a file of the directory as well, in another
order, changes nothing. -/
theorem discover_exact_listed :
    ∃ sources value,
      (discover sourceFiles ["n.txt", "d"] "" (.ofText? none)).result = .ok (sources, value) ∧
      sources = ["d/a.py", "d/e/b.py", "n.txt"] ∧ sources.Pairwise (· < ·) ∧ value = .text "py" ∧
      (∀ path, path ∈ sources ↔ Takes sourceFiles ["n.txt", "d"] "py" path) ∧
      (discover sourceFiles ["d/e/b.py", "d", "n.txt", "d"] "" (.ofText? none)).result.toOption =
        some (sources, value) := by
  obtain ⟨⟨sources, value⟩, hOk, hSources⟩ := CallMap.exists_ok_of_any
    (show (discover sourceFiles ["n.txt", "d"] "" (.ofText? none)).result.toOption.any
      (fun found => found.1 == ["d/a.py", "d/e/b.py", "n.txt"]) = true by decide +kernel)
  have hSources : sources = ["d/a.py", "d/e/b.py", "n.txt"] := eq_of_beq hSources
  obtain ⟨_, hSpec, _, _, hSame⟩ :=
    discover_exact isTree_sourceFiles ["n.txt", "d"] none ""
  obtain ⟨hRises, hValue, hMem⟩ := hSpec sources value hOk
  refine ⟨sources, value, hOk, hSources, hRises, hValue, hMem, ?_⟩
  rw [hSame ["d/e/b.py", "d", "n.txt", "d"] "" (by decide), hOk]
  · rfl
  · simp only [List.forall_mem_cons]
    refine ⟨Or.inr ⟨sources, value, hOk, by simp [hSources]⟩, by simp, by simp, by simp, by simp⟩

end Sources

end CallGraph
