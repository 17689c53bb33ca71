import CallGraph.Proofs.Spelling

/-!
# Imports relative to the package

A statement may import items relative to the package of its file: one dot stands for the directory
of the file, two dots for the directory above it, and so on. Following climbs one directory for
every dot, that is one too many, and it looks for the item beside the file first, whatever the
number of dots. So an item can be missed, and another file of the same name can be taken for it.

A directory is given here by a start and the names below it. Taking off its last component undoes
joining the last name (`Path.directory_join`), so climbing takes names off the end
(`Imports.ancestor_eq_climb`), and different directories give an item different paths
(`Imports.itemIn_inj`). What is followed can therefore be compared with the rule of the dots
(`Imports.byDots`), and the two agree under an exact condition on the files that exist.

## Main definitions

* `Imports.climb` — the directory so many names above a directory.
* `Imports.byDots` — the file that an item stands for by the number of dots.
* `Imports.attempts` — the paths at which an item is looked for.

## Main results

* `resolveRelative_eq` — an item is the first of the paths tried that exists.
* `relative_imports_by_dots` — what is followed for a statement, and when it is what the dots say.
-/

namespace CallGraph

/-! ## Directories and names -/

namespace Path

open CallGraph.Text

variable {directory item name : String}

/-- The name of a file or of a directory. -/
def IsName (part : String) : Prop :=
  part ≠ "" ∧ '/' ∉ part.toList

/-- A directory that has no slash at its end, unless it consists of slashes. -/
def IsTrim (directory : String) : Prop :=
  endsWith directory "/" = false ∨ directory.toList.all (· == '/') = true

instance (part : String) : Decidable (IsName part) := inferInstanceAs (Decidable (_ ∧ _))

instance (directory : String) : Decidable (IsTrim directory) :=
  inferInstanceAs (Decidable (_ ∨ _))

theorem endsWith_slash_iff : endsWith directory "/" = true ↔
    ∃ front, directory.toList = front ++ ['/'] := by
  rw [endsWith, List.isSuffixOf_iff_suffix]
  exact exists_congr fun front => eq_comm

theorem not_endsWith_of_isName (h : IsName name) (front : String) :
    endsWith (front ++ name) "/" = false := by
  rw [← Bool.not_eq_true, endsWith_slash_iff]
  rintro ⟨rest, hRest⟩
  have hName : name.toList ≠ [] := fun hNil => h.1 (String.toList_eq_nil_iff.mp hNil)
  have hLast := congrArg List.getLast? hRest
  rw [String.toList_append, List.getLast?_append_of_ne_nil _ hName, List.getLast?_concat] at hLast
  exact h.2 (List.mem_of_getLast? hLast)

/-- Joining a name needs a slash, except at the working directory and at the root. -/
theorem join_of_isName (h : IsName name) : join directory name =
    if directory = "" || endsWith directory "/" then directory ++ name
    else directory ++ "/" ++ name := by
  rw [join, startsWith_of_not_mem h.2, if_neg Bool.false_ne_true]

theorem isTrim_join (h : IsName name) : IsTrim (join directory name) := by
  rw [join_of_isName h]
  split
  · exact Or.inl (not_endsWith_of_isName h _)
  · exact Or.inl (not_endsWith_of_isName h _)

/-- A name below a directory stands in this directory. -/
theorem directory_join (hTrim : IsTrim directory) (hName : IsName name) :
    Path.directory (join directory name) = directory := by
  rw [join_of_isName hName]
  by_cases hEmpty : directory = ""
  · subst hEmpty
    simp [Path.directory, beforeLast?_eq_none hName.2]
  · cases hEnds : endsWith directory "/" with
    | true =>
        have hRoot := hTrim.resolve_left (by simp [hEnds])
        obtain ⟨front, hFront⟩ := endsWith_slash_iff.mp hEnds
        have hHead : (front ++ ['/']).all (· == '/') = true := hFront ▸ hRoot
        rw [Bool.or_true, if_pos rfl, Path.directory, String.toList_append, hFront,
          List.append_assoc, List.singleton_append, beforeLast?_append hName.2]
        dsimp only
        rw [if_pos hHead, ← hFront, String.ofList_toList]
    | false =>
        obtain ⟨rest, c, hChars⟩ :=
          (List.eq_nil_or_concat directory.toList).resolve_left
            fun hNil => hEmpty (String.toList_eq_nil_iff.mp hNil)
        have hc : c ≠ '/' := by
          rintro rfl
          rw [← Bool.not_eq_true, endsWith_slash_iff] at hEnds
          exact hEnds ⟨rest, by simpa using hChars⟩
        have hText : (directory ++ "/" ++ name).toList =
            directory.toList ++ '/' :: name.toList := by
          simp
        rw [if_neg (by simp [hEmpty]), Path.directory, hText, beforeLast?_append hName.2]
        simp [hChars, hc, ← String.toList_inj]

/-- The directory of any path has no slash at its end, unless it consists of slashes. -/
theorem isTrim_directory (path : String) : IsTrim (Path.directory path) := by
  unfold Path.directory
  split
  · exact Or.inl rfl
  · rename_i front _
    dsimp only
    split
    · rename_i hRoot
      exact Or.inr (by rwa [String.toList_ofList])
    · refine Or.inl ?_
      rw [← Bool.not_eq_true, endsWith_slash_iff]
      rintro ⟨rest, hRest⟩
      rw [String.toList_ofList, List.reverse_eq_iff] at hRest
      have hHead := List.head?_dropWhile_not (· == '/') (front ++ ['/']).reverse
      rw [hRest] at hHead
      simp at hHead

theorem length_lt_join (hName : IsName name) :
    directory.length < (join directory name).length := by
  have hLength : 0 < name.length := by
    rw [Nat.pos_iff_ne_zero]
    exact fun hZero => hName.1 (by simpa using hZero)
  rw [join_of_isName hName]
  split <;> simp only [String.length_append] <;> omega

theorem joinAll_concat (directory : String) (names : List String) (name : String) :
    joinAll directory (names ++ [name]) = join (joinAll directory names) name := by
  simp [joinAll]

theorem joinAll_append (directory : String) (names others : List String) :
    joinAll directory (names ++ others) = joinAll (joinAll directory names) others := by
  simp [joinAll]

theorem isTrim_joinAll {names : List String} (h : IsTrim directory)
    (hNames : ∀ name ∈ names, IsName name) : IsTrim (joinAll directory names) := by
  rcases List.eq_nil_or_concat names with rfl | ⟨front, last, rfl⟩
  · exact h
  · rw [List.concat_eq_append, joinAll_concat]
    exact isTrim_join (hNames last (by simp))

theorem length_joinAll_le {names : List String} (hNames : ∀ name ∈ names, IsName name) :
    directory.length + names.length ≤ (joinAll directory names).length := by
  induction names generalizing directory with
  | nil => simp [joinAll]
  | cons name rest ih =>
      obtain ⟨hName, hRest⟩ := List.forall_mem_cons.mp hNames
      have hStep : directory.length < (join directory name).length := length_lt_join hName
      have hOthers : (join directory name).length + rest.length ≤
          (joinAll directory (name :: rest)).length := ih hRest
      rw [List.length_cons]
      omega

end Path

namespace Imports

open CallGraph.Path

variable {files : FileSystem} {start item : String} {names : List String} {levels : Nat}

/-! ## Climbing -/

/-- The path of an item in a directory. -/
def itemIn (directory item : String) : String :=
  Path.join directory (item ++ ".py")

/-- The directory so many names above a directory; above the start there is at most one more. -/
def climb (start : String) (names : List String) (levels : Nat) : String :=
  if levels ≤ names.length then joinAll start (names.take (names.length - levels))
  else Path.directory start

/-- The file that an item stands for by the number of dots: one dot is the directory itself. -/
def byDots (files : FileSystem) (start : String) (names : List String) (levels : Nat)
    (item : String) : Option String :=
  [itemIn (climb start names (levels - 1)) item].find? files.pathExists

/-- The paths at which an item is looked for: beside the file, and a directory up for every dot. -/
def attempts (start : String) (names : List String) (levels : Nat) (item : String) : List String :=
  [itemIn (joinAll start names) item, itemIn (climb start names levels) item]

theorem isName_append_py (h : '/' ∉ item.toList) : IsName (item ++ ".py") :=
  ⟨(isStep_append_py item).1, not_mem_append_py h⟩

/-- Different directories give an item different paths. -/
theorem itemIn_inj {directory other : String} (h : IsTrim directory) (h' : IsTrim other)
    (hItem : '/' ∉ item.toList) :
    itemIn directory item = itemIn other item ↔ directory = other := by
  refine ⟨fun hSame => ?_, fun hSame => by rw [hSame]⟩
  have hName := isName_append_py hItem
  calc directory
    _ = Path.directory (itemIn directory item) := (directory_join h hName).symm
    _ = Path.directory (itemIn other item) := by rw [hSame]
    _ = other := directory_join h' hName

theorem ancestor_succ (directory : String) (levels : Nat) :
    ancestor directory (levels + 1) = Path.directory (ancestor directory levels) := by
  induction levels generalizing directory with
  | zero => rfl
  | succ levels ih => exact ih (Path.directory directory)

theorem ancestor_joinAll (hStart : IsTrim start) (hNames : ∀ name ∈ names, IsName name)
    (h : levels ≤ names.length) :
    ancestor (joinAll start names) levels = joinAll start (names.take (names.length - levels)) := by
  induction levels generalizing names with
  | zero => rw [Nat.sub_zero, List.take_length, ancestor]
  | succ levels ih =>
      rcases List.eq_nil_or_concat names with rfl | ⟨front, last, rfl⟩
      · exact absurd h (Nat.not_succ_le_zero levels)
      · rw [List.concat_eq_append] at hNames h ⊢
        obtain ⟨hFront, hLast⟩ := List.forall_mem_append.mp hNames
        rw [List.length_append, List.length_singleton] at h ⊢
        rw [ancestor, joinAll_concat, directory_join (isTrim_joinAll hStart hFront)
          (hLast last List.mem_cons_self), ih hFront (by omega), Nat.add_sub_add_right,
          List.take_append_of_le_length (Nat.sub_le _ _)]

/-- Taking off components climbs over the names, and at last over the start. -/
theorem ancestor_eq_climb (hStart : IsTrim start) (hNames : ∀ name ∈ names, IsName name)
    (h : levels ≤ names.length + 1) :
    ancestor (joinAll start names) levels = climb start names levels := by
  unfold climb
  split
  · rename_i hInside
    exact ancestor_joinAll hStart hNames hInside
  · obtain rfl : levels = names.length + 1 := by omega
    rw [ancestor_succ, ancestor_joinAll hStart hNames (Nat.le_refl _), Nat.sub_self]
    rfl

theorem isTrim_climb (hStart : IsTrim start) (hNames : ∀ name ∈ names, IsName name) :
    IsTrim (climb start names levels) := by
  unfold climb
  split
  · exact isTrim_joinAll hStart fun name hName => hNames name (List.mem_of_mem_take hName)
  · exact isTrim_directory start

/-- Climbing over names leads to shorter and shorter directories. -/
theorem length_climb_lt {more : Nat} (hNames : ∀ name ∈ names, IsName name) (hLess : levels < more)
    (h : more ≤ names.length) :
    (climb start names more).length < (climb start names levels).length := by
  have hInside : levels ≤ names.length := by omega
  have hSplit : names.take (names.length - levels) =
      names.take (names.length - more) ++
        (names.take (names.length - levels)).drop (names.length - more) := by
    rw [← List.take_append_drop (names.length - more) (names.take (names.length - levels)),
      List.take_take, Nat.min_eq_left (by omega)]
    simp
  have hOthers : ∀ name ∈ (names.take (names.length - levels)).drop (names.length - more),
      IsName name :=
    fun name hName => hNames name (List.mem_of_mem_take (List.mem_of_mem_drop hName))
  have hLength : 0 < ((names.take (names.length - levels)).drop (names.length - more)).length := by
    rw [List.length_drop, List.length_take]
    omega
  rw [climb, climb, if_pos h, if_pos hInside, hSplit, joinAll_append]
  exact Nat.lt_of_lt_of_le (by omega) (length_joinAll_le hOthers)

/-- One more step leads to the same directory only at the start, if there is nothing above it. -/
theorem climb_eq_climb_iff (hNames : ∀ name ∈ names, IsName name) (hDots : 1 ≤ levels)
    (h : levels ≤ names.length + 1) :
    climb start names levels = climb start names (levels - 1) ↔
      levels = names.length + 1 ∧ Path.directory start = start := by
  by_cases hInside : levels ≤ names.length
  · have hLess : (climb start names levels).length < (climb start names (levels - 1)).length :=
      length_climb_lt hNames (by omega) hInside
    exact iff_of_false (fun hSame => absurd hLess (hSame ▸ Nat.lt_irrefl _)) (by omega)
  · obtain rfl : levels = names.length + 1 := by omega
    have hTop : climb start names (names.length + 1 - 1) = start := by
      rw [climb, Nat.add_sub_cancel, if_pos (Nat.le_refl _), Nat.sub_self]
      rfl
    rw [hTop, climb, if_neg hInside]
    exact (and_iff_right rfl).symm

/-! ## What is followed -/

/-- An item is the first of the paths tried that exists. -/
theorem resolveRelative_eq (hStart : IsTrim start) (hNames : ∀ name ∈ names, IsName name)
    (hDots : 1 ≤ levels) (h : levels ≤ names.length + 1) (hItem : '/' ∉ item.toList) :
    resolveRelative files (joinAll start names) levels item =
      (attempts start names levels item).find? files.pathExists := by
  have hSome : levels ≠ 0 := by omega
  unfold resolveRelative attempts itemIn
  rw [ancestor_eq_climb hStart hNames h, join_append hItem (by decide),
    join_append hItem (by decide)]
  cases hBeside : files.pathExists (Path.join (joinAll start names) (item ++ ".py")) with
  | true => simp [hBeside]
  | false =>
      cases hAbove : files.pathExists (Path.join (climb start names levels) (item ++ ".py")) <;>
        simp [hBeside, hAbove, hSome]

/--
What is followed is what the dots say in two cases. With one dot, the item lies beside the file, or
there is none of this name one directory up either. With more dots, there is none of this name
beside the file, and either the climb has come to the root, above which there is nothing, or there
is none of this name both where the dots lead and one directory above.
-/
theorem find?_attempts_eq_iff (hStart : IsTrim start) (hNames : ∀ name ∈ names, IsName name)
    (hDots : 1 ≤ levels) (h : levels ≤ names.length + 1) (hItem : '/' ∉ item.toList) :
    (attempts start names levels item).find? files.pathExists =
        byDots files start names levels item ↔
      if levels = 1 then
        files.pathExists (itemIn (joinAll start names) item) = true ∨
          files.pathExists (itemIn (climb start names 1) item) = false
      else
        files.pathExists (itemIn (joinAll start names) item) = false ∧
          (levels = names.length + 1 ∧ Path.directory start = start ∨
            files.pathExists (itemIn (climb start names levels) item) = false ∧
              files.pathExists (itemIn (climb start names (levels - 1)) item) = false) := by
  have hZero : climb start names 0 = joinAll start names := by
    rw [climb, if_pos (Nat.zero_le _), Nat.sub_zero, List.take_length]
  have hBase := isTrim_joinAll hStart hNames
  have hClimb : ∀ count, IsTrim (climb start names count) := fun _ => isTrim_climb hStart hNames
  rw [attempts, byDots]
  by_cases hOne : levels = 1
  · rw [hOne, if_pos rfl, Nat.sub_self, hZero, find?_pair_eq_self_iff]
  · have hLess : (climb start names (levels - 1)).length < (climb start names 0).length :=
      length_climb_lt hNames (by omega) (by omega)
    have hBeside : itemIn (joinAll start names) item ≠
        itemIn (climb start names (levels - 1)) item := by
      rw [Ne, itemIn_inj hBase (hClimb _) hItem, ← hZero]
      exact fun hSame => absurd hLess (hSame ▸ Nat.lt_irrefl _)
    rw [if_neg hOne, find?_pair_eq_iff_of_ne hBeside, itemIn_inj (hClimb _) (hClimb _) hItem,
      climb_eq_climb_iff hNames hDots h]

/-- A statement that imports items relative to the package, with so many dots and no module. -/
structure ImportsByDots (statement : Tree) (levels : Nat) : Prop where
  kind : statement.kind = .importFrom
  bare : statement.text? "module" = none
  dots : statement.number? "level" = some (levels : Int)
  items : ∀ item ∈ itemNames statement, '/' ∉ item.toList

theorem dependenciesOf_of_importsByDots {statement : Tree} (hStart : IsTrim start)
    (hNames : ∀ name ∈ names, IsName name) (hDots : 1 ≤ levels) (h : levels ≤ names.length + 1)
    (hStatement : ImportsByDots statement levels) :
    dependenciesOf files (joinAll start names) statement =
      (itemNames statement).filterMap fun item =>
        (attempts start names levels item).find? files.pathExists := by
  rw [dependenciesOf, hStatement.kind, hStatement.bare, hStatement.dots]
  refine List.filterMap_congr fun item hItem => ?_
  exact resolveRelative_eq hStart hNames hDots h (hStatement.items item hItem)

/-- A search that ends well has taken what the statements of its first file stand for. -/
theorem mem_taken_of_mem_dependenciesOf {base path next : String} {taken : List String}
    {tree statement : Tree} {outlines : List FileOutline} (hRead : files.read path = .ok tree)
    (hStatement : statement ∈ tree.walk) (hFree : path ∉ taken)
    (hOk : (follow files base taken path).outlines = .ok outlines)
    (hNext : next ∈ dependenciesOf files base statement) :
    next ∈ (follow files base taken path).taken := by
  obtain ⟨paths, hPaths⟩ := explored_of_follow hOk
  rw [hPaths.taken_eq, List.mem_append, List.mem_reverse, hPaths.mem_iff]
  by_cases hTaken : next ∈ taken
  · exact Or.inr hTaken
  · have hImported : Imported files base path next :=
      ⟨tree, hRead, statement, hStatement, mem_dependenciesOf.mp hNext⟩
    exact Or.inl (.step (.start List.mem_cons_self hFree) hImported hTaken)

/--
For a statement with so many dots and no module, in a file of the directory that some names lead to
from a start, each item leads to the first file that exists of two: the one beside the file, and the
one as many directories up as there are dots. Whenever following the file ends well, these files
are taken, and the statement leads to no others. By the dots, the item should be looked for one
directory less far up, and there only. The two come to the same if and only if

* with one dot, the item is beside the file, or it is not one directory up either;
* with more dots, the item is not beside the file, and the climb ends at a root, or the item is
  neither where the dots lead nor one directory further up.
-/
theorem relative_imports_by_dots (files : FileSystem) {statement : Tree} (hStart : IsTrim start)
    (hNames : ∀ name ∈ names, IsName name) (hDots : 1 ≤ levels) (hDepth : levels ≤ names.length + 1)
    (hStatement : ImportsByDots statement levels) :
    (dependenciesOf files (joinAll start names) statement =
      (itemNames statement).filterMap fun item =>
        (attempts start names levels item).find? files.pathExists) ∧
    (∀ path tree taken outlines, files.read path = .ok tree → statement ∈ tree.walk →
      path ∉ taken → (follow files (joinAll start names) taken path).outlines = .ok outlines →
      ∀ next ∈ dependenciesOf files (joinAll start names) statement,
        next ∈ (follow files (joinAll start names) taken path).taken) ∧
    ∀ item ∈ itemNames statement,
      ((attempts start names levels item).find? files.pathExists =
          byDots files start names levels item ↔
        if levels = 1 then
          files.pathExists (itemIn (joinAll start names) item) = true ∨
            files.pathExists (itemIn (climb start names 1) item) = false
        else
          files.pathExists (itemIn (joinAll start names) item) = false ∧
            (levels = names.length + 1 ∧ Path.directory start = start ∨
              files.pathExists (itemIn (climb start names levels) item) = false ∧
                files.pathExists (itemIn (climb start names (levels - 1)) item) = false)) :=
  ⟨dependenciesOf_of_importsByDots hStart hNames hDots hDepth hStatement,
    fun _ _ _ _ hRead hMem hFree hOk _ => mem_taken_of_mem_dependenciesOf hRead hMem hFree hOk,
    fun item hItem =>
      find?_attempts_eq_iff hStart hNames hDots hDepth (hStatement.items item hItem)⟩

/-- `from .. import name` -/
def importAbove (name : String) : Tree :=
  .node .importFrom (some 1) [("level", .number 2)]
    [.filled .names (.node (.other "alias") (some 1) [("name", .text name)] [])]

/-- A file three directories deep that imports an item with two dots, and two files of this name:
where the dots lead, and one directory further up. -/
def climbingFiles : FileSystem :=
  { entries := [(["p", "q", "r", "a.py"], .file { content := .ok (.moduleOf [importAbove "b"]) }),
    (["p", "q", "b.py"], .file { content := .ok (.moduleOf []) }),
    (["p", "b.py"], .file { content := .ok (.moduleOf []) })] }

theorem importsByDots_importAbove : ImportsByDots (importAbove "b") 2 where
  kind := rfl
  bare := rfl
  dots := rfl
  items := by decide

/-- The item is looked for beside the file and two directories up, and not where the dots lead. -/
theorem relative_imports_by_dots_climbing :
    joinAll "" ["p", "q", "r"] = "p/q/r" ∧
    attempts "" ["p", "q", "r"] 2 "b" = ["p/q/r/b.py", "p/b.py"] ∧
    dependenciesOf climbingFiles "p/q/r" (importAbove "b") = ["p/b.py"] ∧
    byDots climbingFiles "" ["p", "q", "r"] 2 "b" = some "p/q/b.py" ∧
    (attempts "" ["p", "q", "r"] 2 "b").find? climbingFiles.pathExists ≠
      byDots climbingFiles "" ["p", "q", "r"] 2 "b" := by
  obtain ⟨hFollowed, _, hAgree⟩ := relative_imports_by_dots climbingFiles
    (show IsTrim "" by decide) (show ∀ name ∈ ["p", "q", "r"], IsName name by decide)
    (show 1 ≤ 2 by decide) (by decide) importsByDots_importAbove
  refine ⟨by decide, by decide, hFollowed.trans (by decide +kernel), by decide +kernel, ?_⟩
  rw [Ne, hAgree "b" (by decide)]
  decide +kernel

/-- Following the file takes the wrong one of the two files. -/
theorem wrong_file_followed_climbing :
    climbingFiles.pathExists "p/q/b.py" = true ∧
    byDots climbingFiles "" ["p", "q", "r"] 2 "b" = some "p/q/b.py" ∧
    (follow climbingFiles "p/q/r" [] "p/q/r/a.py").outlines.isOk = true ∧
    (follow climbingFiles "p/q/r" [] "p/q/r/a.py").taken = ["p/b.py", "p/q/r/a.py"] := by
  decide +kernel

end Imports

end CallGraph
