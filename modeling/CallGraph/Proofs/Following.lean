import CallGraph.Proofs.Charting
import Mathlib.Data.List.TakeWhile

/-!
# Following imports is an exact search

Following keeps a list of paths still to be looked at and the set of paths that need no reading any
more. What it reads is said here without that list: the paths to which imports lead from the start,
past every path of the set (`Imports.ReachedPast`). Imports may run in circles, so a path is passed
over as soon as it is in the set, and the set grows while the search goes on. The argument that
nothing is lost is one equivalence (`reachedPast_iff`): taking the first path and adding its imports
to what is still to be looked at leaves the same paths to be found, since a way that comes back to
the first path can be cut behind its last visit there.

The fuel of the search counts paths that can still be read for the first time. Every import of every
file is among finitely many paths, so it never runs out (`followWithin_eq_of_le`), and following is
the plain recursion: a file, and then what following each of its imports in turn comes to
(`follow_eq`).

## Main definitions

* `Imports.Candidate` — the paths that an import statement stands for.
* `Imports.ReachedPast` — the paths to which imports lead past some others.
* `Imports.followEach` — following several paths, one after the other.

## Main results

* `followWithin_spec` — what the search reads.
* `follow_eq` — following as a recursion.
* `follow_exact` — following reads every path it can come to, once.
-/

namespace CallGraph

/-- The outline of the file at a path. -/
def FileSystem.HasOutline (files : FileSystem) (path : String) (outline : FileOutline) : Prop :=
  ∃ tree, files.read path = .ok tree ∧ outline = FileOutline.ofTree tree path

namespace Imports

variable {files : FileSystem} {base : String}

/-! ## The import relation -/

/-- The paths that an import statement stands for, with all names below one directory. -/
inductive Candidate (files : FileSystem) (base : String) (statement : Tree) : String → Prop
  /-- `import name` -/
  | module {name : String} (hKind : statement.kind = .importModules)
      (hName : name ∈ itemNames statement)
      (hExists : files.pathExists (modulePath base name) = true) :
      Candidate files base statement (modulePath base name)
  /-- `from name import …`, where `name` is a file -/
  | source {name : String} (hKind : statement.kind = .importFrom)
      (hModule : statement.text? "module" = some name) (hName : name ≠ "")
      (hExists : files.pathExists (modulePath base name) = true) :
      Candidate files base statement (modulePath base name)
  /-- `from name import item`, where `name` is no file but `item` is one -/
  | item {name item : String} (hKind : statement.kind = .importFrom)
      (hModule : statement.text? "module" = some name) (hName : name ≠ "")
      (hAbsent : files.pathExists (modulePath base name) = false)
      (hItem : item ∈ itemNames statement)
      (hExists : files.pathExists (modulePath base item) = true) :
      Candidate files base statement (modulePath base item)
  /-- `from . import item`, where `item` lies in the directory -/
  | beside {item : String} (hKind : statement.kind = .importFrom)
      (hModule : (statement.text? "module").filter (· ≠ "") = none)
      (hItem : item ∈ itemNames statement)
      (hExists : files.pathExists (Path.join base item ++ ".py") = true) :
      Candidate files base statement (Path.join base item ++ ".py")
  /-- `from .. import item`, where `item` lies so many directories above -/
  | above {item : String} {levels : Nat} (hKind : statement.kind = .importFrom)
      (hModule : (statement.text? "module").filter (· ≠ "") = none)
      (hItem : item ∈ itemNames statement)
      (hAbsent : files.pathExists (Path.join base item ++ ".py") = false)
      (hLevels : ((statement.number? "level").getD 0).toNat = levels) (hSome : levels ≠ 0)
      (hExists : files.pathExists (Path.join (ancestor base levels) item ++ ".py") = true) :
      Candidate files base statement (Path.join (ancestor base levels) item ++ ".py")

theorem resolve_eq_some_iff {name path : String} :
    resolve files base name = some path ↔
      files.pathExists (modulePath base name) = true ∧ modulePath base name = path := by
  unfold resolve
  split <;> simp_all

theorem resolve_eq_none_iff {name : String} :
    resolve files base name = none ↔ files.pathExists (modulePath base name) = false := by
  unfold resolve
  split <;> simp_all

theorem resolveRelative_eq_some_iff {levels : Nat} {item path : String} :
    resolveRelative files base levels item = some path ↔
      (files.pathExists (Path.join base item ++ ".py") = true ∧
        Path.join base item ++ ".py" = path) ∨
      (files.pathExists (Path.join base item ++ ".py") = false ∧ levels ≠ 0 ∧
        files.pathExists (Path.join (ancestor base levels) item ++ ".py") = true ∧
        Path.join (ancestor base levels) item ++ ".py" = path) := by
  unfold resolveRelative
  dsimp only
  split
  · simp_all
  · split
    · simp_all
    · split <;> simp_all

/-- What a statement imports is what it stands for. -/
theorem mem_dependenciesOf {statement : Tree} {path : String} :
    path ∈ dependenciesOf files base statement ↔ Candidate files base statement path := by
  constructor
  · intro hPath
    unfold dependenciesOf at hPath
    split at hPath
    · rename_i hKind
      obtain ⟨name, hName, hPath⟩ := List.mem_filterMap.mp hPath
      obtain ⟨hExists, rfl⟩ := resolve_eq_some_iff.mp hPath
      exact .module hKind hName hExists
    · rename_i hKind
      split at hPath
      · rename_i name hModule
        obtain ⟨hModule, hName⟩ := Option.filter_eq_some_iff.mp hModule
        have hName : name ≠ "" := of_decide_eq_true hName
        split at hPath
        · rename_i found hFound
          obtain ⟨hExists, rfl⟩ := resolve_eq_some_iff.mp hFound
          rw [List.mem_singleton.mp hPath]
          exact .source hKind hModule hName hExists
        · rename_i hAbsent
          obtain ⟨item, hItem, hPath⟩ := List.mem_filterMap.mp hPath
          obtain ⟨hExists, rfl⟩ := resolve_eq_some_iff.mp hPath
          exact .item hKind hModule hName (resolve_eq_none_iff.mp hAbsent) hItem hExists
      · rename_i hModule
        obtain ⟨item, hItem, hPath⟩ := List.mem_filterMap.mp hPath
        rcases resolveRelative_eq_some_iff.mp hPath with
          ⟨hExists, rfl⟩ | ⟨hAbsent, hSome, hExists, rfl⟩
        · exact .beside hKind hModule hItem hExists
        · exact .above hKind hModule hItem hAbsent rfl hSome hExists
    · exact absurd hPath List.not_mem_nil
  · rintro (⟨hKind, hName, hExists⟩ | ⟨hKind, hModule, hName, hExists⟩ |
      ⟨hKind, hModule, hName, hAbsent, hItem, hExists⟩ | ⟨hKind, hModule, hItem, hExists⟩ |
      ⟨hKind, hModule, hItem, hAbsent, hLevels, hSome, hExists⟩)
    · rw [dependenciesOf, hKind]
      exact List.mem_filterMap.mpr ⟨_, hName, resolve_eq_some_iff.mpr ⟨hExists, rfl⟩⟩
    · rw [dependenciesOf, hKind, hModule]
      simp only [ne_eq, hName, not_false_eq_true, decide_true, Option.filter_some, if_true,
        resolve_eq_some_iff.mpr ⟨hExists, rfl⟩]
      exact List.mem_cons_self
    · rw [dependenciesOf, hKind, hModule]
      simp only [ne_eq, hName, not_false_eq_true, decide_true, Option.filter_some, if_true,
        resolve_eq_none_iff.mpr hAbsent]
      exact List.mem_filterMap.mpr ⟨_, hItem, resolve_eq_some_iff.mpr ⟨hExists, rfl⟩⟩
    · rw [dependenciesOf, hKind, hModule]
      exact List.mem_filterMap.mpr
        ⟨_, hItem, resolveRelative_eq_some_iff.mpr (Or.inl ⟨hExists, rfl⟩)⟩
    · rw [dependenciesOf, hKind, hModule]
      exact List.mem_filterMap.mpr ⟨_, hItem, resolveRelative_eq_some_iff.mpr
        (Or.inr ⟨hAbsent, hLevels ▸ hSome, hLevels ▸ hExists, by rw [hLevels]⟩)⟩

/-- The paths that the file at a path imports, by a statement anywhere in it. -/
def Imported (files : FileSystem) (base path next : String) : Prop :=
  ∃ tree, files.read path = .ok tree ∧ ∃ statement ∈ tree.walk,
    Candidate files base statement next

theorem imported_iff {path next : String} {tree : Tree} (hRead : files.read path = .ok tree) :
    Imported files base path next ↔ next ∈ dependencies files base tree := by
  unfold Imported dependencies
  simp only [List.mem_flatMap, mem_dependenciesOf, hRead, Except.ok.injEq, exists_eq_left']

/-! ## Reaching paths past others -/

/-- The paths to which imports lead from some starts, past all paths to be avoided. -/
inductive ReachedPast (files : FileSystem) (base : String) (avoid : String → Prop)
    (starts : List String) : String → Prop
  | start {path : String} (hStart : path ∈ starts) (hFree : ¬avoid path) :
      ReachedPast files base avoid starts path
  | step {path next : String} (hPath : ReachedPast files base avoid starts path)
      (hNext : Imported files base path next) (hFree : ¬avoid next) :
      ReachedPast files base avoid starts next

variable {avoid : String → Prop} {taken pending starts : List String} {path : String}

theorem ReachedPast.free (h : ReachedPast files base avoid starts path) : ¬avoid path := by
  cases h with
  | start _ hFree => exact hFree
  | step _ _ hFree => exact hFree

/-- More starts and less to avoid reach no fewer paths. -/
theorem ReachedPast.mono {avoid' : String → Prop} {starts' : List String}
    (h : ReachedPast files base avoid starts path) (hAvoid : ∀ p, avoid' p → avoid p)
    (hStarts : ∀ p ∈ starts, ¬avoid p → ReachedPast files base avoid' starts' p) :
    ReachedPast files base avoid' starts' path := by
  induction h with
  | start hStart hFree => exact hStarts _ hStart hFree
  | step _ hNext hFree ih => exact .step ih hNext fun hAvoided => hFree (hAvoid _ hAvoided)

/-- Nothing is reached from starts that are all avoided. -/
theorem not_reachedPast (h : ∀ p ∈ starts, avoid p) : ¬ReachedPast files base avoid starts path := by
  intro hReached
  induction hReached with
  | start hStart hFree => exact hFree (h _ hStart)
  | step _ _ _ ih => exact ih

/--
The step of the search. Of the paths to be found, the first is one; the others are found from its
imports and from the remaining starts, past the first as well.
-/
theorem reachedPast_iff {first : String} {rest nexts : List String}
    (hFirst : pending.dropWhile taken.contains = first :: rest)
    (hNexts : ∀ next, Imported files base first next ↔ next ∈ nexts) :
    ReachedPast files base (· ∈ taken) pending path ↔
      path = first ∨ ReachedPast files base (· ∈ first :: taken) (nexts ++ rest) path := by
  have hFree : first ∉ taken := by
    have hHead := List.head?_dropWhile_not taken.contains pending
    rw [hFirst] at hHead
    simpa using hHead
  have hMem : ∀ p ∈ pending, p ∉ taken → p ∈ first :: rest := by
    intro p hp hNew
    have hSplit : pending.takeWhile taken.contains ++ first :: rest = pending := by
      rw [← hFirst, List.takeWhile_append_dropWhile]
    rw [← hSplit] at hp
    rcases List.mem_append.mp hp with hp | hp
    · exact absurd (by simpa using List.mem_takeWhile_imp hp) hNew
    · exact hp
  have hPending : ∀ p ∈ first :: rest, p ∈ pending := fun p hp =>
    (List.dropWhile_sublist _).subset (hFirst ▸ hp)
  constructor
  · intro h
    induction h with
    | @start p hStart hNew =>
        by_cases hp : p = first
        · exact Or.inl hp
        · have hRest := (List.mem_cons.mp (hMem p hStart hNew)).resolve_left hp
          exact Or.inr (.start (List.mem_append_right _ hRest) (by simp [hp, hNew]))
    | @step p next _ hNext hNew ih =>
        by_cases hp : next = first
        · exact Or.inl hp
        · have hFresh : next ∉ first :: taken := by simp [hp, hNew]
          rcases ih with rfl | ih
          · exact Or.inr
              (.start (List.mem_append_left _ ((hNexts next).mp hNext)) hFresh)
          · exact Or.inr (.step ih hNext hFresh)
  · have hStart : ReachedPast files base (· ∈ taken) pending first :=
      .start (hPending first List.mem_cons_self) hFree
    rintro (rfl | h)
    · exact hStart
    · refine h.mono (fun p hp => List.mem_cons_of_mem _ hp) fun p hp hNew => ?_
      have hNew : p ∉ taken := fun hp => hNew (List.mem_cons_of_mem _ hp)
      rcases List.mem_append.mp hp with hp | hp
      · exact .step hStart ((hNexts p).mpr hp) hNew
      · exact .start (hPending p (List.mem_cons_of_mem _ hp)) hNew

/-! ## The search -/

/-- The number of known paths that can still be read for the first time. -/
def unread (known taken : List String) : Nat :=
  (known.filter fun path => !taken.contains path).length

theorem mem_taken_of_unread {known : List String} (h : unread known taken = 0) :
    ∀ p ∈ known, p ∈ taken := by
  intro p hp
  have hNil := List.eq_nil_of_length_eq_zero h
  simpa using List.filter_eq_nil_iff.mp hNil p hp

/-- Reading a path for the first time leaves fewer of them. -/
theorem unread_lt {known : List String} (hKnown : path ∈ known) (hFree : path ∉ taken) :
    unread known (path :: taken) < unread known taken := by
  have hFilter : known.filter (fun p => !(path :: taken).contains p) =
      (known.filter fun p => !taken.contains p).filter fun p => decide (p ≠ path) := by
    rw [List.filter_filter]
    congr 1
    funext p
    by_cases hp : p = path <;> simp [hp]
  unfold unread
  rw [hFilter, List.length_filter_lt_length_iff_exists]
  exact ⟨path, List.mem_filter.mpr ⟨hKnown, by simpa using hFree⟩, by simp⟩

theorem unread_le_of_subset (known : List String) {taken' : List String} (h : ∀ p ∈ taken, p ∈ taken') :
    unread known taken' ≤ unread known taken := by
  refine List.Sublist.length_le (List.monotone_filter_right known fun p hp => ?_)
  simp only [List.contains_eq_mem, Bool.not_eq_true', decide_eq_false_iff_not] at hp ⊢
  exact fun hMem => hp (h p hMem)

/-- Every import of a file is one of some known paths. -/
def Closed (files : FileSystem) (base : String) (known : List String) : Prop :=
  ∀ path tree, files.read path = .ok tree → ∀ next ∈ dependencies files base tree, next ∈ known

theorem mem_trees_of_read {tree : Tree} (h : files.read path = .ok tree) : tree ∈ files.trees := by
  unfold FileSystem.read at h
  split at h
  · exact absurd h (by simp)
  · rename_i place _
    split at h
    · rename_i file hEntry
      unfold FileSystem.entry? at hEntry
      split at hEntry
      · rename_i entry hLookup
        cases hEntry
        obtain ⟨front, back, hEntries, _⟩ := List.lookup_eq_some_iff.mp hLookup
        split at h
        · rename_i content hContent
          cases h
          refine List.mem_filterMap.mpr ⟨(place, .file file), ?_, ?_⟩
          · rw [hEntries]
            simp
          · simp [hContent, Except.toOption]
        · exact absurd h (by simp)
      · split at hEntry <;> simp at hEntry
    · exact absurd h (by simp)
    · exact absurd h (by simp)

theorem closed_of_pool {known : List String} (h : ∀ p ∈ pool files base, p ∈ known) :
    Closed files base known := by
  intro path tree hRead next hNext
  exact h next (List.mem_flatMap.mpr ⟨tree, mem_trees_of_read hRead, hNext⟩)

section Search

variable {known : List String} {fuel : Nat}

theorem dropWhile_eq_nil_of_unread (hPending : ∀ p ∈ pending, p ∈ known)
    (h : unread known taken = 0) : pending.dropWhile taken.contains = [] := by
  rw [List.dropWhile_eq_nil_iff]
  intro p hp
  simpa using mem_taken_of_unread h p (hPending p hp)

theorem followWithin_of_dropWhile (h : pending.dropWhile taken.contains = []) :
    followWithin files base fuel taken pending = ⟨taken, .ok []⟩ := by
  cases fuel with
  | zero => rfl
  | succ fuel => rw [followWithin, h]

/-- What is known of a path that is taken next: it is free, and all paths still to be looked at
afterwards are known. -/
theorem next_of_dropWhile (hPending : ∀ p ∈ pending, p ∈ known) {first : String}
    {rest : List String} (h : pending.dropWhile taken.contains = first :: rest) :
    first ∉ taken ∧ ∀ p ∈ first :: rest, p ∈ known := by
  constructor
  · have hHead := List.head?_dropWhile_not taken.contains pending
    rw [h] at hHead
    simpa using hHead
  · exact fun p hp => hPending p ((List.dropWhile_sublist _).subset (h ▸ hp))

theorem known_append (hClosed : Closed files base known) {rest : List String} {tree : Tree}
    (hRead : files.read path = .ok tree) (hRest : ∀ p ∈ rest, p ∈ known) :
    ∀ p ∈ dependencies files base tree ++ rest, p ∈ known :=
  List.forall_mem_append.mpr ⟨hClosed _ _ hRead, hRest⟩

/-- The fuel makes no difference as long as it counts all known paths not read yet. -/
theorem followWithin_eq_of_le (hClosed : Closed files base known)
    (hPending : ∀ p ∈ pending, p ∈ known) (h : unread known taken ≤ fuel) (fuel' : Nat)
    (h' : unread known taken ≤ fuel') :
    followWithin files base fuel taken pending = followWithin files base fuel' taken pending := by
  induction fuel generalizing fuel' taken pending with
  | zero =>
      have hNil := dropWhile_eq_nil_of_unread hPending (Nat.le_zero.mp h)
      rw [followWithin_of_dropWhile hNil, followWithin_of_dropWhile hNil]
  | succ fuel ih =>
      cases hRest : pending.dropWhile taken.contains with
      | nil => rw [followWithin_of_dropWhile hRest, followWithin_of_dropWhile hRest]
      | cons first rest =>
          obtain ⟨hFree, hKnown⟩ := next_of_dropWhile hPending hRest
          have hLess := unread_lt (hKnown first List.mem_cons_self) hFree
          obtain ⟨fuel', rfl⟩ := Nat.exists_eq_succ_of_ne_zero (show fuel' ≠ 0 by omega)
          rw [followWithin, followWithin, hRest]
          dsimp only
          cases hRead : files.read first with
          | error fault => rfl
          | ok tree =>
              dsimp only
              rw [ih (known_append hClosed hRead fun p hp => hKnown p (List.mem_cons_of_mem _ hp))
                (by omega) fuel' (by omega)]

/-- What a search has come to: the paths read, in order, with their outlines. -/
structure Explored (files : FileSystem) (base : String) (taken pending : List String)
    (followed : Followed) (outlines : List FileOutline) (paths : List String) : Prop where
  taken_eq : followed.taken = paths.reverse ++ taken
  outlined : List.Forall₂ files.HasOutline paths outlines
  nodup : paths.Nodup
  mem_iff : ∀ path, path ∈ paths ↔ ReachedPast files base (· ∈ taken) pending path
  head : paths.head? = (pending.dropWhile taken.contains).head?

theorem readable_of_outlined {paths : List String} {outlines : List FileOutline}
    (h : List.Forall₂ files.HasOutline paths outlines) :
    ∀ p ∈ paths, ∃ tree, files.read p = .ok tree := by
  induction h with
  | nil => simp
  | cons hFirst _ ih =>
      obtain ⟨tree, hRead, _⟩ := hFirst
      exact List.forall_mem_cons.mpr ⟨⟨tree, hRead⟩, ih⟩

theorem explored_nil (h : pending.dropWhile taken.contains = []) :
    Explored files base taken pending ⟨taken, .ok []⟩ [] [] where
  taken_eq := by simp
  outlined := .nil
  nodup := List.nodup_nil
  mem_iff path := by
    have hTaken : ∀ p ∈ pending, p ∈ taken := fun p hp => by
      simpa using List.dropWhile_eq_nil_iff.mp h p hp
    simp [not_reachedPast hTaken]
  head := by rw [h]

/-- A search that ends without a fault has read the paths it could come to, each once. -/
theorem followWithin_spec (hClosed : Closed files base known)
    (hPending : ∀ p ∈ pending, p ∈ known) (hFuel : unread known taken ≤ fuel)
    {outlines : List FileOutline}
    (hOk : (followWithin files base fuel taken pending).outlines = .ok outlines) :
    ∃ paths, Explored files base taken pending (followWithin files base fuel taken pending)
      outlines paths := by
  induction fuel generalizing taken pending outlines with
  | zero =>
      have hNil := dropWhile_eq_nil_of_unread hPending (Nat.le_zero.mp hFuel)
      rw [followWithin_of_dropWhile hNil] at hOk ⊢
      cases hOk
      exact ⟨[], explored_nil hNil⟩
  | succ fuel ih =>
      cases hRest : pending.dropWhile taken.contains with
      | nil =>
          rw [followWithin_of_dropWhile hRest] at hOk ⊢
          cases hOk
          exact ⟨[], explored_nil hRest⟩
      | cons first rest =>
          obtain ⟨hFree, hKnown⟩ := next_of_dropWhile hPending hRest
          have hLess := unread_lt (hKnown first List.mem_cons_self) hFree
          rw [followWithin, hRest] at hOk ⊢
          dsimp only at hOk ⊢
          cases hRead : files.read first with
          | error fault =>
              rw [hRead] at hOk
              exact absurd hOk (by simp)
          | ok tree =>
              rw [hRead] at hOk
              dsimp only at hOk ⊢
              cases hOthers : (followWithin files base fuel (first :: taken)
                  (dependencies files base tree ++ rest)).outlines with
              | error fault =>
                  rw [hOthers] at hOk
                  exact absurd hOk (by simp [Except.map])
              | ok others =>
                  rw [hOthers] at hOk
                  cases hOk
                  obtain ⟨paths, hPaths⟩ := ih
                    (known_append hClosed hRead fun p hp => hKnown p (List.mem_cons_of_mem _ hp))
                    (by omega) hOthers
                  refine ⟨first :: paths, ?_, .cons ⟨tree, hRead, rfl⟩ hPaths.outlined,
                    List.nodup_cons.mpr ⟨fun hMem => ?_, hPaths.nodup⟩, fun path => ?_, ?_⟩
                  · rw [hPaths.taken_eq]
                    simp
                  · exact ((hPaths.mem_iff first).mp hMem).free List.mem_cons_self
                  · rw [reachedPast_iff hRest fun _ => imported_iff hRead, List.mem_cons,
                      hPaths.mem_iff]
                  · rw [hRest]
                    rfl

/-- A search reads all it comes to when all of that can be read. -/
theorem followWithin_reads (hClosed : Closed files base known)
    (hPending : ∀ p ∈ pending, p ∈ known) (hFuel : unread known taken ≤ fuel)
    (h : ∀ path, ReachedPast files base (· ∈ taken) pending path →
      ∃ tree, files.read path = .ok tree) :
    ∃ outlines, (followWithin files base fuel taken pending).outlines = .ok outlines := by
  induction fuel generalizing taken pending with
  | zero => exact ⟨[], rfl⟩
  | succ fuel ih =>
      cases hRest : pending.dropWhile taken.contains with
      | nil => exact ⟨[], by rw [followWithin_of_dropWhile hRest]⟩
      | cons first rest =>
          obtain ⟨hFree, hKnown⟩ := next_of_dropWhile hPending hRest
          have hLess := unread_lt (hKnown first List.mem_cons_self) hFree
          have hFirst : first ∈ pending :=
            (List.dropWhile_sublist _).subset (hRest ▸ List.mem_cons_self)
          obtain ⟨tree, hRead⟩ := h first (.start hFirst hFree)
          obtain ⟨others, hOthers⟩ := ih
            (known_append hClosed hRead fun p hp => hKnown p (List.mem_cons_of_mem _ hp))
            (by omega) fun path hPath =>
              h path ((reachedPast_iff hRest fun _ => imported_iff hRead).mpr (Or.inr hPath))
          rw [followWithin, hRest]
          dsimp only
          rw [hRead]
          dsimp only
          rw [hOthers]
          exact ⟨_, rfl⟩

/-! ## Following as a recursion -/

/-- Goes on following with the paths that are taken by then; a fault ends it. -/
def Followed.andThen (first : Followed) (next : List String → Followed) : Followed :=
  match first.outlines with
  | .error fault => ⟨first.taken, .error fault⟩
  | .ok outlines => ⟨(next first.taken).taken, (next first.taken).outlines.map (outlines ++ ·)⟩

theorem andThen_nil (taken : List String) (next : List String → Followed) :
    (⟨taken, .ok []⟩ : Followed).andThen next = next taken := by
  unfold Followed.andThen
  cases hNext : next taken with
  | mk after outlines => cases outlines <;> simp [Except.map]

/-- The outline of a file in front does not change how following goes on. -/
theorem andThen_cons (first : Followed) (outline : FileOutline) (next : List String → Followed) :
    (⟨first.taken, first.outlines.map (outline :: ·)⟩ : Followed).andThen next =
      ⟨(first.andThen next).taken, (first.andThen next).outlines.map (outline :: ·)⟩ := by
  unfold Followed.andThen
  cases first.outlines with
  | error fault => rfl
  | ok outlines => cases (next first.taken).outlines <;> simp [Except.map]

theorem andThen_congr {first : Followed} {next next' : List String → Followed}
    (h : next first.taken = next' first.taken) : first.andThen next = first.andThen next' := by
  unfold Followed.andThen
  rw [h]

theorem subset_followWithin (files : FileSystem) (base : String) (fuel : Nat)
    (taken pending : List String) :
    ∀ p ∈ taken, p ∈ (followWithin files base fuel taken pending).taken := by
  induction fuel generalizing taken pending with
  | zero => exact fun _ hp => hp
  | succ fuel ih =>
      intro p hp
      rw [followWithin]
      split
      · exact hp
      · split
        · exact List.mem_cons_of_mem _ hp
        · exact ih _ _ p (List.mem_cons_of_mem _ hp)

/-- What is still to be looked at can be looked at in two parts. -/
theorem followWithin_append (hClosed : Closed files base known) {front back : List String}
    (hFront : ∀ p ∈ front, p ∈ known) (hBack : ∀ p ∈ back, p ∈ known)
    (hFuel : unread known taken ≤ fuel) :
    followWithin files base fuel taken (front ++ back) =
      (followWithin files base fuel taken front).andThen
        (followWithin files base fuel · back) := by
  induction fuel generalizing taken front with
  | zero =>
      rw [followWithin, followWithin, andThen_nil]
      rfl
  | succ fuel ih =>
      cases hRest : front.dropWhile taken.contains with
      | nil =>
          have hAll : ∀ p ∈ front, taken.contains p = true := List.dropWhile_eq_nil_iff.mp hRest
          rw [followWithin_of_dropWhile hRest, andThen_nil, followWithin, followWithin,
            List.dropWhile_append_of_pos hAll]
      | cons first rest =>
          obtain ⟨hFree, hKnown⟩ := next_of_dropWhile hFront hRest
          have hLess := unread_lt (hKnown first List.mem_cons_self) hFree
          rw [followWithin, List.dropWhile_append, hRest]
          conv_rhs => rw [followWithin, hRest]
          simp only [List.isEmpty_cons, Bool.false_eq_true, if_false, List.cons_append]
          cases hRead : files.read first with
          | error fault => rfl
          | ok tree =>
              have hRest := known_append hClosed hRead fun p hp =>
                hKnown p (List.mem_cons_of_mem _ hp)
              dsimp only
              rw [← List.append_assoc, ih hRest (by omega), andThen_cons]
              -- The first part has taken the first path and more, so less fuel does for the rest.
              have hFewer := unread_le_of_subset known (subset_followWithin files base fuel
                (first :: taken) (dependencies files base tree ++ rest))
              generalize followWithin files base fuel (first :: taken)
                (dependencies files base tree ++ rest) = others at hFewer ⊢
              have hBoth : others.andThen (followWithin files base fuel · back) =
                  others.andThen (followWithin files base (fuel + 1) · back) :=
                andThen_congr (followWithin_eq_of_le hClosed hBack (by omega) _ (by omega))
              rw [hBoth]

end Search

/-- Follows several paths, one after the other. -/
def followEach (files : FileSystem) (base : String) : List String → List String → Followed
  | taken, [] => ⟨taken, .ok []⟩
  | taken, path :: rest =>
      (follow files base taken path).andThen (followEach files base · rest)

/-- All paths that can come up from a start. -/
theorem unread_le_fuel (files : FileSystem) (base : String) (taken : List String) (path : String) :
    unread (distinct (path :: pool files base)) taken ≤
      (distinct (path :: pool files base)).length :=
  List.length_filter_le ..

theorem closed_distinct (files : FileSystem) (base path : String) :
    Closed files base (distinct (path :: pool files base)) :=
  closed_of_pool fun p hp => by simp [hp]

theorem mem_distinct_start (files : FileSystem) (base path : String) :
    ∀ p ∈ [path], p ∈ distinct (path :: pool files base) := by
  simp

/-- Following with any fuel that counts all known paths not read yet. -/
theorem follow_eq_followWithin {known : List String} {fuel : Nat}
    (hClosed : Closed files base known) (hPath : path ∈ known)
    (hFuel : unread known taken ≤ fuel) :
    follow files base taken path = followWithin files base fuel taken [path] := by
  have hStart : ∀ p ∈ [path], p ∈ known := by simpa using hPath
  -- Both amounts of fuel do as much as their sum.
  calc follow files base taken path
    _ = followWithin files base (fuel + (distinct (path :: pool files base)).length) taken
        [path] :=
      followWithin_eq_of_le (closed_distinct files base path) (mem_distinct_start files base path)
        (unread_le_fuel files base taken path) _
        (Nat.le_add_left_of_le (unread_le_fuel files base taken path))
    _ = followWithin files base fuel taken [path] :=
      followWithin_eq_of_le hClosed hStart (Nat.le_add_right_of_le hFuel) _ hFuel

/-- Following several paths is one search. -/
theorem followEach_eq {known paths : List String} {fuel : Nat} (hClosed : Closed files base known)
    (hPaths : ∀ p ∈ paths, p ∈ known) (hFuel : unread known taken ≤ fuel) :
    followEach files base taken paths = followWithin files base fuel taken paths := by
  induction paths generalizing taken with
  | nil => exact (followWithin_of_dropWhile rfl).symm
  | cons first rest ih =>
      obtain ⟨hFirst, hRest⟩ := List.forall_mem_cons.mp hPaths
      have hStart : ∀ p ∈ [first], p ∈ known := by simpa using hFirst
      rw [followEach, follow_eq_followWithin hClosed hFirst hFuel,
        show first :: rest = [first] ++ rest from rfl,
        followWithin_append hClosed hStart hRest hFuel]
      refine andThen_congr (ih hRest (Nat.le_trans ?_ hFuel))
      exact unread_le_of_subset known (subset_followWithin files base fuel taken [first])

/-- Following a path: nothing if it is taken, and else its file and then what following each of its
imports in turn comes to. -/
theorem follow_eq (files : FileSystem) (base : String) (taken : List String) (path : String) :
    follow files base taken path =
      if path ∈ taken then ⟨taken, .ok []⟩
      else
        match files.read path with
        | .error fault => ⟨path :: taken, .error fault⟩
        | .ok tree =>
            let others := followEach files base (path :: taken) (dependencies files base tree)
            ⟨others.taken, others.outlines.map (FileOutline.ofTree tree path :: ·)⟩ := by
  have hClosed := closed_distinct files base path
  have hFuel := unread_le_fuel files base taken path
  have hStart := mem_distinct_start files base path
  split
  · rename_i hTaken
    exact followWithin_of_dropWhile (by simp [hTaken])
  · rename_i hFree
    have hLess := unread_lt (hStart path List.mem_cons_self) hFree
    obtain ⟨fuel, hSucc⟩ := Nat.exists_eq_succ_of_ne_zero
      (show (distinct (path :: pool files base)).length ≠ 0 by omega)
    rw [follow, hSucc, followWithin]
    simp only [List.dropWhile_cons, List.contains_eq_mem, hFree, decide_false, Bool.false_eq_true,
      if_false]
    cases hRead : files.read path with
    | error fault => rfl
    | ok tree =>
        dsimp only
        rw [List.append_nil, followEach_eq hClosed (hClosed _ _ hRead)
          (show unread (distinct (path :: pool files base)) (path :: taken) ≤ fuel by omega)]

/-- What following has come to when it ends without a fault. -/
theorem explored_of_follow {outlines : List FileOutline}
    (h : (follow files base taken path).outlines = .ok outlines) :
    ∃ paths, Explored files base taken [path] (follow files base taken path) outlines paths :=
  followWithin_spec (closed_distinct files base path) (mem_distinct_start files base path)
    (unread_le_fuel files base taken path) h

/-- Following succeeds if and only if all it comes to can be read. -/
theorem follow_isOk_iff :
    (∃ outlines, (follow files base taken path).outlines = .ok outlines) ↔
      ∀ p, ReachedPast files base (· ∈ taken) [path] p → ∃ tree, files.read p = .ok tree := by
  constructor
  · rintro ⟨outlines, hOk⟩ p hp
    obtain ⟨paths, hPaths⟩ := explored_of_follow hOk
    exact readable_of_outlined hPaths.outlined p ((hPaths.mem_iff p).mpr hp)
  · exact followWithin_reads (closed_distinct files base path) (mem_distinct_start files base path)
      (unread_le_fuel files base taken path)

/-! ## Every path once -/

/--
When all paths can be read to which imports lead from the start past the taken ones, following ends
well. It reads exactly these paths, each once and the start first, and takes exactly these, so that
following again finds nothing more. No amount of fuel above the number of known paths changes
anything.
-/
theorem follow_exact {start : String}
    (h : ∀ path, ReachedPast files base (· ∈ taken) [start] path →
      ∃ tree, files.read path = .ok tree) :
    ∃ paths outlines, (follow files base taken start).outlines = .ok outlines ∧
      List.Forall₂ files.HasOutline paths outlines ∧ paths.Nodup ∧
      (∀ path, path ∈ paths ↔ ReachedPast files base (· ∈ taken) [start] path) ∧
      (∀ path ∈ taken, path ∉ paths) ∧
      (start ∉ taken → paths.head? = some start) ∧
      (∀ path, path ∈ (follow files base taken start).taken ↔ path ∈ taken ∨ path ∈ paths) ∧
      follow files base (follow files base taken start).taken start =
        ⟨(follow files base taken start).taken, .ok []⟩ ∧
      ∀ fuel, (distinct (start :: pool files base)).length ≤ fuel →
        followWithin files base fuel taken [start] = follow files base taken start := by
  obtain ⟨outlines, hOk⟩ := follow_isOk_iff.mpr h
  obtain ⟨paths, hPaths⟩ := explored_of_follow hOk
  have hTaken : ∀ path, path ∈ (follow files base taken start).taken ↔
      path ∈ taken ∨ path ∈ paths := by
    intro path
    rw [hPaths.taken_eq, List.mem_append, List.mem_reverse, or_comm]
  have hStart : start ∈ (follow files base taken start).taken := by
    rw [hTaken, hPaths.mem_iff]
    by_cases hIn : start ∈ taken
    · exact Or.inl hIn
    · exact Or.inr (.start List.mem_cons_self hIn)
  refine ⟨paths, outlines, hOk, hPaths.outlined, hPaths.nodup, hPaths.mem_iff,
    fun path hPath hMem => ((hPaths.mem_iff path).mp hMem).free hPath, fun hFree => ?_, hTaken, ?_,
    fun fuel hFuel => ?_⟩
  · rw [hPaths.head]
    simp [hFree]
  · rw [follow_eq, if_pos hStart]
  · have hEnough := unread_le_fuel files base taken start
    exact followWithin_eq_of_le (closed_distinct files base start)
      (mem_distinct_start files base start) (Nat.le_trans hEnough hFuel) _ hEnough

/-- Four files that import each other in circles, one of them itself. -/
def circleFiles : FileSystem :=
  { entries := [(["a.py"], .file { content := .ok (.moduleOf [.importAt 1 "b"]) }),
    (["b.py"], .file { content := .ok (.moduleOf [.importAt 1 "a", .importAt 2 "c"]) }),
    (["c.py"], .file { content := .ok (.moduleOf [.importAt 1 "c", .importAt 2 "d"]) }),
    (["d.py"], .file { content := .ok (.moduleOf [.importAt 1 "a"]) })] }

/-- Of the four files, one is taken already; the other three are read. -/
theorem follow_exact_circle :
    ∃ paths outlines,
      (follow circleFiles "." ["./d.py"] "./a.py").outlines = .ok outlines ∧
      outlines.map (·.token) = ["a", "b", "c"] ∧
      List.Forall₂ circleFiles.HasOutline paths outlines ∧ paths.Nodup ∧
      (∀ path, path ∈ paths ↔ ReachedPast circleFiles "." (· ∈ ["./d.py"]) ["./a.py"] path) ∧
      "./d.py" ∉ paths ∧ paths.head? = some "./a.py" := by
  obtain ⟨found, hFound, hTokens⟩ := CallMap.exists_ok_of_any
    (show (follow circleFiles "." ["./d.py"] "./a.py").outlines.toOption.any
      (fun outlines => outlines.map (·.token) == ["a", "b", "c"]) = true by decide +kernel)
  obtain ⟨paths, outlines, hOk, hOutlined, hNodup, hMem, hTaken, hHead, _⟩ :=
    follow_exact (follow_isOk_iff.mp ⟨found, hFound⟩)
  cases hOk.symm.trans hFound
  exact ⟨paths, found, hFound, by simpa using hTokens, hOutlined, hNodup, hMem,
    hTaken _ List.mem_cons_self, hHead (by decide)⟩

end Imports

end CallGraph
