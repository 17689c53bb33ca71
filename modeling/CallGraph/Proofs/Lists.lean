import CallGraph.Ordering
import Mathlib.Data.List.Dedup
import Mathlib.Data.List.Flatten
import Mathlib.Data.List.Perm.Basic
import Mathlib.Data.List.Sort

/-!
# Lists and tables

What the proofs share about lists, whatever the entries are.

Lists are sorted by the insertion sort of the library, written out so that it can be evaluated
without it (`sortBy_eq_insertionSort`). A table is a list of keys with values; what it says under a
key is looked up from the front.

## Main results

* `sortBy_eq_insertionSort` — sorting is insertion sort.
* `lookup_of_mem` — in a table with no key twice, everything listed is found.
* `eq_filter_of_sublist` — a sublist of a list without repetitions is known by its members.
* `getElem?_filterMap_iff` — where the entries of a filtered list come from.
* `length_of_twice` — the length of a list in which some entries stand twice.
-/

namespace CallGraph

variable {α β γ : Type _}

/-! ## Sorting -/

theorem insertBy_eq_orderedInsert (le : α → α → Bool) (a : α) (xs : List α) :
    insertBy le a xs = xs.orderedInsert (fun a b => le a b = true) a := by
  induction xs with
  | nil => rfl
  | cons b rest ih => rw [insertBy, List.orderedInsert_cons, ih]

theorem sortBy_eq_insertionSort (le : α → α → Bool) (xs : List α) :
    sortBy le xs = xs.insertionSort (fun a b => le a b = true) := by
  induction xs with
  | nil => rfl
  | cons a rest ih => rw [sortBy, List.insertionSort_cons, ih, insertBy_eq_orderedInsert]

theorem perm_sortBy (le : α → α → Bool) (xs : List α) : (sortBy le xs).Perm xs :=
  sortBy_eq_insertionSort le xs ▸ List.perm_insertionSort _ xs

@[simp] theorem mem_sortBy {le : α → α → Bool} {a : α} {xs : List α} :
    a ∈ sortBy le xs ↔ a ∈ xs :=
  (perm_sortBy le xs).mem_iff

theorem pairwise_sortBy {le : α → α → Bool}
    (total : ∀ a b, le a b = true ∨ le b a = true)
    (trans : ∀ a b c, le a b = true → le b c = true → le a c = true) (xs : List α) :
    (sortBy le xs).Pairwise (fun x y => le x y = true) := by
  have : Std.Total fun a b => le a b = true := ⟨total⟩
  have : IsTrans α fun a b => le a b = true := ⟨trans⟩
  rw [sortBy_eq_insertionSort]
  exact List.pairwise_insertionSort _ xs

/-- Orders that agree on the entries sort alike. -/
theorem sortBy_congr {le le' : α → α → Bool} {xs : List α}
    (h : ∀ a ∈ xs, ∀ b ∈ xs, le a b = le' a b) : sortBy le xs = sortBy le' xs := by
  have hMap := List.map_insertionSort (fun a b => le a b = true) (fun a b => le' a b = true) id xs
    fun a ha b hb => by rw [h a ha b hb]; rfl
  rwa [List.map_id, List.map_id, ← sortBy_eq_insertionSort, ← sortBy_eq_insertionSort] at hMap

theorem sortBy_map {le : β → β → Bool} {f : α → β} (xs : List α) :
    sortBy le (xs.map f) = (sortBy (fun a b => le (f a) (f b)) xs).map f := by
  rw [sortBy_eq_insertionSort, sortBy_eq_insertionSort]
  exact (List.map_insertionSort _ _ f xs fun _ _ _ _ => Iff.rfl).symm

/-- What comes up for the first time is put at the end. -/
theorem distinct_concat [DecidableEq α] (xs : List α) (a : α) :
    distinct (xs ++ [a]) = if a ∈ xs then distinct xs else distinct xs ++ [a] := by
  induction xs with
  | nil => rfl
  | cons x rest ih =>
      rw [List.cons_append, distinct, ih]
      by_cases hRest : a ∈ rest
      · rw [if_pos hRest, if_pos (List.mem_cons_of_mem _ hRest), distinct]
      · rw [if_neg hRest, List.filter_append, distinct]
        by_cases hFirst : a = x
        · simp [hFirst]
        · simp [hFirst, hRest]

/-! ## Tables -/

section Tables

variable {κ : Type _} {key : κ} {value : β} {table : List (κ × β)}

/-- With no key twice, a key has one value. -/
theorem eq_of_nodup_keys {other : β} (h : (table.map Prod.fst).Nodup) (hValue : (key, value) ∈ table)
    (hOther : (key, other) ∈ table) : value = other :=
  congrArg Prod.snd (List.inj_on_of_nodup_map h hValue hOther rfl)

/-- A key that is not there can be entered. -/
theorem nodup_keys_append (h : (table.map Prod.fst).Nodup) (hNew : key ∉ table.map Prod.fst)
    (value : β) : ((table ++ [(key, value)]).map Prod.fst).Nodup := by
  rw [List.map_append, List.nodup_append']
  exact ⟨h, List.nodup_singleton _, by simpa using hNew⟩

variable [BEq κ] [LawfulBEq κ]

/-- What a table says under a key stands in it. -/
theorem mem_of_lookup (h : table.lookup key = some value) : (key, value) ∈ table := by
  obtain ⟨front, back, rfl, _⟩ := List.lookup_eq_some_iff.mp h
  exact List.mem_append_right _ List.mem_cons_self

/-- In a table with no key twice, what is listed under a key is what the table says. -/
theorem lookup_of_mem (hNodup : (table.map Prod.fst).Nodup) (h : (key, value) ∈ table) :
    table.lookup key = some value := by
  obtain ⟨front, back, rfl⟩ := List.append_of_mem h
  refine List.lookup_eq_some_iff.mpr ⟨front, back, rfl, fun other hOther => ?_⟩
  rw [List.map_append, List.map_cons, List.nodup_append'] at hNodup
  rw [bne_iff_ne]
  rintro rfl
  exact hNodup.2.2 (List.mem_map_of_mem hOther) List.mem_cons_self

theorem not_mem_keys_of_lookup (h : table.lookup key = none) : key ∉ table.map Prod.fst := by
  intro hMem
  obtain ⟨e, he, rfl⟩ := List.mem_map.mp hMem
  simpa using List.lookup_eq_none_iff.mp h e he

end Tables

/-! ## Parts of lists -/

section Parts

variable {l l' : List α} {a b : α}

theorem exists_mem_zip {l' : List β} (h : l.length ≤ l'.length) (ha : a ∈ l) :
    ∃ b, (a, b) ∈ l.zip l' := by
  rw [← List.map_fst_zip h] at ha
  obtain ⟨⟨_, b⟩, hMem, rfl⟩ := List.mem_map.mp ha
  exact ⟨b, hMem⟩

/-- Two relations along three lists. -/
theorem forall₂_chain {first : α → β → Prop} {last : β → γ → Prop} {both : α → γ → Prop}
    (h : ∀ a b c, first a b → last b c → both a c) {xs : List α} {ys : List β} {zs : List γ}
    (hFirst : List.Forall₂ first xs ys) (hLast : List.Forall₂ last ys zs) :
    List.Forall₂ both xs zs := by
  induction hFirst generalizing zs with
  | nil =>
      cases hLast
      exact .nil
  | cons hHead _ ih =>
      cases hLast with
      | cons hHead' hTail => exact .cons (h _ _ _ hHead hHead') (ih hTail)

/-- An element of two lists in a row stands in the first of them, or all of that stands in front. -/
theorem split_of_append_eq {front back : List α} (h : l ++ l' = front ++ a :: back) :
    (∃ rest, l = front ++ a :: rest) ∨ ∃ rest, front = l ++ rest ∧ l' = rest ++ a :: back := by
  rcases List.append_eq_append_iff.mp h with ⟨rest, hFront, hOthers⟩ | ⟨rest, hOwn, hBack⟩
  · exact Or.inr ⟨rest, hFront, hOthers⟩
  · cases rest with
    | nil => exact Or.inr ⟨[], by simpa using hOwn.symm, hBack.symm⟩
    | cons first rest =>
        obtain ⟨rfl, _⟩ := List.cons.inj hBack
        exact Or.inl ⟨rest, hOwn⟩

/-- What stands in front of an element of a list without duplicates. -/
theorem mem_of_pair_sublist {front back : List α} (h : [a, b].Sublist (front ++ b :: back))
    (hNodup : (front ++ b :: back).Nodup) : a ∈ front := by
  obtain ⟨left, right, hSplit, hLeft, hRight⟩ := List.sublist_append_iff.mp h
  cases left with
  | nil =>
      -- Both stand from `b` on, so `b` stands there twice.
      rw [List.nil_append] at hSplit
      rw [← hSplit] at hRight
      have hTwice : b ∈ back := hRight.tail.subset (List.mem_singleton.mpr rfl)
      exact absurd hTwice (List.nodup_cons.mp (List.nodup_append.mp hNodup).2.1).1
  | cons first rest =>
      rw [(List.cons.inj hSplit).1]
      exact hLeft.subset List.mem_cons_self

/-- A sublist of a list without repetitions is known by its members. -/
theorem eq_filter_of_sublist {part whole : List α} (hPart : part.Sublist whole)
    (hWhole : whole.Nodup) {p : α → Bool} (hMem : ∀ a ∈ whole, a ∈ part ↔ p a = true) :
    part = whole.filter p := by
  induction hPart with
  | slnil => rfl
  | @cons part whole a hRest ih =>
      obtain ⟨ha, hWhole⟩ := List.nodup_cons.mp hWhole
      have hOut : ¬p a = true := fun h =>
        ha (hRest.subset ((hMem a List.mem_cons_self).mpr h))
      rw [List.filter_cons_of_neg hOut]
      exact ih hWhole fun b hb => hMem b (List.mem_cons_of_mem _ hb)
  | @cons_cons part whole a hRest ih =>
      obtain ⟨ha, hWhole⟩ := List.nodup_cons.mp hWhole
      rw [List.filter_cons_of_pos ((hMem a List.mem_cons_self).mp List.mem_cons_self)]
      refine congrArg (a :: ·) (ih hWhole fun b hb => ?_)
      rw [← hMem b (List.mem_cons_of_mem _ hb), List.mem_cons, or_iff_right]
      rintro rfl
      exact ha hb

theorem map_filterMap_sublist {f : α → Option β} {g : β → γ} {k : α → γ}
    (h : ∀ a b, f a = some b → g b = k a) (xs : List α) :
    ((xs.filterMap f).map g).Sublist (xs.map k) := by
  induction xs with
  | nil => exact List.Sublist.refl _
  | cons a rest ih =>
      cases ha : f a with
      | none =>
          rw [List.filterMap_cons_none ha]
          exact ih.cons _
      | some b =>
          rw [List.filterMap_cons_some ha, List.map_cons, List.map_cons, h a b ha]
          exact ih.cons_cons _

/-- Pieces that are sublists of others and make up the same list are the same. -/
theorem eq_of_flatMap_eq {f g : α → List β} {pieces : List α}
    (hSub : ∀ x ∈ pieces, (f x).Sublist (g x)) (h : pieces.flatMap f = pieces.flatMap g) :
    ∀ x ∈ pieces, f x = g x := by
  induction pieces with
  | nil => simp
  | cons a rest ih =>
      obtain ⟨hHead, hTail⟩ := List.forall_mem_cons.mp hSub
      have hLength := congrArg List.length h
      rw [List.flatMap_cons, List.flatMap_cons] at h
      simp only [List.flatMap_cons, List.length_append] at hLength
      have hHeadLength := hHead.length_le
      have hTailLength := (List.Sublist.flatMap_right rest hTail).length_le
      obtain ⟨hSame, hOthers⟩ := List.append_inj h (by omega)
      exact List.forall_mem_cons.mpr ⟨hSame, ih hTail hOthers⟩

theorem eq_of_sublist_of_flatMap_eq {g : α → List β} {front back : List α}
    (hSub : front.Sublist back) (hg : ∀ x, g x ≠ [])
    (h : front.flatMap g = back.flatMap g) : front = back := by
  induction hSub with
  | slnil => rfl
  | cons a hRest _ =>
      have hLength := congrArg List.length h
      have hTail := (hRest.flatMap g).length_le
      have hPiece : 0 < (g a).length := List.length_pos_of_ne_nil (hg a)
      simp only [List.flatMap_cons, List.length_append] at hLength
      omega
  | cons_cons a _ ih =>
      rw [List.flatMap_cons, List.flatMap_cons] at h
      rw [ih (List.append_cancel_left h)]

end Parts

/-! ## Places and numbers -/

theorem find?_pair_eq_self_iff {test : α → Bool} {first second : α} :
    [first, second].find? test = [first].find? test ↔
      test first = true ∨ test second = false := by
  cases hFirst : test first <;> cases hSecond : test second <;> simp [hFirst, hSecond]

theorem find?_pair_eq_iff_of_ne {test : α → Bool} {first second other : α}
    (h : first ≠ other) : [first, second].find? test = [other].find? test ↔
      test first = false ∧ (second = other ∨ test second = false ∧ test other = false) := by
  cases hFirst : test first with
  | true => cases hOther : test other <;> simp [hFirst, hOther, h]
  | false =>
      by_cases hSame : second = other
      · simp [hFirst, hSame]
      · cases hSecond : test second <;> cases hOther : test other <;>
          simp [hFirst, hSecond, hOther, hSame]

/-- What stands at a place after filtering stood behind as many kept elements before. -/
theorem getElem?_filterMap_iff {f : α → Option β} {l : List α} {k : Nat} {b : β} :
    (l.filterMap f)[k]? = some b ↔
      ∃ j a, l[j]? = some a ∧ f a = some b ∧ (l.take j).countP (fun a => (f a).isSome) = k := by
  induction l generalizing k with
  | nil => simp
  | cons first rest ih =>
      -- the element found is the first one, or one of the others
      have hSplit : ∀ motive : Nat → α → Prop,
          (∃ j a, (first :: rest)[j]? = some a ∧ motive j a) ↔
            motive 0 first ∨ ∃ j a, rest[j]? = some a ∧ motive (j + 1) a := by
        intro motive
        constructor
        · rintro ⟨j, a, hGet, hMotive⟩
          cases j with
          | zero =>
              cases hGet
              exact Or.inl hMotive
          | succ j => exact Or.inr ⟨j, a, hGet, hMotive⟩
        · rintro (hMotive | ⟨j, a, hGet, hMotive⟩)
          · exact ⟨0, first, rfl, hMotive⟩
          · exact ⟨j + 1, a, hGet, hMotive⟩
      rw [hSplit]
      cases hFirst : f first with
      | none =>
          rw [List.filterMap_cons_none hFirst, ih]
          simp [hFirst]
      | some b' =>
          rw [List.filterMap_cons_some hFirst]
          cases k with
          | zero => simp [hFirst]
          | succ k => simp [hFirst, ih]

/-- A list of entries that are all the same. -/
theorem eq_singleton_iff_count [DecidableEq α] {l : List α} {a : α} (h : ∀ b ∈ l, b = a) :
    l = [a] ↔ l.count a = 1 := by
  rw [List.eq_replicate_of_mem h, List.count_replicate_self]
  constructor
  · intro hSame
    simpa using congrArg List.length hSame
  · intro hOne
    rw [hOne]
    rfl

/-- Elements that are mapped to a value that comes up once are equal. -/
theorem eq_of_count_map_eq_one [DecidableEq β] {l : List α} {f : α → β} {b : β}
    (h : (l.map f).count b = 1) {a a' : α} (ha : a ∈ l) (ha' : a' ∈ l) (hb : f a = b)
    (hb' : f a' = b) : a = a' := by
  rw [List.count, List.countP_map, List.countP_eq_length_filter] at h
  obtain ⟨c, hc⟩ := List.length_eq_one_iff.mp h
  have hOnly : ∀ x ∈ l, f x = b → x = c := by
    intro x hx hfx
    have hMem : x ∈ l.filter ((· == b) ∘ f) := List.mem_filter.mpr ⟨hx, by simp [hfx]⟩
    rw [hc] at hMem
    exact List.mem_singleton.mp hMem
  rw [hOnly a ha hb, hOnly a' ha' hb']

/-- A list with some entries twice is as long as its different entries and those listed twice. -/
theorem length_of_twice [DecidableEq α] {l base twice : List α}
    (hPerm : l.Perm (base ++ twice)) (hBase : base.Nodup) (hTwice : twice.Nodup)
    (hMem : ∀ a ∈ twice, a ∈ base) (test : α → Bool) :
    (l.filter test).length =
      (l.filter test).dedup.length + ((l.filter test).dedup.filter (· ∈ twice)).length := by
  have hSet : ∀ a, a ∈ (l.filter test).dedup ↔ a ∈ base.filter test := by
    intro a
    rw [List.mem_dedup, List.mem_filter, List.mem_filter, hPerm.mem_iff, List.mem_append]
    exact ⟨fun h => ⟨h.1.elim id (hMem a), h.2⟩, fun h => ⟨Or.inl h.1, h.2⟩⟩
  have hFirst : (l.filter test).dedup.Perm (base.filter test) :=
    (List.perm_ext_iff_of_nodup (List.nodup_dedup _) (hBase.filter _)).mpr hSet
  have hSecond : ((l.filter test).dedup.filter (· ∈ twice)).Perm (twice.filter test) := by
    refine (List.perm_ext_iff_of_nodup ((List.nodup_dedup _).filter _) (hTwice.filter _)).mpr ?_
    intro a
    rw [List.mem_filter, hSet, List.mem_filter, List.mem_filter, decide_eq_true_iff]
    exact ⟨fun h => ⟨h.2, h.1.2⟩, fun h => ⟨⟨hMem a h.1, h.2⟩, h.1⟩⟩
  rw [hFirst.length_eq, hSecond.length_eq, (hPerm.filter test).length_eq, List.filter_append,
    List.length_append]

theorem le_foldl_max {number init : Nat} {numbers : List Nat} (h : number ∈ numbers) :
    number ≤ numbers.foldl max init := by
  rw [List.foldl_max]
  obtain ⟨largest, hLargest⟩ := Option.isSome_iff_exists.mp
    (List.isSome_max?_of_mem h)
  rw [hLargest]
  exact Nat.le_trans (List.le_max?_get_of_mem h) (by simp [hLargest])

end CallGraph
