/-!
# Stable sorting by insertion

Everything this library sorts (visible bindings by line, nodes by name, edges by the names of their
ends, texts for the log) is sorted *stably*: entries that the order does not tell apart keep the
order in which they were listed. The lists are short, so insertion is enough, and it recurses on
the list itself, which lets closed instances be evaluated by the kernel.
-/

namespace CallGraph

variable {α : Type _}

/--
Puts `a` into an ordered list, in front of the first entry that `a` may precede. Used from the
right end of a list, so that of two entries that may precede each other the earlier one stays in
front.
-/
def insertBy (le : α → α → Bool) (a : α) : List α → List α
  | [] => [a]
  | b :: rest => if le a b then a :: b :: rest else b :: insertBy le a rest

/-- Sorts stably: `le a b` says that `a` may stand in front of `b`. -/
def sortBy (le : α → α → Bool) : List α → List α
  | [] => []
  | a :: rest => insertBy le a (sortBy le rest)

/-- Sorts texts by code point. -/
def sortTexts (texts : List String) : List String :=
  sortBy (fun a b => decide (a ≤ b)) texts

/-- Keeps the first occurrence of every entry. -/
def distinct [DecidableEq α] : List α → List α
  | [] => []
  | a :: rest => a :: (distinct rest).filter (· ≠ a)

@[simp] theorem mem_distinct [DecidableEq α] {a : α} {xs : List α} :
    a ∈ distinct xs ↔ a ∈ xs := by
  induction xs with
  | nil => simp [distinct]
  | cons b rest ih =>
      by_cases h : a = b <;> simp [distinct, ih, h]

theorem nodup_distinct [DecidableEq α] (xs : List α) : (distinct xs).Nodup := by
  induction xs with
  | nil => exact List.nodup_nil
  | cons b rest ih =>
      simp only [distinct, List.nodup_cons, List.mem_filter]
      exact ⟨by simp, ih.filter _⟩

end CallGraph
