import CallGraph.Graph.Visible
import CallGraph.Proofs.Lists
import CallGraph.Proofs.Tables

/-!
# What is visible

A function that stands in a group sees the names it binds itself, and then those that the groups
around it make visible. Every visible binding comes from one of three places: a body, a subgroup of
a group around, or a node that such a group lists.

## Main results

* `visible_of_parent` — what a function in a group sees.
* `mem_visible` — where visible bindings come from.
-/

namespace CallGraph

/-- A computation that goes through has gone through its first part. -/
theorem exists_of_bind_eq_ok {α β : Type _} {first : Except Fault α} {next : α → Except Fault β}
    {b : β} (h : (first >>= next) = .ok b) : ∃ a, first = .ok a ∧ next a = .ok b := by
  cases first with
  | error fault => exact absurd h (by simp [bind, Except.bind])
  | ok a => exact ⟨a, rfl, h⟩

/-- A computation goes through if and only if both parts of it do. -/
theorem exists_bind_eq_ok_iff {α β : Type _} {first : Except Fault α}
    {next : α → Except Fault β} :
    (∃ b, (first >>= next) = .ok b) ↔ ∃ a, first = .ok a ∧ ∃ b, next a = .ok b := by
  constructor
  · rintro ⟨b, h⟩
    obtain ⟨a, hFirst, hNext⟩ := exists_of_bind_eq_ok h
    exact ⟨a, hFirst, b, hNext⟩
  · rintro ⟨a, rfl, hNext⟩
    exact hNext

namespace Graph

variable {graph : Graph}

/-- Where a visible binding comes from. -/
inductive Origin (graph : Graph) : Binding → Prop
  /-- A body binds the name. -/
  | body {n bindings b} (hBindings : (graph.node n).bindings = some bindings) (hb : b ∈ bindings) :
      Origin graph b
  /-- The name is that of a group. -/
  | group (g : GroupId) : Origin graph (graph.groupBinding g)
  /-- The name is that of a node that a group lists. -/
  | listed {g n} (hn : n ∈ (graph.group g).nodes) : Origin graph (graph.nodeBinding n)

/-- Sorting by line neither loses nor adds bindings. -/
theorem latestFirst_perm {bindings sorted : List Binding}
    (h : latestFirst bindings = .ok sorted) : sorted.Perm bindings := by
  unfold latestFirst at h
  split at h
  · split at h
    · exact absurd h (by simp)
    · cases h; exact perm_sortBy _ _
  · cases h; exact List.Perm.refl _

theorem mem_upTo {bindings kept : List Binding} {line : Option Int}
    (h : upTo bindings line = .ok kept) {b : Binding} (hb : b ∈ kept) : b ∈ bindings := by
  unfold upTo at h
  split at h
  · cases h
    exact hb
  · split at h
    · exact absurd h (by simp)
    · cases h
      exact (List.mem_filter.mp hb).1

theorem origin_of_ownBindings {n : NodeId} {line : Option Int} {bindings : List Binding}
    (h : graph.ownBindings n line = .ok bindings) : ∀ b ∈ bindings, graph.Origin b := by
  unfold ownBindings at h
  split at h
  · exact absurd h (by simp)
  · rename_i all hAll
    obtain ⟨kept, hKept, hSorted⟩ := exists_of_bind_eq_ok h
    intro b hb
    exact .body hAll (mem_upTo hKept ((latestFirst_perm hSorted).mem_iff.mp hb))

theorem ownTokens_eq {bindings checked : List Binding} (h : ownTokens bindings = .ok checked) :
    checked = bindings := by
  unfold ownTokens at h
  split at h
  · exact absurd h (by simp)
  · cases h
    rfl

theorem origin_of_groupBindings {g : GroupId} {bindings : List Binding}
    (h : graph.groupBindings g = .ok bindings) : ∀ b ∈ bindings, graph.Origin b := by
  unfold groupBindings at h
  dsimp only at h
  split at h
  · cases h
    exact fun b hb => absurd hb List.not_mem_nil
  · rename_i root hRoot
    obtain ⟨subgroups, hSubgroups, h⟩ := exists_of_bind_eq_ok h
    split at h
    · exact absurd h (by simp)
    · rename_i own hOwn
      obtain ⟨nodes, hNodes, hSorted⟩ := exists_of_bind_eq_ok h
      rw [ownTokens_eq hSubgroups, ownTokens_eq hNodes] at hSorted
      intro b hb
      rcases List.mem_append.mp ((latestFirst_perm hSorted).mem_iff.mp hb) with hb | hb
      · rcases List.mem_append.mp hb with hb | hb
        · exact .body hOwn hb
        · obtain ⟨s, _, rfl⟩ := List.mem_map.mp hb
          exact .group s
      · obtain ⟨n, hn, rfl⟩ := List.mem_map.mp hb
        exact .listed (List.mem_filter.mp hn).1

theorem origin_of_groupsBindings {groups : List GroupId} {bindings : List Binding}
    (h : graph.groupsBindings groups = .ok bindings) : ∀ b ∈ bindings, graph.Origin b := by
  induction groups generalizing bindings with
  | nil =>
      cases h
      exact fun b hb => absurd hb List.not_mem_nil
  | cons g rest ih =>
      obtain ⟨first, hFirst, h⟩ := exists_of_bind_eq_ok h
      obtain ⟨others, hOthers, h⟩ := exists_of_bind_eq_ok h
      cases h
      intro b hb
      rcases List.mem_append.mp hb with hb | hb
      · exact origin_of_groupBindings hFirst b hb
      · exact ih hOthers b hb

/-- What a function that stands in a group sees: its own names, then those of the groups around. -/
theorem visible_of_parent {n : NodeId} {g : GroupId} (hParent : (graph.node n).parent = .group g)
    (line : Option Int) :
    graph.visible n line = do
      let own ← graph.ownBindings n line
      let around ← graph.groupsBindings (graph.chain g)
      return own ++ around := by
  have hAbove : ∀ depth, graph.nodesUpwards depth (.group g) = ([], some g) := by
    intro depth
    cases depth <;> rfl
  have hNested : ∀ depth, graph.visibleAbove depth [] = .ok [] := by
    intro depth
    cases depth <;> rfl
  rw [visible, visibleWithin, hParent]
  simp only [hAbove, hNested]
  cases graph.ownBindings n line with
  | error fault => rfl
  | ok own =>
      cases graph.groupsBindings (graph.chain g) with
      | error fault => rfl
      | ok around => simp [bind, Except.bind]

/-- Where visible bindings come from. -/
theorem mem_visible {n : NodeId} {g : GroupId} (hParent : (graph.node n).parent = .group g)
    {line : Option Int} {bindings : List Binding} (h : graph.visible n line = .ok bindings) :
    ∀ b ∈ bindings, graph.Origin b := by
  rw [visible_of_parent hParent] at h
  obtain ⟨own, hOwn, h⟩ := exists_of_bind_eq_ok h
  obtain ⟨around, hAround, h⟩ := exists_of_bind_eq_ok h
  cases h
  intro b hb
  rcases List.mem_append.mp hb with hb | hb
  · exact origin_of_ownBindings hOwn b hb
  · exact origin_of_groupsBindings hAround b hb

end Graph

end CallGraph
