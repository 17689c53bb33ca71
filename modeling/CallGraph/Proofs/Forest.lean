import CallGraph.Proofs.Tables
import Mathlib.Data.Finset.Card
import Mathlib.Logic.Relation

/-!
# Groups as a forest

The tables of a graph could describe anything: a group listed below two others, a node listed
twice, groups that contain each other. `Graph.WellFormed` rules this out. Its clauses are local,
they speak of one group and what it lists, and this module draws the global consequences: the walks
`allGroups` and `allNodes`, which go down at most as many levels as there are groups, reach
everything that lies below a group, and reach it once.

That the depth is enough needs no bound on the nesting in the invariant. Levels grow downwards, so
below a group there are fewer and fewer groups of a higher level left (`room`), and the table is as
long as there is room at the top.

## Main definitions

* `Below` — containment of groups at any depth.
* `Around` — the same, seen from inside.
* `WellFormed` — parents and lists agree, nothing is listed twice, nothing contains itself.
* `Listed` — a node stands in the list of some group.

## Main results

* `mem_groupsOf`, `mem_nodesOf` — what the walks from some files reach.
* `nodup_groupsOf`, `nodup_nodesOf` — they reach nothing twice.
* `around_iff_below` — the way upwards goes through the same groups.
* `chain_congr`, `allGroups_congr` — what the walks depend on.
-/

namespace CallGraph

namespace Graph

/-- One group is a subgroup of another. -/
def HasSubgroup (graph : Graph) (outer inner : GroupId) : Prop :=
  inner ∈ (graph.group outer).subgroups

/-- One group is another or lies inside it, at any depth. -/
def Below (graph : Graph) (outer inner : GroupId) : Prop :=
  Relation.ReflTransGen graph.HasSubgroup outer inner

/-- One group is another or stands around it; the way goes along the parents. -/
def Around (graph : Graph) (inner outer : GroupId) : Prop :=
  Relation.ReflTransGen (fun a b => (graph.group a).parent = some b) inner outer

/-- A node stands in the list of a group. -/
def Listed (graph : Graph) (n : NodeId) : Prop :=
  ∃ g, n ∈ (graph.group g).nodes

/-- The tables describe a forest. -/
structure WellFormed (graph : Graph) : Prop where
  /-- A listed node belongs to the group that lists it. -/
  parent_of_listed : ∀ {g n}, n ∈ (graph.group g).nodes → (graph.node n).parent = .group g
  listed_lt : ∀ {g n}, n ∈ (graph.group g).nodes → n.index < graph.nodes.size
  nodes_nodup : ∀ g, (graph.group g).nodes.Nodup
  /-- A subgroup belongs to the group that lists it. -/
  parent_of_subgroup : ∀ {g s}, s ∈ (graph.group g).subgroups → (graph.group s).parent = some g
  subgroup_lt : ∀ {g s}, s ∈ (graph.group g).subgroups → s.index < graph.groups.size
  subgroups_nodup : ∀ g, (graph.group g).subgroups.Nodup
  /-- Levels can be given to the groups so that they grow inwards. -/
  acyclic : ∃ level : GroupId → Nat, ∀ g s, s ∈ (graph.group g).subgroups → level g < level s

/-- Some groups stand at the top. -/
structure Roots (graph : Graph) (roots : List GroupId) : Prop where
  nodup : roots.Nodup
  lt : ∀ r ∈ roots, r.index < graph.groups.size
  no_parent : ∀ r ∈ roots, (graph.group r).parent = none

/-- Every group lies below one of the roots. -/
def Covered (graph : Graph) (roots : List GroupId) : Prop :=
  ∀ g : GroupId, g.index < graph.groups.size → ∃ r ∈ roots, graph.Below r g

variable {graph : Graph}

/-! ## Containment -/

theorem Below.refl (g : GroupId) : graph.Below g g := Relation.ReflTransGen.refl

theorem Below.tail {a b c : GroupId} (h : graph.Below a b) (hc : c ∈ (graph.group b).subgroups) :
    graph.Below a c :=
  Relation.ReflTransGen.tail h hc

theorem Below.head {a b c : GroupId} (hb : b ∈ (graph.group a).subgroups) (h : graph.Below b c) :
    graph.Below a c :=
  Relation.ReflTransGen.head hb h

/-- Containment depends on the subgroups only. -/
theorem Below.mono {before after : Graph}
    (h : ∀ g s, s ∈ (before.group g).subgroups → s ∈ (after.group g).subgroups) {a b : GroupId}
    (hBelow : before.Below a b) : after.Below a b :=
  Relation.ReflTransGen.mono h _ _ hBelow

/-- Above a group of the table there are groups of the table only. -/
theorem Below.lt {a b : GroupId} (h : graph.Below a b) (hb : b.index < graph.groups.size) :
    a.index < graph.groups.size := by
  rcases Relation.ReflTransGen.cases_head h with rfl | ⟨s, hs, _⟩
  · exact hb
  · exact graph.group_lt_of_subgroups hs

/-- Nothing but itself lies below a group without subgroups. -/
theorem Below.eq_of_flat {a b : GroupId} (h : graph.Below a b)
    (hFlat : (graph.group a).subgroups = []) : b = a := by
  rcases Relation.ReflTransGen.cases_head h with rfl | ⟨s, hs, _⟩
  · rfl
  · rw [HasSubgroup, hFlat] at hs
    exact absurd hs List.not_mem_nil

/-- Levels do not decrease inwards. -/
theorem Below.level_le {level : GroupId → Nat}
    (hLevel : ∀ g s, s ∈ (graph.group g).subgroups → level g < level s) {a b : GroupId}
    (h : graph.Below a b) : level a ≤ level b := by
  induction h with
  | refl => exact Nat.le_refl _
  | tail _ hStep ih => exact Nat.le_trans ih (Nat.le_of_lt (hLevel _ _ hStep))

namespace WellFormed

/-- What lies below a group of the table is in the table. -/
theorem below_lt (hGraph : graph.WellFormed) {a b : GroupId} (h : graph.Below a b)
    (ha : a.index < graph.groups.size) : b.index < graph.groups.size := by
  cases h with
  | refl => exact ha
  | tail _ hStep => exact hGraph.subgroup_lt hStep

/-- A subgroup does not contain the group that lists it. -/
theorem not_below_outer (hGraph : graph.WellFormed) {a b : GroupId}
    (hb : b ∈ (graph.group a).subgroups) : ¬graph.Below b a := by
  obtain ⟨level, hLevel⟩ := hGraph.acyclic
  intro hBack
  have hDown := hLevel a b hb
  have hUp := hBack.level_le hLevel
  omega

/-- Of two groups around a third, one contains the other: a group has one parent only. -/
theorem below_total (hGraph : graph.WellFormed) {a b c : GroupId} (ha : graph.Below a c)
    (hb : graph.Below b c) : graph.Below a b ∨ graph.Below b a := by
  induction ha with
  | refl => exact Or.inr hb
  | tail hStart hStep ih =>
      rename_i mid last
      cases hb with
      | refl => exact Or.inl (hStart.tail hStep)
      | tail hOther hLast =>
          have hSame : some mid = some _ :=
            (hGraph.parent_of_subgroup hStep).symm.trans (hGraph.parent_of_subgroup hLast)
          cases hSame
          exact ih hOther

/-- Nothing but itself lies around a group without a parent. -/
theorem eq_of_below_root (hGraph : graph.WellFormed) {a r : GroupId} (h : graph.Below a r)
    (hRoot : (graph.group r).parent = none) : a = r := by
  cases h with
  | refl => rfl
  | tail _ hStep =>
      rw [hGraph.parent_of_subgroup hStep] at hRoot
      exact absurd hRoot (by simp)

/-- Two subgroups of one group have nothing in common. -/
theorem eq_of_common_below (hGraph : graph.WellFormed) {a b c d : GroupId}
    (hb : b ∈ (graph.group a).subgroups) (hc : c ∈ (graph.group a).subgroups)
    (hbd : graph.Below b d) (hcd : graph.Below c d) : b = c := by
  have key : ∀ {x y : GroupId}, x ∈ (graph.group a).subgroups → y ∈ (graph.group a).subgroups →
      graph.Below x y → x = y := by
    intro x y hx hy hxy
    cases hxy with
    | refl => rfl
    | tail hStart hStep =>
        have hSame : some a = some _ :=
          (hGraph.parent_of_subgroup hy).symm.trans (hGraph.parent_of_subgroup hStep)
        cases hSame
        exact absurd hStart (hGraph.not_below_outer hx)
  rcases hGraph.below_total hbd hcd with h | h
  · exact key hb hc h
  · exact (key hc hb h).symm

end WellFormed

/-! ## The walk downwards -/

theorem mem_groupsBelow_succ {depth : Nat} {a b : GroupId} :
    b ∈ graph.groupsBelow (depth + 1) a ↔
      b = a ∨ ∃ s ∈ (graph.group a).subgroups, b ∈ graph.groupsBelow depth s := by
  simp [groupsBelow]

theorem below_of_mem_groupsBelow {depth : Nat} {a b : GroupId}
    (h : b ∈ graph.groupsBelow depth a) : graph.Below a b := by
  induction depth generalizing a with
  | zero => simp [groupsBelow] at h
  | succ depth ih =>
      rcases mem_groupsBelow_succ.mp h with rfl | ⟨s, hs, hb⟩
      · exact Below.refl _
      · exact (ih hb).head hs

/-- The groups of the table with a level above that of `g`. -/
private def room (graph : Graph) (level : GroupId → Nat) (g : GroupId) : Finset Nat :=
  (Finset.range graph.groups.size).filter fun i => level g < level ⟨i⟩

private theorem room_lt_of_subgroup (hGraph : graph.WellFormed) {level : GroupId → Nat}
    (hLevel : ∀ g s, s ∈ (graph.group g).subgroups → level g < level s) {g s : GroupId}
    (hs : s ∈ (graph.group g).subgroups) :
    (room graph level s).card < (room graph level g).card := by
  apply Finset.card_lt_card
  constructor
  · intro i hi
    simp only [room, Finset.mem_filter] at hi ⊢
    exact ⟨hi.1, Nat.lt_trans (hLevel g s hs) hi.2⟩
  · intro hSub
    have hMem : s.index ∈ room graph level g := by
      simp only [room, Finset.mem_filter, Finset.mem_range]
      exact ⟨hGraph.subgroup_lt hs, hLevel g s hs⟩
    have hSelf := hSub hMem
    simp [room] at hSelf

private theorem room_lt_size {level : GroupId → Nat} {g : GroupId}
    (hg : g.index < graph.groups.size) : (room graph level g).card < graph.groups.size := by
  have hStrict : room graph level g ⊂ Finset.range graph.groups.size := by
    refine ⟨Finset.filter_subset _ _, fun hSub => ?_⟩
    have hSelf := hSub (Finset.mem_range.mpr hg)
    simp [room] at hSelf
  simpa using Finset.card_lt_card hStrict

private theorem mem_groupsBelow_of_room (hGraph : graph.WellFormed) {level : GroupId → Nat}
    (hLevel : ∀ g s, s ∈ (graph.group g).subgroups → level g < level s) {depth : Nat}
    {a b : GroupId} (hDepth : (room graph level a).card < depth) (h : graph.Below a b) :
    b ∈ graph.groupsBelow depth a := by
  induction depth generalizing a with
  | zero => omega
  | succ depth ih =>
      rcases Relation.ReflTransGen.cases_head h with rfl | ⟨s, hs, hRest⟩
      · exact mem_groupsBelow_succ.mpr (Or.inl rfl)
      · have hRoom := room_lt_of_subgroup hGraph hLevel hs
        exact mem_groupsBelow_succ.mpr (Or.inr ⟨s, hs, ih (by omega) hRest⟩)

/-- The walk from a group of the table reaches exactly what lies below it. -/
theorem WellFormed.mem_allGroups (hGraph : graph.WellFormed) {a b : GroupId}
    (ha : a.index < graph.groups.size) : b ∈ graph.allGroups a ↔ graph.Below a b := by
  obtain ⟨level, hLevel⟩ := hGraph.acyclic
  exact ⟨below_of_mem_groupsBelow, mem_groupsBelow_of_room hGraph hLevel (room_lt_size ha)⟩

theorem WellFormed.mem_allNodes (hGraph : graph.WellFormed) {a : GroupId} {n : NodeId}
    (ha : a.index < graph.groups.size) :
    n ∈ graph.allNodes a ↔ ∃ g, graph.Below a g ∧ n ∈ (graph.group g).nodes := by
  simp only [allNodes, List.mem_flatMap, hGraph.mem_allGroups ha]

/-- What the walk from any place reaches is listed. -/
theorem listed_of_mem_allNodes {a : GroupId} {n : NodeId} (h : n ∈ graph.allNodes a) :
    graph.Listed n := by
  obtain ⟨g, _, hn⟩ := List.mem_flatMap.mp h
  exact ⟨g, hn⟩

theorem listed_of_mem_nodesOf {files : List GroupId} {n : NodeId}
    (h : n ∈ graph.nodesOf files) : graph.Listed n := by
  obtain ⟨file, _, hn⟩ := List.mem_flatMap.mp h
  exact listed_of_mem_allNodes hn

theorem mem_groupsOf (hGraph : graph.WellFormed) {roots : List GroupId}
    (hRoots : graph.Roots roots) {g : GroupId} :
    g ∈ graph.groupsOf roots ↔ ∃ r ∈ roots, graph.Below r g := by
  simp only [groupsOf, List.mem_flatMap]
  constructor
  · rintro ⟨r, hr, hg⟩
    exact ⟨r, hr, below_of_mem_groupsBelow hg⟩
  · rintro ⟨r, hr, hg⟩
    exact ⟨r, hr, (hGraph.mem_allGroups (hRoots.lt r hr)).mpr hg⟩

theorem mem_nodesOf (hGraph : graph.WellFormed) {roots : List GroupId}
    (hRoots : graph.Roots roots) {n : NodeId} :
    n ∈ graph.nodesOf roots ↔
      ∃ r ∈ roots, ∃ g, graph.Below r g ∧ n ∈ (graph.group g).nodes := by
  simp only [nodesOf, List.mem_flatMap]
  constructor
  · rintro ⟨r, hr, hn⟩
    exact ⟨r, hr, (hGraph.mem_allNodes (hRoots.lt r hr)).mp hn⟩
  · rintro ⟨r, hr, hn⟩
    exact ⟨r, hr, (hGraph.mem_allNodes (hRoots.lt r hr)).mpr hn⟩

/-- When the roots cover the table, the walk from them reaches exactly the listed nodes. -/
theorem mem_nodesOf_of_covered (hGraph : graph.WellFormed) {roots : List GroupId}
    (hRoots : graph.Roots roots) (hCovered : graph.Covered roots) {n : NodeId} :
    n ∈ graph.nodesOf roots ↔ graph.Listed n := by
  refine ⟨listed_of_mem_nodesOf, ?_⟩
  rintro ⟨g, hn⟩
  obtain ⟨r, hr, hBelow⟩ := hCovered g (graph.group_lt_of_nodes hn)
  exact (mem_nodesOf hGraph hRoots).mpr ⟨r, hr, g, hBelow, hn⟩

/-! ## The way upwards -/

/-- A group that the roots lead to is listed by its parent. -/
theorem WellFormed.mem_subgroups_of_parent (hGraph : graph.WellFormed) {roots : List GroupId}
    (hRoots : graph.Roots roots) (hCovered : graph.Covered roots) {g s : GroupId}
    (h : (graph.group s).parent = some g) : s ∈ (graph.group g).subgroups := by
  have hLt : s.index < graph.groups.size := by
    by_contra hGe
    rw [graph.group_eq_default (Nat.not_lt.mp hGe)] at h
    cases show none = some g from h
  obtain ⟨r, hr, hBelow⟩ := hCovered s hLt
  cases hBelow with
  | refl =>
      rw [hRoots.no_parent s hr] at h
      exact absurd h (by simp)
  | tail _ hStep =>
      have hSame := (hGraph.parent_of_subgroup hStep).symm.trans h
      cases hSame
      exact hStep

/-- Where the roots lead to every group, what stands around a group is what contains it. -/
theorem WellFormed.around_iff_below (hGraph : graph.WellFormed) {roots : List GroupId}
    (hRoots : graph.Roots roots) (hCovered : graph.Covered roots) {g p : GroupId} :
    graph.Around p g ↔ graph.Below g p := by
  constructor
  · intro h
    induction h with
    | refl => exact Below.refl _
    | tail _ hStep ih => exact ih.head (hGraph.mem_subgroups_of_parent hRoots hCovered hStep)
  · intro h
    induction h with
    | refl => exact Relation.ReflTransGen.refl
    | tail _ hStep ih => exact Relation.ReflTransGen.head (hGraph.parent_of_subgroup hStep) ih

/-- Nothing stands around a group without a parent. -/
theorem Around.eq_of_root {p g : GroupId} (h : graph.Around p g)
    (hRoot : (graph.group p).parent = none) : g = p := by
  rcases Relation.ReflTransGen.cases_head h with rfl | ⟨s, hs, _⟩
  · rfl
  · rw [hRoot] at hs
    exact absurd hs (by simp)

/-- Groups with the same parents have the same chains of groups around them. -/
theorem chain_congr {before after : Graph} (hSize : after.groups.size = before.groups.size)
    (hParent : ∀ g, (after.group g).parent = (before.group g).parent) :
    after.chain = before.chain := by
  have hUpwards : ∀ depth start, after.upwards depth start = before.upwards depth start := by
    intro depth
    induction depth with
    | zero => exact fun _ => rfl
    | succ depth ih =>
        intro start
        cases start with
        | none => rfl
        | some g => rw [upwards, upwards, ih, hParent]
  funext g
  rw [chain, chain, allParents, allParents, hSize, hUpwards, hParent]

/-- Groups with the same subgroups have the same groups below them. -/
theorem allGroups_congr {before after : Graph} (hSize : after.groups.size = before.groups.size)
    (hSubgroups : ∀ g, (after.group g).subgroups = (before.group g).subgroups) :
    after.allGroups = before.allGroups := by
  have hBelow : ∀ depth g, after.groupsBelow depth g = before.groupsBelow depth g := by
    intro depth
    induction depth with
    | zero => exact fun _ => rfl
    | succ depth ih =>
        intro g
        rw [groupsBelow, groupsBelow, hSubgroups]
        exact congrArg (g :: ·) (List.flatMap_congr fun s _ => ih s)
  funext g
  rw [allGroups, allGroups, hSize, hBelow]

/-- What stands around a group depends on the parents only. -/
theorem around_congr {before after : Graph}
    (h : ∀ g, (after.group g).parent = (before.group g).parent) {p g : GroupId} :
    after.Around p g ↔ before.Around p g := by
  unfold Around
  simp only [h]

/-- A graph that gets further groups has nothing new around a group that a root leads to. -/
theorem WellFormed.below_of_around {before after : Graph} (hAfter : after.WellFormed)
    (hSubgroups : ∀ g s, s ∈ (before.group g).subgroups → s ∈ (after.group g).subgroups)
    {r p g : GroupId} (hRoot : (after.group r).parent = none) (hBelow : before.Below r p)
    (hAround : after.Around p g) : before.Below r g ∧ before.Below g p := by
  induction hAround with
  | refl => exact ⟨hBelow, Below.refl _⟩
  | tail _ hStep ih =>
      obtain ⟨hAbove, hInner⟩ := ih
      cases hAbove with
      | refl =>
          rw [hRoot] at hStep
          exact absurd hStep (by simp)
      | tail hOuter hLast =>
          have hSame := (hAfter.parent_of_subgroup (hSubgroups _ _ hLast)).symm.trans hStep
          cases hSame
          exact ⟨hOuter, hInner.head hLast⟩

theorem exists_parent_of_mem_upwards {depth : Nat} {start : Option GroupId} {g : GroupId}
    (h : g ∈ graph.upwards depth start) :
    start = some g ∨ ∃ s, (graph.group s).parent = some g := by
  induction depth generalizing start with
  | zero => exact absurd h (by simp [upwards])
  | succ depth ih =>
      cases start with
      | none => exact absurd h (by simp [upwards])
      | some first =>
          rw [upwards, List.mem_cons] at h
          rcases h with rfl | h
          · exact Or.inl rfl
          · rcases ih h with hFirst | hOther
            · exact Or.inr ⟨first, hFirst⟩
            · exact Or.inr hOther

/-- A group without subgroups lies above nothing but itself. -/
theorem WellFormed.not_mem_chain_of_flat (hGraph : graph.WellFormed) {roots : List GroupId}
    (hRoots : graph.Roots roots) (hCovered : graph.Covered roots) {g p : GroupId}
    (hFlat : (graph.group g).subgroups = []) (hne : p ≠ g) : g ∉ graph.chain p := by
  intro hMem
  have hParent : ∃ s, (graph.group s).parent = some g := by
    rcases List.mem_cons.mp hMem with rfl | hAbove
    · exact absurd rfl hne
    · exact (exists_parent_of_mem_upwards hAbove).elim (fun h => ⟨p, h⟩) id
  obtain ⟨s, hs⟩ := hParent
  have hSub := hGraph.mem_subgroups_of_parent hRoots hCovered hs
  rw [hFlat] at hSub
  exact absurd hSub List.not_mem_nil

/-! ## Nothing is reached twice -/

theorem WellFormed.nodup_groupsBelow (hGraph : graph.WellFormed) (depth : Nat) (a : GroupId) :
    (graph.groupsBelow depth a).Nodup := by
  induction depth generalizing a with
  | zero => exact List.nodup_nil
  | succ depth ih =>
      rw [groupsBelow, List.nodup_cons]
      constructor
      · intro hMem
        obtain ⟨s, hs, ha⟩ := List.mem_flatMap.mp hMem
        exact hGraph.not_below_outer hs (below_of_mem_groupsBelow ha)
      · rw [List.nodup_flatMap]
        refine ⟨fun s _ => ih s, ?_⟩
        refine (hGraph.subgroups_nodup a).imp_of_mem ?_
        intro b c hb hc hne d hbd hcd
        exact hne (hGraph.eq_of_common_below hb hc (below_of_mem_groupsBelow hbd)
          (below_of_mem_groupsBelow hcd))

theorem nodup_groupsOf (hGraph : graph.WellFormed) {roots : List GroupId}
    (hRoots : graph.Roots roots) : (graph.groupsOf roots).Nodup := by
  rw [groupsOf, List.nodup_flatMap]
  refine ⟨fun r _ => hGraph.nodup_groupsBelow _ r, ?_⟩
  refine hRoots.nodup.imp_of_mem ?_
  intro a b ha hb hne d hda hdb
  have haBelow := below_of_mem_groupsBelow hda
  have hbBelow := below_of_mem_groupsBelow hdb
  rcases hGraph.below_total haBelow hbBelow with h | h
  · exact hne (hGraph.eq_of_below_root h (hRoots.no_parent b hb))
  · exact hne (hGraph.eq_of_below_root h (hRoots.no_parent a ha)).symm

/-- A node stands in one group only. -/
theorem WellFormed.group_eq_of_listed (h : graph.WellFormed) {a b : GroupId} {n : NodeId}
    (ha : n ∈ (graph.group a).nodes) (hb : n ∈ (graph.group b).nodes) : a = b := by
  have hSame := (h.parent_of_listed ha).symm.trans (h.parent_of_listed hb)
  cases hSame
  rfl

/-- The lists of different groups have nothing in common. -/
theorem WellFormed.nodup_flatMap_nodes (hGraph : graph.WellFormed) {groups : List GroupId}
    (hGroups : groups.Nodup) : (groups.flatMap fun g => (graph.group g).nodes).Nodup := by
  rw [List.nodup_flatMap]
  refine ⟨fun g _ => hGraph.nodes_nodup g, hGroups.imp ?_⟩
  intro a b hne n hna hnb
  exact hne (hGraph.group_eq_of_listed hna hnb)

theorem nodesOf_eq_flatMap (roots : List GroupId) :
    graph.nodesOf roots = (graph.groupsOf roots).flatMap fun g => (graph.group g).nodes := by
  rw [nodesOf, groupsOf, List.flatMap_assoc]
  rfl

theorem nodup_nodesOf (hGraph : graph.WellFormed) {roots : List GroupId}
    (hRoots : graph.Roots roots) : (graph.nodesOf roots).Nodup := by
  rw [nodesOf_eq_flatMap]
  exact hGraph.nodup_flatMap_nodes (nodup_groupsOf hGraph hRoots)

end Graph

end CallGraph
