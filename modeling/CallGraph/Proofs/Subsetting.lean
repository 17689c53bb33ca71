import CallGraph.Proofs.Placing

/-!
# What a subset of a chart shows

A subset is centred on one node. The search for its nodes goes round by round, and a round starts
from what the round before found, whether that was seen earlier or not. So on a cycle it comes back
to the same nodes, and nothing marks them. What a round finds are the ends of the walks with one
more edge, and this does not depend on what was seen: after `depth` rounds the ends of all walks of
at most `depth` edges have been found (`mem_reached_iff`).

The forest is cut in two passes: nodes are taken out below each file (`Graph.Thins`), and then the
groups that have become empty are dropped (`Graph.Drops`). A subgroup stays exactly if a kept node
lies below it (`Chart.Cuts.subgroups_eq`), so the second pass drops whole branches and nothing else.

## Main definitions

* `Walk` — walks with a given number of steps.
* `Subset.SoleMatch` — a name denotes one entry of a list of nodes, and no other.
* `Graph.Thins` — the first pass over the forest.
* `Chart.Restriction` — one chart is another, restricted to the nodes that it shows.

## Main results

* `Subset.mem_nodesAround_iff` — the nodes around a node are those within reach of it.
* `Chart.keepOnly_restriction` — keeping some nodes restricts a chart to them.
* `Chart.restrict_exact` — what a subset shows.
-/

namespace CallGraph

/-! ## Walks -/

/-- A walk of so many steps. -/
inductive Walk (step : NodeId → NodeId → Prop) : Nat → NodeId → NodeId → Prop
  | nil (n : NodeId) : Walk step 0 n n
  | cons {length : Nat} {a b c : NodeId} (first : step a b) (rest : Walk step length b c) :
      Walk step (length + 1) a c

/-- An edge leads from one node to another. -/
def Calls (edges : List Edge) (caller callee : NodeId) : Prop :=
  ∃ edge ∈ edges, edge.source = caller ∧ edge.target = callee

namespace Walk

variable {step : NodeId → NodeId → Prop} {length : Nat} {a b c : NodeId}

theorem zero_iff : Walk step 0 a b ↔ a = b := by
  constructor
  · intro h
    cases h
    rfl
  · rintro rfl
    exact nil a

theorem succ_iff : Walk step (length + 1) a c ↔ ∃ b, step a b ∧ Walk step length b c := by
  constructor
  · intro h
    cases h with
    | cons first rest => exact ⟨_, first, rest⟩
  · rintro ⟨b, first, rest⟩
    exact cons first rest

theorem snoc (h : Walk step length a b) (last : step b c) : Walk step (length + 1) a c := by
  induction h with
  | nil => exact cons last (nil _)
  | cons first _ ih => exact cons first (ih last)

theorem reverse (h : Walk step length a b) : Walk (fun x y => step y x) length b a := by
  induction h with
  | nil => exact nil _
  | cons first _ ih => exact ih.snoc first

theorem reverse_iff : Walk (fun x y => step y x) length a b ↔ Walk step length b a :=
  ⟨reverse, reverse⟩

/-- A walk within a bound has no steps, or its length is one more than a number below the bound. -/
theorem exists_le_iff {bound : Nat} :
    (∃ length ≤ bound, Walk step length a b) ↔
      b = a ∨ ∃ length < bound, Walk step (length + 1) a b := by
  constructor
  · rintro ⟨length, hLength, h⟩
    cases length with
    | zero => exact Or.inl (zero_iff.mp h).symm
    | succ length => exact Or.inr ⟨length, hLength, h⟩
  · rintro (rfl | ⟨length, hLength, h⟩)
    · exact ⟨0, Nat.zero_le _, nil b⟩
    · exact ⟨length + 1, hLength, h⟩

end Walk

namespace Subset

theorem mem_callees_iff {edges : List Edge} {a b : NodeId} :
    b ∈ callees edges a ↔ Calls edges a b := by
  simp [callees, Calls, and_assoc]

theorem mem_callers_iff {edges : List Edge} {a b : NodeId} :
    b ∈ callers edges a ↔ Calls edges b a := by
  simp only [callers, Calls, List.mem_map, List.mem_filter, beq_iff_eq, and_assoc, and_comm]

/-- A search that stops because it found nothing would find nothing later. -/
theorem reached_nil (succs : NodeId → List NodeId) (depth : Nat) :
    reached succs depth [] = [] := by
  cases depth <;> rfl

/-- A round of the search: what it finds, and what the other rounds find from there. -/
theorem reached_succ (succs : NodeId → List NodeId) (depth : Nat) (nodes : List NodeId) :
    reached succs (depth + 1) nodes =
      next succs nodes ++ reached succs depth (next succs nodes) := by
  rw [reached]
  split
  · rename_i hNone
    rw [hNone, reached_nil, List.append_nil]
  · rfl

theorem mem_next_iff {succs : NodeId → List NodeId} {nodes : List NodeId} {n : NodeId} :
    n ∈ next succs nodes ↔ ∃ m ∈ nodes, n ∈ succs m := by
  rw [next, mem_distinct, List.mem_flatMap]

/-- The search finds the ends of the walks with at least one step and not more than it has
rounds. -/
theorem mem_reached_iff {succs : NodeId → List NodeId} (step : NodeId → NodeId → Prop)
    (hStep : ∀ a b, b ∈ succs a ↔ step a b) {depth : Nat} {nodes : List NodeId} {n : NodeId} :
    n ∈ reached succs depth nodes ↔
      ∃ m ∈ nodes, ∃ length < depth, Walk step (length + 1) m n := by
  induction depth generalizing nodes with
  | zero => simp [reached]
  | succ depth ih =>
      rw [reached_succ, List.mem_append, mem_next_iff, ih]
      constructor
      · rintro (⟨m, hm, last⟩ | ⟨b, hb, length, hLength, rest⟩)
        · exact ⟨m, hm, 0, by omega, .cons ((hStep m n).mp last) (.nil n)⟩
        · obtain ⟨m, hm, first⟩ := mem_next_iff.mp hb
          exact ⟨m, hm, length + 1, by omega, .cons ((hStep m b).mp first) rest⟩
      · rintro ⟨m, hm, length, hLength, h⟩
        -- The first step is made in this round; it is the whole walk, or the others go on from it.
        obtain ⟨b, first, rest⟩ := Walk.succ_iff.mp h
        cases length with
        | zero =>
            rw [Walk.zero_iff] at rest
            exact Or.inl ⟨m, hm, (hStep m n).mpr (rest ▸ first)⟩
        | succ length =>
            have hFound := mem_next_iff.mpr ⟨m, hm, (hStep m b).mpr first⟩
            exact Or.inr ⟨b, hFound, length, by omega, rest⟩

/-- Around a node are the nodes at the end of a walk from it that is short enough, and those at the
start of such a walk to it. -/
theorem mem_nodesAround_iff {edges : List Edge} {upward downward : Nat} {n node : NodeId} :
    n ∈ nodesAround edges upward downward node ↔
      (∃ length ≤ downward, Walk (Calls edges) length node n) ∨
        ∃ length ≤ upward, Walk (Calls edges) length n node := by
  have hUp : (∃ length ≤ upward, Walk (Calls edges) length n node) ↔
      n = node ∨ ∃ length < upward, Walk (fun a b => Calls edges b a) (length + 1) node n := by
    rw [← Walk.exists_le_iff]
    simp only [Walk.reverse_iff]
  rw [nodesAround, mem_distinct, List.cons_append, List.mem_cons, List.mem_append,
    mem_reached_iff (Calls edges) (fun _ _ => mem_callees_iff),
    mem_reached_iff (fun a b => Calls edges b a) (fun _ _ => mem_callers_iff),
    Walk.exists_le_iff, hUp]
  simp only [List.mem_singleton, exists_eq_left]
  exact or_or_distrib_left

/-! ## The target -/

/-- Of the entries of a list of nodes the name denotes one, and no other. -/
structure SoleMatch (subset : Subset) (graph : Graph) (nodes : List NodeId) (node : NodeId) :
    Prop where
  denotes_node : denotes graph subset.target node = .ok true
  others : ∃ front back, nodes = front ++ node :: back ∧
    ∀ other ∈ front ++ back, denotes graph subset.target other = .ok false

variable {graph : Graph} {target : String}

theorem denoted_append {front found : List NodeId} (back : List NodeId)
    (hNone : ∀ other ∈ front, denotes graph target other = .ok false)
    (hBack : denoted graph target back = .ok found) :
    denoted graph target (front ++ back) = .ok found := by
  induction front with
  | nil => exact hBack
  | cons first rest ih =>
      have hRest := ih fun other hOther => hNone other (List.mem_cons_of_mem _ hOther)
      rw [List.cons_append, denoted, hNone first List.mem_cons_self, hRest]
      rfl

theorem SoleMatch.targetNode_eq {subset : Subset} {nodes : List NodeId} {node : NodeId}
    (h : subset.SoleMatch graph nodes node) :
    targetNode graph nodes subset.target = .ok node := by
  obtain ⟨front, back, rfl, hNone⟩ := h.others
  have hBack : denoted graph subset.target back = .ok [] := by
    rw [← List.append_nil back]
    exact denoted_append [] (fun other hOther => hNone other (List.mem_append_right _ hOther)) rfl
  have hNode : denoted graph subset.target (node :: back) = .ok [node] := by
    rw [denoted, h.denotes_node, hBack]
    rfl
  have hAll := denoted_append (node :: back)
    (fun other hOther => hNone other (List.mem_append_left _ hOther)) hNode
  rw [targetNode, hAll]
  rfl

end Subset

/-! ## The forest -/

namespace Graph

variable {before after : Graph}

/-- A subgroup below which there is a node is not dropped. -/
theorem Drops.mem_subgroups (h : before.Drops after) (hBefore : before.WellFormed)
    {g s d : GroupId} {n : NodeId} (hs : s ∈ (before.group g).subgroups)
    (hBelow : before.Below s d) (hn : n ∈ (before.group d).nodes) :
    s ∈ (after.group g).subgroups := by
  -- The way from `g` down to the node is still there, and it cannot start with another subgroup.
  rcases Relation.ReflTransGen.cases_head (h.below (hBelow.head hs) hn) with rfl | ⟨t, ht, hRest⟩
  · exact absurd hBelow (hBefore.not_below_outer hs)
  · have hSame := hBefore.eq_of_common_below (h.shrinks.mem_subgroups ht) hs
      (h.shrinks.below hRest) hBelow
    exact hSame ▸ ht

/-- Nodes were taken out below some files until only those to be kept were left. -/
structure Thins (before : Graph) (files : List GroupId) (kept : List NodeId) (after : Graph) :
    Prop where
  shrinks : before.Shrinks after
  subgroups_eq : ∀ g, (after.group g).subgroups = (before.group g).subgroups
  mem_nodes_iff : ∀ f ∈ files, ∀ g, before.Below f g → ∀ n,
    n ∈ (after.group g).nodes ↔ n ∈ (before.group g).nodes ∧ n ∈ kept

theorem thins_keepBelow (hGraph : before.WellFormed) {files : List GroupId}
    (hFiles : ∀ f ∈ files, f.index < before.groups.size) (kept : List NodeId) :
    before.Thins files kept (files.foldl (Chart.keepBelow kept) before) := by
  obtain ⟨hShrinks, hSubgroups, hKept, hOnly⟩ := Chart.foldl_keepBelow hGraph kept hFiles
  refine ⟨hShrinks, hSubgroups, fun f hf g hBelow n => ⟨fun hn => ?_, fun hn => ?_⟩⟩
  · exact ⟨(hShrinks.nodes_sublist g).subset hn, hOnly f hf g hBelow n hn⟩
  · exact hKept g n hn.1 hn.2

namespace Thins

variable {files : List GroupId} {kept : List NodeId}

theorem below_iff (h : before.Thins files kept after) {a b : GroupId} :
    after.Below a b ↔ before.Below a b :=
  ⟨h.shrinks.below, fun hBelow => hBelow.mono fun g s hs => by rwa [h.subgroups_eq]⟩

theorem mem_allNodes_iff (h : before.Thins files kept after) (hBefore : before.WellFormed)
    {f g : GroupId} (hf : f ∈ files) (hIn : f.index < before.groups.size)
    (hBelow : before.Below f g) {n : NodeId} :
    n ∈ after.allNodes g ↔ n ∈ before.allNodes g ∧ n ∈ kept := by
  have hg := hBefore.below_lt hBelow hIn
  rw [(h.shrinks.wellFormed hBefore).mem_allNodes (by rw [h.shrinks.size_eq]; exact hg),
    hBefore.mem_allNodes hg]
  simp only [h.below_iff]
  constructor
  · rintro ⟨d, hd, hn⟩
    obtain ⟨hOld, hKept⟩ := (h.mem_nodes_iff f hf d (hBelow.trans hd) n).mp hn
    exact ⟨⟨d, hd, hOld⟩, hKept⟩
  · rintro ⟨⟨d, hd, hn⟩, hKept⟩
    exact ⟨d, hd, (h.mem_nodes_iff f hf d (hBelow.trans hd) n).mpr ⟨hn, hKept⟩⟩

/-- A group is empty afterwards unless a node to be kept lies below it. -/
theorem allNodes_ne_nil_iff (h : before.Thins files kept after) (hBefore : before.WellFormed)
    {f g : GroupId} (hf : f ∈ files) (hIn : f.index < before.groups.size)
    (hBelow : before.Below f g) :
    after.allNodes g ≠ [] ↔ ∃ n ∈ before.allNodes g, n ∈ kept := by
  simp only [ne_eq, List.eq_nil_iff_forall_not_mem, h.mem_allNodes_iff hBefore hf hIn hBelow,
    not_forall, not_not]

end Thins

end Graph

namespace Chart

open CallGraph.Graph

/-- One chart is another, restricted to the nodes that it shows. -/
structure Restriction (whole part : Chart) : Prop where
  entries_eq : part.graph.nodes = whole.graph.nodes
  edges_eq : part.edges = whole.edges.filter fun edge =>
    edge.source ∈ part.nodes ∧ edge.target ∈ part.nodes
  files_eq : part.files = whole.files.filter fun file =>
    ∃ n ∈ whole.graph.allNodes file, n ∈ part.nodes
  /-- A group keeps the nodes shown, the subgroups with a node shown below them, and all else. -/
  group_eq : ∀ g ∈ part.graph.groupsOf part.files, part.graph.group g =
    { whole.graph.group g with
      nodes := (whole.graph.group g).nodes.filter (· ∈ part.nodes)
      subgroups := (whole.graph.group g).subgroups.filter fun s =>
        ∃ n ∈ whole.graph.allNodes s, n ∈ part.nodes }
  mem_forest_iff : ∀ n, n ∈ part.graph.nodesOf part.files ↔
    n ∈ whole.graph.nodesOf whole.files ∧ n ∈ part.nodes
  no_empty_group : ∀ g ∈ part.graph.groupsOf part.files, part.graph.allNodes g ≠ []

variable {whole part : Chart} {middle : Graph}

/-- The forest was cut in two passes, nodes first and then groups. -/
structure Cuts (whole : Chart) (middle : Graph) (part : Chart) : Prop where
  wellFormed : whole.graph.WellFormed
  rooted : whole.graph.Roots whole.files
  thins : whole.graph.Thins whole.files part.nodes middle
  drops : middle.Drops part.graph
  full : ∀ f ∈ part.files, ∀ g s, part.graph.Below f g →
    s ∈ (part.graph.group g).subgroups → part.graph.allNodes s ≠ []
  files_eq : part.files = whole.files.filter fun file => !(middle.allNodes file).isEmpty

namespace Cuts

theorem shrinks (h : whole.Cuts middle part) :
    whole.graph.Shrinks part.graph :=
  h.thins.shrinks.trans h.drops.shrinks

theorem files_of_shown (h : whole.Cuts middle part) :
    part.files = whole.files.filter fun file => ∃ n ∈ whole.graph.allNodes file, n ∈ part.nodes := by
  rw [h.files_eq]
  refine List.filter_congr fun f hf => ?_
  rw [Bool.eq_iff_iff, decide_eq_true_iff,
    ← h.thins.allNodes_ne_nil_iff h.wellFormed hf (h.rooted.lt f hf) (Below.refl f)]
  simp

theorem mem_files (h : whole.Cuts middle part) {f : GroupId} :
    f ∈ part.files ↔ f ∈ whole.files ∧ ∃ n ∈ whole.graph.allNodes f, n ∈ part.nodes := by
  rw [h.files_of_shown, List.mem_filter, decide_eq_true_iff]

theorem rooted_part (h : whole.Cuts middle part) : part.graph.Roots part.files := by
  have hRoots := h.shrinks.roots h.rooted
  exact
    { nodup := by rw [h.files_eq]; exact hRoots.nodup.filter _
      lt := fun r hr => hRoots.lt r (h.mem_files.mp hr).1
      no_parent := fun r hr => hRoots.no_parent r (h.mem_files.mp hr).1 }

theorem nodes_eq (h : whole.Cuts middle part) {f g : GroupId} (hf : f ∈ whole.files)
    (hBelow : whole.graph.Below f g) :
    (part.graph.group g).nodes = (whole.graph.group g).nodes.filter (· ∈ part.nodes) := by
  refine eq_filter_of_sublist (h.shrinks.nodes_sublist g) (h.wellFormed.nodes_nodup g) ?_
  intro n hn
  rw [h.drops.nodes_eq, h.thins.mem_nodes_iff f hf g hBelow, decide_eq_true_iff]
  exact and_iff_right hn

/-- A subgroup stays if a node shown lies below it, and otherwise it is dropped. -/
theorem subgroups_eq (h : whole.Cuts middle part) {f g : GroupId} (hf : f ∈ part.files)
    (hBelow : part.graph.Below f g) :
    (part.graph.group g).subgroups = (whole.graph.group g).subgroups.filter fun s =>
      ∃ n ∈ whole.graph.allNodes s, n ∈ part.nodes := by
  have hMiddle := h.thins.shrinks.wellFormed h.wellFormed
  have hFile := (h.mem_files.mp hf).1
  have hIn := h.rooted.lt f hFile
  refine eq_filter_of_sublist (h.shrinks.subgroups_sublist g) (h.wellFormed.subgroups_nodup g) ?_
  intro s hs
  have hInner : whole.graph.Below f s := (h.shrinks.below hBelow).tail hs
  have hsLt : s.index < middle.groups.size := by
    rw [h.thins.shrinks.size_eq]
    exact h.wellFormed.below_lt hInner hIn
  rw [decide_eq_true_iff, ← h.thins.allNodes_ne_nil_iff h.wellFormed hFile hIn hInner]
  constructor
  · intro hStays
    exact fun hEmpty => h.full f hf g s hBelow hStays
      ((h.drops.allNodes_nil hMiddle hsLt).mpr hEmpty)
  · intro hNodes
    obtain ⟨n, hn⟩ := List.exists_mem_of_ne_nil _ hNodes
    obtain ⟨d, hd, hn⟩ := (hMiddle.mem_allNodes hsLt).mp hn
    exact h.drops.mem_subgroups hMiddle (by rwa [h.thins.subgroups_eq]) hd hn

theorem mem_forest_iff (h : whole.Cuts middle part) {n : NodeId} :
    n ∈ part.graph.nodesOf part.files ↔ n ∈ whole.graph.nodesOf whole.files ∧ n ∈ part.nodes := by
  rw [mem_nodesOf (h.shrinks.wellFormed h.wellFormed) h.rooted_part,
    mem_nodesOf h.wellFormed h.rooted]
  constructor
  · rintro ⟨f, hf, g, hBelow, hn⟩
    have hFile := (h.mem_files.mp hf).1
    have hOld := h.shrinks.below hBelow
    rw [h.nodes_eq hFile hOld, List.mem_filter, decide_eq_true_iff] at hn
    exact ⟨⟨f, hFile, g, hOld, hn.1⟩, hn.2⟩
  · rintro ⟨⟨f, hFile, g, hBelow, hn⟩, hShown⟩
    have hf : f ∈ part.files := h.mem_files.mpr
      ⟨hFile, n, (h.wellFormed.mem_allNodes (h.rooted.lt f hFile)).mpr ⟨g, hBelow, hn⟩, hShown⟩
    have hLeft := (h.thins.mem_nodes_iff f hFile g hBelow n).mpr ⟨hn, hShown⟩
    refine ⟨f, hf, g, h.drops.below (h.thins.below_iff.mpr hBelow) hLeft, ?_⟩
    rwa [h.drops.nodes_eq]

theorem no_empty_group (h : whole.Cuts middle part) {g : GroupId}
    (hg : g ∈ part.graph.groupsOf part.files) :
    part.graph.allNodes g ≠ [] := by
  have hMiddle := h.thins.shrinks.wellFormed h.wellFormed
  obtain ⟨f, hf, hBelow⟩ :=
    (mem_groupsOf (h.shrinks.wellFormed h.wellFormed) h.rooted_part).mp hg
  cases hBelow with
  | refl =>
      obtain ⟨hFile, hShown⟩ := h.mem_files.mp hf
      have hIn := h.rooted.lt g hFile
      rw [ne_eq, h.drops.allNodes_nil hMiddle (by rw [h.thins.shrinks.size_eq]; exact hIn)]
      exact (h.thins.allNodes_ne_nil_iff h.wellFormed hFile hIn (Below.refl g)).mpr hShown
  | tail hStart hStep => exact h.full f hf _ g hStart hStep

theorem group_eq (h : whole.Cuts middle part) {g : GroupId}
    (hg : g ∈ part.graph.groupsOf part.files) :
    part.graph.group g =
      { whole.graph.group g with
        nodes := (whole.graph.group g).nodes.filter (· ∈ part.nodes)
        subgroups := (whole.graph.group g).subgroups.filter fun s =>
          ∃ n ∈ whole.graph.allNodes s, n ∈ part.nodes } := by
  obtain ⟨f, hf, hBelow⟩ :=
    (mem_groupsOf (h.shrinks.wellFormed h.wellFormed) h.rooted_part).mp hg
  have hNodes := h.nodes_eq (h.mem_files.mp hf).1 (h.shrinks.below hBelow)
  have hSubgroups := h.subgroups_eq hf hBelow
  obtain ⟨nodes, subgroups, _, _, hGroup⟩ := h.shrinks.group_eq g
  rw [hGroup] at hNodes hSubgroups ⊢
  exact congrArg₂ (fun nodes subgroups =>
    { whole.graph.group g with nodes := nodes, subgroups := subgroups }) hNodes hSubgroups

end Cuts

/-- Keeping some nodes restricts a chart to them. -/
theorem keepOnly_restriction {chart : Chart} (hGraph : chart.graph.WellFormed)
    (hRoots : chart.graph.Roots chart.files) (kept : List NodeId) :
    chart.Restriction (chart.keepOnly kept) := by
  have hThins := thins_keepBelow hGraph hRoots.lt kept
  have hFiles : (chart.keepOnly kept).files = chart.files.filter fun file =>
      !((chart.files.foldl (keepBelow kept) chart.graph).allNodes file).isEmpty := rfl
  have hDrops := foldl_dropEmptyGroups (hThins.shrinks.wellFormed hGraph)
    fun f (hf : f ∈ (chart.keepOnly kept).files) =>
      (hThins.shrinks.roots hRoots).lt f (List.mem_filter.mp hf).1
  have h : chart.Cuts (chart.files.foldl (keepBelow kept) chart.graph) (chart.keepOnly kept) :=
    ⟨hGraph, hRoots, hThins, hDrops.1, hDrops.2, hFiles⟩
  exact
    { entries_eq := h.shrinks.nodes_eq
      edges_eq := List.filter_congr fun edge _ => by simp [keepOnly]
      files_eq := h.files_of_shown
      group_eq := fun g hg => h.group_eq hg
      mem_forest_iff := fun n => h.mem_forest_iff
      no_empty_group := fun g hg => h.no_empty_group hg }

/-- A subset shows the nodes within reach of its target, the edges between them, and the part of the
forest that they stand in. -/
theorem restrict_exact {chart : Chart} {subset : Subset} {target : NodeId}
    (hGraph : chart.graph.WellFormed) (hRoots : chart.graph.Roots chart.files)
    (hTarget : subset.SoleMatch chart.graph chart.nodes target) :
    ∃ shown, chart.restrict subset = .ok shown ∧ shown.nodes.Nodup ∧
      (∀ n, n ∈ shown.nodes ↔
        (∃ length ≤ subset.downward, Walk (Calls chart.edges) length target n) ∨
          ∃ length ≤ subset.upward, Walk (Calls chart.edges) length n target) ∧
      chart.Restriction shown := by
  refine ⟨chart.keepOnly (Subset.nodesAround chart.edges subset.upward subset.downward target),
    ?_, nodup_distinct _, fun n => Subset.mem_nodesAround_iff,
    keepOnly_restriction hGraph hRoots _⟩
  rw [restrict, hTarget.targetNode_eq]
  rfl

/-- Two functions that call each other, one of them also itself, and a method that is called twice;
nothing leads to the function behind them. -/
def ringChart : Chart :=
  let loaded := Graph.loaded
    [{ token := "ring", locals := [], calls := [], scope := default, imports := []
       functions := ["first", "second", "apart"].map fun token =>
         { (default : FunctionOutline) with token := token }
       classes := [.mk "Wheel" none [] [{ (default : FunctionOutline) with token := "turn" }] []] }]
  { graph := loaded.1, files := loaded.2, nodes := loaded.1.nodesOf loaded.2
    edges := [(1, 2), (2, 1), (1, 1), (2, 4), (2, 4)].map fun ends => ⟨⟨ends.1⟩, ⟨ends.2⟩, none⟩ }

theorem soleMatch_ringChart :
    (⟨"first", 0, 1⟩ : Subset).SoleMatch ringChart.graph ringChart.nodes ⟨1⟩ where
  denotes_node := by decide +kernel
  others := ⟨[⟨0⟩], [⟨2⟩, ⟨3⟩, ⟨4⟩], by decide +kernel, by decide +kernel⟩

/-- The method is two calls away from the function that the subset is centred on. -/
theorem restrict_exact_ringChart :
    ringChart.graph.WellFormed ∧ ringChart.graph.Roots ringChart.files ∧
      (⟨"first", 0, 1⟩ : Subset).SoleMatch ringChart.graph ringChart.nodes ⟨1⟩ ∧
      ∃ shown, ringChart.restrict ⟨"first", 0, 1⟩ = .ok shown ∧ shown.nodes.Nodup ∧
        (∀ n, n ∈ shown.nodes ↔
          (∃ length ≤ 1, Walk (Calls ringChart.edges) length ⟨1⟩ n) ∨
            ∃ length ≤ 0, Walk (Calls ringChart.edges) length n ⟨1⟩) ∧
        ringChart.Restriction shown :=
  have hLoaded := loading_insertFiles _
  ⟨hLoaded.toWellFormed, hLoaded.rooted, soleMatch_ringChart,
    restrict_exact hLoaded.toWellFormed hLoaded.rooted soleMatch_ringChart⟩

end Chart

end CallGraph
