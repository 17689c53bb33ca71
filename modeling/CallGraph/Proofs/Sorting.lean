import CallGraph.Program
import CallGraph.Proofs.Untrimmed
import Mathlib.Data.Prod.Lex
import Mathlib.Data.String.Basic

/-!
# The order in which a chart is written

Nodes are written in the order of their names, edges in that of the names of their ends. The
comparison of two edges looks at their sources as nodes before it looks at names; on nodes whose
names tell them apart it comes to the comparison of the pairs of names. A stable sort then leaves no
choice but for the order of parallel edges, so that the text does not depend on the order in which
nodes and edges came.

## Main statements

* `sortBy_eq_of_classes` — lists that agree on each class of ties are sorted alike.
* `sortNodes_eq`, `sortEdges_eq` — sorting as a sort by a key.
* `sorted_eq`, `textOf_isOk` — a chart whose nodes have names can be sorted and written.
* `text_of_reorders` — charts that differ in the order of nodes and edges have one text.
-/

namespace CallGraph

/-! ## Stable sorting is canonical -/

section Canonical

variable {α β κ : Type _} {le : α → α → Bool} {xs ys : List α}

/-- The entries with a given key, in their order. -/
def withKey [DecidableEq κ] (key : α → κ) (k : κ) (xs : List α) : List α :=
  xs.filter fun a => decide (key a = k)

/-- The order of entries by their keys. -/
def byKey [LinearOrder κ] (key : α → κ) (a b : α) : Bool :=
  decide (key a ≤ key b)

theorem sortBy_of_length_lt (h : xs.length < 2) : sortBy le xs = xs := by
  cases xs with
  | nil => rfl
  | cons a rest =>
      cases rest with
      | nil => rfl
      | cons b others =>
          simp only [List.length_cons] at h
          omega

/-- Entries that may stand in front of each other keep their order. -/
theorem filter_insertBy {p : α → Bool} {a : α}
    (hTies : ∀ b ∈ xs, p a = true → p b = true → le a b = true) :
    (insertBy le a xs).filter p = (a :: xs).filter p := by
  induction xs with
  | nil => rfl
  | cons b rest ih =>
      have hRest := ih fun c hc => hTies c (List.mem_cons_of_mem b hc)
      by_cases hLe : le a b = true
      · rw [insertBy, if_pos hLe]
      · rw [insertBy, if_neg hLe]
        by_cases ha : p a = true
        · -- what comes to stand in front of `a` is not of its class
          have hb : ¬ p b = true := fun hb => hLe (hTies b List.mem_cons_self ha hb)
          rw [List.filter_cons_of_neg hb, hRest, List.filter_cons_of_pos ha,
            List.filter_cons_of_pos ha, List.filter_cons_of_neg hb]
        · rw [List.filter_cons, hRest, List.filter_cons_of_neg ha, List.filter_cons_of_neg ha,
            ← List.filter_cons]

theorem filter_sortBy {p : α → Bool}
    (hTies : ∀ a ∈ xs, ∀ b ∈ xs, p a = true → p b = true → le a b = true) :
    (sortBy le xs).filter p = xs.filter p := by
  induction xs with
  | nil => rfl
  | cons a rest ih =>
      have hRest := ih fun b hb c hc =>
        hTies b (List.mem_cons_of_mem a hb) c (List.mem_cons_of_mem a hc)
      have hInsert : (insertBy le a (sortBy le rest)).filter p = (a :: sortBy le rest).filter p :=
        filter_insertBy fun b hb =>
          hTies a List.mem_cons_self b (List.mem_cons_of_mem a (mem_sortBy.1 hb))
      rw [sortBy, hInsert, List.filter_cons, hRest, ← List.filter_cons]

theorem mem_iff_of_classes [DecidableEq κ] {key : α → κ}
    (h : ∀ k, withKey key k xs = withKey key k ys) (a : α) : a ∈ xs ↔ a ∈ ys := by
  have hClass : a ∈ withKey key (key a) xs ↔ a ∈ withKey key (key a) ys := by
    rw [h]
  simpa [withKey] using hClass

/-- Permutations agree on each class if they do so on the classes that there are. -/
theorem withKey_eq_of_mem [DecidableEq κ] {key : α → κ} (hPerm : xs.Perm ys)
    (h : ∀ a ∈ xs, withKey key (key a) xs = withKey key (key a) ys) (k : κ) :
    withKey key k xs = withKey key k ys := by
  by_cases hSome : ∃ a ∈ xs, key a = k
  · obtain ⟨a, ha, rfl⟩ := hSome
    exact h a ha
  · have hNone : withKey key k xs = [] := by
      rw [withKey, List.filter_eq_nil_iff]
      exact fun a ha hKey => hSome ⟨a, ha, of_decide_eq_true hKey⟩
    have hClass : (withKey key k xs).Perm (withKey key k ys) := hPerm.filter _
    rw [hNone] at hClass ⊢
    exact hClass.nil_eq

/-- Keys that tell entries apart leave no choice between permutations. -/
theorem withKey_eq_of_perm [DecidableEq κ] {key : α → κ} (hPerm : xs.Perm ys)
    (hApart : ∀ a ∈ xs, ∀ b ∈ xs, key a = key b → a = b) (k : κ) :
    withKey key k xs = withKey key k ys := by
  have hClass : (withKey key k xs).Perm (withKey key k ys) := hPerm.filter _
  have hSame : ∀ a b, a ∈ withKey key k xs → b ∈ withKey key k ys → True → True → a = b := by
    intro a b ha hb _ _
    rw [withKey, List.mem_filter, decide_eq_true_eq] at ha hb
    exact hApart a ha.1 b (hPerm.mem_iff.2 hb.1) (ha.2.trans hb.2.symm)
  exact hClass.eq_of_pairwise hSame (List.pairwise_of_forall fun _ _ => trivial)
    (List.pairwise_of_forall fun _ _ => trivial)

/-- Lists that agree on each class of a key agree on each class of another key that makes the same
classes of their entries. -/
theorem withKey_eq_of_iff {ι : Type _} [DecidableEq ι] [DecidableEq κ] {fine : α → ι} {key : α → κ}
    (hFine : ∀ i, withKey fine i xs = withKey fine i ys)
    (hIff : ∀ a ∈ xs, ∀ b ∈ xs, key a = key b ↔ fine a = fine b) (k : κ) :
    withKey key k xs = withKey key k ys := by
  by_cases hSome : ∃ a ∈ xs, key a = k
  · obtain ⟨a, ha, rfl⟩ := hSome
    have hClass : ∀ zs : List α, (∀ b ∈ zs, b ∈ xs) →
        withKey key (key a) zs = withKey fine (fine a) zs := by
      intro zs hzs
      apply List.filter_congr
      intro b hb
      exact decide_eq_decide.2 (hIff b (hzs b hb) a ha)
    rw [hClass xs fun b hb => hb, hClass ys fun b hb => (mem_iff_of_classes hFine b).2 hb, hFine]
  · have hNone : ∀ zs : List α, (∀ b ∈ zs, b ∈ xs) → withKey key k zs = [] := by
      intro zs hzs
      rw [withKey, List.filter_eq_nil_iff]
      intro b hb hKey
      exact hSome ⟨b, hzs b hb, of_decide_eq_true hKey⟩
    rw [hNone xs fun b hb => hb, hNone ys fun b hb => (mem_iff_of_classes hFine b).2 hb]

variable [LinearOrder κ] {key : α → κ}

/-- Ordered lists that agree on each class of ties are the same. -/
theorem eq_of_ordered (hxs : xs.Pairwise fun a b => key a ≤ key b)
    (hys : ys.Pairwise fun a b => key a ≤ key b)
    (h : ∀ k, withKey key k xs = withKey key k ys) : xs = ys := by
  induction xs generalizing ys with
  | nil =>
      cases ys with
      | nil => rfl
      | cons b ys => exact absurd ((mem_iff_of_classes h b).2 List.mem_cons_self) List.not_mem_nil
  | cons a xs ih =>
      cases ys with
      | nil => exact absurd ((mem_iff_of_classes h a).1 List.mem_cons_self) List.not_mem_nil
      | cons b ys =>
          -- the heads are least, hence tied, and each is the first of its class
          have hKey : key a = key b := by
            apply le_antisymm
            · rcases List.mem_cons.1 ((mem_iff_of_classes h b).2 List.mem_cons_self) with hb | hb
              · exact (congrArg key hb).symm.le
              · exact List.rel_of_pairwise_cons hxs hb
            · rcases List.mem_cons.1 ((mem_iff_of_classes h a).1 List.mem_cons_self) with ha | ha
              · exact (congrArg key ha).symm.le
              · exact List.rel_of_pairwise_cons hys ha
          have hHead := h (key a)
          rw [withKey, withKey, List.filter_cons_of_pos (by simp),
            List.filter_cons_of_pos (by simp [hKey]), List.cons.injEq] at hHead
          obtain ⟨rfl, hTail⟩ := hHead
          have hRest : ∀ k, withKey key k xs = withKey key k ys := by
            intro k
            by_cases hk : key a = k
            · rw [← hk]
              exact hTail
            · have hClass := h k
              rwa [withKey, withKey, List.filter_cons_of_neg (by simp [hk]),
                List.filter_cons_of_neg (by simp [hk])] at hClass
          rw [ih hxs.of_cons hys.of_cons hRest]

theorem ordered_sortBy (key : α → κ) (xs : List α) :
    (sortBy (byKey key) xs).Pairwise fun a b => key a ≤ key b := by
  have hSorted : (sortBy (byKey key) xs).Pairwise fun a b => byKey key a b = true := by
    apply pairwise_sortBy
    · intro a b
      simpa [byKey] using le_total (key a) (key b)
    · intro a b c hab hbc
      simp only [byKey, decide_eq_true_eq] at hab hbc ⊢
      exact hab.trans hbc
  exact hSorted.imp fun h => of_decide_eq_true h

theorem withKey_sortBy (key : α → κ) (k : κ) (xs : List α) :
    withKey key k (sortBy (byKey key) xs) = withKey key k xs := by
  apply filter_sortBy
  intro a _ b _ ha hb
  simp only [decide_eq_true_eq] at ha hb
  exact decide_eq_true (ha.trans hb.symm).le

/-- Lists that agree on each class of ties are sorted alike. -/
theorem sortBy_eq_of_classes (h : ∀ k, withKey key k xs = withKey key k ys) :
    sortBy (byKey key) xs = sortBy (byKey key) ys := by
  apply eq_of_ordered (ordered_sortBy key xs) (ordered_sortBy key ys)
  intro k
  rw [withKey_sortBy, withKey_sortBy, h]

end Canonical

/-! ## Names that tell nodes apart -/

/-- A comparison that answers on some entries, as a strict weak order does. -/
structure StrictWeakOn {α : Type _} (before : α → α → Except Fault Bool) (xs : List α) : Prop where
  answers : ∀ a ∈ xs, ∀ b ∈ xs, ∃ answer, before a b = .ok answer
  irrefl : ∀ a ∈ xs, before a a = .ok false
  asymm : ∀ a ∈ xs, ∀ b ∈ xs, before a b = .ok true → before b a = .ok false
  trans : ∀ a ∈ xs, ∀ b ∈ xs, ∀ c ∈ xs,
    before a b = .ok true → before b c = .ok true → before a c = .ok true
  /-- What does not come before is not brought before by something in between. -/
  ties : ∀ a ∈ xs, ∀ b ∈ xs, ∀ c ∈ xs,
    before a b = .ok false → before b c = .ok false → before a c = .ok false

/-- A comparison of keys is a strict weak order. -/
theorem strictWeakOn_of_key {α κ : Type _} [LinearOrder κ] {before : α → α → Except Fault Bool}
    {xs : List α} {key : α → κ}
    (h : ∀ a ∈ xs, ∀ b ∈ xs, before a b = .ok (decide (key a < key b))) :
    StrictWeakOn before xs where
  answers a ha b hb := ⟨_, h a ha b hb⟩
  irrefl a ha := by simp [h a ha a ha]
  asymm a ha b hb := by
    rw [h a ha b hb, h b hb a ha]
    simpa using le_of_lt
  trans a ha b hb c hc := by
    rw [h a ha b hb, h b hb c hc, h a ha c hc]
    simpa using lt_trans
  ties a ha b hb c hc := by
    rw [h a ha b hb, h b hb c hc, h a ha c hc]
    simpa using fun hba hcb => le_trans hcb hba

namespace Chart

/-- The nodes shown and the ends of the edges. -/
def mentioned (chart : Chart) : List NodeId :=
  chart.nodes ++ chart.edges.flatMap fun edge => [edge.source, edge.target]

/-- The nodes that a chart mentions have names. -/
def Named (chart : Chart) (name : NodeId → String) : Prop :=
  ∀ n ∈ chart.mentioned, chart.graph.name n = .ok (name n)

/-- The nodes that a chart mentions have names that tell them apart. -/
structure ToldApart (chart : Chart) (name : NodeId → String) : Prop where
  named : chart.Named name
  apart : ∀ m ∈ chart.mentioned, ∀ n ∈ chart.mentioned, name m = name n → m = n

theorem mem_mentioned {chart : Chart} {n : NodeId} : n ∈ chart.mentioned ↔
    n ∈ chart.nodes ∨ ∃ edge ∈ chart.edges, n = edge.source ∨ n = edge.target := by
  simp [mentioned]

theorem mentioned_of_node {chart : Chart} {n : NodeId} (h : n ∈ chart.nodes) :
    n ∈ chart.mentioned :=
  mem_mentioned.2 (.inl h)

theorem mentioned_of_source {chart : Chart} {edge : Edge} (h : edge ∈ chart.edges) :
    edge.source ∈ chart.mentioned :=
  mem_mentioned.2 (.inr ⟨edge, h, .inl rfl⟩)

theorem mentioned_of_target {chart : Chart} {edge : Edge} (h : edge ∈ chart.edges) :
    edge.target ∈ chart.mentioned :=
  mem_mentioned.2 (.inr ⟨edge, h, .inr rfl⟩)

/-- The ends of the edges of a chart have names. -/
theorem Named.ends {chart : Chart} {name : NodeId → String} (h : chart.Named name) :
    ∀ edge ∈ chart.edges, chart.graph.name edge.source = .ok (name edge.source) ∧
      chart.graph.name edge.target = .ok (name edge.target) :=
  fun _ hEdge => ⟨h _ (mentioned_of_source hEdge), h _ (mentioned_of_target hEdge)⟩

end Chart

/-- The names of the ends of an edge. -/
def Edge.names (name : NodeId → String) (edge : Edge) : String ×ₗ String :=
  toLex (name edge.source, name edge.target)

namespace Graph

variable {graph : Graph} {name : NodeId → String}

theorem named_eq {nodes : List NodeId} (h : ∀ n ∈ nodes, graph.name n = .ok (name n)) :
    graph.named nodes = .ok (nodes.map fun n => (n, name n)) := by
  induction nodes with
  | nil => rfl
  | cons n rest ih =>
      rw [named, h n List.mem_cons_self, ih fun m hm => h m (List.mem_cons_of_mem n hm)]
      rfl

/-- Nodes are sorted by their names. -/
theorem sortNodes_eq {nodes : List NodeId} (h : ∀ n ∈ nodes, graph.name n = .ok (name n)) :
    graph.sortNodes nodes = .ok (sortBy (byKey name) nodes) := by
  unfold sortNodes
  split
  · rw [sortBy_of_length_lt ‹_›]
  · rw [named_eq h]
    change Except.ok ((sortBy _ (nodes.map fun n => (n, name n))).map _) = _
    rw [sortBy_map, List.map_map]
    exact congrArg Except.ok (List.map_id _)

theorem namedEdges_eq {edges : List Edge}
    (h : ∀ edge ∈ edges, graph.name edge.source = .ok (name edge.source) ∧
      graph.name edge.target = .ok (name edge.target)) :
    graph.namedEdges edges =
      .ok (edges.map fun edge => ⟨edge, name edge.source, name edge.target⟩) := by
  induction edges with
  | nil => rfl
  | cons edge rest ih =>
      obtain ⟨hSource, hTarget⟩ := h edge List.mem_cons_self
      rw [namedEdges, hSource, hTarget,
        ih fun other hOther => h other (List.mem_cons_of_mem _ hOther)]
      rfl

/-- The order of edges in terms of the names of their ends. -/
def namesBefore (name : NodeId → String) (a b : Edge) : Bool :=
  NamedEdge.before ⟨a, name a.source, name a.target⟩ ⟨b, name b.source, name b.target⟩

/-- Edges are sorted by the names of their ends. -/
theorem sortEdges_eq {edges : List Edge}
    (h : ∀ edge ∈ edges, graph.name edge.source = .ok (name edge.source) ∧
      graph.name edge.target = .ok (name edge.target)) :
    graph.sortEdges edges = .ok (sortBy (fun a b => !namesBefore name b a) edges) := by
  unfold sortEdges
  split
  · rw [sortBy_of_length_lt ‹_›]
  · rw [namedEdges_eq h]
    change Except.ok ((sortBy _ (edges.map fun edge =>
      NamedEdge.mk edge (name edge.source) (name edge.target))).map _) = _
    rw [sortBy_map, List.map_map]
    exact congrArg Except.ok (List.map_id _)

/-- The comparison of edges is that of the names that their ends have. -/
theorem edgeBefore_eq_namesBefore {a b : Edge}
    (ha : graph.name a.source = .ok (name a.source) ∧ graph.name a.target = .ok (name a.target))
    (hb : graph.name b.source = .ok (name b.source) ∧ graph.name b.target = .ok (name b.target)) :
    graph.edgeBefore a b = .ok (namesBefore name a b) := by
  unfold edgeBefore namesBefore NamedEdge.before nodeBefore
  by_cases hSource : a.source = b.source
  · rw [if_pos hSource, if_pos hSource, ha.2, hb.2]
    rfl
  · rw [if_neg hSource, if_neg hSource, ha.1, hb.1]
    rfl

/-- Where names tell the sources apart, edges are compared by the pairs of names. -/
theorem namesBefore_eq {a b : Edge} (h : name a.source = name b.source → a.source = b.source) :
    namesBefore name a b = decide (a.names name < b.names name) := by
  unfold namesBefore NamedEdge.before
  by_cases hSource : a.source = b.source
  · rw [if_pos hSource, decide_eq_decide, Edge.names, Edge.names, Prod.Lex.toLex_lt_toLex]
    simp [hSource]
  · have hName : name a.source ≠ name b.source := fun hName => hSource (h hName)
    rw [if_neg hSource, decide_eq_decide, Edge.names, Edge.names, Prod.Lex.toLex_lt_toLex]
    simp [hName]

end Graph

/-! ## What has names can be written -/

theorem Dot.nodeLines_isOk {graph : Graph} {name : NodeId → String} {nodes : List NodeId}
    (h : ∀ n ∈ nodes, graph.name n = .ok (name n)) (numbering : Numbering) :
    ∃ lines, nodeLines graph numbering nodes = .ok lines := by
  induction nodes with
  | nil => exact ⟨"", rfl⟩
  | cons n rest ih =>
      obtain ⟨others, hOthers⟩ := ih fun m hm => h m (List.mem_cons_of_mem n hm)
      rw [nodeLines, node, h n List.mem_cons_self, hOthers]
      exact ⟨_, rfl⟩

theorem JsonGraph.nodes_isOk {graph : Graph} {name : NodeId → String} {ids : List NodeId}
    (h : ∀ n ∈ ids, graph.name n = .ok (name n)) (numbering : Numbering)
    (entries : List (String × Value)) :
    ∃ written, nodes graph numbering entries ids = .ok written := by
  induction ids generalizing entries with
  | nil => exact ⟨entries, rfl⟩
  | cons n rest ih =>
      rw [nodes, node, h n List.mem_cons_self]
      exact ih (fun m hm => h m (List.mem_cons_of_mem n hm)) _

namespace Chart

variable {chart other : Chart} {name : NodeId → String}

theorem dot_isOk (h : ∀ n ∈ chart.nodes, chart.graph.name n = .ok (name n)) (style : Dot.Style)
    (numbering : Numbering) : ∃ text, Dot.render style numbering chart = .ok text := by
  obtain ⟨lines, hLines⟩ := Dot.nodeLines_isOk h numbering
  rw [Dot.render, hLines]
  exact ⟨_, rfl⟩

theorem json_isOk (h : ∀ n ∈ chart.nodes, chart.graph.name n = .ok (name n))
    (numbering : Numbering) : ∃ text, JsonGraph.render numbering chart = .ok text := by
  obtain ⟨entries, hEntries⟩ := JsonGraph.nodes_isOk h numbering []
  rw [JsonGraph.render, JsonGraph.ofChart, hEntries]
  exact ⟨_, rfl⟩

theorem textOf_isOk (h : ∀ n ∈ chart.nodes, chart.graph.name n = .ok (name n))
    (options : Program.Options) (output : Program.Output) :
    ∃ text, Program.textOf options output chart = .ok text := by
  unfold Program.textOf
  dsimp only
  split
  · obtain ⟨text, hText⟩ := json_isOk h (Numbering.byAppearance chart)
    rw [hText]
    exact ⟨_, rfl⟩
  · exact dot_isOk h _ _

/-- A chart whose nodes have names can be sorted. -/
theorem sorted_eq (h : chart.Named name) : chart.sorted = .ok
    { chart with
      files := chart.graph.sortGroups chart.files
      nodes := sortBy (byKey name) chart.nodes
      edges := sortBy (fun a b => !Graph.namesBefore name b a) chart.edges } := by
  rw [sorted, Graph.sortNodes_eq fun n hn => h n (mentioned_of_node hn), Graph.sortEdges_eq h.ends]
  rfl

/-- The edges of a chart are compared by the names of their ends. -/
theorem ToldApart.namesBefore_eq (h : chart.ToldApart name) {a b : Edge} (ha : a ∈ chart.edges)
    (hb : b ∈ chart.edges) :
    Graph.namesBefore name a b = decide (a.names name < b.names name) :=
  Graph.namesBefore_eq (h.apart _ (mentioned_of_source ha) _ (mentioned_of_source hb))

theorem ToldApart.edgeBefore_eq (h : chart.ToldApart name) {a b : Edge} (ha : a ∈ chart.edges)
    (hb : b ∈ chart.edges) :
    chart.graph.edgeBefore a b = .ok (decide (a.names name < b.names name)) := by
  rw [Graph.edgeBefore_eq_namesBefore (h.named.ends a ha) (h.named.ends b hb),
    h.namesBefore_eq ha hb]

/-- Two edges have ends of the same names exactly if they have the same ends. -/
theorem ToldApart.names_eq_iff (h : chart.ToldApart name) {a b : Edge} (ha : a ∈ chart.edges)
    (hb : b ∈ chart.edges) :
    a.names name = b.names name ↔ (a.source, a.target) = (b.source, b.target) := by
  constructor
  · intro hNames
    have hPair : (name a.source, name a.target) = (name b.source, name b.target) :=
      toLex.injective hNames
    rw [Prod.mk.injEq] at hPair ⊢
    exact ⟨h.apart _ (mentioned_of_source ha) _ (mentioned_of_source hb) hPair.1,
      h.apart _ (mentioned_of_target ha) _ (mentioned_of_target hb) hPair.2⟩
  · intro hEnds
    rw [Prod.mk.injEq] at hEnds
    rw [Edge.names, Edge.names, hEnds.1, hEnds.2]

/-- The nodes and the edges of a chart in another order, parallel edges in the same. -/
structure Reorders (chart other : Chart) : Prop where
  graph : other.graph = chart.graph
  files : other.files = chart.files
  nodes : other.nodes.Perm chart.nodes
  edges : other.edges.Perm chart.edges
  parallel : ∀ ends, withKey (fun edge => (edge.source, edge.target)) ends other.edges =
    withKey (fun edge => (edge.source, edge.target)) ends chart.edges

/-- A chart is arranged: the nodes and the edges of another one, in their orders. -/
structure Arranges (arranged chart : Chart) : Prop where
  graph : arranged.graph = chart.graph
  files : arranged.files = chart.graph.sortGroups chart.files
  nodes : arranged.nodes.Perm chart.nodes
  nodes_ordered : arranged.nodes.Pairwise fun m n => chart.graph.nodeBefore n m = .ok false
  edges : arranged.edges.Perm chart.edges
  edges_ordered : arranged.edges.Pairwise fun a b => chart.graph.edgeBefore b a = .ok false
  parallel : ∀ ends, withKey (fun edge => (edge.source, edge.target)) ends arranged.edges =
    withKey (fun edge => (edge.source, edge.target)) ends chart.edges

/-- The chart in the order of names. -/
def arranged (chart : Chart) (name : NodeId → String) : Chart :=
  { chart with
    files := chart.graph.sortGroups chart.files
    nodes := sortBy (byKey name) chart.nodes
    edges := sortBy (byKey (Edge.names name)) chart.edges }

theorem ToldApart.sorted_eq (h : chart.ToldApart name) :
    chart.sorted = .ok (chart.arranged name) := by
  have hEdges : sortBy (fun a b => !Graph.namesBefore name b a) chart.edges =
      sortBy (byKey (Edge.names name)) chart.edges := by
    apply sortBy_congr
    intro a ha b hb
    rw [h.namesBefore_eq hb ha, byKey, ← decide_not, decide_eq_decide]
    exact not_lt
  rw [Chart.sorted_eq h.named, hEdges]
  rfl

theorem ToldApart.arranges (h : chart.ToldApart name) : (chart.arranged name).Arranges chart where
  graph := rfl
  files := rfl
  nodes := perm_sortBy _ chart.nodes
  nodes_ordered := by
    refine (ordered_sortBy name chart.nodes).imp_of_mem ?_
    intro m n hm hn hLe
    rw [Graph.nodeBefore, h.named m (mentioned_of_node (mem_sortBy.1 hm)),
      h.named n (mentioned_of_node (mem_sortBy.1 hn))]
    exact congrArg Except.ok (decide_eq_false hLe.not_gt)
  edges := perm_sortBy _ chart.edges
  edges_ordered := by
    refine (ordered_sortBy (Edge.names name) chart.edges).imp_of_mem ?_
    intro a b ha hb hLe
    rw [h.edgeBefore_eq (mem_sortBy.1 hb) (mem_sortBy.1 ha)]
    exact congrArg Except.ok (decide_eq_false hLe.not_gt)
  parallel := by
    apply withKey_eq_of_iff (withKey_sortBy (Edge.names name) · chart.edges)
    intro a ha b hb
    exact (h.names_eq_iff (mem_sortBy.1 ha) (mem_sortBy.1 hb)).symm

theorem Reorders.mem_mentioned_iff (h : chart.Reorders other) (n : NodeId) :
    n ∈ other.mentioned ↔ n ∈ chart.mentioned := by
  simp only [mem_mentioned, h.nodes.mem_iff, h.edges.mem_iff]

theorem ToldApart.reorders (hNames : chart.ToldApart name) (h : chart.Reorders other) :
    other.ToldApart name where
  named n hn := by
    rw [h.graph]
    exact hNames.named n ((h.mem_mentioned_iff n).1 hn)
  apart m hm n hn :=
    hNames.apart m ((h.mem_mentioned_iff m).1 hm) n ((h.mem_mentioned_iff n).1 hn)

theorem ToldApart.arranged_eq (hNames : chart.ToldApart name) (h : chart.Reorders other) :
    other.arranged name = chart.arranged name := by
  have hNodes : sortBy (byKey name) other.nodes = sortBy (byKey name) chart.nodes := by
    apply sortBy_eq_of_classes
    apply withKey_eq_of_perm h.nodes
    intro m hm n hn
    exact hNames.apart m (mentioned_of_node (h.nodes.mem_iff.1 hm)) n
      (mentioned_of_node (h.nodes.mem_iff.1 hn))
  have hEdges : sortBy (byKey (Edge.names name)) other.edges =
      sortBy (byKey (Edge.names name)) chart.edges := by
    apply sortBy_eq_of_classes
    apply withKey_eq_of_iff h.parallel
    intro a ha b hb
    exact hNames.names_eq_iff (h.edges.mem_iff.1 ha) (h.edges.mem_iff.1 hb)
  rw [arranged, arranged, hNodes, hEdges, h.graph, h.files]

/-- The text that a chart comes to when it is sorted and then written by `render`. -/
def textBy {α : Type _} (chart : Chart) (render : Chart → Except Fault α) : Except Fault α := do
  render (← chart.sorted)

theorem ToldApart.textBy_isOk {α : Type _} {render : Chart → Except Fault α}
    (hNames : chart.ToldApart name) (h : chart.Reorders other)
    (hRender : ∃ text, render (chart.arranged name) = .ok text) :
    ∃ text, chart.textBy render = .ok text ∧ other.textBy render = .ok text := by
  obtain ⟨text, hText⟩ := hRender
  refine ⟨text, ?_, ?_⟩
  · rw [textBy, hNames.sorted_eq]
    exact hText
  · rw [textBy, (hNames.reorders h).sorted_eq, hNames.arranged_eq h]
    exact hText

/--
The text of a chart does not depend on the order of its nodes and edges: charts that differ in it,
with parallel edges in the same order, are sorted to the same chart and have the same text, as DOT
and as JSON, under any identifiers. The nodes have to be told apart by their names. Then the
comparison of edges is a strict weak order, that of the pairs of names of their ends.
-/
theorem text_of_reorders (hNames : chart.ToldApart name) (h : chart.Reorders other) :
    (∃ arranged, chart.sorted = .ok arranged ∧ other.sorted = .ok arranged ∧
      arranged.Arranges chart) ∧
    (∀ style numbering, ∃ text, chart.textBy (Dot.render style numbering) = .ok text ∧
      other.textBy (Dot.render style numbering) = .ok text) ∧
    (∀ numbering, ∃ text, chart.textBy (JsonGraph.render numbering) = .ok text ∧
      other.textBy (JsonGraph.render numbering) = .ok text) ∧
    (∀ options output, ∃ text, chart.textBy (Program.textOf options output) = .ok text ∧
      other.textBy (Program.textOf options output) = .ok text) ∧
    StrictWeakOn chart.graph.edgeBefore chart.edges ∧
    ∀ a ∈ chart.edges, ∀ b ∈ chart.edges, chart.graph.edgeBefore a b = .ok (decide
      (name a.source < name b.source ∨
        name a.source = name b.source ∧ name a.target < name b.target)) := by
  have hArranged : ∀ n ∈ (chart.arranged name).nodes,
      (chart.arranged name).graph.name n = .ok (name n) := fun n hn =>
    hNames.named n (mentioned_of_node (mem_sortBy.1 hn))
  have hSame : ∀ {α : Type} {render : Chart → Except Fault α},
      (∃ text, render (chart.arranged name) = .ok text) →
        ∃ text, chart.textBy render = .ok text ∧ other.textBy render = .ok text :=
    hNames.textBy_isOk h
  refine ⟨?_, ?_, ?_, ?_, ?_, ?_⟩
  · exact ⟨chart.arranged name, hNames.sorted_eq,
      hNames.arranged_eq h ▸ (hNames.reorders h).sorted_eq, hNames.arranges⟩
  · exact fun style numbering => hSame (dot_isOk hArranged style numbering)
  · exact fun numbering => hSame (json_isOk hArranged numbering)
  · exact fun options output => hSame (textOf_isOk hArranged options output)
  · exact strictWeakOn_of_key fun a ha b hb => hNames.edgeBefore_eq ha hb
  · intro a ha b hb
    rw [hNames.edgeBefore_eq ha hb]
    exact congrArg Except.ok (decide_eq_decide.2 Prod.Lex.toLex_lt_toLex)

/-- Three functions of a file that call each other, one of them another one twice. -/
def crossing : Chart :=
  { graph :=
      { groups := #[{ token := "a", kind := .file, display := "File", nodes := [⟨0⟩, ⟨1⟩, ⟨2⟩] }]
        nodes := #[{ token := "h", parent := .group ⟨0⟩ }, { token := "f", parent := .group ⟨0⟩ },
          { token := "g", parent := .group ⟨0⟩ }] }
    files := [⟨0⟩]
    nodes := [⟨0⟩, ⟨1⟩, ⟨2⟩]
    edges := [⟨⟨2⟩, ⟨1⟩, some (Literal.ofText "as k()")⟩, ⟨⟨2⟩, ⟨0⟩, none⟩, ⟨⟨2⟩, ⟨1⟩, none⟩,
      ⟨⟨0⟩, ⟨2⟩, none⟩] }

/-- The same functions and calls in another order. -/
def crossed : Chart :=
  { crossing with
    nodes := [⟨2⟩, ⟨0⟩, ⟨1⟩]
    edges := [⟨⟨0⟩, ⟨2⟩, none⟩, ⟨⟨2⟩, ⟨1⟩, some (Literal.ofText "as k()")⟩, ⟨⟨2⟩, ⟨1⟩, none⟩,
      ⟨⟨2⟩, ⟨0⟩, none⟩] }

theorem toldApart_crossing :
    crossing.ToldApart fun n => "a::" ++ (crossing.graph.node n).token where
  named := by
    unfold Named
    decide +kernel
  apart := by decide +kernel

theorem reorders_crossing : crossing.Reorders crossed where
  graph := rfl
  files := rfl
  nodes := by decide +kernel
  edges := by decide +kernel
  parallel := withKey_eq_of_mem (by decide +kernel) (by decide +kernel)

/-- Both orders of the three functions and their calls have one text. -/
theorem text_of_reorders_crossing :
    crossing.ToldApart (fun n => "a::" ++ (crossing.graph.node n).token) ∧
    crossing.Reorders crossed ∧
    (∃ arranged, crossing.sorted = .ok arranged ∧ crossed.sorted = .ok arranged ∧
      arranged.Arranges crossing) ∧
    ∀ style numbering, ∃ text, crossing.textBy (Dot.render style numbering) = .ok text ∧
      crossed.textBy (Dot.render style numbering) = .ok text :=
  have hText := text_of_reorders toldApart_crossing reorders_crossing
  ⟨toldApart_crossing, reorders_crossing, hText.1, hText.2.1⟩

end Chart

end CallGraph
