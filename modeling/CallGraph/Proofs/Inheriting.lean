import CallGraph.Proofs.Collecting
import CallGraph.Proofs.Placing

/-!
# Inheriting

A class inherits by name. All groups of the files, classes and files alike, are entered in one table
under their full tokens, and a class inherits what stands under the keys that end in one of its
bases. A key ends as the token of its group does (`last_fullToken`). The token of a class has no
dots, so a class is found if its token is a base; but a file is found as well if the last part of
its name is a base, and then its global code, its functions and its imports are inherited like
methods.

## Main definitions

* `Graph.nodesNamed` — the nodes of all groups with one full token.
* `Graph.inheritance` — what a group inherits.
* `Graph.InheritedBy` — some groups have inherited, and the others have not.
* `Graph.OfFiles` — files with classes in them.
* `FileOutline.Read` — all definitions of a file are read from legal ones.

## Main results

* `nodesByToken_eq` — the table of nodes by full token.
* `inheritedBy_inherit` — what inheriting changes.
* `mem_inheritance_iff` — which groups a node is inherited from.
* `CallMap.inherited_by_classes` — what every class of a run inherits.
-/

namespace CallGraph

namespace Dotted

/-- A name that is joined from parts ends as its last part does. -/
theorem last_join_concat (front : List String) (name : String) :
    last (join (front ++ [name])) = last name := by
  induction front with
  | nil => rfl
  | cons part rest ih =>
      have hJoin : join (part :: rest ++ [name]) = part ++ "." ++ join (rest ++ [name]) := by
        cases rest <;> rfl
      have hParts : parts (join (rest ++ [name])) ≠ [] := parts_ne_nil _
      rw [hJoin, ← ih, last, parts_append, last, List.getLastD_eq_getLast?,
        List.getLast?_append_of_ne_nil _ hParts, List.getLastD_eq_getLast?]

theorem last_of_not_dotted {name : String} (h : isDotted name = false) : last name = name := by
  rw [last, parts_of_not_dotted h]
  rfl

end Dotted

/-- A node that binds some more names, if it has a body. -/
def Node.bindAlso (node : Node) (more : List Binding) : Node :=
  { node with bindings := node.bindings.map (· ++ more) }

namespace Graph

variable {graph : Graph} {files : List GroupId}

/-! ## The table of nodes by full token -/

/-- The nodes of the groups with a given full token, group by group. -/
def nodesNamed (graph : Graph) (groups : List GroupId) (key : String) : List NodeId :=
  (groups.filter fun g => decide (graph.fullToken g = key)).flatMap fun g => (graph.group g).nodes

theorem mem_nodesNamed {groups : List GroupId} {key : String} {n : NodeId} :
    n ∈ graph.nodesNamed groups key ↔
      ∃ g ∈ groups, graph.fullToken g = key ∧ n ∈ (graph.group g).nodes := by
  simp [nodesNamed, and_assoc]

/-- Adding to a table with one entry for each of some keys. -/
theorem addUnder_map {keys : List String} (hKeys : keys.Nodup) (lists : String → List NodeId)
    (key : String) (nodes : List NodeId) :
    addUnder key nodes (keys.map fun k => (k, lists k)) =
      if key ∈ keys then keys.map fun k => (k, lists k ++ if k = key then nodes else [])
      else (keys.map fun k => (k, lists k)) ++ [(key, nodes)] := by
  induction keys with
  | nil => rfl
  | cons k rest ih =>
      obtain ⟨hFresh, hRest⟩ := List.nodup_cons.mp hKeys
      rw [List.map_cons, addUnder]
      by_cases hKey : k = key
      · subst hKey
        -- The keys behind the first are different ones, so nothing is added to their lists.
        have hOthers : (rest.map fun j => (j, lists j ++ if j = k then nodes else [])) =
            rest.map fun j => (j, lists j) := by
          refine List.map_congr_left fun j hj => ?_
          rw [if_neg (ne_of_mem_of_not_mem hj hFresh), List.append_nil]
        simp only [if_true, List.mem_cons_self, List.map_cons, hOthers]
      · rw [if_neg hKey, ih hRest]
        have hMem : key ∈ k :: rest ↔ key ∈ rest := by
          rw [List.mem_cons, or_iff_right (Ne.symm hKey)]
        by_cases hLater : key ∈ rest
        · rw [if_pos hLater, if_pos (hMem.mpr hLater), List.map_cons, if_neg hKey, List.append_nil]
        · rw [if_neg hLater, if_neg (mt hMem.mp hLater), List.cons_append]

/-- Every full token has one entry, with the nodes of all groups of that token. -/
theorem nodesByToken_eq (graph : Graph) (groups : List GroupId) :
    graph.nodesByToken groups = (distinct (groups.map graph.fullToken)).map fun key =>
      (key, graph.nodesNamed groups key) := by
  induction groups using List.reverseRecOn with
  | nil => rfl
  | append_singleton rest g ih =>
      have hNamed : ∀ key, graph.nodesNamed (rest ++ [g]) key =
          graph.nodesNamed rest key ++
            if key = graph.fullToken g then (graph.group g).nodes else [] := by
        intro key
        by_cases hKey : graph.fullToken g = key
        · simp [nodesNamed, hKey]
        · simp [nodesNamed, hKey, Ne.symm hKey]
      have hStep : graph.nodesByToken (rest ++ [g]) =
          addUnder (graph.fullToken g) (graph.group g).nodes (graph.nodesByToken rest) := by
        rw [nodesByToken, List.foldl_append]
        rfl
      rw [hStep, ih, addUnder_map (nodup_distinct _), List.map_append, List.map_singleton,
        distinct_concat]
      simp only [mem_distinct, hNamed]
      by_cases hSeen : graph.fullToken g ∈ rest.map graph.fullToken
      · rw [if_pos hSeen, if_pos hSeen]
      · rw [if_neg hSeen, if_neg hSeen, List.map_append, List.map_singleton, if_pos rfl]
        have hNone : graph.nodesNamed rest (graph.fullToken g) = [] := by
          refine List.flatMap_eq_nil_iff.mpr fun h hh => ?_
          obtain ⟨hMem, hToken⟩ := List.mem_filter.mp hh
          exact absurd (List.mem_map.mpr ⟨h, hMem, of_decide_eq_true hToken⟩) hSeen
        rw [hNone, List.nil_append]
        congr 1
        refine List.map_congr_left fun key hKey => ?_
        rw [if_neg (ne_of_mem_of_not_mem (mem_distinct.mp hKey) hSeen), List.append_nil]

/-! ## What inheriting changes -/

theorem group_inheritLists {g : GroupId} (hg : g.index < graph.groups.size)
    (lists : List (List NodeId)) (h : GroupId) :
    (graph.inheritLists g lists).group h =
      if h = g then { graph.group g with inherited := lists } else graph.group h := by
  have hFold : ∀ (nodes : List NodeId) (change : Node → Node) (noted : Graph),
      (nodes.foldl (fun graph node => graph.modifyNode node change) noted).group h =
        noted.group h := by
    intro nodes change
    induction nodes with
    | nil => exact fun _ => rfl
    | cons n rest ih => exact fun noted => ih _
  rw [inheritLists, hFold, group_modifyGroup]
  simp only [hg, and_true]

/-- Changing each node of a list once. -/
theorem node_foldl_modifyNode {nodes : List NodeId} (hNodes : nodes.Nodup)
    (hLt : ∀ n ∈ nodes, n.index < graph.nodes.size) (change : Node → Node) (n : NodeId) :
    (nodes.foldl (fun graph node => graph.modifyNode node change) graph).node n =
      if n ∈ nodes then change (graph.node n) else graph.node n := by
  induction nodes generalizing graph with
  | nil => rfl
  | cons m rest ih =>
      obtain ⟨hFresh, hRest⟩ := List.nodup_cons.mp hNodes
      rw [List.foldl_cons, ih hRest fun k hk => by
        simpa using hLt k (List.mem_cons_of_mem _ hk), node_modifyNode]
      by_cases hFirst : n = m
      · subst hFirst
        simp [hFresh, hLt n List.mem_cons_self]
      · simp [hFirst]

theorem node_inheritLists (hGraph : graph.WellFormed) (g : GroupId) (lists : List (List NodeId))
    (n : NodeId) :
    (graph.inheritLists g lists).node n =
      if n ∈ (graph.group g).nodes then
        (graph.node n).bindAlso (lists.flatten.map graph.nodeBinding)
      else graph.node n := by
  rw [inheritLists]
  refine (node_foldl_modifyNode (hGraph.nodes_nodup g) (fun m hm => ?_) _ n).trans rfl
  exact hGraph.listed_lt hm

theorem rebinds_inheritLists (graph : Graph) (g : GroupId) (lists : List (List NodeId)) :
    graph.Rebinds (graph.inheritLists g lists) :=
  (@inheritLists_spec graph (fun _ => True) (fun _ _ _ _ _ => trivial) g lists (fun _ => True)
    (fun _ _ _ _ => trivial) (fun _ _ => trivial) fun _ _ _ _ _ => trivial).1

/-- What a group of the files inherits. -/
def inheritance (graph : Graph) (files : List GroupId) (g : GroupId) : List (List NodeId) :=
  inheritedLists (graph.nodesByToken (graph.groupsOf files)) (graph.group g).bases

/-- Some groups have inherited, and the others have not. -/
structure InheritedBy (before : Graph) (files done : List GroupId) (after : Graph) : Prop
    extends Rebinds before after where
  group_of_mem : ∀ g ∈ done,
    after.group g = { before.group g with inherited := before.inheritance files g }
  group_of_not_mem : ∀ g, g ∉ done → after.group g = before.group g
  node_of_mem : ∀ g ∈ done, ∀ n ∈ (before.group g).nodes, after.node n =
    (before.node n).bindAlso ((before.inheritance files g).flatten.map before.nodeBinding)
  node_of_not_mem : ∀ n, (∀ g ∈ done, n ∉ (before.group g).nodes) → after.node n = before.node n

theorem InheritedBy.step {before after : Graph} {done : List GroupId} {g : GroupId}
    (h : InheritedBy before files done after) (hBefore : before.WellFormed)
    (hg : g.index < before.groups.size) (hFresh : g ∉ done) :
    InheritedBy before files (done ++ [g])
      (after.inheritLists g (inheritedLists (before.nodesByToken (before.groupsOf files))
        (after.group g).bases)) := by
  have hGroup := h.group_of_not_mem g hFresh
  have hLists : inheritedLists (before.nodesByToken (before.groupsOf files))
      (after.group g).bases = before.inheritance files g := by rw [hGroup, inheritance]
  have hGroups := group_inheritLists (h.groups_size.symm ▸ hg) (before.inheritance files g)
  have hNodes := node_inheritLists (h.toRebinds.wellFormed hBefore) g (before.inheritance files g)
  rw [hGroup, funext h.toRebinds.nodeBinding_eq] at hNodes
  rw [hGroup] at hGroups
  -- A node stands in one group only, so the nodes of the groups done are not changed again.
  have hApart : ∀ d ∈ done, ∀ n ∈ (before.group d).nodes, n ∉ (before.group g).nodes := by
    intro d hd n hn hng
    cases hBefore.group_eq_of_listed hn hng
    exact hFresh hd
  rw [hLists]
  refine
    { toRebinds := h.toRebinds.trans (rebinds_inheritLists after g _)
      group_of_mem := fun d hd => ?_, group_of_not_mem := fun d hd => ?_
      node_of_mem := fun d hd n hn => ?_, node_of_not_mem := fun n hn => ?_ }
  · rw [hGroups]
    rcases List.mem_append.mp hd with hd | hd
    · rw [if_neg (ne_of_mem_of_not_mem hd hFresh), h.group_of_mem d hd]
    · rw [List.mem_singleton.mp hd, if_pos rfl]
  · obtain ⟨hOld, hNew⟩ := not_or.mp (mt List.mem_append.mpr hd)
    rw [hGroups, if_neg (mt List.mem_singleton.mpr hNew), h.group_of_not_mem d hOld]
  · rw [hNodes]
    rcases List.mem_append.mp hd with hd | hd
    · rw [if_neg (hApart d hd n hn), h.node_of_mem d hd n hn]
    · rw [List.mem_singleton.mp hd] at hn ⊢
      rw [if_pos hn, h.node_of_not_mem n fun d hd hnd => hApart d hd n hnd hn]
  · rw [hNodes, if_neg (hn g (List.mem_append_right _ List.mem_cons_self)),
      h.node_of_not_mem n fun d hd => hn d (List.mem_append_left _ hd)]

/-- After inheriting, all groups of the files have inherited. -/
theorem inheritedBy_inherit (hGraph : graph.WellFormed) (hRoots : graph.Roots files) :
    InheritedBy graph files (graph.groupsOf files) (graph.inherit files) := by
  have hLt : ∀ g ∈ graph.groupsOf files, g.index < graph.groups.size := by
    intro g hg
    obtain ⟨r, hr, hBelow⟩ := (mem_groupsOf hGraph hRoots).mp hg
    exact hGraph.below_lt hBelow (hRoots.lt r hr)
  have hRun : ∀ groups : List GroupId, groups.Nodup → (∀ g ∈ groups, g.index < graph.groups.size) →
      InheritedBy graph files groups (groups.foldl (fun current g => current.inheritLists g
        (inheritedLists (graph.nodesByToken (graph.groupsOf files)) (current.group g).bases))
          graph) := by
    intro groups
    induction groups using List.reverseRecOn with
    | nil =>
        exact fun _ _ => ⟨Rebinds.refl graph, by simp, fun _ _ => rfl, by simp, fun _ _ => rfl⟩
    | append_singleton rest g ih =>
        intro hNodup hAll
        obtain ⟨hFront, _, hDisjoint⟩ := List.nodup_append'.mp hNodup
        rw [List.foldl_append]
        exact (ih hFront fun d hd => hAll d (List.mem_append_left _ hd)).step hGraph
          (hAll g (List.mem_append_right _ List.mem_cons_self))
          fun hg => hDisjoint hg List.mem_cons_self
  exact hRun _ (nodup_groupsOf hGraph hRoots) hLt

/-! ## What is inherited -/

/-- The full token of a group ends as its token does. -/
theorem last_fullToken (graph : Graph) (g : GroupId) :
    Dotted.last (graph.fullToken g) = Dotted.last (graph.group g).token := by
  rw [fullToken, chain, List.take_succ_cons, List.reverse_cons, List.map_append, List.map_singleton,
    Dotted.last_join_concat]

/-- Base by base, the nodes under the keys that end in the base. -/
theorem inheritance_eq (graph : Graph) (files : List GroupId) (g : GroupId) :
    graph.inheritance files g = (graph.group g).bases.flatMap fun base =>
      ((distinct ((graph.groupsOf files).map graph.fullToken)).filter fun key =>
        decide (Dotted.last key = base)).map (graph.nodesNamed (graph.groupsOf files)) := by
  rw [inheritance, inheritedLists, nodesByToken_eq]
  refine List.flatMap_congr fun base _ => ?_
  rw [List.filter_map, List.map_map]
  rfl

/-- What is inherited is listed by a group whose token ends in a base. -/
theorem mem_inheritance_iff {g : GroupId} {n : NodeId} :
    n ∈ (graph.inheritance files g).flatten ↔ ∃ h ∈ graph.groupsOf files,
      Dotted.last (graph.group h).token ∈ (graph.group g).bases ∧ n ∈ (graph.group h).nodes := by
  rw [inheritance_eq]
  simp only [List.mem_flatten, List.mem_flatMap, List.mem_map, List.mem_filter, mem_distinct,
    decide_eq_true_eq]
  constructor
  · rintro ⟨_, ⟨base, hBase, key, ⟨_, rfl⟩, rfl⟩, hn⟩
    obtain ⟨h, hMem, rfl, hListed⟩ := mem_nodesNamed.mp hn
    rw [last_fullToken] at hBase
    exact ⟨h, hMem, hBase, hListed⟩
  · rintro ⟨h, hMem, hBase, hn⟩
    refine ⟨_, ⟨_, hBase, graph.fullToken h, ⟨⟨h, hMem, rfl⟩, last_fullToken graph h⟩, rfl⟩, ?_⟩
    exact mem_nodesNamed.mpr ⟨h, hMem, rfl, hn⟩

/-- Files with classes in them, at any depth. The tokens of the classes are identifiers; those of the
files may have dots. -/
structure OfFiles (graph : Graph) (files : List GroupId) : Prop extends WellFormed graph where
  rooted : graph.Roots files
  file_kind : ∀ f ∈ files, (graph.group f).kind = .file
  inner_class : ∀ {g s}, s ∈ (graph.group g).subgroups → (graph.group s).kind = .classBody
  class_token : ∀ g, (graph.group g).kind = .classBody →
    Dotted.isIdentifier (graph.group g).token = true

/-- A class token is its own last part. -/
theorem OfFiles.last_token (h : graph.OfFiles files) {g : GroupId}
    (hg : (graph.group g).kind = .classBody) :
    Dotted.last (graph.group g).token = (graph.group g).token :=
  Dotted.last_of_not_dotted (Dotted.not_dotted_of_isIdentifier (h.class_token g hg))

/-- A group of the files is one of them or a class. -/
theorem OfFiles.mem_groupsOf_iff (h : graph.OfFiles files) {g : GroupId} :
    g ∈ graph.groupsOf files ↔
      g ∈ files ∨ g ∈ graph.groupsOf files ∧ (graph.group g).kind = .classBody := by
  constructor
  · intro hg
    obtain ⟨r, hr, hBelow⟩ := (mem_groupsOf h.toWellFormed h.rooted).mp hg
    cases hBelow with
    | refl => exact Or.inl hr
    | tail _ hStep => exact Or.inr ⟨hg, h.inner_class hStep⟩
  · rintro (hg | ⟨hg, _⟩)
    · exact (mem_groupsOf h.toWellFormed h.rooted).mpr ⟨g, hg, .refl g⟩
    · exact hg

/-- A class of some files lists a node, and its token is one of the names. -/
def MethodOf (graph : Graph) (files : List GroupId) (names : List String) (n : NodeId) : Prop :=
  ∃ c ∈ graph.groupsOf files, (graph.group c).kind = .classBody ∧
    (graph.group c).token ∈ names ∧ n ∈ (graph.group c).nodes

/-- A file lists a node, and the name of the file ends in one of the names. -/
def FileEntryOf (graph : Graph) (files : List GroupId) (names : List String) (n : NodeId) : Prop :=
  ∃ f ∈ files, Dotted.last (graph.group f).token ∈ names ∧ n ∈ (graph.group f).nodes

theorem OfFiles.mem_inheritance_iff (h : graph.OfFiles files) {g : GroupId} {n : NodeId} :
    n ∈ (graph.inheritance files g).flatten ↔
      graph.MethodOf files (graph.group g).bases n ∨
        graph.FileEntryOf files (graph.group g).bases n := by
  rw [Graph.mem_inheritance_iff]
  constructor
  · rintro ⟨c, hc, hBase, hn⟩
    rcases h.mem_groupsOf_iff.mp hc with hFile | ⟨_, hClass⟩
    · exact Or.inr ⟨c, hFile, hBase, hn⟩
    · rw [h.last_token hClass] at hBase
      exact Or.inl ⟨c, hc, hClass, hBase, hn⟩
  · rintro (⟨c, hc, hClass, hBase, hn⟩ | ⟨f, hf, hBase, hn⟩)
    · refine ⟨c, hc, ?_, hn⟩
      rwa [h.last_token hClass]
    · exact ⟨f, h.mem_groupsOf_iff.mpr (Or.inl hf), hBase, hn⟩

/-- What a file lists is no method. -/
theorem OfFiles.not_methodOf (h : graph.OfFiles files) {f : GroupId} (hf : f ∈ files) {n : NodeId}
    (hn : n ∈ (graph.group f).nodes) (names : List String) : ¬graph.MethodOf files names n := by
  rintro ⟨c, _, hClass, _, hnc⟩
  cases h.group_eq_of_listed hn hnc
  exact absurd ((h.file_kind f hf).symm.trans hClass) (by decide)

/-- What a group of the files has after inheriting. -/
structure Inherited (before : Graph) (files : List GroupId) (after : Graph) (g : GroupId) :
    Prop where
  /-- Base by base there is one list for every full token that ends in the base. It holds what all
  groups of this full token list. -/
  lists_eq : (after.group g).inherited = (before.group g).bases.flatMap fun base =>
    ((distinct ((before.groupsOf files).map before.fullToken)).filter fun key =>
      decide (Dotted.last key = base)).map (before.nodesNamed (before.groupsOf files))
  /-- Besides the methods of the bases, all that a file lists is inherited if its name ends in a
  base. -/
  mem_iff : ∀ n, n ∈ (after.group g).inherited.flatten ↔
    before.MethodOf files (before.group g).bases n ∨
      before.FileEntryOf files (before.group g).bases n
  /-- The nodes of the group bind all inherited tokens. -/
  node_eq : ∀ n ∈ (before.group g).nodes, after.node n = (before.node n).bindAlso
    ((after.group g).inherited.flatten.map before.nodeBinding)
  /-- Only methods are inherited if and only if no file of such a name lists anything. -/
  only_methods_iff : (∀ n ∈ (after.group g).inherited.flatten,
      before.MethodOf files (before.group g).bases n) ↔
    ∀ f ∈ files, Dotted.last (before.group f).token ∈ (before.group g).bases →
      (before.group f).nodes = []

theorem OfFiles.inherited (h : graph.OfFiles files) {g : GroupId} (hg : g ∈ graph.groupsOf files) :
    graph.Inherited files (graph.inherit files) g := by
  have hAll := inheritedBy_inherit h.toWellFormed h.rooted
  have hLists : ((graph.inherit files).group g).inherited = graph.inheritance files g := by
    rw [hAll.group_of_mem g hg]
  have hMem : ∀ n, n ∈ ((graph.inherit files).group g).inherited.flatten ↔
      graph.MethodOf files (graph.group g).bases n ∨
        graph.FileEntryOf files (graph.group g).bases n := by
    intro n
    rw [hLists, h.mem_inheritance_iff]
  refine
    { lists_eq := hLists.trans (inheritance_eq graph files g), mem_iff := hMem
      node_eq := fun n hn => ?_, only_methods_iff := ⟨fun hOnly f hf hBase => ?_, ?_⟩ }
  · rw [hLists]
    exact hAll.node_of_mem g hg n hn
  · refine List.eq_nil_iff_forall_not_mem.mpr fun n hn => ?_
    exact h.not_methodOf hf hn _ (hOnly n ((hMem n).mpr (Or.inr ⟨f, hf, hBase, hn⟩)))
  · intro hNone n hn
    rcases (hMem n).mp hn with hMethod | ⟨f, hf, hBase, hnf⟩
    · exact hMethod
    · rw [hNone f hf hBase] at hnf
      exact absurd hnf List.not_mem_nil

end Graph

open CallGraph.Graph

/-! ## Where definitions come from -/

/-- A function that is read from a legal definition. -/
def FunctionOutline.Read (isMethod : Bool) (function : FunctionOutline) : Prop :=
  ∃ scope definition, definition.isLegal = true ∧
    (definition.kind = .functionDef ∨ definition.kind = .asyncFunctionDef) ∧
    function = FunctionOutline.ofTree isMethod scope definition

namespace ClassOutline

/-- A class that is read from a legal definition. -/
def Read : ClassOutline → Prop
  | .mk token line bases _ _ => ∃ definition : Tree, definition.isLegal = true ∧
      definition.kind = .classDef ∧ token = (definition.text? "name").getD "" ∧
      line = definition.line ∧ bases = basesOf definition

theorem Read.isIdentifier {c : ClassOutline} (h : c.Read) :
    Dotted.isIdentifier c.token = true := by
  cases c with
  | mk token line bases functions classes =>
      obtain ⟨definition, hLegal, hKind, rfl, _⟩ := h
      exact (Tree.isClass_of_isLegal hLegal hKind).name

theorem grants_read :
    Grants Tree.isRegular (fun _ => True) (FunctionOutline.Read true) Read where
  nil := trivial
  method _ hLegal hKind := ⟨_, _, hLegal, hKind, rfl⟩
  own hLegal hKind _ _ := ⟨_, hLegal, hKind, rfl, rfl, rfl⟩

end ClassOutline

/-- All definitions of a file are read from legal ones. -/
structure FileOutline.Read (file : FileOutline) : Prop where
  functions : ∀ f ∈ file.functions, f.Read false
  classes : ∀ c ∈ file.classes, c.Every (FunctionOutline.Read true) ClassOutline.Read

theorem FileOutline.read_ofTree {tree : Tree} (h : tree.isLegal = true) (path : String) :
    (FileOutline.ofTree tree path).Read := by
  have hMembers := Members.keeps_ofTree h
  unfold FileOutline.ofTree
  generalize Members.ofTree tree = members at hMembers
  cases members with
  | mk classes functions body imports =>
      obtain ⟨hClasses, hFunctions, _⟩ := hMembers
      refine ⟨fun f hf => ?_, fun c hc => ?_⟩
      · obtain ⟨definition, hDefinition, rfl⟩ := List.mem_map.mp hf
        exact ⟨_, definition, (hFunctions definition hDefinition).1,
          (hFunctions definition hDefinition).2, rfl⟩
      · obtain ⟨definition, hDefinition, rfl⟩ := List.mem_map.mp hc
        exact ClassOutline.every_ofMembers ClassOutline.grants_read trivial definition
          (ClassMembers.allKeep_iff.mp hClasses definition hDefinition)

/-- The tokens of classes are identifiers. -/
def Graph.classTokens : Properties where
  node _ := True
  group group := group.kind = .classBody → Dotted.isIdentifier group.token = true
  node_serial _ h := h
  group_contents _ _ _ _ _ h := h

theorem FileOutline.Read.classTokens {file : FileOutline} (h : file.Read) :
    classTokens.OfFile file where
  group hKind := absurd hKind (by simp [fileGroup])
  root _ := trivial
  functions _ _ _ _ := trivial
  classes c hc := ClassOutline.Every.imp (fun _ _ _ _ => trivial)
    (fun _ hRead _ _ => hRead.isIdentifier) c (h.classes c hc)
  imports _ _ _ _ := trivial

/-- Loaded files are files with classes in them. -/
theorem ofFiles_insertFiles {read : List FileOutline} (hRead : ∀ file ∈ read, file.Read) :
    (Graph.loaded read).1.OfFiles (Graph.loaded read).2 := by
  have hLoaded := loading_insertFiles read
  have hTokens := loading_loaded fun file hFile => (hRead file hFile).classTokens
  refine
    { toWellFormed := hLoaded.toWellFormed, rooted := hLoaded.rooted
      file_kind := hLoaded.file_kind, inner_class := hLoaded.inner_class
      class_token := fun g hg => hTokens.group_want g ?_ hg }
  by_contra hOut
  rw [group_eq_default _ (Nat.not_lt.mp hOut)] at hg
  exact absurd hg (by decide)

theorem Graph.OfFiles.removeNodes {graph : Graph} {roots : List GroupId} (h : graph.OfFiles roots)
    (ns : List NodeId) : (graph.removeNodes ns).OfFiles roots := by
  have hShrinks := shrinks_removeNodes graph ns
  have hKind := hShrinks.group_field Group.kind
  refine
    { toWellFormed := hShrinks.wellFormed h.toWellFormed, rooted := hShrinks.roots h.rooted
      file_kind := fun f hf => (hKind f).trans (h.file_kind f hf)
      inner_class := fun hs => (hKind _).trans (h.inner_class (hShrinks.mem_subgroups hs))
      class_token := fun g hg => ?_ }
  rw [hShrinks.group_field Group.token]
  exact h.class_token g ((hKind g).symm.trans hg)

namespace CallMap

variable {files : FileSystem} {options : Options} {sources : List String}
variable {read : List FileOutline} {left : Graph}

/-- The outlines of legal files are read from legal definitions. -/
theorem read_of_outlines (hLegal : files.AllLegal)
    (h : (outlines files options sources).result = .ok read) : ∀ file ∈ read, file.Read := by
  obtain ⟨paths, hOutlined, _⟩ := outlines_spec h
  intro file hFile
  obtain ⟨path, _, tree, hRead, rfl⟩ := exists_path_of_outlined hOutlined hFile
  exact FileOutline.read_ofTree (hLegal path tree hRead) path

/-- What is left of the loaded files are files with classes in them. -/
theorem ofFiles_of_limit (hRead : ∀ file ∈ read, file.Read)
    (hLimit : (limit options (Graph.loaded read).1 (Graph.loaded read).2).result = .ok left) :
    left.OfFiles (Graph.loaded read).2 := by
  obtain ⟨ns, rfl⟩ := removeNodes_of_limit hLimit
  exact (ofFiles_insertFiles hRead).removeNodes ns

/-- With heuristics, classes inherit before bindings are settled. Every class inherits the methods
of the classes whose tokens are its bases, and all that is listed by the files whose names end in one
of its bases: their global code, their functions and their imports. Its methods bind what it
inherits. So only methods are inherited exactly if no such file lists anything. -/
theorem inherited_by_classes (hLegal : files.AllLegal)
    (hRead : (outlines files options sources).result = .ok read)
    (hHeuristics : options.heuristics = true)
    (hLimit : (limit options (Graph.loaded read).1 (Graph.loaded read).2).result = .ok left) :
    (∀ nodes, (settle options left (Graph.loaded read).2 nodes).result = do
      let settled ← (left.inherit (Graph.loaded read).2).settle (Graph.loaded read).2 nodes
      return settled.passArguments nodes) ∧
    ∀ g ∈ left.groupsOf (Graph.loaded read).2, (left.group g).kind = .classBody →
      left.Inherited (Graph.loaded read).2
        (left.inherit (Graph.loaded read).2) g := by
  refine ⟨fun nodes => ?_, fun g hg _ => ?_⟩
  · rw [result_settle]
    simp only [hHeuristics, if_true]
  · exact (ofFiles_of_limit (read_of_outlines hLegal hRead) hLimit).inherited hg

end CallMap

/-! ## A small program -/

/-- A class with bases. -/
def Tree.subclassAt (line : Int) (name : String) (bases body : List Tree) : Tree :=
  .node .classDef (some line) [("name", .text name)]
    (bases.map (.filled .bases) ++ body.map (.filled .body))

namespace CallMap

/-- A module with a class whose base is imported from a module of the same name. Its method calls a
function of that module as if it were a method. -/
def namesakeUser : Tree :=
  .moduleOf [
    .importFromAt 1 "b" "b",
    .subclassAt 2 "C" [.nameAt 2 "b"] [
      .functionAt 3 "m" [.statementAt 4 (.callAt 4 (.memberAt 4 (.nameAt 4 "self") "run"))]]]

/-- A module with a class of the same name, which has one method, and a function. -/
def namesakeModule : Tree :=
  .moduleOf [
    .classAt 1 "b" [.functionAt 2 "go" [.passAt 3]],
    .functionAt 4 "run" [.passAt 5]]

def namesakeFiles : FileSystem :=
  { entries := [(["a.py"], .file { content := .ok namesakeUser }),
    (["b.py"], .file { content := .ok namesakeModule })] }

/-- Whether a class of a given token inherits a node of a given token that a file lists. -/
def inheritsFromFile (roots : List GroupId) (classToken token : String) (left : Graph) : Bool :=
  (left.groupsOf roots).any fun g =>
    (decide ((left.group g).kind = .classBody) && decide ((left.group g).token = classToken)) &&
    ((left.inherit roots).group g).inherited.flatten.any fun n =>
      decide ((left.node n).token = token) && roots.any fun f => (left.group f).nodes.contains n

/-- The run on the sample, up to the point where classes inherit. -/
theorem exists_namesake_inherits :
    ∃ read left g, (outlines namesakeFiles {} ["a.py"]).result = .ok read ∧
      (limit {} (Graph.loaded read).1 (Graph.loaded read).2).result =
        .ok left ∧
      g ∈ left.groupsOf (Graph.loaded read).2 ∧
      ((left.group g).kind = .classBody ∧ (left.group g).token = "C") ∧
      ∃ n ∈ ((left.inherit (Graph.loaded read).2).group g).inherited.flatten,
        (left.node n).token = "run" ∧
        ∃ f ∈ (Graph.loaded read).2, n ∈ (left.group f).nodes := by
  obtain ⟨read, hRead, hLimit⟩ := exists_ok_of_any
    (show (outlines namesakeFiles {} ["a.py"]).result.toOption.any (fun read =>
      (limit {} (Graph.loaded read).1 (Graph.loaded read).2).result.toOption.any
          (inheritsFromFile (Graph.loaded read).2 "C" "run")) = true by
      decide +kernel)
  obtain ⟨left, hLeft, hTest⟩ := exists_ok_of_any hLimit
  obtain ⟨g, hg, hTest⟩ := List.any_eq_true.mp hTest
  simp only [Bool.and_eq_true, decide_eq_true_eq, List.any_eq_true, List.contains_iff_mem] at hTest
  exact ⟨read, left, g, hRead, hLeft, hg, hTest⟩

/-- The class of the sample and what it inherits. -/
theorem inherited_by_classes_namesake :
    ∃ read left g, namesakeFiles.AllLegal ∧
      (outlines namesakeFiles {} ["a.py"]).result = .ok read ∧
      (limit {} (Graph.loaded read).1 (Graph.loaded read).2).result =
        .ok left ∧
      g ∈ left.groupsOf (Graph.loaded read).2 ∧ (left.group g).token = "C" ∧
      left.Inherited (Graph.loaded read).2
        (left.inherit (Graph.loaded read).2) g := by
  have hLegal : namesakeFiles.AllLegal := FileSystem.allLegal_of_trees (by decide +kernel)
  obtain ⟨read, left, g, hRead, hLimit, hg, ⟨hKind, hToken⟩, _⟩ := exists_namesake_inherits
  exact ⟨read, left, g, hLegal, hRead, hLimit, hg, hToken,
    (inherited_by_classes hLegal hRead rfl hLimit).2 g hg hKind⟩

/-- The class of the sample inherits a function that is no method, and a call on the object is drawn
as a call of this function. -/
theorem function_inherited_namesake :
    ∃ chart read left g n, (build namesakeFiles {} (.text "py") ["a.py"]).result = .ok chart ∧
      (outlines namesakeFiles {} ["a.py"]).result = .ok read ∧
      (limit {} (Graph.loaded read).1 (Graph.loaded read).2).result =
        .ok left ∧
      ((left.group g).kind = .classBody ∧ (left.group g).token = "C") ∧
      n ∈ ((left.inherit (Graph.loaded read).2).group g).inherited.flatten ∧
      (left.node n).token = "run" ∧
      ¬left.MethodOf (Graph.loaded read).2 (left.group g).bases n ∧
      chart.edges.map (fun edge => ((chart.graph.node edge.source).token,
        (chart.graph.node edge.target).token)) = [("m", "run")] := by
  have hLegal : namesakeFiles.AllLegal := FileSystem.allLegal_of_trees (by decide +kernel)
  obtain ⟨chart, hChart, hEdges⟩ := exists_ok_of_any
    (show (build namesakeFiles {} (.text "py") ["a.py"]).result.toOption.any (fun chart =>
      decide (chart.edges.map (fun edge => ((chart.graph.node edge.source).token,
        (chart.graph.node edge.target).token)) = [("m", "run")])) = true by decide +kernel)
  obtain ⟨read, left, g, hRead, hLimit, _, hClass, n, hn, hToken, f, hf, hnf⟩ :=
    exists_namesake_inherits
  have hFiles := ofFiles_of_limit (read_of_outlines hLegal hRead) hLimit
  exact ⟨chart, read, left, g, n, hChart, hRead, hLimit, hClass, hn, hToken,
    hFiles.not_methodOf hf hnf _, of_decide_eq_true hEdges⟩

end CallMap

end CallGraph
