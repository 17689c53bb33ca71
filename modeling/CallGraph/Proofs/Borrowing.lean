import CallGraph.Proofs.Binding
import CallGraph.Proofs.Contents
import CallGraph.Proofs.Signatures

/-!
# Calls of imported functions

A function that a module imports from another is found in two ways. Following imports joins all parts
of the name of the other module to a path, so the file that is read is named by the last part. A call
of the function is matched by the whole name or by its first part. The two agree exactly if the first
part of the name is the last one; that is so for every name without dots. Otherwise the function is
analysed but never called: the call goes to a library node.

## Main results

* `importToken_modulePath` — the name of the file of a module.
* `imported_calls_iff` — when the calls of an imported function go to its definition.
-/

namespace CallGraph

open CallGraph.Graph

/-! ## The file of a module -/

theorem Path.fileName_append (directory : String) {item : String} (h : '/' ∉ item.toList) :
    fileName (directory ++ "/" ++ item) = item := by
  rw [fileName, components_append, components_of_not_mem h, List.getLastD_concat]

theorem Path.fileName_join (directory : String) {item : String} (h : '/' ∉ item.toList) :
    fileName (join directory item) = item := by
  unfold join
  rw [startsWith_of_not_mem h, if_neg Bool.false_ne_true]
  split
  · rename_i hEnd
    by_cases hEmpty : directory = ""
    · rw [hEmpty, String.empty_append, fileName, components_of_not_mem h]
      rfl
    · have hSlash : Text.endsWith directory "/" = true := by simpa [hEmpty] using hEnd
      obtain ⟨front, hFront⟩ := List.isSuffixOf_iff_suffix.mp hSlash
      have hText : directory = String.ofList front ++ "/" := by
        rw [← String.toList_inj, ← hFront]
        simp
      rw [hText]
      exact fileName_append _ h
  · exact fileName_append directory h

/-- The file of a module is named by the last part of its name. -/
theorem importToken_modulePath (base : String) {module : String}
    (h : Dotted.isModuleName module = true) :
    FileOutline.importToken (Imports.modulePath base module) = Dotted.last module := by
  have hLast := (Imports.isStep_of_mem_parts h (Dotted.last_mem_parts module)).2
  have hPath : Imports.modulePath base module =
      Path.join (Path.joinAll base (Dotted.parts module).dropLast) (Dotted.last module ++ ".py") := by
    rw [← Path.join_append hLast (by decide), Imports.modulePath]
    conv_lhs => rw [← List.dropLast_append_getLast (Dotted.parts_ne_nil module)]
    simp [Path.joinAll, Dotted.last, List.getLastD_eq_getLast?,
      List.getLast?_eq_some_getLast (Dotted.parts_ne_nil module)]
  rw [FileOutline.importToken, Path.stem, hPath, Path.fileName_join _ (Path.not_mem_append_py hLast),
    String.toList_append, Text.beforeLast?_append_mark (by decide)]
  simp

/-! ## Which of two nodes comes first -/

namespace CallMap

variable {files : FileSystem} {options : Options} {sources : List String}
variable {read : List FileOutline} {prepared : Prepared} {linked : Linking}
variable {ns : List NodeId} {settled : Graph}

/-- Nodes of one group that are not left out stay in their order. -/
theorem Prepares.pair_sublist (h : Prepares options read ns settled prepared) {g : GroupId}
    {a b : NodeId} (hPair : [a, b].Sublist ((Graph.loaded read).1.group g).nodes)
    (ha : a ∈ settled.nodesOf (Graph.loaded read).2)
    (hb : b ∈ settled.nodesOf (Graph.loaded read).2) :
    [a, b].Sublist (settled.nodesOf (Graph.loaded read).2) := by
  obtain ⟨hRebinds, hReady⟩ := h.ready
  have hWell := (loading_insertFiles read).toWellFormed
  have hNodes : ∀ g, (settled.group g).nodes =
      ((Graph.loaded read).1.group g).nodes.filter (· ∉ ns) := by
    intro g
    rw [hRebinds.nodes_of_group, group_removeNodes hWell]
  have hKept : ∀ n ∈ settled.nodesOf (Graph.loaded read).2, n ∉ ns := by
    intro n hn
    obtain ⟨g, hg⟩ := listed_of_mem_nodesOf hn
    rw [hNodes] at hg
    exact of_decide_eq_true (List.mem_filter.mp hg).2
  have hGroup : [a, b].Sublist (settled.group g).nodes := by
    rw [hNodes]
    have hFilter := hPair.filter (· ∉ ns)
    rwa [List.filter_cons_of_pos (by simpa using hKept a ha),
      List.filter_cons_of_pos (by simpa using hKept b hb), List.filter_nil] at hFilter
  have hLt := settled.group_lt_of_nodes (hGroup.subset List.mem_cons_self)
  obtain ⟨r, hr, hBelow⟩ := hReady.covered g hLt
  have hMem := (mem_groupsOf hReady.sound.toWellFormed hReady.rooted).mpr ⟨r, hr, hBelow⟩
  rw [nodesOf_eq_flatMap]
  exact hGroup.trans (List.sublist_flatten_of_mem (List.mem_map_of_mem hMem))

/-- A node that is there at the start offers what it offered when it was loaded. -/
theorem Prepares.offers_iff (h : Prepares options read ns settled prepared) {n : NodeId}
    (hn : n ∈ settled.nodesOf (Graph.loaded read).2) {owner token : String} :
    prepared.start.graph.Offers owner token n ↔
      (Graph.loaded read).1.Offers owner token n := by
  obtain ⟨hRebinds, hReady⟩ := h.ready
  obtain ⟨_, hStarted, _⟩ := h.started
  rw [hStarted.grows.offers_iff hReady.sound (listed_of_mem_nodesOf hn)]
  unfold Offers
  simp only [node_field_settled hRebinds Node.token, node_field_settled hRebinds Node.importTokens,
    node_field_settled hRebinds Node.parent,
    group_field_settled hRebinds Group.token]

/-! ## Calls made in functions of files -/

/-- A function of a file is no method. -/
theorem Prepares.callerClass?_eq_none (h : Prepares options read ns settled prepared)
    {query : Query} (hAfter : query.After prepared.start options.heuristics) {g : GroupId}
    (hg : g ∈ (Graph.loaded read).2)
    (hCaller : query.caller.index < (Graph.loaded read).1.nodes.size)
    (hParent : ((Graph.loaded read).1.node query.caller).parent = .group g) :
    query.callerClass? = none := by
  obtain ⟨_, hReady⟩ := h.ready
  obtain ⟨_, hStarted, _⟩ := h.started
  have hSame : (query.graph.node query.caller).parent = .group g := by
    rw [h.node_field hAfter.grows Node.parent hCaller]
    exact hParent
  have hKind : (query.graph.group g).kind = .file := by
    rw [(hStarted.grows.trans hAfter.grows).group_field Group.kind (hReady.rooted.lt g hg)]
    exact hReady.file_kind g hg
  simp [Query.callerClass?, parentGroup?, hSame, hKind]

/-- The edge of a library call in a function of a file leads to the first node that offers what is
called. -/
theorem Run.target_spec (h : Run files options sources read prepared linked)
    (hLegal : files.AllLegal) {g : GroupId} (hg : g ∈ (Graph.loaded read).2)
    {m : NodeId} (hm : m ∈ ((Graph.loaded read).1.group g).nodes) {call : Call}
    {owner : String} (hLibrary : call.isLibrary = true) (hOwner : call.owner = some owner)
    {edge : Edge} (hPair : ((m, call), edge) ∈
      (Linking.ownedCalls prepared.start.graph prepared.start.nodes).zip linked.edges) :
    edge.source = m ∧ ∃ front back, prepared.start.nodes = front ++ edge.target :: back ∧
      prepared.start.graph.Offers owner call.token edge.target ∧
      ∀ n ∈ front, ¬prepared.start.graph.Offers owner call.token n := by
  obtain ⟨ns, settled, hPrepares⟩ := exists_of_prepare h.prepares
  obtain ⟨query, hQuery, rfl, rfl, hLeads⟩ := h.exists_asked hPair
  have hLoaded := loading_insertFiles read
  have hFunction := hPrepares.callerClass?_eq_none (h.led.after query hQuery) hg
    (hLoaded.listed_lt hm) (hLoaded.parent_of_listed hm)
  obtain ⟨owner', n, front, back, hSome, hResolve, hSplit, hOffers, hFront⟩ :=
    h.resolve_library hLegal hQuery hLibrary fun _ => Or.inl hFunction
  cases hOwner.symm.trans hSome
  rw [hLeads.target_eq n none hResolve]
  exact ⟨hLeads.source_eq, front, back, hSplit, hOffers, hFront⟩

/-- A node that answers to a signature stands in a group that is named by the owner of the call or by
its first part. -/
theorem token_of_offers {n : NodeId} {owner token : String}
    (hn : (Graph.loaded read).1.Listed n)
    (h : (Graph.loaded read).1.Offers owner token n) :
    ∃ g, n ∈ ((Graph.loaded read).1.group g).nodes ∧
      (((Graph.loaded read).1.group g).token = owner ∨
        ((Graph.loaded read).1.group g).token = Dotted.first owner) := by
  have hLoaded := loading_insertFiles read
  obtain ⟨g, hParent, hMem⟩ := hLoaded.parent_of hn
  obtain ⟨g', hParent', _, _, hNames⟩ := tagged_insertFiles read (hLoaded.lt_of_listed hn)
  cases hParent.symm.trans hParent'
  refine ⟨g, hMem, ?_⟩
  obtain ⟨hToken, hImport | ⟨g', hGroup, hFirst⟩⟩ := h
  · have hName := hNames _ hImport
    rw [hToken] at hName
    exact Or.inl (Dotted.owner_of_join_eq hName).symm
  · cases hParent.symm.trans hGroup
    exact Or.inr hFirst

section Target

variable {module name : String} {file : FileOutline} {g : GroupId} {root n target : NodeId}
variable {functions imports front back others : List NodeId}

/-- The imports of a file stand behind its functions. -/
theorem Prepares.mem_front_of_imports (h : Prepares options read ns settled prepared)
    (hHolds : (Graph.loaded read).1.Holds file g root functions imports)
    (hn : n ∈ functions) (hTarget : target ∈ imports)
    (hOwn : n ∈ settled.nodesOf (Graph.loaded read).2)
    (hSplit : settled.nodesOf (Graph.loaded read).2 = front ++ target :: back) :
    n ∈ front := by
  obtain ⟨_, hReady⟩ := h.ready
  have hPair : [n, target].Sublist ((Graph.loaded read).1.group g).nodes := by
    rw [hHolds.nodes_eq]
    exact .cons _ ((List.singleton_sublist.mpr hn).append (List.singleton_sublist.mpr hTarget))
  have hOrder := h.pair_sublist hPair hOwn (by rw [hSplit]; simp)
  have hNodup := nodup_nodesOf hReady.sound.toWellFormed hReady.rooted
  rw [hSplit] at hOrder hNodup
  exact mem_of_pair_sublist hOrder hNodup

/-- The first node that offers an imported function is the function itself exactly if the first part
of the name of its module is the last one. -/
theorem Prepares.first_offer_iff (h : Prepares options read ns settled prepared)
    (hHolds : (Graph.loaded read).1.Holds file g root functions imports)
    (hFile : file.token = Dotted.last module) (hGlobal : name ≠ "(global)")
    (hOnce : (file.functions.map fun function => function.token).count name = 1)
    (hOnly : ∀ other : GroupId, other.index < (Graph.loaded read).1.groups.size →
      ((Graph.loaded read).1.group other).token = Dotted.last module ∨
        ((Graph.loaded read).1.group other).token = module → other = g)
    (hn : n ∈ functions) (hName : ((Graph.loaded read).1.node n).token = name)
    (hStart : n ∈ prepared.start.nodes)
    (hSplit : prepared.start.nodes = front ++ target :: back)
    (hOffers : prepared.start.graph.Offers module name target)
    (hFront : ∀ m ∈ front, ¬prepared.start.graph.Offers module name m) :
    target = n ↔ Dotted.first module = Dotted.last module := by
  have hLoaded := loading_insertFiles read
  obtain ⟨others, hLined⟩ := h.lined
  have hMem := hHolds.mem_nodes hn
  have hParent := hLoaded.parent_of_listed hMem
  have hOwn := hLined.mem_own hStart ⟨g, hMem⟩
  constructor
  · rintro rfl
    obtain ⟨g', hMem', hToken⟩ := token_of_offers ⟨g, hMem⟩ ((h.offers_iff hOwn).mp hOffers)
    cases hParent.symm.trans (hLoaded.parent_of_listed hMem')
    rw [hHolds.token_eq, hFile] at hToken
    rcases hToken with hWhole | hFirst
    · exact Dotted.first_of_last_eq hWhole
    · exact hFirst.symm
  · intro hParts
    have hNot : n ∉ front := by
      intro hnFront
      apply hFront n hnFront
      rw [h.offers_iff hOwn]
      exact ⟨hName, Or.inr ⟨g, hParent, by rw [hHolds.token_eq, hFile, hParts]⟩⟩
    -- The target is no library node, since it does not stand behind the function.
    have hListed : (Graph.loaded read).1.Listed target := by
      by_contra hNew
      exact hNot (hLined.mem_front hSplit hNew hStart ⟨g, hMem⟩)
    obtain ⟨rest, hRest⟩ := hLined.own_split hSplit hListed
    have hLoadedOffers := (h.offers_iff (by rw [hRest]; simp)).mp hOffers
    obtain ⟨g', hMem', hToken⟩ := token_of_offers hListed hLoadedOffers
    have hSame : g' = g := by
      apply hOnly g' ((Graph.loaded read).1.group_lt_of_nodes hMem')
      rw [← hParts]
      exact hToken.symm
    rw [hSame, hHolds.nodes_eq, List.mem_cons, List.mem_append] at hMem'
    rcases hMem' with rfl | hFunction | hImport
    · obtain ⟨_, _, hRoot⟩ := hHolds.root_at
      have hRootToken := hLoadedOffers.1
      rw [hRoot] at hRootToken
      exact absurd hRootToken.symm hGlobal
    · have hCount : (functions.map fun n =>
          ((Graph.loaded read).1.node n).token).count name = 1 := by
        rw [hHolds.map_functions Node.token]
        exact hOnce
      exact eq_of_count_map_eq_one hCount hFunction hn hLoadedOffers.1 hName
    · exact absurd (h.mem_front_of_imports hHolds hn hImport hOwn hRest) hNot

/-- If no group is named by the module or by the first part of its name, the call goes to a library
node. -/
theorem Prepares.isLibrary_of_offers (h : Prepares options read ns settled prepared)
    (hNone : ∀ other : GroupId, other.index < (Graph.loaded read).1.groups.size →
      ((Graph.loaded read).1.group other).token ≠ module ∧
        ((Graph.loaded read).1.group other).token ≠ Dotted.first module)
    (hTarget : target ∈ prepared.start.nodes)
    (hOffers : prepared.start.graph.Offers module name target) :
    (prepared.start.graph.node target).isLibrary = true := by
  obtain ⟨others, hLined⟩ := h.lined
  rw [hLined.nodes_eq] at hTarget
  rcases List.mem_append.mp hTarget with hOwn | hNew
  · have hListed := hLined.own_loaded target hOwn
    obtain ⟨g, hMem, hToken⟩ := token_of_offers hListed ((h.offers_iff hOwn).mp hOffers)
    have hBoth := hNone g ((Graph.loaded read).1.group_lt_of_nodes hMem)
    exact absurd hToken (not_or.mpr hBoth)
  · exact (hLined.others_new target hNew).2

end Target

/-! ## Imported functions -/

theorem exists_held_of_mem_zip {paths : List String} {path : String} {g : GroupId}
    (hOutlined : List.Forall₂ files.HasOutline paths read)
    (h : (path, g) ∈ paths.zip (Graph.loaded read).2) :
    ∃ tree root functions imports, files.read path = .ok tree ∧
      g ∈ (Graph.loaded read).2 ∧ (Graph.loaded read).1.Holds
        (FileOutline.ofTree tree path) g root functions imports := by
  have hHeld := insertFiles_holds Graph.empty read
  have hMem := (List.of_mem_zip h).2
  generalize (Graph.loaded read).2 = groups at h hHeld hMem ⊢
  generalize (Graph.loaded read).1 = loaded at hHeld ⊢
  have hBoth : List.Forall₂ (fun path g => ∃ file, files.HasOutline path file ∧
      ∃ root functions imports, loaded.Holds file g root functions imports) paths groups := by
    clear h hMem
    induction hOutlined generalizing groups with
    | nil =>
        cases hHeld
        exact .nil
    | cons hFile _ ih =>
        cases hHeld with
        | cons hFirst hRest => exact .cons ⟨_, hFile, hFirst⟩ (ih _ hRest)
  obtain ⟨_, ⟨tree, hTree, rfl⟩, root, functions, imports, hHolds⟩ := List.forall₂_zip hBoth h
  exact ⟨tree, root, functions, imports, hTree, hMem, hHolds⟩

end CallMap

/-- A module defines one function of a name outside its classes. -/
def Tree.DefinesOnce (tree : Tree) (name : String) : Prop :=
  ((Members.ofTree tree).functions.map fun definition =>
    (definition.text? "name").getD "").count name = 1

namespace CallMap

variable {files : FileSystem} {options : Options} {sources : List String}
variable {read : List FileOutline} {prepared : Prepared} {linked : Linking}

/-- An analysed file imports a function from another analysed file, which defines it once; no other
group has the name of that file or module. -/
structure Borrowing (files : FileSystem) (paths : List String) (read : List FileOutline)
    (source module name : String) (tree : Tree) (g g' : GroupId) : Prop where
  reads : files.read source = .ok tree
  analysed : (source, g) ∈ paths.zip (Graph.loaded read).2
  borrows : tree.Borrows module name
  analysed_module :
    (Imports.modulePath (baseOf source) module, g') ∈ paths.zip (Graph.loaded read).2
  once : ∀ tree', files.read (Imports.modulePath (baseOf source) module) = .ok tree' →
    tree'.DefinesOnce name
  only : ∀ other : GroupId, other.index < (Graph.loaded read).1.groups.size →
    ((Graph.loaded read).1.group other).token = Dotted.last module ∨
      ((Graph.loaded read).1.group other).token = module → other = g'
  isModuleName : Dotted.isModuleName module = true
  isIdentifier : Dotted.isIdentifier name = true
  /-- This is how the code outside all functions is called. -/
  ne_global : name ≠ "(global)"

/-- How the call of a function that was imported from a module is linked, where `m` makes the call
and `n` is the function: the call has an edge, which leads to the function exactly if the first part of
the name of the module is the last one, and is then drawn. It leads to a library node if no group is
named by the module or by the first part of its name. -/
structure Borrowed (read : List FileOutline) (prepared : Prepared) (linked : Linking)
    (chart : Chart) (module : String) (m n : NodeId) (call : Call) : Prop where
  has_edge : ∃ edge, ((m, call), edge) ∈
    (Linking.ownedCalls prepared.start.graph prepared.start.nodes).zip linked.edges
  leads : ∀ edge, ((m, call), edge) ∈
      (Linking.ownedCalls prepared.start.graph prepared.start.nodes).zip linked.edges →
    edge.source = m ∧
    (edge.target = n ↔ Dotted.first module = Dotted.last module) ∧
    (edge.target = n → edge ∈ chart.edges) ∧
    ((∀ other : GroupId, other.index < (Graph.loaded read).1.groups.size →
        ((Graph.loaded read).1.group other).token ≠ module ∧
          ((Graph.loaded read).1.group other).token ≠ Dotted.first module) →
      (linked.graph.node edge.target).isLibrary = true)

/-- Every call of a node there is at the start has an edge. -/
theorem Run.exists_edge (h : Run files options sources read prepared linked) {m : NodeId}
    (hm : m ∈ prepared.start.nodes) {call : Call}
    (hCall : call ∈ (prepared.start.graph.node m).calls) :
    ∃ edge, ((m, call), edge) ∈
      (Linking.ownedCalls prepared.start.graph prepared.start.nodes).zip linked.edges := by
  apply exists_mem_zip
  · exact Nat.le_of_eq h.length_edges.symm
  · exact List.mem_flatMap.mpr ⟨m, hm, List.mem_map_of_mem hCall⟩

/-- The one function of a name that a file defines is one of its nodes. -/
theorem exists_node_of_definesOnce {tree : Tree} {path name : String} {g : GroupId} {root : NodeId}
    {functions imports : List NodeId} {loaded : Graph}
    (hHolds : loaded.Holds (FileOutline.ofTree tree path) g root functions imports)
    (hOnce : tree.DefinesOnce name) :
    ((FileOutline.ofTree tree path).functions.map fun function => function.token).count name = 1 ∧
      ∃ n ∈ functions, (loaded.node n).token = name := by
  have hCount : ((FileOutline.ofTree tree path).functions.map
      fun function => function.token).count name = 1 := by
    rw [FileOutline.ofTree, List.map_map]
    exact hOnce
  have hMem : name ∈ functions.map fun n => (loaded.node n).token := by
    rw [hHolds.map_functions Node.token, ← List.count_pos_iff]
    exact Nat.lt_of_lt_of_eq Nat.zero_lt_one hCount.symm
  obtain ⟨n, hn, hName⟩ := List.mem_map.mp hMem
  exact ⟨hCount, n, hn, hName⟩

/-- A function definition of a file is one of its nodes. -/
theorem exists_node_of_definition {tree definition : Tree} {path : String} {g : GroupId}
    {root : NodeId} {functions imports : List NodeId} {loaded : Graph}
    (hHolds : loaded.Holds (FileOutline.ofTree tree path) g root functions imports)
    (hDefinition : definition ∈ (Members.ofTree tree).functions) :
    ∃ m ∈ functions, (loaded.node m).token = (definition.text? "name").getD "" ∧
      (loaded.node m).line = definition.line ∧
      (loaded.node m).calls =
        (FunctionOutline.ofTree false (FileOutline.ofTree tree path).scope definition).calls := by
  have hMap := hHolds.map_functions (fun node => (node.token, node.line, node.calls))
  have hMem : FunctionOutline.ofTree false (FileOutline.ofTree tree path).scope definition ∈
      (FileOutline.ofTree tree path).functions := List.mem_map_of_mem hDefinition
  have hField := List.mem_map_of_mem (f := fun function =>
    let node := functionNode false g (FileOutline.ofTree tree path).token function
    (node.token, node.line, node.calls)) hMem
  rw [← hMap] at hField
  obtain ⟨m, hm, hSame⟩ := List.mem_map.mp hField
  simp only [Prod.mk.injEq] at hSame
  exact ⟨m, hm, hSame⟩

/-- The file of a module from which something is imported is one that the importing file imports. -/
theorem imported_of_borrowsAs {tree : Tree} {base source module name asName : String}
    (hBorrows : tree.BorrowsAs module name asName) (hRead : files.read source = .ok tree)
    (hExists : files.pathExists (Imports.modulePath base module) = true) :
    Imports.Imported files base source (Imports.modulePath base module) := by
  obtain ⟨statement, hStatement, hKind, hModule, _⟩ := hBorrows.imported
  have hWithin := Members.within_ofTree (Members.mem_listed.mpr (Or.inr (Or.inl hStatement)))
  exact ⟨tree, hRead, statement, hWithin.mem_walk,
    .source hKind hModule hBorrows.module_ne hExists⟩

theorem imported_of_borrows {tree : Tree} {base source module name : String}
    (hBorrows : tree.Borrows module name) (hRead : files.read source = .ok tree)
    (hExists : files.pathExists (Imports.modulePath base module) = true) :
    Imports.Imported files base source (Imports.modulePath base module) :=
  imported_of_borrowsAs hBorrows.borrowsAs hRead hExists

/-- The calls of an imported function are linked as `Borrowed` says. -/
theorem Borrowing.borrowed {paths : List String} {source module name : String}
    {tree expression callee : Tree} {g g' : GroupId} {m n root root' : NodeId}
    {functions functions' imports imports' : List NodeId} {file file' : FileOutline}
    (h : Borrowing files paths read source module name tree g g')
    (hRun : Run files options sources read prepared linked) (hLegal : files.AllLegal)
    (hg : g ∈ (Graph.loaded read).2)
    (hHolds : (Graph.loaded read).1.Holds file g root functions imports)
    (hHolds' : (Graph.loaded read).1.Holds file' g' root' functions' imports')
    (hFile : file'.token = Dotted.last module)
    (hOnce : (file'.functions.map fun function => function.token).count name = 1)
    (hm : m ∈ functions) (hn : n ∈ functions')
    (hName : ((Graph.loaded read).1.node n).token = name)
    (hCall : Block.borrowedCall module name expression callee ∈
      ((Graph.loaded read).1.node m).calls)
    (hmStart : m ∈ prepared.start.nodes) (hnStart : n ∈ prepared.start.nodes) :
    Borrowed read prepared linked (cut options (chartOf linked.withMissing)) module m n
      (Block.borrowedCall module name expression callee) := by
  obtain ⟨ns, settled, hPrepares⟩ := exists_of_prepare hRun.prepares
  obtain ⟨_, hStarted, _⟩ := hPrepares.started
  obtain ⟨_, hProgress, _⟩ := hRun.links.progress
  have hLoaded := loading_insertFiles read
  have hmMem := hHolds.mem_nodes hm
  have hnMem := hHolds'.mem_nodes hn
  refine ⟨hRun.exists_edge hmStart ?_, fun edge hPair => ?_⟩
  · rw [hPrepares.node_field (.refl _) Node.calls (hLoaded.listed_lt hmMem)]
    exact hCall
  · obtain ⟨hSource, front, back, hSplit, hOffers, hFront⟩ :=
      hRun.target_spec hLegal hg hmMem rfl rfl hPair
    have hTarget : edge.target ∈ prepared.start.nodes := by
      rw [hSplit]
      exact List.mem_append_right _ List.mem_cons_self
    refine ⟨hSource, ?_, fun hLeads => ?_, fun hNone => ?_⟩
    · exact hPrepares.first_offer_iff hHolds' hFile h.ne_global hOnce h.only hn hName hnStart hSplit
        hOffers hFront
    · refine (hRun.mem_edges_cut_iff (List.of_mem_zip hPair).2).mpr (Or.inl ?_)
      rw [hLeads, hPrepares.node_field hProgress.grows Node.isLibrary (hLoaded.listed_lt hnMem)]
      exact hHolds'.function_field Node.isLibrary (fun _ => rfl) hn
    · rw [hProgress.grows.node_field Node.isLibrary (hStarted.valid.node_lt _ hTarget)]
      exact hPrepares.isLibrary_of_offers hNone hTarget hOffers

/--
When calls of imported functions go to their definitions. Following a source takes in the files of
all modules from which the files of its directory import a function. If such a file defines the
function once and no other group has the name of the file or of the module, then a plain call of the
name in any function of the importing file has an edge, and the edge leads to the definition exactly
if the first part of the name of the module is the last one.
-/
theorem imported_calls_iff {language : Value} {chart : Chart} (hLegal : files.AllLegal)
    (hHeuristics : options.heuristics = true)
    (h : (build files options language sources).result = .ok chart) :
    ∃ read prepared linked paths, Run files options sources read prepared linked ∧
      chart = cut options (chartOf linked.withMissing) ∧
      List.Forall₂ files.HasOutline paths read ∧
      (options.skipParseErrors = false → ∀ front start back source tree module name,
        sources = front ++ start :: back →
        Imports.ReachedPast files (baseOf start) (Collected files (fun _ => False) front) [start]
          source →
        baseOf source = baseOf start → files.read source = .ok tree → tree.Borrows module name →
        files.pathExists (Imports.modulePath (baseOf source) module) = true →
        source ∈ paths ∧ Imports.modulePath (baseOf source) module ∈ paths) ∧
      (options.excludeNamespaces = [] ∧ options.onlyNamespaces = [] →
        options.excludeFunctions = [] ∧ options.onlyFunctions = [] →
        ∀ n, (Graph.loaded read).1.Listed n → n ∈ prepared.start.nodes) ∧
      ∀ source module name tree g g', Borrowing files paths read source module name tree g g' →
        ∃ n ∈ ((Graph.loaded read).1.group g').nodes,
          ((Graph.loaded read).1.node n).token = name ∧
          ((Graph.loaded read).1.node n).signature.isSome = true ∧
          ∀ definition ∈ (Members.ofTree tree).functions, ∀ expression callee,
            Block.CallsName (definition.trees .body) name expression callee →
            ∃ m ∈ ((Graph.loaded read).1.group g).nodes,
              ((Graph.loaded read).1.node m).token =
                (definition.text? "name").getD "" ∧
              ((Graph.loaded read).1.node m).line = definition.line ∧
              Block.borrowedCall module name expression callee ∈
                ((Graph.loaded read).1.node m).calls ∧
              (m ∈ prepared.start.nodes → n ∈ prepared.start.nodes →
                Borrowed read prepared linked chart module m n
                  (Block.borrowedCall module name expression callee)) := by
  obtain ⟨read, prepared, linked, hRun, rfl⟩ := exists_run_of_build h
  obtain ⟨paths, hOutlined, hPaths⟩ := outlines_spec hRun.reads
  refine ⟨read, prepared, linked, paths, hRun, rfl, hOutlined, ?_,
    fun hNamespaces hFunctions n => hRun.mem_nodes_of_unlimited hNamespaces hFunctions, ?_⟩
  · intro hSkip front start back source tree module name hSources hReached hBase hRead hBorrows
      hExists
    obtain ⟨_, _, hCollected⟩ := hPaths hHeuristics
    rw [hCollected hSkip, hCollected hSkip, hSources]
    rw [hBase] at hExists ⊢
    exact ⟨collected_of_reached hReached,
      collected_of_imported hReached (imported_of_borrows hBorrows hRead hExists)⟩
  · intro source module name tree g g' hBorrowing
    obtain ⟨tree₀, root, functions, imports, hTree, hg, hHolds⟩ :=
      exists_held_of_mem_zip hOutlined hBorrowing.analysed
    cases hBorrowing.reads.symm.trans hTree
    obtain ⟨tree', root', functions', imports', hTree', _, hHolds'⟩ :=
      exists_held_of_mem_zip hOutlined hBorrowing.analysed_module
    obtain ⟨hCount, n, hn, hName⟩ :=
      exists_node_of_definesOnce hHolds' (hBorrowing.once tree' hTree')
    have hMem := hHolds'.mem_nodes hn
    refine ⟨n, hMem, hName, (hHolds'.mem_functions_iff hMem).mp hn, ?_⟩
    intro definition hDefinition expression callee hCalls
    obtain ⟨m, hm, hToken, hLine, hSame⟩ := exists_node_of_definition hHolds hDefinition
    have hCall := calls_of_borrows hBorrowing.borrows
      (Dotted.not_dotted_of_isIdentifier hBorrowing.isIdentifier) hDefinition hCalls source
    rw [← hSame] at hCall
    exact ⟨m, hHolds.mem_nodes hm, hToken, hLine, hCall,
      hBorrowing.borrowed hRun hLegal hg hHolds hHolds'
        (importToken_modulePath _ hBorrowing.isModuleName) hCount hm hn hName hCall⟩

/-- A module with a function that calls a function imported from another. -/
def borrower (module : String) : Tree :=
  .moduleOf [.importFromAt 1 module "f",
    .functionAt 2 "g" [.statementAt 3 (.callAt 3 (.nameAt 3 "f"))]]

/-- A module with the function that is imported. -/
def lender : Tree :=
  .moduleOf [.functionAt 1 "f" [.node (.other "Pass") (some 2) [] []]]

/-- The two modules, the second at a given place. -/
def lendingFiles (module : String) (place : Place) : FileSystem :=
  { entries := [(["a.py"], .file { content := .ok (borrower module) }),
    (place, .file { content := .ok lender })] }

theorem borrows_borrower {module : String} (hne : module ≠ "")
    (hOnly : (borrower module).every (Block.keeps "f" (Dotted.join [module, "f"])) = true) :
    (borrower module).Borrows module "f" where
  module_ne := hne
  imported := ⟨.importFromAt 1 module "f", List.mem_singleton.mpr rfl, rfl, rfl, _,
    List.mem_singleton.mpr rfl, rfl, rfl⟩
  only := hOnly

theorem callsName_borrower :
    Block.CallsName [.statementAt 3 (.callAt 3 (.nameAt 3 "f"))] "f" (.callAt 3 (.nameAt 3 "f"))
      (.nameAt 3 "f") where
  mem := List.mem_flatMap.mpr ⟨_, List.mem_singleton.mpr rfl,
    (Tree.Within.inside (List.mem_singleton.mpr rfl) .refl).mem_walk⟩
  kind := rfl
  func := rfl
  identifier := rfl

/-- Both files of the sample are analysed, and the first borrows from the second. -/
theorem exists_borrowing {module : String} {place : Place} {paths : List String}
    (hOutlined : List.Forall₂ (lendingFiles module place).HasOutline paths read)
    (hReads : (lendingFiles module place).read "a.py" = .ok (borrower module))
    (hLends : (lendingFiles module place).read (Imports.modulePath (baseOf "a.py") module) =
      .ok lender)
    (hBorrows : (borrower module).Borrows module "f") (hName : Dotted.isModuleName module = true)
    (hSource : "a.py" ∈ paths) (hModule : Imports.modulePath (baseOf "a.py") module ∈ paths)
    (hGroups : (Graph.loaded read).1.groups.size = 2 ∧
      ((Graph.loaded read).1.group ⟨0⟩).token = "a" ∧
      Dotted.last module ≠ "a" ∧ module ≠ "a") :
    ∃ g g', Borrowing (lendingFiles module place) paths read "a.py" module "f" (borrower module)
      g g' := by
  have hLength : paths.length ≤ (Graph.loaded read).2.length := by
    rw [length_insertFiles, hOutlined.length_eq]
  obtain ⟨g, hg⟩ := exists_mem_zip hLength hSource
  obtain ⟨g', hg'⟩ := exists_mem_zip hLength hModule
  obtain ⟨_, _, _, _, _, _, hHolds⟩ := exists_held_of_mem_zip hOutlined hg'
  obtain ⟨hSize, hFirst, hLast, hWhole⟩ := hGroups
  -- The group that is not named `a` is the second one.
  have hSecond : ∀ other : GroupId, other.index < 2 →
      ((Graph.loaded read).1.group other).token ≠ "a" → other = ⟨1⟩ := by
    intro other hLt hne
    apply groupId_ext
    by_contra hNot
    have hZero : other = ⟨0⟩ := groupId_ext (show other.index = 0 by simp at hNot; omega)
    exact hne (by rw [hZero, hFirst])
  have hLender : g' = ⟨1⟩ := by
    apply hSecond g' (hSize ▸ hHolds.lt)
    rw [hHolds.token_eq]
    exact (importToken_modulePath _ hName).trans_ne hLast
  refine ⟨g, g', hReads, hg, hBorrows, hg', fun tree' hTree' => ?_, fun other hLt hToken => ?_, hName,
    rfl, by decide⟩
  · cases hLends.symm.trans hTree'
    exact show _ = _ by decide +kernel
  · rw [hLender]
    apply hSecond other (hSize ▸ hLt)
    rcases hToken with hToken | hToken <;> rw [hToken]
    · exact hLast
    · exact hWhole

/-- A module whose name starts and ends alike: the call goes to the function. -/
theorem imported_calls_iff_alike :
    ∃ chart read prepared linked paths g g' n m edge,
      (build (lendingFiles "p.q.p" ["p", "q", "p.py"]) {} (.text "py") ["a.py"]).result = .ok chart ∧
      Run (lendingFiles "p.q.p" ["p", "q", "p.py"]) {} ["a.py"] read prepared linked ∧
      Borrowing (lendingFiles "p.q.p" ["p", "q", "p.py"]) paths read "a.py" "p.q.p" "f"
        (borrower "p.q.p") g g' ∧
      n ∈ ((Graph.loaded read).1.group g').nodes ∧
      ((Graph.loaded read).1.node n).token = "f" ∧
      m ∈ ((Graph.loaded read).1.group g).nodes ∧
      ((Graph.loaded read).1.node m).token = "g" ∧
      edge ∈ chart.edges ∧ edge.source = m ∧ edge.target = n := by
  have hLegal : (lendingFiles "p.q.p" ["p", "q", "p.py"]).AllLegal :=
    FileSystem.allLegal_of_trees (by decide +kernel)
  obtain ⟨chart, hChart, _⟩ := exists_ok_of_any
    (show (build (lendingFiles "p.q.p" ["p", "q", "p.py"]) {} (.text "py")
      ["a.py"]).result.toOption.any (fun _ => true) = true by decide +kernel)
  obtain ⟨read, prepared, linked, paths, hRun, _, hOutlined, hFollow, hAll, hCalls⟩ :=
    imported_calls_iff hLegal rfl hChart
  have hGroups := hRun.test_of_passes
    (show passes (lendingFiles "p.q.p" ["p", "q", "p.py"]) {} ["a.py"] (fun read _ _ =>
      decide ((Graph.loaded read).1.groups.size = 2 ∧
        ((Graph.loaded read).1.group ⟨0⟩).token = "a" ∧
        Dotted.last "p.q.p" ≠ "a" ∧ "p.q.p" ≠ "a")) = true by decide +kernel)
  have hBorrows : (borrower "p.q.p").Borrows "p.q.p" "f" :=
    borrows_borrower (by decide) (by decide +kernel)
  obtain ⟨hSource, hModule⟩ := hFollow rfl [] "a.py" [] "a.py" _ "p.q.p" "f" rfl
    (.start List.mem_cons_self not_false) rfl rfl hBorrows (by decide +kernel)
  obtain ⟨g, g', hBorrowing⟩ := exists_borrowing hOutlined rfl rfl hBorrows (by decide +kernel)
    hSource hModule (of_decide_eq_true hGroups)
  obtain ⟨n, hn, hName, _, hDefinitions⟩ := hCalls _ _ _ _ g g' hBorrowing
  obtain ⟨m, hm, hToken, _, _, hBorrowed⟩ := hDefinitions
    (.functionAt 2 "g" [.statementAt 3 (.callAt 3 (.nameAt 3 "f"))]) (List.mem_singleton.mpr rfl) _ _
    callsName_borrower
  have hLinked := hBorrowed (hAll ⟨rfl, rfl⟩ ⟨rfl, rfl⟩ m ⟨g, hm⟩)
    (hAll ⟨rfl, rfl⟩ ⟨rfl, rfl⟩ n ⟨g', hn⟩)
  obtain ⟨edge, hEdge⟩ := hLinked.has_edge
  obtain ⟨hFrom, hIff, hDrawn, _⟩ := hLinked.leads edge hEdge
  have hTo : edge.target = n := hIff.mpr (by decide +kernel)
  exact ⟨chart, read, prepared, linked, paths, g, g', n, m, edge, hChart, hRun, hBorrowing, hn, hName,
    hm, hToken, hDrawn hTo, hFrom, hTo⟩

/-- A module in a package: its file is analysed, but the call goes to a library node, and no edge is
drawn. -/
theorem imported_call_lost_package :
    ∃ chart read prepared linked paths g g',
      (build (lendingFiles "p.q" ["p", "q.py"]) {} (.text "py") ["a.py"]).result = .ok chart ∧
      Run (lendingFiles "p.q" ["p", "q.py"]) {} ["a.py"] read prepared linked ∧
      Borrowing (lendingFiles "p.q" ["p", "q.py"]) paths read "a.py" "p.q" "f" (borrower "p.q")
        g g' ∧
      linked.edges.map (fun edge => ((linked.graph.node edge.source).token,
        (linked.graph.node edge.target).token, (linked.graph.node edge.target).isLibrary)) =
        [("g", "f", true)] ∧
      chart.edges = [] := by
  obtain ⟨chart, hChart, hEdges⟩ := exists_ok_of_any
    (show (build (lendingFiles "p.q" ["p", "q.py"]) {} (.text "py") ["a.py"]).result.toOption.any
      (fun chart => chart.edges == []) = true by decide +kernel)
  obtain ⟨read, prepared, linked, hRun, _⟩ := exists_run_of_build hChart
  obtain ⟨paths, hOutlined, hPaths⟩ := outlines_spec hRun.reads
  obtain ⟨_, _, hCollected⟩ := hPaths rfl
  have hTest := hRun.test_of_passes
    (show passes (lendingFiles "p.q" ["p", "q.py"]) {} ["a.py"] (fun read _ linked =>
      decide ((Graph.loaded read).1.groups.size = 2 ∧
        ((Graph.loaded read).1.group ⟨0⟩).token = "a" ∧
        Dotted.last "p.q" ≠ "a" ∧ "p.q" ≠ "a") &&
      linked.edges.map (fun edge => ((linked.graph.node edge.source).token,
        (linked.graph.node edge.target).token, (linked.graph.node edge.target).isLibrary)) ==
        [("g", "f", true)]) = true by decide +kernel)
  rw [Bool.and_eq_true] at hTest
  have hBorrows : (borrower "p.q").Borrows "p.q" "f" :=
    borrows_borrower (by decide) (by decide +kernel)
  have hImported : Imports.Imported (lendingFiles "p.q" ["p", "q.py"]) (baseOf "a.py") "a.py"
      (Imports.modulePath (baseOf "a.py") "p.q") :=
    imported_of_borrows hBorrows rfl (by decide +kernel)
  have hModule := (hCollected rfl _).mpr
    (@collected_of_imported _ [] _ _ _ _ (.start List.mem_cons_self not_false) hImported)
  have hSource := (hCollected rfl "a.py").mpr (collected_of_mem List.mem_cons_self not_false)
  obtain ⟨g, g', hBorrowing⟩ := exists_borrowing hOutlined rfl rfl hBorrows (by decide +kernel)
    hSource hModule (of_decide_eq_true hTest.1)
  exact ⟨chart, read, prepared, linked, paths, g, g', hChart, hRun, hBorrowing, eq_of_beq hTest.2,
    by simpa using hEdges⟩

end CallMap

end CallGraph
