import CallGraph.Proofs.Borrowing

/-!
# Imported classes

A call of a class that was imported from an analysed module is a library call, like that of an
imported function. It is looked up by the name of the class, and constructors have names of their
own. So the constructor is never found; what is found is a library node that was made for the call
before. Whatever else is true of the two files, no such call is linked to the constructor, and its
edge is drawn only if library nodes are shown (`imported_constructors_missed`).

## Main definitions

* `Tree.HasBlock` — the bodies of the functions of a module, and the code outside of them.
* `Tree.DefinesConstructor` — a module defines a class that has a constructor.
* `CallMap.Constructing` — an analysed file imports a class from another.

## Main results

* `exists_node_of_block` — the node that makes the calls of a block.
* `isLibrary_of_token` — a name that no function has belongs to library nodes only.
* `imported_constructors_missed` — where calls of imported classes lead.
-/

namespace CallGraph

open CallGraph.Graph

/-! ## Blocks and classes of a module -/

/-- A block of a module that is no part of a class: the body of a function, or the code outside all
functions. Its calls are made by a node of the given name and line. -/
inductive Tree.HasBlock (tree : Tree) : String → Option Int → List Tree → Prop
  | function {definition : Tree} (h : definition ∈ (Members.ofTree tree).functions) :
      HasBlock tree ((definition.text? "name").getD "") definition.line (definition.trees .body)
  | outside : HasBlock tree "(global)" (some 0)
      ((Members.ofTree tree).body ++ (Members.ofTree tree).imports)

/-- A module defines a class of a name, outside other classes, with a constructor. -/
def Tree.DefinesConstructor (tree : Tree) (name : String) : Prop :=
  ∃ definition ∈ (Members.ofTree tree).classes,
    (definition.definition.text? "name").getD "" = name ∧
    ∃ method ∈ definition.members.functions, (method.text? "name").getD "" = "__init__"

section Held

variable {tree : Tree} {path : String} {g : GroupId} {root : NodeId}
variable {functions imports : List NodeId} {loaded : Graph}

/-- A block has a node, which makes the calls of all names it imports. -/
theorem exists_node_of_block
    (hHolds : loaded.Holds (FileOutline.ofTree tree path) g root functions imports)
    {token : String} {line : Option Int} {statements : List Tree}
    (hBlock : tree.HasBlock token line statements) {module name asName : String}
    (hBorrows : tree.BorrowsAs module name asName) (hName : Dotted.isDotted name = false)
    {expression callee : Tree} (hCalls : Block.CallsName statements asName expression callee) :
    ∃ m ∈ (loaded.group g).nodes, (loaded.node m).token = token ∧ (loaded.node m).line = line ∧
      Block.borrowedCall module name expression callee ∈ (loaded.node m).calls := by
  cases hBlock with
  | function hDefinition =>
      obtain ⟨m, hm, hToken, hLine, hSame⟩ :=
        CallMap.exists_node_of_definition hHolds hDefinition
      refine ⟨m, hHolds.mem_nodes hm, hToken, hLine, ?_⟩
      rw [hSame]
      exact hBorrows.mem_calls_function hName hDefinition hCalls path
  | outside =>
      obtain ⟨_, _, hRoot⟩ := hHolds.root_at
      refine ⟨root, ?_, by rw [hRoot]; rfl, by rw [hRoot]; rfl, ?_⟩
      · rw [hHolds.nodes_eq]
        exact List.mem_cons_self
      · rw [hRoot]
        exact hBorrows.mem_calls_global hName hCalls path

/-- A constructor has a node in the group of its class. -/
theorem exists_constructor_node
    (hHolds : loaded.Holds (FileOutline.ofTree tree path) g root functions imports) {name : String}
    (h : tree.DefinesConstructor name) :
    ∃ c, (loaded.group c).parent = some g ∧ (loaded.group c).token = name ∧
      ∃ k ∈ (loaded.group c).nodes, (loaded.node k).token = "__init__" ∧
        (loaded.node k).isConstructor = true ∧ (loaded.node k).isLibrary = false := by
  obtain ⟨definition, hDefinition, rfl, method, hMethod, hInit⟩ := h
  obtain ⟨c, methods, hClass⟩ := hHolds.classes_at
    (ClassOutline.ofMembers (FileOutline.ofTree tree path).scope definition)
    (List.mem_map_of_mem hDefinition)
  obtain ⟨statement, classes, functions, body, imports⟩ := definition
  refine ⟨c, hClass.parent_eq, hClass.token_eq, ?_⟩
  have hMap := map_of_isAt hClass.methods_at
    (fun node => (node.token, node.isConstructor, node.isLibrary))
  have hMem : ("__init__", true, false) ∈
      methods.map fun n => ((loaded.node n).token, (loaded.node n).isConstructor,
        (loaded.node n).isLibrary) := by
    rw [hMap, List.map_map]
    refine List.mem_map.mpr
      ⟨FunctionOutline.ofTree true (FileOutline.ofTree tree path).scope method,
        List.mem_map_of_mem hMethod, ?_⟩
    simp [functionNode, FunctionOutline.isConstructor, FunctionOutline.ofTree, hInit]
  obtain ⟨k, hk, hSame⟩ := List.mem_map.mp hMem
  rw [hClass.nodes_eq]
  simp only [Prod.mk.injEq] at hSame
  exact ⟨k, hk, hSame⟩

end Held

/-! ## Names that no function has -/

/-- What every loaded node is: a function, the code outside all functions, or a library node. -/
def kindProperties : Properties where
  node node := node.signature.isSome = true ∨ node.token = "(global)" ∨ node.isLibrary = true
  group _ := True
  node_serial _ h := h
  group_contents _ _ _ _ _ h := h

theorem kindProperties_ofFile (file : FileOutline) : kindProperties.OfFile file where
  group := trivial
  root _ := Or.inr (Or.inl rfl)
  functions _ _ _ _ := Or.inl rfl
  classes c _ := ClassOutline.every_of_all (fun _ _ _ => Or.inl rfl) (fun _ _ => trivial) c
  imports _ _ _ _ := Or.inr (Or.inr rfl)

theorem kind_of_loaded (read : List FileOutline) {n : NodeId}
    (hn : n.index < (Graph.loaded read).1.nodes.size) :
    kindProperties.node ((Graph.loaded read).1.node n) :=
  (loading_loaded fun file (_ : file ∈ read) => kindProperties_ofFile file).node_want n hn

namespace CallMap

variable {files : FileSystem} {options : Options} {sources : List String}
variable {read : List FileOutline} {prepared : Prepared} {linked : Linking}
variable {ns : List NodeId} {settled : Graph}

/-- If no function has a name, the nodes that have it are library nodes. -/
theorem Prepares.isLibrary_of_token (h : Prepares options read ns settled prepared) {name : String}
    (hGlobal : name ≠ "(global)") (hNone : ∀ n, (Graph.loaded read).1.Listed n →
      ((Graph.loaded read).1.node n).signature.isSome = true →
        ((Graph.loaded read).1.node n).token ≠ name)
    {target : NodeId} (hTarget : target ∈ prepared.start.nodes)
    (hToken : (prepared.start.graph.node target).token = name) :
    (prepared.start.graph.node target).isLibrary = true := by
  obtain ⟨others, hLined⟩ := h.lined
  rw [hLined.nodes_eq] at hTarget
  rcases List.mem_append.mp hTarget with hOwn | hNew
  · have hListed := hLined.own_loaded target hOwn
    have hLt := (loading_insertFiles read).lt_of_listed hListed
    rw [h.node_field (.refl _) Node.token hLt] at hToken
    rw [h.node_field (.refl _) Node.isLibrary hLt]
    rcases kind_of_loaded read hLt with hFunction | hOutside | hLibrary
    · exact absurd hToken (hNone target hListed hFunction)
    · exact absurd (hToken.symm.trans hOutside) hGlobal
    · exact hLibrary
  · exact (hLined.others_new target hNew).2

/-! ## Imported classes -/

/-- An analysed file imports a class under some name from another analysed file, in which the class
has a constructor; no function of the analysed files has the name of the class. -/
structure Constructing (files : FileSystem) (paths : List String) (read : List FileOutline)
    (source module name asName : String) (tree : Tree) (g g' : GroupId) : Prop where
  reads : files.read source = .ok tree
  analysed : (source, g) ∈ paths.zip (Graph.loaded read).2
  borrows : tree.BorrowsAs module name asName
  analysed_module :
    (Imports.modulePath (baseOf source) module, g') ∈ paths.zip (Graph.loaded read).2
  constructs : ∀ tree', files.read (Imports.modulePath (baseOf source) module) = .ok tree' →
    tree'.DefinesConstructor name
  none : ∀ n, (Graph.loaded read).1.Listed n →
    ((Graph.loaded read).1.node n).signature.isSome = true →
      ((Graph.loaded read).1.node n).token ≠ name
  isIdentifier : Dotted.isIdentifier name = true
  /-- This is how the code outside all functions is called. -/
  ne_global : name ≠ "(global)"

/-- How the call of an imported class is linked, where `m` makes the call and `k` is the
constructor: the call has an edge, which leads to a library node, and is drawn only where these are
shown. -/
structure Missed (options : Options) (prepared : Prepared) (linked : Linking) (chart : Chart)
    (m k : NodeId) (call : Call) : Prop where
  has_edge : ∃ edge, ((m, call), edge) ∈
    (Linking.ownedCalls prepared.start.graph prepared.start.nodes).zip linked.edges
  leads : ∀ edge, ((m, call), edge) ∈
      (Linking.ownedCalls prepared.start.graph prepared.start.nodes).zip linked.edges →
    edge.source = m ∧ edge.target ≠ k ∧ (linked.graph.node edge.target).isLibrary = true ∧
      (edge ∈ chart.edges ↔ options.noTrimming = true ∨ options.showLibraries = true)

/-- The calls of an imported class are linked as `Missed` says. -/
theorem Run.missed (h : Run files options sources read prepared linked) (hLegal : files.AllLegal)
    {module name : String} (hGlobal : name ≠ "(global)")
    (hNone : ∀ n, (Graph.loaded read).1.Listed n →
      ((Graph.loaded read).1.node n).signature.isSome = true →
        ((Graph.loaded read).1.node n).token ≠ name)
    {g c : GroupId} (hg : g ∈ (Graph.loaded read).2) {m k : NodeId}
    (hm : m ∈ ((Graph.loaded read).1.group g).nodes)
    (hk : k ∈ ((Graph.loaded read).1.group c).nodes)
    (hLibrary : ((Graph.loaded read).1.node k).isLibrary = false)
    {expression callee : Tree} (hCall : Block.borrowedCall module name expression callee ∈
      ((Graph.loaded read).1.node m).calls)
    (hStart : m ∈ prepared.start.nodes) :
    Missed options prepared linked (cut options (chartOf linked.withMissing)) m k
      (Block.borrowedCall module name expression callee) := by
  obtain ⟨ns, settled, hPrepares⟩ := exists_of_prepare h.prepares
  obtain ⟨_, hStarted, _⟩ := hPrepares.started
  obtain ⟨_, hProgress, _⟩ := h.links.progress
  have hLoaded := loading_insertFiles read
  refine ⟨h.exists_edge hStart ?_, fun edge hPair => ?_⟩
  · rw [hPrepares.node_field (.refl _) Node.calls (hLoaded.listed_lt hm)]
    exact hCall
  · obtain ⟨hSource, front, back, hSplit, hOffers, _⟩ := h.target_spec hLegal hg hm rfl rfl hPair
    have hTarget : edge.target ∈ prepared.start.nodes := by
      rw [hSplit]
      exact List.mem_append_right _ List.mem_cons_self
    have hFound : (linked.graph.node edge.target).isLibrary = true := by
      rw [hProgress.grows.node_field Node.isLibrary (hStarted.valid.node_lt _ hTarget)]
      exact hPrepares.isLibrary_of_token hGlobal hNone hTarget hOffers.1
    have hConstructor : (linked.graph.node k).isLibrary = false := by
      rw [hPrepares.node_field hProgress.grows Node.isLibrary (hLoaded.listed_lt hk)]
      exact hLibrary
    refine ⟨hSource, fun hSame => ?_, hFound, ?_⟩
    · rw [hSame, hConstructor] at hFound
      exact Bool.false_ne_true hFound
    · rw [h.mem_edges_cut_iff (List.of_mem_zip hPair).2, hFound]
      simp

/--
Calls of imported classes never reach the constructor. Following a source takes in the files of all
modules from which the files of its directory import something. If such a file defines a class with
a constructor, and no function has the name of the class, then the constructor has a node, and every
plain call of the class, in a function of the importing file or outside of them and under whichever
name it was imported, has an edge that leads to a library node instead.
-/
theorem imported_constructors_missed {language : Value} {chart : Chart} (hLegal : files.AllLegal)
    (hHeuristics : options.heuristics = true)
    (h : (build files options language sources).result = .ok chart) :
    ∃ read prepared linked paths, Run files options sources read prepared linked ∧
      chart = cut options (chartOf linked.withMissing) ∧
      List.Forall₂ files.HasOutline paths read ∧
      (options.skipParseErrors = false → ∀ front start back source tree module name asName,
        sources = front ++ start :: back →
        Imports.ReachedPast files (baseOf start) (Collected files (fun _ => False) front) [start]
          source →
        baseOf source = baseOf start → files.read source = .ok tree →
        tree.BorrowsAs module name asName →
        files.pathExists (Imports.modulePath (baseOf source) module) = true →
        source ∈ paths ∧ Imports.modulePath (baseOf source) module ∈ paths) ∧
      (options.excludeNamespaces = [] ∧ options.onlyNamespaces = [] →
        options.excludeFunctions = [] ∧ options.onlyFunctions = [] →
        ∀ n, (Graph.loaded read).1.Listed n → n ∈ prepared.start.nodes) ∧
      ∀ source module name asName tree g g',
        Constructing files paths read source module name asName tree g g' →
        ∃ c, ((Graph.loaded read).1.group c).parent = some g' ∧
          ((Graph.loaded read).1.group c).token = name ∧
          ∃ k ∈ ((Graph.loaded read).1.group c).nodes,
            ((Graph.loaded read).1.node k).token = "__init__" ∧
            ((Graph.loaded read).1.node k).isConstructor = true ∧
            ∀ token line statements, tree.HasBlock token line statements →
              ∀ expression callee, Block.CallsName statements asName expression callee →
              ∃ m ∈ ((Graph.loaded read).1.group g).nodes,
                ((Graph.loaded read).1.node m).token = token ∧
                ((Graph.loaded read).1.node m).line = line ∧
                Block.borrowedCall module name expression callee ∈
                  ((Graph.loaded read).1.node m).calls ∧
                (m ∈ prepared.start.nodes → Missed options prepared linked chart m k
                  (Block.borrowedCall module name expression callee)) := by
  obtain ⟨read, prepared, linked, hRun, rfl⟩ := exists_run_of_build h
  obtain ⟨paths, hOutlined, hPaths⟩ := outlines_spec hRun.reads
  refine ⟨read, prepared, linked, paths, hRun, rfl, hOutlined, ?_,
    fun hNamespaces hFunctions n => hRun.mem_nodes_of_unlimited hNamespaces hFunctions, ?_⟩
  · intro hSkip front start back source tree module name asName hSources hReached hBase hRead
      hBorrows hExists
    obtain ⟨_, _, hCollected⟩ := hPaths hHeuristics
    rw [hCollected hSkip, hCollected hSkip, hSources]
    rw [hBase] at hExists ⊢
    exact ⟨collected_of_reached hReached,
      collected_of_imported hReached (imported_of_borrowsAs hBorrows hRead hExists)⟩
  · intro source module name asName tree g g' hConstructing
    obtain ⟨tree₀, root, functions, imports, hTree, hg, hHolds⟩ :=
      exists_held_of_mem_zip hOutlined hConstructing.analysed
    cases hConstructing.reads.symm.trans hTree
    obtain ⟨tree', root', functions', imports', hTree', _, hHolds'⟩ :=
      exists_held_of_mem_zip hOutlined hConstructing.analysed_module
    obtain ⟨c, hParent, hClass, k, hk, hInit, hConstructor, hLibrary⟩ :=
      exists_constructor_node hHolds' (hConstructing.constructs tree' hTree')
    refine ⟨c, hParent, hClass, k, hk, hInit, hConstructor, ?_⟩
    intro token line statements hBlock expression callee hCalls
    obtain ⟨m, hm, hToken, hLine, hCall⟩ := exists_node_of_block hHolds hBlock
      hConstructing.borrows (Dotted.not_dotted_of_isIdentifier hConstructing.isIdentifier) hCalls
    exact ⟨m, hm, hToken, hLine, hCall, fun hStart => hRun.missed hLegal hConstructing.ne_global
      hConstructing.none hg hm hk hLibrary hCall hStart⟩

/-! ## A small program -/

/-- A module that imports a class as `A` and calls it in a function and outside of it. -/
def classUser : Tree :=
  .moduleOf [
    .node .importFrom (some 1) [("module", .text "m")]
      [.filled .names (.node (.other "alias") (some 1)
        [("name", .text "C"), ("asname", .text "A")] [])],
    .functionAt 2 "f" [.statementAt 3 (.callAt 3 (.nameAt 3 "A"))],
    .statementAt 4 (.callAt 4 (.nameAt 4 "A"))]

/-- A module with the class. -/
def classMaker : Tree :=
  .moduleOf [.classAt 1 "C" [.functionAt 2 "__init__" [.passAt 3]]]

def classFiles : FileSystem :=
  { entries := [(["a.py"], .file { content := .ok classUser }),
    (["m.py"], .file { content := .ok classMaker })] }

theorem borrowsAs_classUser : classUser.BorrowsAs "m" "C" "A" where
  module_ne := by decide
  imported := ⟨_, List.mem_cons_self, rfl, rfl, _, List.mem_singleton.mpr rfl, rfl, rfl⟩
  only := by decide +kernel

/-- Whether no function has the name of the class. -/
def hasNoFunctionC (loaded : Graph) : Bool :=
  (List.range loaded.nodes.size).all fun i =>
    !((loaded.node ⟨i⟩).signature.isSome && decide ((loaded.node ⟨i⟩).token = "C"))

/-- Both files of the sample are analysed, and the first imports the class of the second. -/
theorem exists_constructing {paths : List String}
    (hOutlined : List.Forall₂ classFiles.HasOutline paths read)
    (hSource : "a.py" ∈ paths) (hModule : Imports.modulePath (baseOf "a.py") "m" ∈ paths)
    (hNone : hasNoFunctionC (Graph.loaded read).1 = true) :
    ∃ g g', Constructing classFiles paths read "a.py" "m" "C" "A" classUser g g' := by
  have hLength : paths.length ≤ (Graph.loaded read).2.length := by
    rw [length_insertFiles, hOutlined.length_eq]
  obtain ⟨g, hg⟩ := exists_mem_zip hLength hSource
  obtain ⟨g', hg'⟩ := exists_mem_zip hLength hModule
  refine ⟨g, g', rfl, hg, borrowsAs_classUser, hg', fun tree' hTree' => ?_, fun n hn hSome => ?_,
    rfl, by decide⟩
  · have hMaker : classFiles.read (Imports.modulePath (baseOf "a.py") "m") = .ok classMaker := rfl
    cases hMaker.symm.trans hTree'
    exact ⟨_, List.mem_singleton.mpr rfl, rfl, _, List.mem_singleton.mpr rfl, rfl⟩
  · have hNode := List.all_eq_true.mp hNone n.index
      (List.mem_range.mpr ((loading_insertFiles read).lt_of_listed hn))
    simpa [hSome] using hNode

/-- Both calls of the sample miss the constructor. -/
theorem imported_constructors_missed_alias :
    ∃ chart read prepared linked paths g g' k m m' call call',
      (build classFiles {} (.text "py") ["a.py"]).result = .ok chart ∧
      Run classFiles {} ["a.py"] read prepared linked ∧
      Constructing classFiles paths read "a.py" "m" "C" "A" classUser g g' ∧
      ((Graph.loaded read).1.node k).token = "__init__" ∧
      ((Graph.loaded read).1.node m).token = "f" ∧
      ((Graph.loaded read).1.node m').token = "(global)" ∧
      Missed {} prepared linked chart m k call ∧ Missed {} prepared linked chart m' k call' := by
  have hLegal : classFiles.AllLegal := FileSystem.allLegal_of_trees (by decide +kernel)
  obtain ⟨chart, hChart, _⟩ := exists_ok_of_any
    (show (build classFiles {} (.text "py") ["a.py"]).result.toOption.any (fun _ => true) = true by
      decide +kernel)
  obtain ⟨read, prepared, linked, paths, hRun, _, hOutlined, hFollow, hAll, hCalls⟩ :=
    imported_constructors_missed hLegal rfl hChart
  obtain ⟨hSource, hModule⟩ := hFollow rfl [] "a.py" [] "a.py" _ "m" "C" "A" rfl
    (.start List.mem_cons_self not_false) rfl rfl borrowsAs_classUser (by decide +kernel)
  have hNone := hRun.test_of_passes (show passes classFiles {} ["a.py"] (fun read _ _ =>
    hasNoFunctionC (Graph.loaded read).1) = true by decide +kernel)
  obtain ⟨g, g', hConstructing⟩ := exists_constructing hOutlined hSource hModule hNone
  obtain ⟨c, _, _, k, hk, hInit, _, hBlocks⟩ := hCalls _ _ _ _ _ g g' hConstructing
  obtain ⟨m, hm, hToken, _, _, hMissed⟩ := hBlocks _ _ _
    (.function (List.mem_singleton.mpr rfl)) (.callAt 3 (.nameAt 3 "A")) (.nameAt 3 "A")
    ⟨List.mem_flatMap.mpr ⟨_, List.mem_singleton.mpr rfl,
      (Tree.Within.inside (List.mem_singleton.mpr rfl) .refl).mem_walk⟩, rfl, rfl, rfl⟩
  obtain ⟨m', hm', hToken', _, _, hMissed'⟩ := hBlocks _ _ _ .outside (.callAt 4 (.nameAt 4 "A"))
    (.nameAt 4 "A") ⟨List.mem_flatMap.mpr ⟨_, List.mem_cons_of_mem _ (List.mem_singleton.mpr rfl),
      (Tree.Within.inside (List.mem_singleton.mpr rfl) .refl).mem_walk⟩, rfl, rfl, rfl⟩
  exact ⟨chart, read, prepared, linked, paths, g, g', k, m, m', _, _, hChart, hRun, hConstructing,
    hInit, hToken, hToken', hMissed (hAll ⟨rfl, rfl⟩ ⟨rfl, rfl⟩ m ⟨g, hm⟩),
    hMissed' (hAll ⟨rfl, rfl⟩ ⟨rfl, rfl⟩ m' ⟨g, hm'⟩)⟩

/-- The constructor is analysed, but both calls lead to library nodes, and nothing is drawn. -/
theorem imported_constructor_lost :
    ∃ chart read prepared linked paths g g',
      (build classFiles {} (.text "py") ["a.py"]).result = .ok chart ∧
      Run classFiles {} ["a.py"] read prepared linked ∧
      Constructing classFiles paths read "a.py" "m" "C" "A" classUser g g' ∧
      linked.edges.map (fun edge => ((linked.graph.node edge.source).token,
        (linked.graph.node edge.target).token, (linked.graph.node edge.target).isLibrary)) =
        [("(global)", "C", true), ("f", "C", true)] ∧
      chart.edges = [] := by
  obtain ⟨chart, hChart, hEdges⟩ := exists_ok_of_any
    (show (build classFiles {} (.text "py") ["a.py"]).result.toOption.any
      (fun chart => chart.edges == []) = true by decide +kernel)
  obtain ⟨read, prepared, linked, hRun, _⟩ := exists_run_of_build hChart
  obtain ⟨paths, hOutlined, hPaths⟩ := outlines_spec hRun.reads
  obtain ⟨_, _, hCollected⟩ := hPaths rfl
  have hTest := hRun.test_of_passes (show passes classFiles {} ["a.py"] (fun read _ linked =>
      hasNoFunctionC (Graph.loaded read).1 &&
      linked.edges.map (fun edge => ((linked.graph.node edge.source).token,
        (linked.graph.node edge.target).token, (linked.graph.node edge.target).isLibrary)) ==
        [("(global)", "C", true), ("f", "C", true)]) = true by decide +kernel)
  rw [Bool.and_eq_true] at hTest
  have hImported : Imports.Imported classFiles (baseOf "a.py") "a.py"
      (Imports.modulePath (baseOf "a.py") "m") :=
    imported_of_borrowsAs borrowsAs_classUser rfl (by decide +kernel)
  have hModule := (hCollected rfl _).mpr
    (@collected_of_imported _ [] _ _ _ _ (.start List.mem_cons_self not_false) hImported)
  have hSource := (hCollected rfl "a.py").mpr (collected_of_mem List.mem_cons_self not_false)
  obtain ⟨g, g', hConstructing⟩ := exists_constructing hOutlined hSource hModule hTest.1
  exact ⟨chart, read, prepared, linked, paths, g, g', hChart, hRun, hConstructing,
    eq_of_beq hTest.2, by simpa using hEdges⟩

end CallMap

end CallGraph
