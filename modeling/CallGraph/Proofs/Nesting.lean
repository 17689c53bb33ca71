import CallGraph.Proofs.Definitions
import CallGraph.Proofs.Mirroring

/-!
# Imported names at every depth

A module imports a name. Functions of the module, methods of its classes, methods of classes inside
classes, and so on, may all call it, or call something on it. Which of them are read as calls of what
was imported depends on the depth alone: functions and methods of classes that stand in the module
see the module, and everything deeper does not. In a method `self` is never an import.

The functions at a depth are found in the source and in the group of the file alike, and each node is
read from its definition, in the scope that is seen at its depth (`functionsAt_of_mirrors`). The rest
is about one function: what the scopes say about the name (`lookup?_scopes`), and what is made of a
call then (`readsName_of_lookup?`).

## Main definitions

* `Tree.functionsAt`, `Graph.functionsAt` — the functions at a depth.
* `Tree.ImportsAtTop` — a module imports a name and does not bind it otherwise.
* `Node.ReadsName` — how a node reads the calls that name something.

## Main results

* `imported_name_at_depth` — how calls of an imported name are read at each depth.
-/

namespace CallGraph

/-! ## The functions at a depth -/

/-- The function definitions at a depth of classes inside each other. -/
def Tree.functionsAt : Nat → Tree → List Tree
  | 0, tree => tree.functions
  | depth + 1, tree => tree.classes.flatMap (functionsAt depth)

namespace Graph

variable {graph : Graph}

/-- The nodes of functions at a depth of groups inside each other. -/
def functionsAt (graph : Graph) : Nat → GroupId → List NodeId
  | 0, g => (graph.group g).nodes.filter fun n => (graph.node n).signature.isSome
  | depth + 1, g => (graph.group g).subgroups.flatMap (functionsAt graph depth)

section Mirrored

variable {isFunction : Nat → GroupId → NodeId → Tree → Prop}
  (hSignature : ∀ depth g n definition, isFunction depth g n definition →
    (graph.node n).signature.isSome = true)
include hSignature

theorem filter_signature {depth : Nat} {g : GroupId} {nodes : List NodeId} {definitions : List Tree}
    (h : List.Forall₂ (isFunction depth g) nodes definitions) :
    nodes.filter (fun n => (graph.node n).signature.isSome) = nodes := by
  apply List.filter_eq_self.mpr
  exact ((List.forall₂_and_left _ _).mp
    (h.imp fun n definition hIs => ⟨hSignature depth g n definition hIs, hIs⟩)).1

/-- The functions below a class, at each depth in source order. -/
theorem MirrorsClass.functionsAt {depth : Nat} {g : GroupId} {definition : Tree}
    (h : graph.MirrorsClass isFunction depth g definition) (more : Nat) :
    List.Forall₂ (fun n function => ∃ p, isFunction (depth + more) p n function)
      (graph.functionsAt more g) (definition.functionsAt more) := by
  induction h generalizing more with
  | mk isClass methods nodup parents count inside ih =>
      cases more with
      | zero =>
          rw [Graph.functionsAt, filter_signature hSignature methods]
          exact methods.imp fun _ _ hIs => ⟨_, hIs⟩
      | succ more =>
          rw [Graph.functionsAt, Tree.functionsAt, Nat.add_comm more 1, ← Nat.add_assoc]
          exact List.rel_flatMap (List.forall₂_iff_zip.mpr ⟨count, fun hPair => ih _ hPair more⟩)
            fun _ _ hBelow => hBelow

theorem MirrorsFile.functionsAt {g : GroupId} {tree : Tree} {path : String}
    (h : graph.MirrorsFile isFunction g tree path) (depth : Nat) :
    List.Forall₂ (fun n function => ∃ p, isFunction depth p n function)
      (graph.functionsAt depth g) (tree.functionsAt depth) := by
  cases depth with
  | zero =>
      obtain ⟨root, functions, imports, hNodes, _, hRoot, hFunctions, hImports⟩ := h.nodes
      have hNone : imports.filter (fun n => (graph.node n).signature.isSome) = [] := by
        apply List.filter_eq_nil_iff.mpr
        have hAll : ∀ n ∈ imports, (graph.node n).signature = none :=
          ((List.forall₂_and_left _ _).mp
            (hImports.imp fun _ _ hIs => ⟨hIs.signature_eq, hIs⟩)).1
        intro n hn
        rw [hAll n hn]
        exact Bool.false_ne_true
      rw [Graph.functionsAt, hNodes, List.filter_cons_of_neg (by rw [hRoot.signature_eq]; simp),
        List.filter_append, hNone, filter_signature hSignature hFunctions, List.append_nil]
      exact hFunctions.imp fun _ _ hIs => ⟨g, hIs⟩
  | succ depth =>
      rw [Graph.functionsAt, Tree.functionsAt, Nat.add_comm depth 1]
      exact List.rel_flatMap h.classes fun _ _ hClass => hClass.functionsAt hSignature depth

end Mirrored

/-- Every function of a loaded file, at every depth, is read from its definition. -/
theorem functionsAt_of_mirrors (graph : Graph) (tree : Tree) (path : String) (depth : Nat) :
    List.Forall₂ (fun n function => ∃ g, (graph.insertFile (.ofTree tree path)).1.IsRead
        (FileOutline.ofTree tree path).scope depth g n function)
      ((graph.insertFile (.ofTree tree path)).1.functionsAt depth
        (graph.insertFile (.ofTree tree path)).2) (tree.functionsAt depth) := by
  apply (insertFile_mirrors graph tree path).functionsAt
  rintro _ _ _ _ ⟨_, _, hNode⟩
  rw [hNode]
  rfl

end Graph

/-! ## The scope of a module -/

/-- A module imports a name by a statement of its own, and the code outside its functions binds it in
no other way. -/
structure Tree.ImportsAtTop (tree : Tree) (name target : String) : Prop where
  imported : ∃ statement ∈ tree.trees .body, statement.trees .body = [] ∧
    Block.BindsImport name target statement
  only : ∀ statement ∈ (tree.statements [.body]).filter isPlain ++ tree.imports,
    ∀ t ∈ statement.walk, Block.keeps name target t = true

/-- The scope of a module knows the names it imports. -/
theorem Tree.ImportsAtTop.get?_scope {tree : Tree} {name target : String}
    (h : tree.ImportsAtTop name target) (path : String) :
    (FileOutline.ofTree tree path).scope.get? name = some (.name target) := by
  obtain ⟨statement, hStatement, hLeaf, hBinds⟩ := h.imported
  have hMem : statement ∈ (tree.statements [.body]).filter isPlain ++ tree.imports := by
    rcases hBinds.1 with hKind | hKind
    · exact List.mem_append_right _ (List.mem_filter.mpr ⟨hStatement, decide_eq_true hKind⟩)
    · refine List.mem_append_left _ (List.mem_filter.mpr ⟨?_, ?_⟩)
      · refine List.mem_flatMap.mpr ⟨statement, hStatement, ?_⟩
        rw [flat_of_branches_nil (by rw [branches_body, hLeaf])]
        exact List.mem_singleton_self statement
      · simp [isPlain, standsAlone, definesFunction, definesClass, importsModules, hKind]
  have hScope : (FileOutline.ofTree tree path).scope = (Block.boundAll [] []
      (((tree.statements [.body]).filter isPlain ++ tree.imports).flatMap Tree.walk)).2 := by
    rw [FileOutline.ofTree, Members.ofTree_eq]
    rfl
  rw [hScope]
  refine Block.get?_boundAll_of_bindsImport (fun t ht => ?_)
    (List.mem_flatMap.mpr ⟨statement, hMem, Tree.Within.refl.mem_walk⟩) hBinds
  obtain ⟨inner, hInner, hWalk⟩ := List.mem_flatMap.mp ht
  exact h.only inner hInner t hWalk

/-! ## One function -/

namespace Block

/-- The call that an expression makes, if it makes one. -/
def callMade (scopes : Option (List Scope)) (expression : Tree) : Option Call :=
  if expression.kind = .call then
    (expression.tree? .func).bind (call? scopes (arguments expression))
  else none

theorem calls_eq_filterMap (scopes : Option (List Scope)) (statements : List Tree) :
    calls scopes statements = (statements.flatMap Tree.walk).filterMap (callMade scopes) := rfl

/-- The call of a member, on an owner that may be unknown. -/
def ownedCall (owner member : String) (expression callee : Tree) : Call :=
  { token := member, line := callee.line, owner := some owner,
    isLibrary := owner ≠ "" && owner ≠ unknownOwner, arguments := arguments expression }

/-- The call of a name about which nothing is known. -/
def plainCall (name : String) (expression callee : Tree) : Call :=
  { token := name, line := callee.line, arguments := arguments expression }

variable {scopes : List Scope} {statements : List Tree} {name : String} {known : Option String}
  {expression callee : Tree}

/-- A call on a name is read as a call on what is known about the name. -/
theorem callMade_of_callsMember (hLookup : Scope.lookup? scopes name = known.map .name)
    {member : String} (h : CallsMember statements name member expression callee) :
    callMade (some scopes) expression =
      some (ownedCall (known.getD unknownOwner) member expression callee) := by
  obtain ⟨value, hValue, hName⟩ := h.value
  have hOwner : owner (some scopes) value = known.getD unknownOwner := by
    simp only [owner, hName, hLookup]
    cases known <;> rfl
  rw [callMade, if_pos h.kind, h.func, Option.bind_some, call?_of_member h.callee_kind]
  simp [memberCall, hValue, hOwner, h.attr, ownedCall]

/-- A call of a name is read as a call on a module, if the name is known to be a member of one. -/
theorem callMade_of_callsName (hLookup : Scope.lookup? scopes name = known.map .name)
    (h : CallsName statements name expression callee) :
    callMade (some scopes) expression =
      some ((known.bind Dotted.splitLast?).elim (plainCall name expression callee) fun split =>
        borrowedCall split.1 split.2 expression callee) := by
  rw [callMade, if_pos h.kind, h.func, Option.bind_some, call?_of_identifier h.identifier, nameCall,
    (Tree.identifier?_eq_some_iff.mp h.identifier).2, Option.bind_some, Option.getD_some, hLookup]
  cases known with
  | none => rfl
  | some target =>
      simp only [Option.map_some, Option.bind_some]
      cases Dotted.splitLast? target <;> rfl

end Block

/-- How a node reads the calls in a body that name something: as calls on what is known about the
name, and of a member of a module if it is known as one. -/
def Node.ReadsName (node : Node) (body : List Tree) (name : String) (known : Option String) :
    Prop :=
  ∃ scopes, node.calls = (body.flatMap Tree.walk).filterMap (Block.callMade (some scopes)) ∧
    (∀ member expression callee, Block.CallsMember body name member expression callee →
      Block.callMade (some scopes) expression =
        some (Block.ownedCall (known.getD unknownOwner) member expression callee)) ∧
    ∀ expression callee, Block.CallsName body name expression callee →
      (∀ module token, known = some (Dotted.join [module, token]) →
        Dotted.isDotted token = false → Block.callMade (some scopes) expression =
          some (Block.borrowedCall module token expression callee)) ∧
      (known.bind Dotted.splitLast? = none → Block.callMade (some scopes) expression =
        some (Block.plainCall name expression callee))

theorem readsName_of_lookup? {node : Node} {body : List Tree} {name : String} {known : Option String}
    {scopes : List Scope} (hCalls : node.calls = Block.calls (some scopes) body)
    (hLookup : Scope.lookup? scopes name = known.map .name) : node.ReadsName body name known := by
  refine ⟨scopes, hCalls.trans (Block.calls_eq_filterMap _ _),
    fun _ _ _ hMember => Block.callMade_of_callsMember hLookup hMember,
    fun expression callee hName => ?_⟩
  rw [Block.callMade_of_callsName hLookup hName]
  constructor
  · rintro module token rfl hToken
    rw [Option.bind_some, Dotted.splitLast?_join module hToken, Option.elim_some]
  · intro hNone
    rw [hNone, Option.elim_none]

/-- In a function that does not bind a name, the scopes say what the module says, but for `self` in a
method. -/
theorem lookup?_scopes (isMethod : Bool) (scope : Scope) {body : List Tree} {name : String}
    (hLeaves : ∀ t ∈ body.flatMap Tree.walk, Block.leaves name t = true) :
    Scope.lookup? [if isMethod then Block.withSelf (Block.locals [scope] [] body).2
        else (Block.locals [scope] [] body).2, scope] name =
      if isMethod = true ∧ name = "self" then some (.name "self") else scope.get? name := by
  have hNone : (Block.locals [scope] [] body).2.get? name = none :=
    Block.get?_boundAll_of_leaves [scope] [] hLeaves
  rw [Scope.lookup?, List.findSome?_cons, List.findSome?_cons, List.findSome?_nil]
  cases isMethod with
  | false =>
      rw [if_neg (by simp), hNone, if_neg (by simp)]
      cases scope.get? name <;> rfl
  | true =>
      rw [if_pos rfl]
      by_cases hSelf : name = "self"
      · subst hSelf
        rw [Block.withSelf, Scope.setIfAbsent, hNone, if_neg (by simp), Scope.get?_set_self,
          if_pos ⟨rfl, rfl⟩]
      · have hOther : (Block.withSelf (Block.locals [scope] [] body).2).get? name = none := by
          rw [Block.withSelf, Scope.setIfAbsent]
          split
          · exact hNone
          · rw [Scope.get?_set_ne _ _ hSelf, hNone]
        rw [hOther, if_neg fun h => hSelf h.2]
        cases scope.get? name <;> rfl

/-- What is known at a depth about a name that a module imports. -/
def knownAt (depth : Nat) (name target : String) : Option String :=
  if 0 < depth ∧ name = "self" then some "self" else if depth ≤ 1 then some target else none

/-- **Imported names at every depth**: where a module imports a name and a function does not bind it,
its calls on the name and of the name are read as calls of what was imported, if the function stands
in the module or in a class that stands in the module. At every greater depth the name is unknown. -/
theorem imported_name_at_depth (graph : Graph) (path : String) {tree : Tree} {name target : String}
    (h : tree.ImportsAtTop name target) (depth : Nat) :
    List.Forall₂ (fun n definition =>
        (∀ t ∈ (definition.trees .body).flatMap Tree.walk, Block.leaves name t = true) →
        ((graph.insertFile (.ofTree tree path)).1.node n).ReadsName (definition.trees .body) name
          (knownAt depth name target))
      ((graph.insertFile (.ofTree tree path)).1.functionsAt depth
        (graph.insertFile (.ofTree tree path)).2) (tree.functionsAt depth) := by
  refine (Graph.functionsAt_of_mirrors graph tree path depth).imp ?_
  rintro n definition ⟨_, _, serial, hNode⟩ hLeaves
  rw [hNode]
  apply readsName_of_lookup? rfl
  rw [lookup?_scopes _ _ hLeaves, knownAt, Scope.atDepth]
  by_cases hSelf : 0 < depth ∧ name = "self"
  · simp [hSelf]
  · by_cases hDepth : depth ≤ 1
    · simp [hSelf, hDepth, h.get?_scope path]
    · simp [hSelf, hDepth, Scope.get?]

/-- `import re`, a class, and a class in it, each with a method that calls `re.match()`. -/
def nestedImport : Tree :=
  .moduleOf [.importAt 1 "re", .classAt 2 "A" [
    .functionAt 3 "m" [.statementAt 4 (.callAt 4 (.memberAt 4 (.nameAt 4 "re") "match"))],
    .classAt 5 "B" [
      .functionAt 6 "m" [.statementAt 7 (.callAt 7 (.memberAt 7 (.nameAt 7 "re") "match"))]]]]

theorem importsAtTop_nestedImport : nestedImport.ImportsAtTop "re" "re" where
  imported := ⟨.importAt 1 "re", List.mem_cons_self, rfl, Or.inl rfl, _, List.mem_cons_self, rfl⟩
  only := by decide +kernel

theorem imported_name_at_depth_nestedImport : nestedImport.ImportsAtTop "re" "re" ∧
    ∃ n, (Graph.empty.insertFile (.ofTree nestedImport "a.py")).1.functionsAt 1 ⟨0⟩ = [n] ∧
      ((Graph.empty.insertFile (.ofTree nestedImport "a.py")).1.node n).ReadsName
        [.statementAt 4 (.callAt 4 (.memberAt 4 (.nameAt 4 "re") "match"))] "re" (some "re") := by
  refine ⟨importsAtTop_nestedImport, ⟨1⟩, by decide +kernel, ?_⟩
  have hMethods := imported_name_at_depth .empty "a.py" importsAtTop_nestedImport 1
  have hNodes : (Graph.empty.insertFile (.ofTree nestedImport "a.py")).1.functionsAt 1
      (Graph.empty.insertFile (.ofTree nestedImport "a.py")).2 = [⟨1⟩] := by decide +kernel
  rw [hNodes] at hMethods
  cases hMethods with
  | cons hMethod _ => exact hMethod (by decide +kernel)

/-- The method one class deeper does not see the import. -/
theorem import_unknown_nestedImport : nestedImport.ImportsAtTop "re" "re" ∧
    ((Graph.empty.insertFile (.ofTree nestedImport "a.py")).1.functionsAt 2 ⟨0⟩).map
        (fun n => ((Graph.empty.insertFile (.ofTree nestedImport "a.py")).1.node n).calls.map
          fun call => (call.token, call.owner)) =
      [[("match", some unknownOwner)]] :=
  ⟨importsAtTop_nestedImport, by decide +kernel⟩

end CallGraph
