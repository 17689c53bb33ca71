import CallGraph.Proofs.Binding
import CallGraph.Proofs.Contents
import CallGraph.Proofs.Inheriting

/-!
# Calls in definitions

Every function and method of a loaded graph is read from a definition (`exists_definition`), and its
calls are read from the body. What a call `object.member()` is taken for depends on what the scopes
say about the object once the whole body has been read: in a method `self` stands for itself unless
the body binds it, and a name that is bound by `name = type()` only stands for its type.

Bindings are followed tree node by tree node. `Block.leaves` and `Block.Constructs` say what one tree
node does to a name; the lemmas about `Block.boundAll` say what all of them do.

## Main definitions

* `Block.HoldsObject` — a block binds a name to objects of one type.
* `Block.CallsMember` — an expression in a block is a call on an object.
* `Node.IsFrom` — a node is read from a definition.

## Main results

* `FunctionOutline.mem_calls_self` — how a call on `self` is read.
* `FunctionOutline.mem_calls_object` — how a call on an object of a known type is read.
* `exists_definition` — functions and methods are read from legal definitions.
-/

namespace CallGraph

open CallGraph.Graph

/-! ## Calls on objects -/

namespace Block

variable {outer : List Scope} {inner : Scope} {name type : String} {tree : Tree}

/-- Whether a tree node does not bind a name. -/
def leaves (name : String) (tree : Tree) : Bool :=
  match tree.kind with
  | .assign => !(targetNames tree).contains name
  | .importModules | .importFrom =>
      (tree.trees .names).all fun item => decide ((importedItem tree item).1 ≠ name)
  | _ => true

/-- A statement `name = type()`. -/
structure Constructs (name type : String) (tree : Tree) : Prop where
  kind : tree.kind = .assign
  target : name ∈ targetNames tree
  value : ∃ value callee, tree.tree? .value = some value ∧ value.kind = .call ∧
    value.tree? .func = some callee ∧ callee.identifier? = some type

theorem constructs_iff : Constructs name type tree ↔ tree.kind = .assign ∧
    name ∈ targetNames tree ∧ ((tree.tree? .value).any fun value => decide (value.kind = .call) &&
      (value.tree? .func).any fun callee => decide (callee.identifier? = some type)) = true := by
  simp only [Option.any_eq_true, Bool.and_eq_true, decide_eq_true_eq]
  constructor
  · rintro ⟨hKind, hTarget, value, callee, hValue, hCall, hFunc, hType⟩
    exact ⟨hKind, hTarget, value, hValue, hCall, callee, hFunc, hType⟩
  · rintro ⟨hKind, hTarget, value, hValue, hCall, callee, hFunc, hType⟩
    exact ⟨hKind, hTarget, value, callee, hValue, hCall, hFunc, hType⟩

instance : Decidable (Constructs name type tree) := decidable_of_iff _ constructs_iff.symm

theorem get?_imported_of_leaves (hKind : tree.kind = .importModules ∨ tree.kind = .importFrom)
    (h : leaves name tree = true) : (imported inner tree).2.get? name = inner.get? name := by
  have hItems : ∀ item ∈ tree.trees .names, (importedItem tree item).1 ≠ name := by
    have hAll : (tree.trees .names).all (fun item => decide
        ((importedItem tree item).1 ≠ name)) = true := by
      rcases hKind with hKind | hKind <;> simpa only [leaves, hKind] using h
    exact fun item hItem => of_decide_eq_true (List.all_eq_true.mp hAll item hItem)
  have hKeeps : keeps name "" tree = true := by
    have hAll : (tree.trees .names).all (fun item => decide
        ((importedItem tree item).1 = name → (importedItem tree item).2 = "")) = true :=
      List.all_eq_true.mpr fun item hItem =>
        decide_eq_true fun hName => absurd hName (hItems item hItem)
    rcases hKind with hKind | hKind <;> simpa only [keeps, hKind] using hAll
  rw [get?_imported hKind hKeeps, if_neg]
  rintro ⟨item, hItem, hName⟩
  exact hItems item hItem hName

theorem get?_bound_of_leaves (outer : List Scope) (inner : Scope) (h : leaves name tree = true) :
    (bound outer inner tree).2.get? name = inner.get? name := by
  unfold bound
  split
  · rename_i hKind
    have hKeeps : keeps name "" tree = true := by simpa only [keeps, leaves, hKind] using h
    exact get?_assigned hKind hKeeps
  · rename_i hKind
    exact get?_imported_of_leaves (Or.inl hKind) h
  · rename_i hKind
    exact get?_imported_of_leaves (Or.inr hKind) h
  · rfl

theorem get?_bound_of_constructs (outer : List Scope) (inner : Scope)
    (h : Constructs name type tree) :
    (bound outer inner tree).2.get? name = some (.name type) := by
  obtain ⟨value, callee, hValue, hCall, hFunc, hType⟩ := h.value
  have hRead : call? (some (inner :: outer)) [] callee = _ := call?_of_identifier hType []
  have hAssigned : (assigned outer inner tree).2 =
      setAll (targetNames tree) (.name type) inner := by
    simp only [assigned, hValue, Option.getD_some, hCall, hFunc, hRead, hType]
  rw [bound, h.kind]
  dsimp only
  rw [hAssigned, setAll, Scope.get?_foldl_set (fun other => other) (fun _ => .name type)
    (fun _ _ _ => rfl), if_pos ⟨name, h.target, rfl⟩]

theorem get?_boundAll_of_leaves (outer : List Scope) (inner : Scope) {trees : List Tree}
    (h : ∀ t ∈ trees, leaves name t = true) :
    (boundAll outer inner trees).2.get? name = inner.get? name := by
  induction trees generalizing inner with
  | nil => rfl
  | cons tree rest ih =>
      obtain ⟨hFirst, hRest⟩ := List.forall_mem_cons.mp h
      exact (ih _ hRest).trans (get?_bound_of_leaves outer inner hFirst)

/-- Once an object of a type is assigned to a name, the scope says so for good. -/
theorem get?_boundAll_of_constructs (outer : List Scope) (inner : Scope) {trees : List Tree}
    (h : ∀ t ∈ trees, leaves name t = true ∨ Constructs name type t)
    (hSome : (∃ t ∈ trees, Constructs name type t) ∨ inner.get? name = some (.name type)) :
    (boundAll outer inner trees).2.get? name = some (.name type) := by
  induction trees generalizing inner with
  | nil => exact hSome.resolve_left (by simp)
  | cons tree rest ih =>
      obtain ⟨hFirst, hRest⟩ := List.forall_mem_cons.mp h
      refine ih _ hRest ?_
      rcases hFirst with hLeaves | hConstructs
      · rw [get?_bound_of_leaves outer inner hLeaves]
        refine hSome.imp_left ?_
        rintro ⟨t, ht, hConstructs⟩
        rcases List.mem_cons.mp ht with rfl | ht
        · have hNot : name ∉ targetNames t := by
            simpa [leaves, hConstructs.kind] using hLeaves
          exact absurd hConstructs.target hNot
        · exact ⟨t, ht, hConstructs⟩
      · exact Or.inr (get?_bound_of_constructs outer inner hConstructs)

/-- A block binds a name by `name = type()` and in no other way. -/
structure HoldsObject (statements : List Tree) (name type : String) : Prop where
  assigned : ∃ t ∈ statements.flatMap Tree.walk, Constructs name type t
  only : ∀ t ∈ statements.flatMap Tree.walk, leaves name t = true ∨ Constructs name type t

/-- An expression in a block calls `object.member`. -/
structure CallsMember (statements : List Tree) (object member : String)
    (expression callee : Tree) : Prop where
  mem : expression ∈ statements.flatMap Tree.walk
  kind : expression.kind = .call
  func : expression.tree? .func = some callee
  callee_kind : callee.kind = .member
  attr : callee.text? "attr" = some member
  value : ∃ value, callee.tree? .value = some value ∧ value.identifier? = some object

/-- The call of a member of something named, made by an expression. -/
def callOn (owner member : String) (expression callee : Tree) : Call :=
  { token := member, line := callee.line, owner := some owner, isLibrary := true,
    arguments := arguments expression }

/-- A call on an object is read as a call on what the scopes say about it. -/
theorem mem_calls_of_callsMember {scopes : List Scope} {statements : List Tree}
    {object member owner : String} {expression callee : Tree}
    (h : CallsMember statements object member expression callee)
    (hLookup : Scope.lookup? scopes object = some (.name owner)) (hEmpty : owner ≠ "")
    (hKnown : owner ≠ unknownOwner) :
    callOn owner member expression callee ∈ calls (some scopes) statements := by
  obtain ⟨value, hValue, hObject⟩ := h.value
  have hOwner : Block.owner (some scopes) value = owner := by
    simp only [Block.owner, hObject, hLookup]
  have hMember : memberCall (some scopes) (arguments expression) callee =
      callOn owner member expression callee := by
    simp [memberCall, hValue, hOwner, h.attr, hEmpty, hKnown, callOn]
  refine List.mem_filterMap.mpr ⟨expression, h.mem, ?_⟩
  rw [if_pos h.kind, h.func, Option.bind_some, call?_of_member h.callee_kind, hMember]

end Block

namespace FunctionOutline

variable {definition expression callee : Tree} {member : String}

/-- In a method that does not bind `self`, a call on it is read as such. -/
theorem mem_calls_self (scope : Scope)
    (hLeaves : ∀ t ∈ (definition.trees .body).flatMap Tree.walk, Block.leaves "self" t = true)
    (h : Block.CallsMember (definition.trees .body) "self" member expression callee) :
    Block.callOn "self" member expression callee ∈
      (FunctionOutline.ofTree true scope definition).calls := by
  refine Block.mem_calls_of_callsMember h ?_ (by decide) (by decide)
  have hNone := Block.get?_boundAll_of_leaves [scope] [] hLeaves
  rw [if_pos rfl, Scope.lookup?, List.findSome?_cons, Block.withSelf, Block.locals,
    Scope.setIfAbsent, hNone, if_neg (show ¬(Scope.get? [] "self").isSome = true by decide),
    Scope.get?_set_self]

/-- Where a name holds an object of a type, a call on it is read as a call on the type. -/
theorem mem_calls_object (isMethod : Bool) (scope : Scope) {name type : String}
    (hHolds : Block.HoldsObject (definition.trees .body) name type) (hEmpty : type ≠ "")
    (hKnown : type ≠ unknownOwner)
    (h : Block.CallsMember (definition.trees .body) name member expression callee) :
    Block.callOn type member expression callee ∈
      (FunctionOutline.ofTree isMethod scope definition).calls := by
  have hScope : (Block.locals [scope] [] (definition.trees .body)).2.get? name =
      some (.name type) :=
    Block.get?_boundAll_of_constructs [scope] [] hHolds.only (Or.inl hHolds.assigned)
  refine Block.mem_calls_of_callsMember h ?_ hEmpty hKnown
  rw [Scope.lookup?, List.findSome?_cons]
  cases isMethod with
  | false => rw [if_neg (by simp), hScope]
  | true =>
      -- `self` is added only if the name is another one.
      have hSelf : (Block.withSelf (Block.locals [scope] [] (definition.trees .body)).2).get? name =
          some (.name type) := by
        unfold Block.withSelf Scope.setIfAbsent
        split
        · exact hScope
        · rename_i hAbsent
          rw [Scope.get?_set_ne _ _ ?_, hScope]
          rintro rfl
          exact hAbsent (by rw [hScope]; rfl)
      rw [if_pos rfl, hSelf]

end FunctionOutline

/-! ## Where nodes come from -/

/-- A node has the token, the line and the calls of a definition, read in some scope. -/
def Node.IsFrom (node : Node) (isMethod : Bool) (definition : Tree) : Prop :=
  ∃ scope, node.token = (FunctionOutline.ofTree isMethod scope definition).token ∧
    node.line = (FunctionOutline.ofTree isMethod scope definition).line ∧
    node.calls = (FunctionOutline.ofTree isMethod scope definition).calls

/-- Functions are read from legal definitions, those that cannot be imported as methods. Library
nodes can be imported. -/
def Graph.definedProperties : Properties where
  node node := (node.signature.isSome = true → ∃ (isMethod : Bool) (definition : Tree),
    definition.isLegal = true ∧ node.IsFrom isMethod definition ∧
      (node.importTokens = [] → isMethod = true)) ∧
    (node.importTokens = [] → node.isLibrary = false)
  group _ := True
  node_serial _ h := h
  group_contents _ _ _ _ _ h := h

theorem FunctionOutline.Read.definedProperties {isMethod : Bool} {function : FunctionOutline}
    (h : function.Read isMethod) (g : GroupId) (token : String) :
    definedProperties.node (functionNode isMethod g token function) := by
  obtain ⟨scope, definition, hLegal, _, rfl⟩ := h
  refine ⟨fun _ => ⟨isMethod, definition, hLegal, ⟨scope, rfl, rfl, rfl⟩, fun hNone => ?_⟩,
    fun _ => rfl⟩
  cases isMethod with
  | true => rfl
  | false => exact absurd hNone (List.cons_ne_nil _ _)

theorem FileOutline.Read.definedProperties {file : FileOutline} (h : file.Read) :
    definedProperties.OfFile file where
  group := trivial
  root _ := ⟨fun hSome => absurd hSome Bool.false_ne_true, fun _ => rfl⟩
  functions f hf g token := (h.functions f hf).definedProperties g token
  classes c hc := ClassOutline.Every.imp (fun _ hRead g token => hRead.definedProperties g token)
    (fun _ _ _ => trivial) c (h.classes c hc)
  imports _ _ _ _ := ⟨fun hSome => absurd hSome Bool.false_ne_true,
    fun hNone => absurd hNone (List.cons_ne_nil _ _)⟩

theorem defined_of_loaded {read : List FileOutline} (hRead : ∀ file ∈ read, file.Read)
    {n : NodeId} (hn : n.index < (Graph.loaded read).1.nodes.size) :
    definedProperties.node ((Graph.loaded read).1.node n) :=
  (loading_loaded fun file hFile => (hRead file hFile).definedProperties).node_want n hn

/-- A method cannot be imported. -/
theorem importTokens_of_method {read : List FileOutline} {g : GroupId} {n : NodeId}
    (hn : n ∈ ((Graph.loaded read).1.group g).nodes)
    (hClass : ((Graph.loaded read).1.group g).kind = .classBody) :
    ((Graph.loaded read).1.node n).importTokens = [] := by
  have hLoaded := loading_insertFiles read
  obtain ⟨g', hParent, _, hNone, _⟩ := tagged_insertFiles read (hLoaded.listed_lt hn)
  cases (hLoaded.parent_of_listed hn).symm.trans hParent
  exact hNone hClass

/-- A function of a file or of a class is read from a legal definition, in a class as a method. -/
theorem exists_definition {read : List FileOutline} (hRead : ∀ file ∈ read, file.Read)
    {g : GroupId} {n : NodeId} (hn : n ∈ ((Graph.loaded read).1.group g).nodes)
    (hSome : ((Graph.loaded read).1.node n).signature.isSome = true) :
    ∃ isMethod definition, definition.isLegal = true ∧
      ((Graph.loaded read).1.node n).IsFrom isMethod definition ∧
      (((Graph.loaded read).1.group g).kind = .classBody → isMethod = true) := by
  obtain ⟨isMethod, definition, hLegal, hFrom, hMethod⟩ :=
    (defined_of_loaded hRead ((loading_insertFiles read).listed_lt hn)).1 hSome
  exact ⟨isMethod, definition, hLegal, hFrom,
    fun hClass => hMethod (importTokens_of_method hn hClass)⟩

/-- A method is no library node. -/
theorem not_library_of_method {read : List FileOutline} (hRead : ∀ file ∈ read, file.Read)
    {g : GroupId} {n : NodeId} (hn : n ∈ ((Graph.loaded read).1.group g).nodes)
    (hClass : ((Graph.loaded read).1.group g).kind = .classBody) :
    ((Graph.loaded read).1.node n).isLibrary = false :=
  (defined_of_loaded hRead ((loading_insertFiles read).listed_lt hn)).2
    (importTokens_of_method hn hClass)

end CallGraph
