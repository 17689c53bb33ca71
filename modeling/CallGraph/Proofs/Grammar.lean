import CallGraph.Graph.Visible
import CallGraph.Proofs.Lists
import CallGraph.Proofs.Loading
import CallGraph.Proofs.Names

/-!
# What the grammar grants

A syntax tree that comes from a parser is not any tree: definitions, imports and assignments have a
line, names are there and have no dots in them, and a function has a first statement. `Tree.isLegal`
says so node by node.

Of a legal tree the outline is clear: whatever is bound has a line, functions and classes have names
and lines, and a call is made on nothing, on something unknown, or on a name with a first part.

## Main definitions

* `Tree.isLegal` — a tree that the grammar allows.
* `Call.Plain` — what is known of every call.
* `FileOutline.Clear` — what is known of every outline.

## Main results

* `clear_ofTree` — the outline of a legal tree is clear.
-/

namespace CallGraph

/-! ## Legal trees -/

namespace Tree

mutual

/-- Whether a tree and all trees in it keep to a rule. -/
def every (rule : Tree → Bool) : Tree → Bool
  | .node kind line attributes children =>
      rule (.node kind line attributes children) && everyChild rule children

/-- Whether all trees in some children keep to a rule. -/
def everyChild (rule : Tree → Bool) : List Child → Bool
  | [] => true
  | .filled _ tree :: rest => tree.every rule && everyChild rule rest
  | .gap _ :: rest => everyChild rule rest

end

/-- Whether the text of an attribute is there and as asked for. -/
def hasText (tree : Tree) (key : String) (test : String → Bool) : Bool :=
  (tree.text? key).any test

/-- What the grammar asks of a tree node, depending on its kind. -/
def isRegular (tree : Tree) : Bool :=
  match tree.kind with
  | .functionDef | .asyncFunctionDef =>
      tree.line.any (fun line => decide (0 < line)) && tree.hasText "name" Dotted.isIdentifier
        && ((tree.trees .body).head?.bind line).isSome
  | .classDef => tree.line.isSome && tree.hasText "name" Dotted.isIdentifier
  | .importModules | .importFrom =>
      tree.line.isSome && !(tree.trees .names).isEmpty
        && (tree.trees .names).all (fun item => item.hasText "name" Dotted.isComplete)
        && ((tree.text? "module").filter (· ≠ "")).all Dotted.isComplete
  | .assign => tree.line.isSome
  | .member => tree.hasText "attr" Dotted.isIdentifier
  | .name => tree.hasText "id" Dotted.isIdentifier
  | _ => true

/-- Whether a tree is one that the grammar allows. -/
def isLegal (tree : Tree) : Bool :=
  tree.every isRegular

variable {rule : Tree → Bool} {tree : Tree}

theorem everyChild_iff {children : List Child} :
    everyChild rule children = true ↔
      ∀ child ∈ children, ∀ t, child.tree? = some t → t.every rule = true := by
  induction children with
  | nil => simp [everyChild]
  | cons child rest ih => cases child <;> simp [everyChild, ih, Child.tree?]

theorem every_iff : tree.every rule = true ↔
    rule tree = true ∧ ∀ t ∈ tree.subtrees, t.every rule = true := by
  cases tree with
  | node kind line attributes children =>
      rw [every, Bool.and_eq_true, everyChild_iff]
      simp only [subtrees, Tree.children, List.mem_filterMap]
      constructor
      · rintro ⟨hRule, hChildren⟩
        refine ⟨hRule, fun t ht => ?_⟩
        obtain ⟨child, hChild, hTree⟩ := ht
        exact hChildren child hChild t hTree
      · rintro ⟨hRule, hTrees⟩
        exact ⟨hRule, fun child hChild t ht => hTrees t ⟨child, hChild, ht⟩⟩

/-- Trees in which a rule is kept. -/
def Kept (rule : Tree → Bool) (trees : List Tree) : Prop :=
  ∀ t ∈ trees, t.every rule = true

theorem mem_subtrees_of_mem_trees {field : Field} {t : Tree} (h : t ∈ tree.trees field) :
    t ∈ tree.subtrees := by
  simp only [trees, places, List.mem_filterMap, List.mem_map, List.mem_filter] at h
  obtain ⟨_, ⟨child, ⟨hChild, _⟩, rfl⟩, ht⟩ := h
  exact List.mem_filterMap.mpr ⟨child, hChild, ht⟩

theorem kept_trees (h : tree.every rule = true) (field : Field) : Kept rule (tree.trees field) :=
  fun t ht => (every_iff.mp h).2 t (mem_subtrees_of_mem_trees ht)

theorem every_of_tree? (h : tree.every rule = true) {field : Field} {t : Tree}
    (ht : tree.tree? field = some t) : t.every rule = true :=
  kept_trees h field t (List.mem_of_head? ht)

/-- A rule that is kept in a tree is kept level by level. -/
theorem kept_levels {trees : List Tree} (h : Kept rule trees) (n : Nat) :
    Kept rule (levels n trees) := by
  induction n generalizing trees with
  | zero => exact fun t ht => absurd ht List.not_mem_nil
  | succ n ih =>
      intro t ht
      rcases List.mem_append.mp ht with ht | ht
      · exact h t ht
      · refine ih (fun s hs => ?_) t ht
        obtain ⟨above, hAbove, hs⟩ := List.mem_flatMap.mp hs
        exact (every_iff.mp (h above hAbove)).2 s hs

theorem kept_walk {trees : List Tree} (h : Kept rule trees) : Kept rule (trees.flatMap walk) := by
  intro t ht
  obtain ⟨s, hs, ht⟩ := List.mem_flatMap.mp ht
  exact kept_levels (fun r hr => by rw [List.mem_singleton.mp hr]; exact h s hs) _ t ht

mutual

theorem kept_valueChain (tree : Tree) (h : tree.every rule = true) : Kept rule tree.valueChain := by
  match tree, h with
  | .node kind line attributes children, h =>
      intro t ht
      rcases List.mem_cons.mp ht with rfl | ht
      · exact h
      · exact kept_valueChainOfChildren children (Bool.and_eq_true_iff.mp h).2 t ht

theorem kept_valueChainOfChildren (children : List Child) (h : everyChild rule children = true) :
    Kept rule (valueChainOfChildren children) := by
  match children, h with
  | [], _ => exact fun t ht => absurd ht List.not_mem_nil
  | .filled field tree :: rest, h =>
      obtain ⟨hTree, hRest⟩ := Bool.and_eq_true_iff.mp h
      unfold valueChainOfChildren
      split
      · rename_i hEq
        cases hEq
      · rename_i hEq
        cases hEq
        exact kept_valueChain _ hTree
      · rename_i hEq
        cases hEq
        exact kept_valueChainOfChildren rest hRest
  | .gap field :: rest, h => exact kept_valueChainOfChildren rest h

end

/-! ### What single nodes grant -/

theorem exists_of_hasText {key : String} {test : String → Bool}
    (h : tree.hasText key test = true) :
    ∃ text, tree.text? key = some text ∧ test text = true := by
  unfold hasText at h
  cases hText : tree.text? key with
  | none =>
      rw [hText] at h
      exact absurd h Bool.false_ne_true
  | some text =>
      rw [hText] at h
      exact ⟨text, rfl, h⟩

theorem isRegular_of_isLegal (h : tree.isLegal = true) : tree.isRegular = true :=
  (every_iff.mp h).1

/-- The text of an attribute that is an identifier. -/
theorem isIdentifier_of_hasText {key : String} (h : tree.hasText key Dotted.isIdentifier = true) :
    Dotted.isIdentifier ((tree.text? key).getD "") = true := by
  obtain ⟨text, hText, hTest⟩ := exists_of_hasText h
  rw [hText]
  exact hTest

theorem identifier?_eq_some_iff {name : String} :
    tree.identifier? = some name ↔ tree.kind = .name ∧ tree.text? "id" = some name :=
  Option.ite_none_right_eq_some

theorem first_identifier? (h : tree.isLegal = true) {name : String}
    (hName : tree.identifier? = some name) : Dotted.first name ≠ "" := by
  obtain ⟨hKind, hName⟩ := identifier?_eq_some_iff.mp hName
  have hRegular := isRegular_of_isLegal h
  simp only [isRegular, hKind] at hRegular
  obtain ⟨text, hText, hTest⟩ := exists_of_hasText hRegular
  cases hText.symm.trans hName
  exact Dotted.first_ne_of_isIdentifier hTest

theorem isIdentifier_attr (h : tree.isLegal = true) (hKind : tree.kind = .member) :
    Dotted.isIdentifier ((tree.text? "attr").getD "") = true := by
  have hRegular := isRegular_of_isLegal h
  simp only [isRegular, hKind] at hRegular
  exact isIdentifier_of_hasText hRegular

theorem line_of_assign (h : tree.isLegal = true) (hKind : tree.kind = .assign) :
    tree.line.isSome := by
  have hRegular := isRegular_of_isLegal h
  simpa only [isRegular, hKind] using hRegular

/-- An import statement. -/
structure IsImport (tree : Tree) : Prop where
  line : tree.line.isSome
  names_ne : tree.trees .names ≠ []
  names : ∀ item ∈ tree.trees .names, Dotted.first ((item.text? "name").getD "") ≠ ""
  from_named : ∀ name, (tree.text? "module").filter (· ≠ "") = some name → Dotted.first name ≠ ""

theorem isImport_of_isLegal (h : tree.isLegal = true)
    (hKind : tree.kind = .importModules ∨ tree.kind = .importFrom) : tree.IsImport := by
  have hRegular : (tree.line.isSome && !(tree.trees .names).isEmpty
      && (tree.trees .names).all (fun item => item.hasText "name" Dotted.isComplete)
      && ((tree.text? "module").filter (· ≠ "")).all Dotted.isComplete) = true := by
    have hRegular := isRegular_of_isLegal h
    rcases hKind with hKind | hKind <;> simpa only [isRegular, hKind] using hRegular
  simp only [Bool.and_eq_true, List.all_eq_true] at hRegular
  obtain ⟨⟨⟨hLine, hNames⟩, hItems⟩, hModule⟩ := hRegular
  refine ⟨hLine, by simpa using hNames, fun item hItem => ?_, fun name hName => ?_⟩
  · obtain ⟨text, hText, hTest⟩ := exists_of_hasText (hItems item hItem)
    rw [hText]
    exact Dotted.first_ne_of_isComplete hTest
  · rw [hName] at hModule
    exact Dotted.first_ne_of_isComplete hModule

/-- The definition of a function. -/
structure IsFunction (tree : Tree) : Prop where
  legal : tree.isLegal = true
  line : Graph.isSetLine tree.line = true
  name : Dotted.isIdentifier ((tree.text? "name").getD "") = true
  bodyLine : ((tree.trees .body).head?.bind Tree.line).isSome

theorem isFunction_of_isLegal (h : tree.isLegal = true)
    (hKind : tree.kind = .functionDef ∨ tree.kind = .asyncFunctionDef) : tree.IsFunction := by
  have hRegular : (tree.line.any (fun line => decide (0 < line))
      && tree.hasText "name" Dotted.isIdentifier
      && ((tree.trees .body).head?.bind line).isSome) = true := by
    have hRegular := isRegular_of_isLegal h
    rcases hKind with hKind | hKind <;> simpa only [isRegular, hKind] using hRegular
  simp only [Bool.and_eq_true] at hRegular
  obtain ⟨⟨hLine, hName⟩, hBody⟩ := hRegular
  refine ⟨h, ?_, isIdentifier_of_hasText hName, hBody⟩
  cases hSome : tree.line with
  | none => simp [hSome] at hLine
  | some line =>
      have hPositive : 0 < line := by simpa [hSome] using hLine
      have hne : line ≠ 0 := by omega
      simp [Graph.isSetLine, hne]

/-- The definition of a class. -/
structure IsClass (tree : Tree) : Prop where
  line : tree.line.isSome
  name : Dotted.isIdentifier ((tree.text? "name").getD "") = true

theorem isClass_of_isLegal (h : tree.isLegal = true) (hKind : tree.kind = .classDef) :
    tree.IsClass := by
  have hRegular := isRegular_of_isLegal h
  simp only [isRegular, hKind, Bool.and_eq_true] at hRegular
  exact ⟨hRegular.1, isIdentifier_of_hasText hRegular.2⟩

end Tree

/-! ## Calls -/

/-- What is known of every call. What it is made on has a first part, and then the token has no
dots. A call that cannot go to a library is made on something unknown, or on nothing. -/
structure Call.Plain (call : Call) : Prop where
  named : ∀ owner, call.owner = some owner →
    Dotted.first owner ≠ "" ∧ Dotted.isDotted call.token = false
  library : call.isLibrary = true → call.owner.isSome
  other : call.isLibrary = false → call.owner = none ∨ call.owner = some unknownOwner

/-- Every name of a scope stands for a name with a first part. -/
def Scope.Plain (scope : Scope) : Prop :=
  ∀ key target, (key, ScopeEntry.name target) ∈ scope → Dotted.first target ≠ ""

namespace Scope

variable {scope : Scope} {scopes : List Scope}

theorem mem_of_lookup? {name : String} {entry : ScopeEntry} (h : lookup? scopes name = some entry) :
    ∃ scope ∈ scopes, (name, entry) ∈ scope := by
  obtain ⟨scope, hScope, hEntry⟩ := List.exists_of_findSome?_eq_some h
  exact ⟨scope, hScope, mem_of_lookup hEntry⟩

theorem mem_set {name : String} {entry : ScopeEntry} {e : String × ScopeEntry}
    (h : e ∈ set name entry scope) : e = (name, entry) ∨ e ∈ scope := by
  induction scope with
  | nil => exact Or.inl (List.mem_singleton.mp h)
  | cons first rest ih =>
      rw [set] at h
      split at h
      · rcases List.mem_cons.mp h with h | h
        · exact Or.inl h
        · exact Or.inr (List.mem_cons_of_mem _ h)
      · rcases List.mem_cons.mp h with h | h
        · exact Or.inr (h ▸ List.mem_cons_self)
        · exact (ih h).imp_right (List.mem_cons_of_mem _)

theorem Plain.set (h : scope.Plain) (name : String) {entry : ScopeEntry}
    (hEntry : ∀ target, entry = .name target → Dotted.first target ≠ "") :
    (scope.set name entry).Plain := by
  intro key target hMem
  rcases mem_set hMem with hNew | hOld
  · cases hNew
    exact hEntry target rfl
  · exact h key target hOld

theorem plain_nil : Scope.Plain [] :=
  fun _ _ hMem => absurd hMem List.not_mem_nil

theorem Plain.setIfAbsent (h : scope.Plain) (name : String) {entry : ScopeEntry}
    (hEntry : ∀ target, entry = .name target → Dotted.first target ≠ "") :
    (scope.setIfAbsent name entry).Plain := by
  unfold Scope.setIfAbsent
  split
  · exact h
  · exact h.set name hEntry

/-- Scopes that are plain, if there are any. -/
def AllPlain (scopes : Option (List Scope)) : Prop :=
  ∀ list, scopes = some list → ∀ scope ∈ list, scope.Plain

theorem AllPlain.first_ne {scopes : Option (List Scope)} (h : AllPlain scopes) {list : List Scope}
    (hList : scopes = some list) {name target : String}
    (hName : lookup? list name = some (.name target)) : Dotted.first target ≠ "" := by
  obtain ⟨scope, hScope, hMem⟩ := mem_of_lookup? hName
  exact h list hList scope hScope name target hMem

end Scope

namespace Block

variable {scopes : Option (List Scope)} {tree : Tree}

theorem first_ownerName? (h : tree.isLegal = true) {name : String}
    (hName : ownerName? tree = some name) : Dotted.first name ≠ "" := by
  have hNames : ∀ n ∈ tree.valueChain.filterMap Tree.identifier?, Dotted.first n ≠ "" := by
    intro n hn
    obtain ⟨t, ht, hn⟩ := List.mem_filterMap.mp hn
    exact Tree.first_identifier? (Tree.kept_valueChain tree h t ht) hn
  unfold ownerName? at hName
  cases hChain : tree.valueChain.filterMap Tree.identifier? with
  | nil => simp [hChain] at hName
  | cons n others =>
      rw [hChain] at hName hNames
      cases hName
      cases hReverse : (n :: others).reverse with
      | nil => simp at hReverse
      | cons last front =>
          rw [Dotted.first_join]
          exact hNames last (List.mem_reverse.mp (hReverse ▸ List.mem_cons_self))

/-- Whatever a call is made on has a name with a first part. -/
theorem first_owner (hScopes : Scope.AllPlain scopes) (h : tree.isLegal = true) :
    Dotted.first (owner scopes tree) ≠ "" := by
  have hUnknown : Dotted.first unknownOwner ≠ "" := by decide
  unfold owner
  split
  · rename_i list name hName
    split
    · rename_i target hTarget
      exact hScopes.first_ne rfl hTarget
    · exact Tree.first_identifier? h hName
    · exact hUnknown
  · cases hName : ownerName? tree with
    | none => exact hUnknown
    | some name => exact first_ownerName? h hName

theorem isLegal_default : (default : Tree).isLegal = true := rfl

/-- The tree of a field, or one that says nothing. -/
theorem isLegal_getD (h : tree.isLegal = true) (field : Field) :
    ((tree.tree? field).getD default).isLegal = true := by
  cases hTree : tree.tree? field with
  | none => exact isLegal_default
  | some t => exact Tree.every_of_tree? h hTree

theorem plain_memberCall (hScopes : Scope.AllPlain scopes) (h : tree.isLegal = true)
    (hKind : tree.kind = .member) (arguments : List String) :
    (memberCall scopes arguments tree).Plain := by
  have hOwner := first_owner hScopes (isLegal_getD h .value)
  refine ⟨fun owner hEq => ?_, fun _ => rfl, fun hOther => Or.inr ?_⟩
  · cases hEq
    refine ⟨hOwner, ?_⟩
    have hToken := Tree.isIdentifier_attr h hKind
    rw [Dotted.isIdentifier, Bool.and_eq_true, Bool.not_eq_true'] at hToken
    exact hToken.2
  · have hne := Dotted.ne_empty_of_first_ne hOwner
    by_cases hUnknown : owner scopes ((tree.tree? .value).getD default) = unknownOwner
    · exact congrArg some hUnknown
    · simp [memberCall, hne, hUnknown] at hOther

/-- A call without an owner. -/
theorem plain_of_no_owner {call : Call} (hOwner : call.owner = none)
    (hLibrary : call.isLibrary = false) : call.Plain :=
  ⟨fun _ hSome => absurd (hOwner.symm.trans hSome) (by simp),
    fun hTrue => absurd (hLibrary.symm.trans hTrue) Bool.false_ne_true, fun _ => Or.inl hOwner⟩

theorem plain_nameCall (hScopes : Scope.AllPlain scopes) (arguments : List String) :
    (nameCall scopes arguments tree).Plain := by
  unfold nameCall
  dsimp only
  split
  · rename_i target hTarget
    split
    · rename_i owner token hSplit
      obtain ⟨list, hList, hTarget⟩ := Option.bind_eq_some_iff.mp hTarget
      obtain ⟨hFirst, hToken⟩ := Dotted.splitLast?_spec hSplit
      refine ⟨fun other hEq => ?_, fun _ => rfl, nofun⟩
      cases hEq
      rw [hFirst]
      exact ⟨hScopes.first_ne hList hTarget, hToken⟩
    · exact plain_of_no_owner rfl rfl
  · exact plain_of_no_owner rfl rfl

theorem plain_entryCall? {arguments : List String} {call : Call}
    (h : entryCall? scopes arguments tree = some call) : call.Plain := by
  unfold entryCall? at h
  obtain ⟨_, _, h⟩ := Option.bind_eq_some_iff.mp h
  obtain ⟨_, _, h⟩ := Option.bind_eq_some_iff.mp h
  obtain ⟨_, _, h⟩ := Option.bind_eq_some_iff.mp h
  obtain ⟨_, _, h⟩ := Option.bind_eq_some_iff.mp h
  dsimp only at h
  split at h
  · obtain ⟨_, _, h⟩ := Option.bind_eq_some_iff.mp h
    obtain ⟨_, _, h⟩ := Option.bind_eq_some_iff.mp h
    cases h
    exact plain_of_no_owner rfl rfl
  · exact absurd h (by simp)

/-- Calls of legal trees are plain. -/
theorem plain_call? (hScopes : Scope.AllPlain scopes) (h : tree.isLegal = true)
    {arguments : List String} {call : Call} (hCall : call? scopes arguments tree = some call) :
    call.Plain := by
  cases tree with
  | node kind line attributes children =>
      unfold call? at hCall
      split at hCall
      · cases hCall
        exact plain_memberCall hScopes h rfl arguments
      · cases hCall
        exact plain_nameCall hScopes arguments
      · exact plain_entryCall? hCall
      · obtain ⟨inner, _, rfl⟩ := Option.map_eq_some_iff.mp hCall
        exact plain_of_no_owner rfl rfl
      · exact absurd hCall (by simp)

theorem plain_calls (hScopes : Scope.AllPlain scopes) {statements : List Tree}
    (h : Tree.Kept Tree.isRegular statements) : ∀ call ∈ calls scopes statements, call.Plain := by
  intro call hCall
  obtain ⟨t, ht, hCall⟩ := List.mem_filterMap.mp hCall
  split at hCall
  · obtain ⟨callee, hCallee, hCall⟩ := Option.bind_eq_some_iff.mp hCall
    exact plain_call? hScopes (Tree.every_of_tree? (Tree.kept_walk h t ht) hCallee) hCall
  · exact absurd hCall (by simp)

end Block

/-! ## Bindings -/

/-- What is known of every name that a block binds. -/
structure Local.Clear (binding : Local) : Prop where
  line : binding.line.isSome
  plain : ∀ call, binding.source = .call call → call.Plain

namespace Block

/-- What a block binds is clear, and the scope it leaves is plain. -/
def Clear (found : List Local × Scope) : Prop :=
  (∀ binding ∈ found.1, binding.Clear) ∧ found.2.Plain

variable {outer : List Scope} {inner : Scope} {tree : Tree}

theorem plain_foldl_set {α : Type} {scope : Scope} (h : scope.Plain) {items : List α}
    {key : α → String} {entry : α → ScopeEntry}
    (hEntry : ∀ item ∈ items, ∀ target, entry item = .name target → Dotted.first target ≠ "") :
    (items.foldl (fun scope item => scope.set (key item) (entry item)) scope).Plain := by
  induction items generalizing scope with
  | nil => exact h
  | cons item rest ih =>
      exact ih (h.set (key item) (hEntry item List.mem_cons_self))
        fun other hOther => hEntry other (List.mem_cons_of_mem _ hOther)

theorem allPlain_cons (hInner : inner.Plain) (hOuter : ∀ scope ∈ outer, scope.Plain) :
    Scope.AllPlain (some (inner :: outer)) := by
  intro list hList scope hScope
  cases hList
  rcases List.mem_cons.mp hScope with rfl | hScope
  · exact hInner
  · exact hOuter scope hScope

theorem clear_assigned (hOuter : ∀ scope ∈ outer, scope.Plain) (hInner : inner.Plain)
    (h : tree.isLegal = true) (hKind : tree.kind = .assign) :
    Clear (assigned outer inner tree) := by
  have hLine := Tree.line_of_assign h hKind
  have hCallee := isLegal_getD (isLegal_getD h .value) .func
  unfold assigned
  dsimp only
  split
  · split
    · exact ⟨fun _ hb => absurd hb List.not_mem_nil, hInner⟩
    · rename_i call hCall
      refine ⟨fun binding hb => ?_, ?_⟩
      · obtain ⟨name, _, rfl⟩ := List.mem_map.mp hb
        refine ⟨hLine, fun other hOther => ?_⟩
        cases hOther
        exact plain_call? (allPlain_cons hInner hOuter) hCallee hCall
      · dsimp only
        split
        · rename_i type hType
          refine plain_foldl_set hInner fun _ _ target hTarget => ?_
          cases hTarget
          exact Tree.first_identifier? hCallee hType
        · exact hInner
  · refine ⟨fun binding hb => ?_, plain_foldl_set hInner fun _ _ _ hTarget => nomatch hTarget⟩
    obtain ⟨name, _, rfl⟩ := List.mem_map.mp hb
    exact ⟨hLine, nofun⟩
  · exact ⟨fun _ hb => absurd hb List.not_mem_nil, hInner⟩

theorem clear_imported (hInner : inner.Plain) (h : tree.IsImport) :
    Clear (imported inner tree) := by
  refine ⟨fun binding hb => ?_, plain_foldl_set hInner fun item hItem target hTarget => ?_⟩
  · obtain ⟨item, _, rfl⟩ := List.mem_map.mp hb
    exact ⟨h.line, nofun⟩
  · obtain ⟨name, hName, rfl⟩ := List.mem_map.mp hItem
    cases hTarget
    unfold importedItem
    dsimp only
    split
    · rename_i module hModule
      rw [Dotted.first_join]
      exact h.from_named module hModule
    · exact h.names name hName

theorem clear_bound (hOuter : ∀ scope ∈ outer, scope.Plain) (hInner : inner.Plain)
    (h : tree.isLegal = true) : Clear (bound outer inner tree) := by
  unfold bound
  split
  · rename_i hKind
    exact clear_assigned hOuter hInner h hKind
  · rename_i hKind
    exact clear_imported hInner (Tree.isImport_of_isLegal h (Or.inl hKind))
  · rename_i hKind
    exact clear_imported hInner (Tree.isImport_of_isLegal h (Or.inr hKind))
  · exact ⟨fun _ hb => absurd hb List.not_mem_nil, hInner⟩

theorem clear_boundAll (hOuter : ∀ scope ∈ outer, scope.Plain) (hInner : inner.Plain)
    {trees : List Tree} (h : Tree.Kept Tree.isRegular trees) :
    Clear (boundAll outer inner trees) := by
  induction trees generalizing inner with
  | nil => exact ⟨fun _ hb => absurd hb List.not_mem_nil, hInner⟩
  | cons tree rest ih =>
      have hFirst := clear_bound hOuter hInner (h tree List.mem_cons_self)
      have hRest := ih hFirst.2 fun t ht => h t (List.mem_cons_of_mem _ ht)
      refine ⟨fun binding hb => ?_, hRest.2⟩
      rcases List.mem_append.mp hb with hb | hb
      · exact hFirst.1 binding hb
      · exact hRest.1 binding hb

theorem clear_locals (hOuter : ∀ scope ∈ outer, scope.Plain) {statements : List Tree}
    (h : Tree.Kept Tree.isRegular statements) : Clear (locals outer [] statements) :=
  clear_boundAll hOuter Scope.plain_nil (Tree.kept_walk h)

theorem plain_withSelf {scope : Scope} (h : scope.Plain) : (withSelf scope).Plain := by
  refine h.setIfAbsent "self" fun target hTarget => ?_
  cases hTarget
  decide

end Block

/-! ## Outlines -/

/-- What is known of every function. -/
structure FunctionOutline.Clear (function : FunctionOutline) : Prop where
  token_ne : function.token ≠ ""
  line : Graph.isSetLine function.line = true
  bodyLine : function.bodyLine.isSome
  locals : ∀ binding ∈ function.locals, binding.Clear
  calls : ∀ call ∈ function.calls, call.Plain

theorem ne_empty_of_isIdentifier {name : String} (h : Dotted.isIdentifier name = true) :
    name ≠ "" :=
  Dotted.ne_empty_of_first_ne (Dotted.first_ne_of_isIdentifier h)

theorem Graph.isSome_of_isSetLine {line : Option Int} (h : Graph.isSetLine line = true) :
    line.isSome := by
  cases line with
  | none => exact absurd h Bool.false_ne_true
  | some line => rfl

theorem FunctionOutline.clear_ofTree {moduleScope : Scope} {definition : Tree} (isMethod : Bool)
    (hScope : moduleScope.Plain) (h : definition.IsFunction) :
    (FunctionOutline.ofTree isMethod moduleScope definition).Clear := by
  have hOuter : ∀ scope ∈ [moduleScope], scope.Plain := by simpa using hScope
  have hBody := Tree.kept_trees h.legal .body
  have hFound := Block.clear_locals hOuter hBody
  refine ⟨ne_empty_of_isIdentifier h.name, h.line, h.bodyLine, fun binding hb => ?_, ?_⟩
  · rcases List.mem_append.mp hb with hb | hb
    · obtain ⟨parameter, _, rfl⟩ := List.mem_map.mp hb
      exact ⟨Graph.isSome_of_isSetLine h.line, nofun⟩
    · exact hFound.1 binding hb
  · refine Block.plain_calls (Block.allPlain_cons ?_ hOuter) hBody
    split
    · exact Block.plain_withSelf hFound.2
    · exact hFound.2

mutual

/-- The members of a namespace keep to a rule, and they are what their places ask for. -/
def Members.Keeps (rule : Tree → Bool) : Members → Prop
  | .mk classes functions body imports =>
      ClassMembers.AllKeep rule classes ∧
        (∀ f ∈ functions, f.every rule = true ∧
          (f.kind = .functionDef ∨ f.kind = .asyncFunctionDef)) ∧
        Tree.Kept rule body ∧ ∀ i ∈ imports, i.every rule = true ∧ i.kind = .importModules

/-- A class and its members keep to a rule. -/
def ClassMembers.Keeps (rule : Tree → Bool) : ClassMembers → Prop
  | .mk definition members =>
      (definition.every rule = true ∧ definition.kind = .classDef) ∧ members.Keeps rule

/-- Some classes and their members keep to a rule. -/
def ClassMembers.AllKeep (rule : Tree → Bool) : List ClassMembers → Prop
  | [] => True
  | definition :: rest => definition.Keeps rule ∧ ClassMembers.AllKeep rule rest

end

section Keeps

variable {rule : Tree → Bool}

theorem ClassMembers.allKeep_iff {classes : List ClassMembers} :
    ClassMembers.AllKeep rule classes ↔ ∀ c ∈ classes, c.Keeps rule := by
  induction classes with
  | nil => simp [ClassMembers.AllKeep]
  | cons c rest ih => simp [ClassMembers.AllKeep, ih]

namespace Members

variable {front back : Members}

theorem keeps_append (hFront : front.Keeps rule) (hBack : back.Keeps rule) :
    (front ++ back).Keeps rule := by
  match front, back, hFront, hBack with
  | .mk _ _ _ _, .mk _ _ _ _, ⟨hClasses, hFunctions, hBody, hImports⟩,
      ⟨hClasses', hFunctions', hBody', hImports'⟩ =>
      rw [ClassMembers.allKeep_iff] at hClasses hClasses'
      exact ⟨ClassMembers.allKeep_iff.mpr (List.forall_mem_append.mpr ⟨hClasses, hClasses'⟩),
        List.forall_mem_append.mpr ⟨hFunctions, hFunctions'⟩,
        List.forall_mem_append.mpr ⟨hBody, hBody'⟩,
        List.forall_mem_append.mpr ⟨hImports, hImports'⟩⟩

theorem keeps_empty : Members.empty.Keeps rule :=
  ⟨trivial, by simp, fun _ ht => absurd ht List.not_mem_nil, by simp⟩

theorem keeps_withoutImports (h : front.Keeps rule) : front.withoutImports.Keeps rule := by
  match front, h with
  | .mk _ _ _ _, ⟨hClasses, hFunctions, hBody, _⟩ =>
      exact ⟨hClasses, hFunctions, hBody, by simp⟩

/-- A namespace with one function. -/
theorem keeps_function {tree : Tree} (h : tree.every rule = true)
    (hKind : tree.kind = .functionDef ∨ tree.kind = .asyncFunctionDef) :
    (Members.mk [] [tree] [] []).Keeps rule :=
  ⟨trivial, by simpa using ⟨h, hKind⟩, fun _ ht => absurd ht List.not_mem_nil, by simp⟩

mutual

theorem keeps_ofStatement (tree : Tree) (h : tree.every rule = true) :
    (ofStatement tree).Keeps rule := by
  match tree, h with
  | .node kind line attributes children, h =>
      have hChildren := keeps_ofChildren children (Bool.and_eq_true_iff.mp h).2
      unfold ofStatement
      split
      · exact keeps_function h (Or.inl rfl)
      · exact keeps_function h (Or.inr rfl)
      · exact ⟨⟨⟨⟨h, rfl⟩, hChildren⟩, trivial⟩, by simp,
          fun _ ht => absurd ht List.not_mem_nil, by simp⟩
      · refine ⟨trivial, by simp, fun _ ht => absurd ht List.not_mem_nil, fun i hi => ?_⟩
        rw [List.mem_singleton.mp hi]
        exact ⟨h, rfl⟩
      · split
        · refine ⟨trivial, by simp, fun t ht => ?_, by simp⟩
          rw [List.mem_singleton.mp ht]
          exact h
        · exact keeps_withoutImports hChildren

theorem keeps_ofChildren (children : List Child) (h : Tree.everyChild rule children = true) :
    (ofChildren children).Keeps rule := by
  match children, h with
  | [], _ => exact keeps_empty
  | .filled field tree :: rest, h =>
      obtain ⟨hTree, hRest⟩ := Bool.and_eq_true_iff.mp h
      have hOthers := keeps_ofChildren rest hRest
      by_cases hField : field = .body
      · subst hField
        exact keeps_append (keeps_ofStatement tree hTree) hOthers
      · have hSkip : ofChildren (.filled field tree :: rest) = ofChildren rest := by
          cases field <;> first | rfl | exact absurd rfl hField
        rw [hSkip]
        exact hOthers
  | .gap field :: rest, h => exact keeps_ofChildren rest h

end

/-- A rule that is kept in a tree is kept by its members. -/
theorem keeps_ofTree {tree : Tree} (h : tree.every rule = true) : (ofTree tree).Keeps rule := by
  cases tree with
  | node kind line attributes children =>
      exact keeps_ofChildren children (Bool.and_eq_true_iff.mp h).2

end Members

end Keeps

/-- A class with a name and a line. -/
def ClassOutline.Named (definition : ClassOutline) : Prop :=
  definition.token ≠ "" ∧ definition.line.isSome

/-- What is known of every outline. -/
structure FileOutline.Clear (file : FileOutline) : Prop where
  locals : ∀ binding ∈ file.locals, binding.Clear
  calls : ∀ call ∈ file.calls, call.Plain
  functions : ∀ f ∈ file.functions, f.Clear
  classes : ∀ c ∈ file.classes, c.Every FunctionOutline.Clear ClassOutline.Named
  imports : ∀ i ∈ file.imports, i.token ≠ "" ∧ i.line.isSome

namespace ClassOutline

/-- What definitions that keep to a rule grant the functions and classes read from them; methods are
read in a scope. -/
structure Grants (rule : Tree → Bool) (onScope : Scope → Prop)
    (onFunction : FunctionOutline → Prop) (onClass : ClassOutline → Prop) : Prop where
  nil : onScope []
  method : ∀ {scope : Scope} {f : Tree}, onScope scope → f.every rule = true →
    (f.kind = .functionDef ∨ f.kind = .asyncFunctionDef) →
    onFunction (FunctionOutline.ofTree true scope f)
  own : ∀ {definition : Tree}, definition.every rule = true → definition.kind = .classDef →
    ∀ functions classes, onClass (.mk ((definition.text? "name").getD "") definition.line
      (basesOf definition) functions classes)

variable {rule : Tree → Bool} {onScope : Scope → Prop} {onFunction : FunctionOutline → Prop}
variable {onClass : ClassOutline → Prop}

mutual

theorem every_ofMembers (g : Grants rule onScope onFunction onClass) {scope : Scope}
    (hScope : onScope scope) (c : ClassMembers) (h : c.Keeps rule) :
    (ofMembers scope c).Every onFunction onClass := by
  match c, h with
  | .mk definition (.mk classes functions _ _), ⟨⟨hRule, hKind⟩, hClasses, hFunctions, _⟩ =>
      refine ⟨g.own hRule hKind _ _, fun f hf => ?_, everyOf_nested g classes hClasses⟩
      obtain ⟨method, hMethod, rfl⟩ := List.mem_map.mp hf
      exact g.method hScope (hFunctions method hMethod).1 (hFunctions method hMethod).2

theorem everyOf_nested (g : Grants rule onScope onFunction onClass) (classes : List ClassMembers)
    (h : ClassMembers.AllKeep rule classes) : EveryOf onFunction onClass (nested classes) := by
  match classes, h with
  | [], _ => exact trivial
  | c :: rest, ⟨hFirst, hRest⟩ =>
      exact ⟨every_ofMembers g g.nil c hFirst, everyOf_nested g rest hRest⟩

end

theorem grants_clear : Grants Tree.isRegular Scope.Plain FunctionOutline.Clear Named where
  nil := Scope.plain_nil
  method hScope hLegal hKind :=
    FunctionOutline.clear_ofTree true hScope (Tree.isFunction_of_isLegal hLegal hKind)
  own hLegal hKind _ _ :=
    have hClass := Tree.isClass_of_isLegal hLegal hKind
    ⟨ne_empty_of_isIdentifier hClass.name, hClass.line⟩

end ClassOutline

theorem ImportOutline.clear_ofTree {statement : Tree} (h : statement.IsImport) :
    (ImportOutline.ofTree statement).token ≠ "" ∧ (ImportOutline.ofTree statement).line.isSome := by
  refine ⟨?_, h.line⟩
  obtain ⟨item, rest, hNames⟩ := List.exists_cons_of_ne_nil h.names_ne
  have hItem := h.names item (by rw [hNames]; exact List.mem_cons_self)
  have hToken : (ImportOutline.ofTree statement).token = (item.text? "name").getD "" := by
    simp [ImportOutline.ofTree, hNames]
  rw [hToken]
  exact Dotted.ne_empty_of_first_ne hItem

/-- The outline of a legal tree is clear. -/
theorem FileOutline.clear_ofTree {tree : Tree} (h : tree.isLegal = true) (path : String) :
    (FileOutline.ofTree tree path).Clear := by
  have hMembers := Members.keeps_ofTree h
  unfold FileOutline.ofTree
  generalize Members.ofTree tree = members at hMembers
  match members, hMembers with
  | .mk classes functions body imports, ⟨hClasses, hFunctions, hBody, hImports⟩ =>
      have hStatements : Tree.Kept Tree.isRegular (body ++ imports) :=
        List.forall_mem_append.mpr ⟨hBody, fun i hi => (hImports i hi).1⟩
      have hFound : Block.Clear (Block.locals [] [] (body ++ imports)) :=
        Block.clear_locals (by simp) hStatements
      refine
        { locals := hFound.1
          calls := Block.plain_calls (Block.allPlain_cons hFound.2 (by simp)) hStatements
          functions := fun f hf => ?_, classes := fun c hc => ?_, imports := fun i hi => ?_ }
      · obtain ⟨definition, hDefinition, rfl⟩ := List.mem_map.mp hf
        obtain ⟨hLegal, hKind⟩ := hFunctions definition hDefinition
        exact FunctionOutline.clear_ofTree false hFound.2 (Tree.isFunction_of_isLegal hLegal hKind)
      · obtain ⟨definition, hDefinition, rfl⟩ := List.mem_map.mp hc
        exact ClassOutline.every_ofMembers ClassOutline.grants_clear hFound.2 definition
          (ClassMembers.allKeep_iff.mp hClasses definition hDefinition)
      · obtain ⟨statement, hStatement, rfl⟩ := List.mem_map.mp hi
        obtain ⟨hLegal, hKind⟩ := hImports statement hStatement
        exact ImportOutline.clear_ofTree (Tree.isImport_of_isLegal hLegal (Or.inl hKind))

end CallGraph
