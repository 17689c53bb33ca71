import CallGraph.Outline
import CallGraph.Proofs.Grammar
import CallGraph.Proofs.Spelling

/-!
# Names that imports bind

An import statement of a module binds a name to the dotted name of what it imports. If nothing else
binds the name, the scope of the module says so wherever the statement stands, and so does every
function of the module, since its own scope says the same or nothing. A plain call of the name is then
a library call: its owner is the module in front of the last dot.

The statements of a module are found among all trees of the file, so whatever such a statement imports
is seen when imports are followed, too.

## Main definitions

* `Tree.Within` — a tree is part of another.
* `Block.keeps` — a tree binds a name to nothing but a given dotted name.
* `Tree.Borrows`, `Tree.BorrowsAs` — a module imports a name and does not bind it otherwise.

## Main results

* `within_ofTree` — the members of a module are parts of it.
* `mem_calls_function`, `mem_calls_global` — what the calls of an imported name are read as.
-/

namespace CallGraph

/-! ## Parts of trees -/

namespace Tree

/-- A tree is part of another. -/
inductive Within (t : Tree) : Tree → Prop
  | refl : Within t t
  | inside {inner tree : Tree} (hInner : inner ∈ tree.subtrees) (h : Within t inner) :
      Within t tree

variable {t tree : Tree}

theorem height_le_of_mem {children : List Child} (h : t ∈ children.filterMap Child.tree?) :
    t.height ≤ heightOfChildren children := by
  induction children with
  | nil => exact absurd h List.not_mem_nil
  | cons child rest ih =>
      cases child with
      | gap field => exact ih h
      | filled field tree =>
          rw [heightOfChildren]
          rcases List.mem_cons.mp h with rfl | h
          · exact Nat.le_max_left _ _
          · exact Nat.le_trans (ih h) (Nat.le_max_right _ _)

theorem height_lt_of_mem_subtrees (h : t ∈ tree.subtrees) : t.height < tree.height := by
  cases tree with
  | node kind line attributes children =>
      rw [height]
      exact Nat.lt_succ_of_le (height_le_of_mem h)

theorem Within.height_le (h : t.Within tree) : t.height ≤ tree.height := by
  induction h with
  | refl => exact Nat.le_refl _
  | inside hInner _ ih => exact Nat.le_trans ih (Nat.le_of_lt (height_lt_of_mem_subtrees hInner))

theorem Within.trans {inner : Tree} (h : t.Within inner) (hInner : inner.Within tree) :
    t.Within tree := by
  induction hInner with
  | refl => exact h
  | inside hMem _ ih => exact .inside hMem ih

theorem within_of_mem_trees {field : Field} (h : t ∈ tree.trees field) : t.Within tree :=
  .inside (mem_subtrees_of_mem_trees h) .refl

theorem Within.mem_levels (h : t.Within tree) {n : Nat} {trees : List Tree} (hTree : tree ∈ trees)
    (hHeight : tree.height ≤ n) : t ∈ levels n trees := by
  induction h generalizing n trees with
  | refl =>
      have hPositive : 0 < t.height := by
        cases t
        exact Nat.succ_pos _
      obtain ⟨m, rfl⟩ := Nat.exists_eq_succ_of_ne_zero (show n ≠ 0 by omega)
      exact List.mem_append_left _ hTree
  | inside hInner _ ih =>
      have hLt := height_lt_of_mem_subtrees hInner
      obtain ⟨m, rfl⟩ := Nat.exists_eq_succ_of_ne_zero (show n ≠ 0 by omega)
      exact List.mem_append_right _ (ih (List.mem_flatMap.mpr ⟨_, hTree, hInner⟩) (by omega))

theorem Within.mem_walk (h : t.Within tree) : t ∈ tree.walk :=
  h.mem_levels (List.mem_singleton.mpr rfl) (Nat.le_refl _)

theorem Within.every {rule : Tree → Bool} (h : t.Within tree) (hTree : tree.every rule = true) :
    t.every rule = true := by
  induction h with
  | refl => exact hTree
  | inside hInner _ ih => exact ih ((every_iff.mp hTree).2 _ hInner)

end Tree

namespace Members

/-- The functions and statements of a namespace, those of its classes apart. -/
def listed (members : Members) : List Tree :=
  members.functions ++ members.body ++ members.imports

theorem mem_listed {members : Members} {t : Tree} :
    t ∈ members.listed ↔ t ∈ members.functions ∨ t ∈ members.body ∨ t ∈ members.imports := by
  simp [listed]

theorem mem_listed_append {front back : Members} {t : Tree} (h : t ∈ (front ++ back).listed) :
    t ∈ front.listed ∨ t ∈ back.listed := by
  match front, back with
  | .mk _ functions body imports, .mk _ functions' body' imports' =>
      have hParts : t ∈ functions ++ functions' ++ (body ++ body') ++ (imports ++ imports') := h
      simp only [List.mem_append] at hParts
      simp only [mem_listed, Members.functions, Members.body, Members.imports]
      tauto

theorem mem_listed_withoutImports {members : Members} {t : Tree}
    (h : t ∈ members.withoutImports.listed) : t ∈ members.listed := by
  match members with
  | .mk _ _ _ _ =>
      rcases mem_listed.mp h with h | h | h
      · exact mem_listed.mpr (Or.inl h)
      · exact mem_listed.mpr (Or.inr (Or.inl h))
      · exact absurd h List.not_mem_nil

mutual

/-- What a statement contributes to a namespace is part of it. -/
theorem within_ofStatement (tree : Tree) {t : Tree} (h : t ∈ (ofStatement tree).listed) :
    t.Within tree := by
  match tree with
  | .node kind line attributes children =>
      have hChildren : t ∈ (ofChildren children).listed →
          t.Within (.node kind line attributes children) := by
        intro hMem
        obtain ⟨child, hChild, inner, hInner, hWithin⟩ := within_ofChildren children hMem
        exact .inside (List.mem_filterMap.mpr ⟨child, hChild, hInner⟩) hWithin
      have hSelf : t ∈ [Tree.node kind line attributes children] →
          t.Within (.node kind line attributes children) := by
        intro hMem
        rw [List.mem_singleton.mp hMem]
        exact .refl
      unfold ofStatement at h
      split at h
      · exact hSelf h
      · exact hSelf h
      · exact absurd h List.not_mem_nil
      · exact hSelf h
      · split at h
        · exact hSelf h
        · exact hChildren (mem_listed_withoutImports h)

theorem within_ofChildren (children : List Child) {t : Tree}
    (h : t ∈ (ofChildren children).listed) :
    ∃ child ∈ children, ∃ tree, child.tree? = some tree ∧ t.Within tree := by
  match children with
  | [] => exact absurd h List.not_mem_nil
  | .gap field :: rest =>
      obtain ⟨child, hChild, hRest⟩ := within_ofChildren rest h
      exact ⟨child, List.mem_cons_of_mem _ hChild, hRest⟩
  | .filled field tree :: rest =>
      have hRest : t ∈ (ofChildren rest).listed →
          ∃ child ∈ Child.filled field tree :: rest, ∃ tree, child.tree? = some tree ∧
            t.Within tree := by
        intro hMem
        obtain ⟨child, hChild, hRest⟩ := within_ofChildren rest hMem
        exact ⟨child, List.mem_cons_of_mem _ hChild, hRest⟩
      by_cases hField : field = .body
      · subst hField
        have hBoth : t ∈ (ofStatement tree ++ ofChildren rest).listed := h
        rcases mem_listed_append hBoth with hFirst | hOthers
        · exact ⟨_, List.mem_cons_self, tree, rfl, within_ofStatement tree hFirst⟩
        · exact hRest hOthers
      · have hSkip : ofChildren (.filled field tree :: rest) = ofChildren rest := by
          cases field <;> first | rfl | exact absurd rfl hField
        exact hRest (hSkip ▸ h)

end

/-- The members of a module are parts of it. -/
theorem within_ofTree {tree t : Tree} (h : t ∈ (ofTree tree).listed) : t.Within tree := by
  obtain ⟨child, hChild, inner, hInner, hWithin⟩ := within_ofChildren tree.children h
  exact .inside (List.mem_filterMap.mpr ⟨child, hChild, hInner⟩) hWithin

end Members

/-! ## Scopes -/

/-- What a scope says about a name after several were recorded, if the name always got one entry. -/
theorem Scope.get?_foldl_set {α : Type} {name : String} {entry : ScopeEntry} {items : List α}
    (key : α → String) (value : α → ScopeEntry)
    (h : ∀ item ∈ items, key item = name → value item = entry) (scope : Scope) :
    get? (items.foldl (fun scope item => scope.set (key item) (value item)) scope) name =
      if ∃ item ∈ items, key item = name then some entry else scope.get? name := by
  induction items generalizing scope with
  | nil => simp
  | cons item rest ih =>
      obtain ⟨hItem, hRest⟩ := List.forall_mem_cons.mp h
      rw [List.foldl_cons, ih hRest]
      by_cases hName : key item = name
      · rw [hItem hName, hName, get?_set_self]
        simp [hName]
      · rw [get?_set_ne _ _ (Ne.symm hName)]
        simp [hName]

/-- An inner scope that says the same as the outer one, or nothing. -/
theorem Scope.lookup?_pair {inner outer : Scope} {name : String} {entry : ScopeEntry}
    (hOuter : outer.get? name = some entry)
    (hInner : inner.get? name = some entry ∨ inner.get? name = none) :
    lookup? [inner, outer] name = some entry := by
  rw [lookup?, List.findSome?_cons, List.findSome?_cons, hOuter]
  rcases hInner with hInner | hInner <;> rw [hInner]

namespace Block

variable {outer : List Scope} {inner : Scope} {name target : String} {tree : Tree}

/-- Whether a tree node, if it binds a name, imports it under a given dotted name. -/
def keeps (name target : String) (tree : Tree) : Bool :=
  match tree.kind with
  | .assign => !(targetNames tree).contains name
  | .importModules | .importFrom =>
      (tree.trees .names).all fun item =>
        decide ((importedItem tree item).1 = name → (importedItem tree item).2 = target)
  | _ => true

/-- An import statement that binds a name to a dotted name. -/
def BindsImport (name target : String) (tree : Tree) : Prop :=
  (tree.kind = .importModules ∨ tree.kind = .importFrom) ∧
    ∃ item ∈ tree.trees .names, importedItem tree item = (name, target)

theorem get?_setAll {names : List String} (h : name ∉ names) (entry : ScopeEntry) :
    (setAll names entry inner).get? name = inner.get? name := by
  have hNever : ¬∃ other ∈ names, other = name := by
    rintro ⟨_, hMem, rfl⟩
    exact h hMem
  unfold setAll
  rw [Scope.get?_foldl_set (fun other => other) (fun _ => entry) (fun _ _ _ => rfl), if_neg hNever]

theorem get?_assigned (hKind : tree.kind = .assign) (h : keeps name target tree = true) :
    (assigned outer inner tree).2.get? name = inner.get? name := by
  have hNot : name ∉ targetNames tree := by simpa [keeps, hKind] using h
  unfold assigned
  dsimp only
  split
  · split
    · rfl
    · dsimp only
      split
      · exact get?_setAll hNot _
      · rfl
  · exact get?_setAll hNot _
  · rfl

theorem get?_imported (hKind : tree.kind = .importModules ∨ tree.kind = .importFrom)
    (h : keeps name target tree = true) :
    (imported inner tree).2.get? name =
      if ∃ item ∈ tree.trees .names, (importedItem tree item).1 = name then some (.name target)
      else inner.get? name := by
  have hItems : ∀ item ∈ tree.trees .names,
      (importedItem tree item).1 = name → (importedItem tree item).2 = target := by
    have hAll : (tree.trees .names).all (fun item => decide
        ((importedItem tree item).1 = name → (importedItem tree item).2 = target)) = true := by
      rcases hKind with hKind | hKind <;> simpa only [keeps, hKind] using h
    exact fun item hItem => of_decide_eq_true (List.all_eq_true.mp hAll item hItem)
  have hPairs : ∀ pair ∈ (tree.trees .names).map (importedItem tree), pair.1 = name →
      ScopeEntry.name pair.2 = .name target := by
    intro pair hPair hName
    obtain ⟨item, hItem, rfl⟩ := List.mem_map.mp hPair
    rw [hItems item hItem hName]
  unfold imported
  dsimp only
  rw [Scope.get?_foldl_set Prod.fst (fun pair => .name pair.2) hPairs]
  simp

/-- A tree node that keeps a name binds it to the dotted name or leaves it alone. -/
theorem get?_bound (outer : List Scope) (inner : Scope) (h : keeps name target tree = true) :
    (bound outer inner tree).2.get? name = some (.name target) ∨
      (bound outer inner tree).2.get? name = inner.get? name := by
  have hImport : tree.kind = .importModules ∨ tree.kind = .importFrom →
      (imported inner tree).2.get? name = some (.name target) ∨
        (imported inner tree).2.get? name = inner.get? name := by
    intro hKind
    rw [get?_imported hKind h]
    split
    · exact Or.inl rfl
    · exact Or.inr rfl
  unfold bound
  split
  · rename_i hKind
    exact Or.inr (get?_assigned hKind h)
  · rename_i hKind
    exact hImport (Or.inl hKind)
  · rename_i hKind
    exact hImport (Or.inr hKind)
  · exact Or.inr rfl

theorem get?_bound_of_bindsImport (outer : List Scope) (inner : Scope)
    (h : keeps name target tree = true) (hImports : BindsImport name target tree) :
    (bound outer inner tree).2.get? name = some (.name target) := by
  obtain ⟨hKind, item, hItem, hBinds⟩ := hImports
  have hBound : bound outer inner tree = imported inner tree := by
    rcases hKind with hKind | hKind <;> simp [bound, hKind]
  rw [hBound, get?_imported hKind h, if_pos ⟨item, hItem, by rw [hBinds]⟩]

theorem get?_boundAll (outer : List Scope) (inner : Scope) {trees : List Tree}
    (h : ∀ t ∈ trees, keeps name target t = true) :
    (boundAll outer inner trees).2.get? name = some (.name target) ∨
      (boundAll outer inner trees).2.get? name = inner.get? name := by
  induction trees generalizing inner with
  | nil => exact Or.inr rfl
  | cons tree rest ih =>
      obtain ⟨hFirst, hRest⟩ := List.forall_mem_cons.mp h
      rcases ih (bound outer inner tree).2 hRest with hNow | hSame
      · exact Or.inl hNow
      · rcases get?_bound outer inner hFirst with hBound | hBound
        · exact Or.inl (hSame.trans hBound)
        · exact Or.inr (hSame.trans hBound)

/-- Once a statement binds the name, it stays bound. -/
theorem get?_boundAll_of_bindsImport {trees : List Tree} (h : ∀ t ∈ trees, keeps name target t = true)
    (hMem : tree ∈ trees) (hImports : BindsImport name target tree) :
    (boundAll outer inner trees).2.get? name = some (.name target) := by
  induction trees generalizing inner with
  | nil => exact absurd hMem List.not_mem_nil
  | cons first rest ih =>
      obtain ⟨hFirst, hRest⟩ := List.forall_mem_cons.mp h
      rcases List.mem_cons.mp hMem with rfl | hLater
      · have hBound := get?_bound_of_bindsImport outer inner hFirst hImports
        exact (get?_boundAll outer (bound outer inner tree).2 hRest).elim id
          fun hSame => hSame.trans hBound
      · exact ih hRest hLater

theorem keeps_of_mem_walk {statements : List Tree} (h : Tree.Kept (keeps name target) statements) :
    ∀ t ∈ statements.flatMap Tree.walk, keeps name target t = true :=
  fun t ht => (Tree.every_iff.mp (Tree.kept_walk h t ht)).1

/-! ## Calls -/

/-- The call of a function that was imported from a module, made by an expression. -/
def borrowedCall (module name : String) (expression callee : Tree) : Call :=
  { token := name, line := callee.line, owner := some module, isLibrary := true,
    arguments := arguments expression }

/-- An expression in a block calls a name. -/
structure CallsName (statements : List Tree) (name : String) (expression callee : Tree) : Prop where
  mem : expression ∈ statements.flatMap Tree.walk
  kind : expression.kind = .call
  func : expression.tree? .func = some callee
  identifier : callee.identifier? = some name

/-- A call of a name is read as one, whatever the tree looks like otherwise. -/
theorem call?_of_identifier {scopes : Option (List Scope)} {callee : Tree}
    (h : callee.identifier? = some name) (arguments : List String) :
    call? scopes arguments callee = some (nameCall scopes arguments callee) := by
  have hKind := (Tree.identifier?_eq_some_iff.mp h).1
  cases callee with
  | node kind line attributes children =>
      cases hKind
      rfl

/-- So is a call on a member. -/
theorem call?_of_member {scopes : Option (List Scope)} {callee : Tree}
    (h : callee.kind = .member) (arguments : List String) :
    call? scopes arguments callee = some (memberCall scopes arguments callee) := by
  cases callee with
  | node kind line attributes children =>
      cases h
      rfl

theorem mem_calls_of_lookup? {scopes : List Scope} {statements : List Tree}
    {module token : String} {expression callee : Tree}
    (h : CallsName statements name expression callee)
    (hLookup : Scope.lookup? scopes name = some (.name (Dotted.join [module, token])))
    (hToken : Dotted.isDotted token = false) :
    borrowedCall module token expression callee ∈ calls (some scopes) statements := by
  have hIdentifier := (Tree.identifier?_eq_some_iff.mp h.identifier).2
  have hName : nameCall (some scopes) (arguments expression) callee =
      borrowedCall module token expression callee := by
    simp [nameCall, hIdentifier, hLookup, Dotted.splitLast?_join module hToken, borrowedCall]
  refine List.mem_filterMap.mpr ⟨expression, h.mem, ?_⟩
  rw [if_pos h.kind, h.func, Option.bind_some, call?_of_identifier h.identifier, hName]

end Block

/-- A module imports a name from another in the code outside its functions, and nothing in it binds
the name otherwise. -/
structure Tree.Borrows (tree : Tree) (module name : String) : Prop where
  module_ne : module ≠ ""
  imported : ∃ statement ∈ (Members.ofTree tree).body, statement.kind = .importFrom ∧
    statement.text? "module" = some module ∧ ∃ item ∈ statement.trees .names,
      item.text? "name" = some name ∧ (item.text? "asname").filter (· ≠ "") = none
  only : tree.every (Block.keeps name (Dotted.join [module, name])) = true

/-- A module imports a name from another under a name of its own, which may be the same, and nothing
in it binds this name otherwise. -/
structure Tree.BorrowsAs (tree : Tree) (module name asName : String) : Prop where
  module_ne : module ≠ ""
  imported : ∃ statement ∈ (Members.ofTree tree).body, statement.kind = .importFrom ∧
    statement.text? "module" = some module ∧ ∃ item ∈ statement.trees .names,
      item.text? "name" = some name ∧
      ((item.text? "asname").filter (· ≠ "")).getD name = asName
  only : tree.every (Block.keeps asName (Dotted.join [module, name])) = true

variable {tree : Tree} {module name asName : String}

theorem Tree.Borrows.borrowsAs (h : tree.Borrows module name) :
    tree.BorrowsAs module name name where
  module_ne := h.module_ne
  imported := by
    obtain ⟨statement, hStatement, hKind, hModule, item, hItem, hName, hAlias⟩ := h.imported
    exact ⟨statement, hStatement, hKind, hModule, item, hItem, hName, by rw [hAlias]; rfl⟩
  only := h.only

namespace Tree.BorrowsAs

theorem kept (h : tree.BorrowsAs module name asName) (trees : List Tree)
    (hTrees : ∀ t ∈ trees, t ∈ (Members.ofTree tree).listed) :
    Tree.Kept (Block.keeps asName (Dotted.join [module, name])) trees :=
  fun t ht => (Members.within_ofTree (hTrees t ht)).every h.only

/-- The scope of a module knows the names it imports. -/
theorem get?_scope (h : tree.BorrowsAs module name asName) (path : String) :
    (FileOutline.ofTree tree path).scope.get? asName =
      some (.name (Dotted.join [module, name])) := by
  obtain ⟨statement, hStatement, hKind, hModule, item, hItem, hName, hAlias⟩ := h.imported
  have hBinds : Block.importedItem statement item = (asName, Dotted.join [module, name]) := by
    have hFrom : (some module).filter (· ≠ "") = some module := by simp [h.module_ne]
    rw [Block.importedItem, hName, hModule, hFrom]
    exact congrArg (·, Dotted.join [module, name]) hAlias
  have hKept := h.kept ((Members.ofTree tree).body ++ (Members.ofTree tree).imports)
    (fun t ht => Members.mem_listed.mpr (Or.inr (List.mem_append.mp ht)))
  have hMem : statement ∈ ((Members.ofTree tree).body ++ (Members.ofTree tree).imports).flatMap
      Tree.walk :=
    List.mem_flatMap.mpr
      ⟨statement, List.mem_append_left _ hStatement, Tree.Within.refl.mem_walk⟩
  exact Block.get?_boundAll_of_bindsImport (Block.keeps_of_mem_walk hKept) hMem
    ⟨Or.inr hKind, item, hItem, hBinds⟩

/-- A call of an imported name in a function of the module is a library call of what was imported. -/
theorem mem_calls_function (h : tree.BorrowsAs module name asName)
    (hName : Dotted.isDotted name = false) {definition : Tree}
    (hDefinition : definition ∈ (Members.ofTree tree).functions) {expression callee : Tree}
    (hCalls : Block.CallsName (definition.trees .body) asName expression callee) (path : String) :
    Block.borrowedCall module name expression callee ∈
      (FunctionOutline.ofTree false (FileOutline.ofTree tree path).scope definition).calls := by
  have hScope := h.get?_scope path
  have hKept := h.kept [definition] fun t ht => by
    rw [List.mem_singleton.mp ht]
    exact Members.mem_listed.mpr (Or.inl hDefinition)
  have hBody := Tree.kept_trees (hKept definition (List.mem_singleton.mpr rfl)) .body
  have hInner := Block.get?_boundAll [(FileOutline.ofTree tree path).scope] []
    (Block.keeps_of_mem_walk hBody)
  exact Block.mem_calls_of_lookup? hCalls (Scope.lookup?_pair hScope hInner) hName

/-- So is a call outside all functions. -/
theorem mem_calls_global (h : tree.BorrowsAs module name asName)
    (hName : Dotted.isDotted name = false) {expression callee : Tree}
    (hCalls : Block.CallsName ((Members.ofTree tree).body ++ (Members.ofTree tree).imports) asName
      expression callee) (path : String) :
    Block.borrowedCall module name expression callee ∈ (FileOutline.ofTree tree path).calls := by
  refine Block.mem_calls_of_lookup? hCalls ?_ hName
  have hScope := h.get?_scope path
  rw [Scope.lookup?, List.findSome?_cons]
  rw [FileOutline.ofTree] at hScope
  rw [hScope]

end Tree.BorrowsAs

/-- A call of an imported name in a function of the module is a library call of the function that was
imported. -/
theorem calls_of_borrows (h : tree.Borrows module name) (hName : Dotted.isDotted name = false)
    {definition : Tree} (hDefinition : definition ∈ (Members.ofTree tree).functions)
    {expression callee : Tree}
    (hCalls : Block.CallsName (definition.trees .body) name expression callee) (path : String) :
    Block.borrowedCall module name expression callee ∈
      (FunctionOutline.ofTree false (FileOutline.ofTree tree path).scope definition).calls :=
  h.borrowsAs.mem_calls_function hName hDefinition hCalls path

end CallGraph
