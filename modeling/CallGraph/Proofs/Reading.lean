import CallGraph.Proofs.Nesting

/-!
# How call expressions are read

What a call expression is read as depends on the tree in front of its brackets and on what the scopes
say about the name in it.

For a chain of names `x.y. … .member()` the scopes do not matter. The names along the chain are
collected from the trees that are names, and only the first of the chain is one: the others are
attributes of the trees in between. So whatever the length of the chain, its first name alone is taken
for the owner, and the same holds of a chain that is passed as an argument.

For `name()`, `name.member()` and `name['key']()` the scopes are asked about the name. In the first two
forms the innermost scope that knows the name decides. In the third, a scope in which the name is no
table with this key is passed over, so scopes further out may decide.

## Main definitions

* `Tree.Spells` — an expression is a chain of names.
* `Tree.IsMemberOf`, `Tree.IsEntryOf` — an expression is a member or an entry of a name.
* `Scope.SameBut` — two scopes agree on all names but one.

## Main results

* `Block.only_first_name_kept` — what is kept of a chain of names.
* `Block.innermost_binding_decides` — which scopes decide what a call is read as.
-/

namespace CallGraph

namespace Tree

/-! ## Chains of names -/

/-- An expression spells a chain of names: it is a name, or a member of what spells the other names. -/
inductive Spells : Tree → List String → Prop
  | name {tree : Tree} {id : String} (hName : tree.identifier? = some id)
      (hValue : tree.tree? .value = none) : Spells tree [id]
  | member {tree owner : Tree} {names : List String} {member : String}
      (hKind : tree.kind = .member) (hMember : tree.text? "attr" = some member)
      (hOwner : tree.tree? .value = some owner) (h : Spells owner names) :
      Spells tree (names ++ [member])

theorem Spells.ne_nil {tree : Tree} {names : List String} (h : tree.Spells names) : names ≠ [] := by
  cases h with
  | name _ _ => exact List.cons_ne_nil _ _
  | member _ _ _ _ => exact List.append_ne_nil_of_right_ne_nil _ (List.cons_ne_nil _ _)

theorem valueChainOfChildren_eq (children : List Child) :
    valueChainOfChildren children =
      ((Tree.node .module none [] children).tree? .value).elim [] valueChain := by
  induction children with
  | nil => rfl
  | cons child rest ih =>
      cases child with
      | gap field =>
          rw [valueChainOfChildren, ih]
          · by_cases hField : field = .value <;>
              simp [tree?, trees, places, Tree.children, Child.field, Child.tree?, hField]
          · simp
      | filled field tree =>
          by_cases hField : field = .value
          · subst hField
            rfl
          · rw [valueChainOfChildren, ih]
            · simp [tree?, trees, places, Tree.children, Child.field, Child.tree?, hField]
            · intro t ht
              cases ht
              exact hField rfl

/-- A chain of `value` fields goes on with the tree in the first of them. -/
theorem valueChain_eq (tree : Tree) :
    tree.valueChain = tree :: (tree.tree? .value).elim [] valueChain := by
  cases tree with
  | node kind line attributes children =>
      rw [valueChain, valueChainOfChildren_eq]
      rfl

/-- Of a chain of names, the first one is the only name along the `value` fields. -/
theorem Spells.identifiers {tree : Tree} {names : List String} (h : tree.Spells names) :
    tree.valueChain.filterMap identifier? = names.take 1 := by
  induction h with
  | name hName hValue =>
      rw [valueChain_eq, hValue, List.filterMap_cons_some hName]
      rfl
  | @member tree owner names member hKind _ hOwner h ih =>
      have hNone : tree.identifier? = none := by simp [identifier?, hKind]
      have hLength : 1 ≤ names.length := List.length_pos_of_ne_nil h.ne_nil
      rw [valueChain_eq, List.filterMap_cons_none hNone, hOwner, List.take_append_of_le_length hLength]
      exact ih

end Tree

/-- Several names joined are more than the first of them. -/
theorem Dotted.ne_join_of_ne_nil {first : String} {rest : List String} (h : rest ≠ []) :
    first ≠ join (first :: rest) := by
  intro hSame
  have hLength := congrArg String.length hSame
  rw [join, Text.joinWith, String.length_append, String.length_append,
    show ".".length = 1 from rfl] at hLength
  · omega
  · exact h

namespace Block

theorem ownerName?_of_spells {tree : Tree} {names : List String} (h : tree.Spells names) :
    ownerName? tree = names.head? := by
  obtain ⟨first, rest, rfl⟩ := List.exists_cons_of_ne_nil h.ne_nil
  rw [ownerName?, h.identifiers]
  rfl

/-- A chain passes its first name on. -/
theorem argument?_of_spells {tree : Tree} {names : List String} (h : tree.Spells names) :
    argument? tree = names.head? := by
  cases h with
  | name hName _ =>
      obtain ⟨hKind, hName⟩ := Tree.identifier?_eq_some_iff.mp hName
      simpa [argument?, hKind] using hName
  | member hKind hMember hOwner h =>
      rw [argument?, hKind]
      exact ownerName?_of_spells (.member hKind hMember hOwner h)

/-- A chain of two names and more is an owner by its first name, whatever the scopes say. -/
theorem owner_of_spells {tree : Tree} {first : String} {rest : List String}
    (h : tree.Spells (first :: rest)) (hRest : rest ≠ []) (scopes : Option (List Scope)) :
    owner scopes tree = first := by
  have hName : tree.identifier? = none := by
    generalize hNames : first :: rest = names at h
    cases h with
    | name _ _ => exact absurd (List.cons.inj hNames).2 hRest
    | member hKind _ _ _ => simp [Tree.identifier?, hKind]
  cases scopes <;> simp [owner, hName, ownerName?_of_spells h]

/--
**Of a dotted owner only the first name is kept.** A call `first.rest.member()`, where the rest is not
empty, is read as a call on `first`, with every stack of scopes and with none, and a positional argument
`first.rest` is passed on as `first`. This is never the whole dotted name.
-/
theorem only_first_name_kept {first : String} {rest : List String} (hRest : rest ≠ [])
    (scopes : Option (List Scope)) :
    (∀ callee member arguments, callee.Spells (first :: rest ++ [member]) →
      call? scopes arguments callee =
        some { token := member, line := callee.line, owner := some first,
               isLibrary := first ≠ "" && first ≠ unknownOwner, arguments := arguments }) ∧
    (∀ expression front argument back, argument.Spells (first :: rest) →
      expression.trees .args = front ++ argument :: back →
      arguments expression = front.filterMap argument? ++ first :: back.filterMap argument?) ∧
    first ≠ Dotted.join (first :: rest) := by
  refine ⟨fun callee member arguments h => ?_, fun expression front argument back h hArgs => ?_, ?_⟩
  · generalize hNames : first :: rest ++ [member] = names at h
    cases h with
    | name _ _ => simp [hRest] at hNames
    | @member _ owner names member' hKind hMember hOwner h =>
        obtain ⟨rfl, hMember'⟩ := List.append_inj' hNames rfl
        cases hMember'
        rw [call?_of_member hKind, memberCall, hOwner, Option.getD_some, owner_of_spells h hRest,
          hMember]
        rfl
  · rw [arguments, hArgs, List.filterMap_append,
      List.filterMap_cons_some (argument?_of_spells h)]
  · exact Dotted.ne_join_of_ne_nil hRest

/-- `a.b.f` -/
def chainCallee : Tree := .memberAt 1 (.memberAt 1 (.nameAt 1 "a") "b") "f"

/-- `a.b.f(c.d)` -/
def chainCall : Tree :=
  .node .call (some 1) []
    [.filled .func chainCallee, .filled .args (.memberAt 1 (.nameAt 1 "c") "d")]

theorem spells_chainCallee : chainCallee.Spells ["a", "b", "f"] :=
  .member rfl rfl rfl (.member rfl rfl rfl (.name rfl rfl))

/-- The owner of the call in the sample is `a`, also if a scope knows `a` as something else, and the
argument that it passes is `c`. -/
theorem only_first_name_kept_chainCall :
    call? (some [[("a", .name "os")]]) (arguments chainCall) chainCallee =
        some { token := "f", line := some 1, owner := some "a", isLibrary := true,
               arguments := ["c"] } ∧
      "a" ≠ Dotted.join ["a", "b"] := by
  obtain ⟨hCall, _, hNotWhole⟩ := @only_first_name_kept "a" ["b"] (List.cons_ne_nil _ _)
    (some [[("a", .name "os")]])
  obtain ⟨_, hArguments, _⟩ := @only_first_name_kept "c" ["d"] (List.cons_ne_nil _ _) none
  refine ⟨?_, hNotWhole⟩
  rw [hArguments chainCall [] _ [] (.member rfl rfl rfl (.name rfl rfl)) rfl,
    hCall chainCallee "f" _ spells_chainCallee]
  rfl

/-- A dotted owner is not kept whole, and neither is a dotted argument. -/
theorem dotted_names_cut_chainCall :
    chainCallee.Spells ["a", "b", "f"] ∧
      (call? none (arguments chainCall) chainCallee).map (fun call => (call.owner, call.arguments)) ≠
        some (some (Dotted.join ["a", "b"]), [Dotted.join ["c", "d"]]) :=
  ⟨spells_chainCallee, by decide +kernel⟩

end Block

/-! ## The innermost scope -/

namespace Tree

/-- An expression is a member of a name. -/
structure IsMemberOf (tree : Tree) (name : String) : Prop where
  kind : tree.kind = .member
  value : ∃ value, tree.tree? .value = some value ∧ value.identifier? = some name

/-- An expression is the entry of a name under a constant text. -/
structure IsEntryOf (tree : Tree) (name : String) (key : Literal) : Prop where
  kind : tree.kind = .subscript
  value : ∃ value, tree.tree? .value = some value ∧ value.identifier? = some name
  index : ∃ index, tree.tree? .slice = some index ∧ index.kind = .constant ∧
    index.literal? "value" = some key

end Tree

/-- What an entry of a scope says about a key: something only if it is a table that has the key. -/
def ScopeEntry.at? (entry : ScopeEntry) (key : Literal) : Option String :=
  match entry with
  | .name _ => none
  | .table entries => entries.lookup key

namespace Scope

/-- Two scopes agree on all names but one. -/
def SameBut (name : String) (scope other : Scope) : Prop :=
  ∀ name', name' ≠ name → scope.get? name' = other.get? name'

variable {front outer : List Scope} {inner : Scope} {name : String} {entry : ScopeEntry}

/-- The innermost scope that knows a name decides what is known about it. -/
theorem lookup?_of_innermost (hFront : ∀ scope ∈ front, scope.get? name = none)
    (hInner : inner.get? name = some entry) (outer : List Scope) :
    lookup? (front ++ inner :: outer) name = some entry := by
  rw [lookup?, List.findSome?_append, List.findSome?_eq_none_iff.mpr hFront, List.findSome?_cons,
    hInner]
  rfl

theorem lookupKey?_cons (scope : Scope) (rest : List Scope) (name : String) (key : Literal) :
    lookupKey? (scope :: rest) name key =
      ((scope.get? name).bind (·.at? key)).or (lookupKey? rest name key) := by
  rw [lookupKey?, List.findSome?_cons]
  cases scope.get? name with
  | none => rfl
  | some entry =>
      cases entry with
      | name _ => rfl
      | table table =>
          simp only [Option.bind_some, ScopeEntry.at?]
          cases table.lookup key <;> rfl

/-- A key is looked up in the innermost scope that knows the name, and behind it if it is not there. -/
theorem lookupKey?_of_innermost (hFront : ∀ scope ∈ front, scope.get? name = none)
    (hInner : inner.get? name = some entry) (outer : List Scope) (key : Literal) :
    lookupKey? (front ++ inner :: outer) name key =
      (entry.at? key).or (lookupKey? outer name key) := by
  induction front with
  | nil => rw [List.nil_append, lookupKey?_cons, hInner, Option.bind_some]
  | cons scope rest ih =>
      obtain ⟨hScope, hRest⟩ := List.forall_mem_cons.mp hFront
      rw [List.cons_append, lookupKey?_cons, hScope, Option.bind_none, Option.none_or, ih hRest]

/-- Behind a scope that is there, anything can be known about a key. -/
theorem exists_lookupKey?_ne (hOuter : outer ≠ []) (name : String) (key : Literal) :
    ∃ outer', List.Forall₂ (SameBut name) outer outer' ∧
      lookupKey? outer' name key ≠ lookupKey? outer name key := by
  obtain ⟨scope, rest, rfl⟩ := List.exists_cons_of_ne_nil hOuter
  obtain ⟨token, hToken⟩ : ∃ token, some token ≠ lookupKey? (scope :: rest) name key := by
    by_cases hEmpty : lookupKey? (scope :: rest) name key = some ""
    · exact ⟨"f", by rw [hEmpty]; decide⟩
    · exact ⟨"", Ne.symm hEmpty⟩
  refine ⟨scope.set name (.table [(key, token)]) :: rest, .cons ?_ ?_, ?_⟩
  · exact fun other hOther => (get?_set_ne scope _ hOther).symm
  · exact List.forall₂_same.mpr fun _ _ _ _ => rfl
  · rw [lookupKey?_cons, get?_set_self]
    simpa [ScopeEntry.at?] using hToken

end Scope

namespace Block

variable {front outer : List Scope} {inner : Scope} {name : String} {entry : ScopeEntry}

/-- The call of a table entry, from what the scopes know under the key. -/
theorem call?_of_isEntryOf {callee : Tree} {key : Literal} (h : callee.IsEntryOf name key)
    (scopes : List Scope) (arguments : List String) :
    call? (some scopes) arguments callee = (Scope.lookupKey? scopes name key).map fun token =>
      { token := token, line := callee.line, arguments := arguments,
        tableEntry := some (name, key) } := by
  have hCall : call? (some scopes) arguments callee = entryCall? (some scopes) arguments callee := by
    have hKind := h.kind
    cases callee with
    | node kind line attributes children =>
        cases hKind
        rfl
  obtain ⟨value, hValue, hName⟩ := h.value
  obtain ⟨index, hIndex, hConstant, hKey⟩ := h.index
  rw [hCall]
  simp only [entryCall?, hValue, hName, hIndex, if_pos hConstant, hKey, Option.bind_eq_bind,
    Option.bind_some]
  cases Scope.lookupKey? scopes name key <;> rfl

/-- The call of a name or of a member of it, from what the scopes know about the name. -/
theorem call?_of_lookup?_eq {callee : Tree}
    (h : callee.identifier? = some name ∨ callee.IsMemberOf name) {scopes scopes' : List Scope}
    (hLookup : Scope.lookup? scopes' name = Scope.lookup? scopes name) (arguments : List String) :
    call? (some scopes') arguments callee = call? (some scopes) arguments callee := by
  rcases h with hName | hMember
  · rw [call?_of_identifier hName, call?_of_identifier hName]
    simp only [nameCall, (Tree.identifier?_eq_some_iff.mp hName).2, Option.getD_some,
      Option.bind_some, hLookup]
  · obtain ⟨value, hValue, hName⟩ := hMember.value
    rw [call?_of_member hMember.kind, call?_of_member hMember.kind]
    simp only [memberCall, hValue, Option.getD_some, owner, hName, hLookup]

/--
**Which scopes decide what a call is read as.** Let `inner` be the innermost scope that knows a name. What
`name()` and `name.member()` are read as does not depend on the scopes around it. What `name['key']()`
is read as stays the same under every change of what the scopes around say about the name if and only
if there are no such scopes or the name is a table with this key in `inner`.
-/
theorem innermost_binding_decides (hFront : ∀ scope ∈ front, scope.get? name = none)
    (hInner : inner.get? name = some entry) (outer : List Scope) (arguments : List String) :
    (∀ callee, callee.identifier? = some name ∨ callee.IsMemberOf name → ∀ outer',
      call? (some (front ++ inner :: outer')) arguments callee =
        call? (some (front ++ inner :: outer)) arguments callee) ∧
    ∀ callee key, callee.IsEntryOf name key →
      ((∀ outer', List.Forall₂ (Scope.SameBut name) outer outer' →
          call? (some (front ++ inner :: outer')) arguments callee =
            call? (some (front ++ inner :: outer)) arguments callee) ↔
        outer = [] ∨ (entry.at? key).isSome = true) := by
  refine ⟨fun callee hForm outer' => ?_, fun callee key hEntry => ⟨fun hSame => ?_, fun h => ?_⟩⟩
  · apply call?_of_lookup?_eq hForm
    rw [Scope.lookup?_of_innermost hFront hInner, Scope.lookup?_of_innermost hFront hInner]
  · by_contra hNot
    obtain ⟨hOuter, hNone⟩ := not_or.mp hNot
    rw [Bool.not_eq_true, Option.isSome_eq_false_iff, Option.isNone_iff_eq_none] at hNone
    obtain ⟨outer', hSameBut, hDiffers⟩ := Scope.exists_lookupKey?_ne hOuter name key
    have hCalls := congrArg (Option.map Call.token) (hSame outer' hSameBut)
    rw [call?_of_isEntryOf hEntry, call?_of_isEntryOf hEntry, Option.map_map, Option.map_map,
      Scope.lookupKey?_of_innermost hFront hInner, Scope.lookupKey?_of_innermost hFront hInner,
      hNone, Option.none_or, Option.none_or] at hCalls
    exact hDiffers (by simpa [Function.comp_def] using hCalls)
  · intro outer' hSameBut
    rw [call?_of_isEntryOf hEntry, call?_of_isEntryOf hEntry,
      Scope.lookupKey?_of_innermost hFront hInner, Scope.lookupKey?_of_innermost hFront hInner]
    rcases h with rfl | hSome
    · cases hSameBut
      rfl
    · obtain ⟨token, hToken⟩ := Option.isSome_iff_exists.mp hSome
      rw [hToken, Option.some_or, Option.some_or]

/-- `name['key']` -/
def entryAt (line : Int) (name key : String) : Tree :=
  .node .subscript (some line) []
    [.filled .value (.nameAt line name),
     .filled .slice (.node .constant (some line) [("value", .literal (.ofText key))] [])]

theorem isEntryOf_entryAt (line : Int) (name key : String) :
    (entryAt line name key).IsEntryOf name (.ofText key) :=
  ⟨rfl, ⟨_, rfl, rfl⟩, _, rfl, rfl, rfl⟩

/-- A scope in which `d` is a table with one key. -/
def tableScope (key value : String) : Scope := [("d", .table [(.ofText key, value)])]

/-- Where the innermost table has the key, nothing else is asked. -/
theorem innermost_binding_decides_tableScope :
    (∀ outer', call? (some ([] :: tableScope "k" "f" :: outer')) [] (.nameAt 1 "d") =
      some { token := "d", line := some 1 }) ∧
    ∀ outer', List.Forall₂ (Scope.SameBut "d") [tableScope "k" "g"] outer' →
      call? (some ([] :: tableScope "k" "f" :: outer')) [] (entryAt 1 "d" "k") =
        some { token := "f", line := some 1, tableEntry := some ("d", .ofText "k") } := by
  have hFront : ∀ scope ∈ ([[]] : List Scope), scope.get? "d" = none := by
    intro scope hScope
    rw [List.mem_singleton.mp hScope]
    rfl
  have hInner : (tableScope "k" "f").get? "d" = some (.table [(.ofText "k", "f")]) := rfl
  obtain ⟨hName, hEntry⟩ := innermost_binding_decides hFront hInner [tableScope "k" "g"] []
  refine ⟨fun outer' => ?_, fun outer' hOuter => ?_⟩
  · exact (hName (.nameAt 1 "d") (Or.inl rfl) outer').trans rfl
  · exact ((hEntry _ _ (isEntryOf_entryAt 1 "d" "k")).mpr (Or.inr rfl) outer' hOuter).trans rfl

/-- Where the innermost table lacks the key, a table further out decides: without it the call is left
out, and with it there is one. -/
theorem outer_binding_decides_tableScope :
    (tableScope "other" "g").get? "d" ≠ none ∧ Scope.SameBut "d" (tableScope "k" "f") [] ∧
      call? (some [tableScope "other" "g", tableScope "k" "f"]) [] (entryAt 1 "d" "k") ≠
        call? (some [tableScope "other" "g", []]) [] (entryAt 1 "d" "k") := by
  refine ⟨by decide, fun name hName => ?_, by decide +kernel⟩
  rw [tableScope, Scope.get?_cons, if_neg hName]

end Block

end CallGraph
