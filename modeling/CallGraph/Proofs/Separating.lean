import CallGraph.Proofs.Binding
import CallGraph.Proofs.Charting

/-!
# What separating a namespace keeps

A compound statement holds statements in several lists: the body, the branches of a conditional or a
loop, the handlers of a guarded block. All of them run in the namespace around the compound
statement. Separating a namespace looks into bodies only, and drops the imports it finds there.

`Tree.statements` says which statements run in a namespace, for any choice of the fields that hold
statement lists. With bodies alone it says exactly what is kept (`Members.ofTree_eq`); with more
lists it says what should be kept, and the two agree if and only if no compound statement has a
branch beside its body or an import in it (`keepsAll_iff`).

That the lists agree is reduced to lengths: what is reached through bodies is a sublist of what runs
(`flat_sublist`), and every statement comes to at least one.

## Main definitions

* `Tree.branches` — the statements in the statement lists of a tree.
* `Tree.statements` — the statements that run in the namespace of a module or class.
* `Tree.StandsIn` — a statement stands in a namespace, reached through bodies.
* `Tree.KeepsAll` — separating the namespace loses nothing.

## Main results

* `Members.ofTree_eq` — what separating comes to.
* `Tree.keepsAll_iff` — when it loses nothing.
-/

namespace CallGraph

namespace Child

@[simp] theorem field_filled (field : Field) (tree : Tree) : (filled field tree).field = field := rfl

@[simp] theorem field_gap (field : Field) : (gap field).field = field := rfl

@[simp] theorem tree?_filled (field : Field) (tree : Tree) :
    (filled field tree).tree? = some tree := rfl

@[simp] theorem tree?_gap (field : Field) : (gap field).tree? = none := rfl

end Child

namespace Tree

/-! ## Kinds of statements -/

/-- Whether a statement defines a function. -/
def definesFunction (tree : Tree) : Bool :=
  decide (tree.kind = .functionDef) || decide (tree.kind = .asyncFunctionDef)

/-- Whether a statement defines a class. -/
def definesClass (tree : Tree) : Bool :=
  decide (tree.kind = .classDef)

/-- Whether a statement imports whole modules. -/
def importsModules (tree : Tree) : Bool :=
  decide (tree.kind = .importModules)

/-- Whether a statement is taken as it stands, whatever is in it. -/
def standsAlone (tree : Tree) : Bool :=
  tree.definesFunction || tree.definesClass || tree.importsModules

/-- Whether a statement is neither a definition nor an import of modules. -/
def isPlain (tree : Tree) : Bool :=
  !tree.standsAlone

/-! ## Statement lists -/

/-- The statements in the statement lists of a tree, in source order. -/
def branches (lists : List Field) (tree : Tree) : List Tree :=
  (tree.children.filter fun child => decide (child.field ∈ lists)).filterMap Child.tree?

mutual

/-- The statements that one statement comes to: itself, if it stands alone or has no statement
lists, else those that its statement lists come to. -/
def flat (lists : List Field) : Tree → List Tree
  | .node kind line attributes children =>
      if (Tree.node kind line attributes children).standsAlone
          || ((Tree.node kind line attributes children).branches lists).isEmpty then
        [.node kind line attributes children]
      else flatOf lists children

/-- The statements that the statement lists among some children come to. -/
def flatOf (lists : List Field) : List Child → List Tree
  | [] => []
  | .filled field tree :: rest =>
      (if field ∈ lists then tree.flat lists else []) ++ flatOf lists rest
  | .gap _ :: rest => flatOf lists rest

end

/-- The statements that run in the namespace of a module or class: those that its body comes to. -/
def statements (lists : List Field) (tree : Tree) : List Tree :=
  (tree.trees .body).flatMap (flat lists)

variable {lists : List Field} {tree s t : Tree}

theorem flatOf_eq (lists : List Field) (tree : Tree) :
    flatOf lists tree.children = (tree.branches lists).flatMap (flat lists) := by
  unfold branches
  induction tree.children with
  | nil => rfl
  | cons child rest ih =>
      cases child with
      | gap field =>
          by_cases hField : field ∈ lists <;> simp [flatOf, List.filterMap_cons, hField, ih]
      | filled field tree => by_cases hField : field ∈ lists <;> simp [flatOf, hField, ih]

theorem filter_importsModules_of_open (h : tree.standsAlone = false) :
    [tree].filter importsModules = [] := by
  have hImport : tree.importsModules = false := (Bool.or_eq_false_iff.mp h).2
  simp [hImport]

theorem flat_of_standsAlone (h : tree.standsAlone = true) : tree.flat lists = [tree] := by
  cases tree with
  | node kind line attributes children => rw [flat, if_pos (by rw [h, Bool.true_or])]

theorem flat_of_branches_nil (h : tree.branches lists = []) : tree.flat lists = [tree] := by
  cases tree with
  | node kind line attributes children =>
      rw [flat, if_pos (by rw [h, List.isEmpty_nil, Bool.or_true])]

/-- A compound statement comes to what its statement lists come to. -/
theorem flat_of_compound (hAlone : tree.standsAlone = false) (h : tree.branches lists ≠ []) :
    tree.flat lists = (tree.branches lists).flatMap (flat lists) := by
  rw [← flatOf_eq]
  cases tree with
  | node kind line attributes children =>
      have hTest : ((Tree.node kind line attributes children).standsAlone
          || ((Tree.node kind line attributes children).branches lists).isEmpty) = false := by
        rw [hAlone, Bool.false_or, List.isEmpty_eq_false_iff]
        exact h
      rw [flat, if_neg (by simp [hTest])]
      rfl

theorem trees_eq (tree : Tree) (field : Field) : tree.trees field =
    (tree.children.filter fun child => decide (child.field = field)).filterMap Child.tree? := by
  rw [trees, places, List.filterMap_map, Function.id_comp]

theorem mem_branches : t ∈ tree.branches lists ↔ ∃ field ∈ lists, t ∈ tree.trees field := by
  simp only [branches, trees_eq, List.mem_filterMap, List.mem_filter, decide_eq_true_eq]
  constructor
  · rintro ⟨child, ⟨hChild, hField⟩, hTree⟩
    exact ⟨child.field, hField, child, ⟨hChild, rfl⟩, hTree⟩
  · rintro ⟨_, hField, child, ⟨hChild, rfl⟩, hTree⟩
    exact ⟨child, ⟨hChild, hField⟩, hTree⟩

theorem branches_body (tree : Tree) : tree.branches [.body] = tree.trees .body := by
  simp [branches, trees_eq]

theorem height_lt_of_mem_branches (h : t ∈ tree.branches lists) : t.height < tree.height := by
  obtain ⟨field, _, ht⟩ := mem_branches.mp h
  exact height_lt_of_mem_subtrees (mem_subtrees_of_mem_trees ht)

/-- A statement stands alone, has no statement lists, or comes to what these come to. -/
theorem flat_cases (lists : List Field) (tree : Tree) :
    tree.flat lists = [tree] ∧ (tree.standsAlone = true ∨ tree.branches lists = []) ∨
      tree.standsAlone = false ∧ tree.branches lists ≠ [] ∧
        tree.flat lists = (tree.branches lists).flatMap (flat lists) := by
  by_cases hAlone : tree.standsAlone = true
  · exact Or.inl ⟨flat_of_standsAlone hAlone, Or.inl hAlone⟩
  · by_cases hBranches : tree.branches lists = []
    · exact Or.inl ⟨flat_of_branches_nil hBranches, Or.inr hBranches⟩
    · have hOpen : tree.standsAlone = false := Bool.not_eq_true _ ▸ hAlone
      exact Or.inr ⟨hOpen, hBranches, flat_of_compound hOpen hBranches⟩

/-- Induction on a tree along its statement lists. -/
theorem branches_induction {motive : Tree → Prop} (lists : List Field)
    (step : ∀ tree : Tree, (∀ t ∈ tree.branches lists, motive t) → motive tree) (tree : Tree) :
    motive tree :=
  (measure height).wf.induction tree fun tree ih =>
    step tree fun t ht => ih t (height_lt_of_mem_branches ht)

/-- Every statement comes to some statement. -/
theorem flat_ne_nil (lists : List Field) (tree : Tree) : tree.flat lists ≠ [] := by
  induction tree using branches_induction lists with
  | step tree ih =>
      rcases flat_cases lists tree with ⟨hFlat, _⟩ | ⟨_, hBranches, hFlat⟩
      · rw [hFlat]
        exact List.cons_ne_nil _ _
      · obtain ⟨t, ht⟩ := List.exists_mem_of_ne_nil _ hBranches
        rw [hFlat]
        intro hNil
        exact ih t ht (List.flatMap_eq_nil_iff.mp hNil t ht)

/-- What a statement comes to are parts of it that cannot be taken apart any further. -/
theorem of_mem_flat (h : t ∈ tree.flat lists) :
    t.Within tree ∧ (t.standsAlone = true ∨ t.branches lists = []) := by
  induction tree using branches_induction lists with
  | step tree ih =>
      rcases flat_cases lists tree with ⟨hFlat, hCases⟩ | ⟨_, _, hFlat⟩
      · rw [hFlat] at h
        rw [List.mem_singleton.mp h]
        exact ⟨.refl, hCases⟩
      · rw [hFlat] at h
        obtain ⟨inner, hInner, hMem⟩ := List.mem_flatMap.mp h
        obtain ⟨field, _, hField⟩ := mem_branches.mp hInner
        exact (ih inner hInner hMem).imp_left fun hWithin =>
          hWithin.trans (within_of_mem_trees hField)

end Tree

/-! ## What separating comes to -/

namespace Members

open CallGraph.Tree

/-- Members of two stretches of source are put together list by list. -/
theorem append_eq (front back : Members) : front ++ back =
    .mk (front.classes ++ back.classes) (front.functions ++ back.functions)
      (front.body ++ back.body) (front.imports ++ back.imports) := rfl

/-- The members that some statements are, each a member of its own. -/
def sorted (statements : List Tree) : Members :=
  .mk ((statements.filter definesClass).map fun c => .mk c (ofTree c))
    (statements.filter definesFunction) (statements.filter isPlain)
    (statements.filter importsModules)

theorem sorted_append (front back : List Tree) :
    sorted (front ++ back) = sorted front ++ sorted back := by
  simp [sorted, append_eq, classes, functions, body, imports]

theorem withoutImports_append (front back : Members) :
    (front ++ back).withoutImports = front.withoutImports ++ back.withoutImports := rfl

/-- A namespace is separated statement by statement. -/
theorem ofTree_eq_foldr (tree : Tree) :
    ofTree tree = (tree.trees .body).foldr (fun t rest => ofStatement t ++ rest) empty := by
  rw [ofTree, trees_eq]
  induction tree.children with
  | nil => rfl
  | cons child rest ih =>
      cases child with
      | gap field =>
          have hSkip : ofChildren (.gap field :: rest) = ofChildren rest := rfl
          rw [hSkip, ih]
          by_cases hField : field = .body <;> simp [List.filterMap_cons, hField]
      | filled field tree =>
          by_cases hField : field = .body
          · subst hField
            have hTake : ofChildren (.filled .body tree :: rest) =
                ofStatement tree ++ ofChildren rest := rfl
            simp [hTake, ih]
          · have hSkip : ofChildren (.filled field tree :: rest) = ofChildren rest := by
              cases field <;> first | rfl | exact absurd rfl hField
            simp [hSkip, hField, ih]

/-- The members of a body take the place of a compound statement, its imports apart. Any other
statement is a member as it stands. -/
theorem ofStatement_eq (tree : Tree) : ofStatement tree =
    if tree.standsAlone || (tree.trees .body).isEmpty then sorted [tree]
    else (ofTree tree).withoutImports := by
  cases tree with
  | node kind line attributes children =>
      generalize hTree : Tree.node kind line attributes children = tree
      by_cases hBody : tree.trees .body = []
      · cases kind <;> subst hTree <;> simp [ofStatement, hBody] <;> rfl
      · cases kind <;> subst hTree <;> simp [ofStatement, hBody] <;> rfl

theorem ofTree_withoutImports {tree : Tree} (h : ∀ t ∈ tree.trees .body,
      (ofStatement t).withoutImports = (sorted (t.flat [.body])).withoutImports) :
    (ofTree tree).withoutImports = (sorted (tree.statements [.body])).withoutImports := by
  rw [ofTree_eq_foldr, statements]
  generalize tree.trees .body = body at h
  induction body with
  | nil => rfl
  | cons t rest ih =>
      rw [List.foldr_cons, List.flatMap_cons, sorted_append, withoutImports_append,
        withoutImports_append, h t (List.mem_cons_self ..),
        ih fun s hs => h s (List.mem_cons_of_mem _ hs)]

/-- Apart from imports, a statement contributes what it comes to through bodies. -/
theorem ofStatement_withoutImports (tree : Tree) :
    (ofStatement tree).withoutImports = (sorted (tree.flat [.body])).withoutImports := by
  induction tree using branches_induction [.body] with
  | step tree ih =>
      rw [branches_body] at ih
      rw [ofStatement_eq]
      rcases flat_cases [.body] tree with ⟨hFlat, hCases⟩ | ⟨hAlone, hBody, hFlat⟩
      · have hTest : (tree.standsAlone || (tree.trees .body).isEmpty) = true := by
          rw [branches_body] at hCases
          simpa using hCases
        rw [if_pos hTest, hFlat]
      · rw [branches_body] at hBody hFlat
        have hTest : ¬ (tree.standsAlone || (tree.trees .body).isEmpty) = true := by
          simp [hAlone, hBody]
        rw [if_neg hTest, hFlat]
        exact ofTree_withoutImports ih

/-- Only an import statement itself contributes an import. -/
theorem imports_ofStatement (tree : Tree) :
    (ofStatement tree).imports = [tree].filter importsModules := by
  rw [ofStatement_eq]
  split
  · rfl
  · rename_i hTest
    have hAlone : tree.standsAlone = false := by
      cases h : tree.standsAlone with
      | false => rfl
      | true => exact absurd (by rw [h, Bool.true_or]) hTest
    rw [filter_importsModules_of_open hAlone]
    rfl

theorem imports_ofTree (tree : Tree) :
    (ofTree tree).imports = (tree.trees .body).filter importsModules := by
  rw [ofTree_eq_foldr]
  induction tree.trees .body with
  | nil => rfl
  | cons t rest ih =>
      have hCons : (t :: rest).filter importsModules =
          [t].filter importsModules ++ rest.filter importsModules :=
        List.filter_append [t] rest
      rw [List.foldr_cons, hCons, ← imports_ofStatement, ← ih]
      rfl

/-- **What separating comes to**: classes, functions and plain statements are reached through bodies,
and imports stand directly in the namespace. -/
theorem ofTree_eq (tree : Tree) : ofTree tree =
    .mk (((tree.statements [.body]).filter definesClass).map fun c => .mk c (ofTree c))
      ((tree.statements [.body]).filter definesFunction) ((tree.statements [.body]).filter isPlain)
      ((tree.trees .body).filter importsModules) := by
  have hRest := ofTree_withoutImports fun t (_ : t ∈ tree.trees .body) =>
    ofStatement_withoutImports t
  have hImports := imports_ofTree tree
  cases hMembers : ofTree tree with
  | mk classes functions body imports =>
      rw [hMembers] at hRest hImports
      simp only [withoutImports, sorted, Members.classes, Members.functions, Members.body,
        Members.mk.injEq] at hRest
      simp only [Members.imports] at hImports
      rw [hRest.1, hRest.2.1, hRest.2.2.1, hImports]

end Members

/-! ## What is lost -/

namespace Tree

variable {lists : List Field} {tree s t : Tree}

/-- A statement stands in a namespace: directly in its body, or in the body of a compound statement
that does. -/
inductive StandsIn (tree : Tree) : Tree → Prop
  | direct {s : Tree} (h : s ∈ tree.trees .body) : StandsIn tree s
  | inside {c s : Tree} (hCompound : StandsIn tree c) (hAlone : c.standsAlone = false)
      (h : s ∈ c.trees .body) : StandsIn tree s

/-- Separating a namespace loses nothing: each of its lists holds the statements of its kind that
run in the namespace, once each and in source order. -/
structure KeepsAll (lists : List Field) (tree : Tree) : Prop where
  classes : (Members.ofTree tree).classes.map ClassMembers.definition =
    (tree.statements lists).filter definesClass
  functions : (Members.ofTree tree).functions = (tree.statements lists).filter definesFunction
  body : (Members.ofTree tree).body = (tree.statements lists).filter isPlain
  imports : (Members.ofTree tree).imports = (tree.statements lists).filter importsModules

/-- A statement is kept whole: what it comes to is found through bodies, with no import among it
but itself. -/
def IsKept (lists : List Field) (tree : Tree) : Prop :=
  tree.flat [.body] = tree.flat lists ∧
    (tree.flat [.body]).filter importsModules = [tree].filter importsModules

/-- A compound statement has nothing to lose: no branch beside its body, and no import in it. -/
def HasNoLoss (lists : List Field) (tree : Tree) : Prop :=
  (∀ field ∈ lists, field ≠ .body → tree.trees field = []) ∧
    ∀ t ∈ tree.trees .body, t.importsModules = false

/-! Lists put together from pieces are equal only if the pieces are. -/

theorem body_sublist_branches (hBody : .body ∈ lists) :
    (tree.trees .body).Sublist (tree.branches lists) := by
  rw [trees_eq, branches]
  apply List.Sublist.filterMap
  apply List.monotone_filter_right
  intro child hChild
  rw [of_decide_eq_true hChild]
  exact decide_eq_true hBody

theorem branches_ne_nil (hBody : .body ∈ lists) (h : tree.trees .body ≠ []) :
    tree.branches lists ≠ [] := by
  intro hNil
  have hSub : (tree.trees .body).Sublist (tree.branches lists) := body_sublist_branches hBody
  rw [hNil] at hSub
  exact h (List.sublist_nil.mp hSub)

/-- Where nothing found through bodies has branches elsewhere, it is part of what a statement comes
to. -/
theorem flat_sublist (hBody : .body ∈ lists)
    (h : ∀ t ∈ tree.flat [.body], t.standsAlone = true ∨ t.branches lists = []) :
    (tree.flat [.body]).Sublist (tree.flat lists) := by
  induction tree using branches_induction [.body] with
  | step tree ih =>
      rw [branches_body] at ih
      rcases flat_cases [.body] tree with ⟨hFlat, _⟩ | ⟨hAlone, hBranches, hFlat⟩
      · rw [hFlat]
        rcases h tree (by rw [hFlat]; exact List.mem_singleton_self tree) with hAlone | hNil
        · rw [flat_of_standsAlone hAlone]
        · rw [flat_of_branches_nil hNil]
      · rw [branches_body] at hBranches hFlat
        rw [hFlat] at h ⊢
        rw [flat_of_compound hAlone (branches_ne_nil hBody hBranches)]
        refine (List.Sublist.flatMap_right _ fun t ht => ih t ht fun inner hInner => ?_).trans
          ((body_sublist_branches hBody).flatMap _)
        exact h inner (List.mem_flatMap.mpr ⟨t, ht, hInner⟩)

theorem flat_sublist_of_mem_body (hBody : .body ∈ lists)
    (h : ∀ t ∈ tree.statements [.body], t.standsAlone = true ∨ t.branches lists = []) :
    ∀ t ∈ tree.trees .body, (t.flat [.body]).Sublist (t.flat lists) := by
  intro t ht
  apply flat_sublist hBody
  intro inner hInner
  exact h inner (List.mem_flatMap.mpr ⟨t, ht, hInner⟩)

/-- The branches are the body and those that stand beside it. -/
theorem length_branches (hBody : .body ∈ lists) : (tree.branches lists).length =
    (tree.trees .body).length +
      (tree.branches (lists.filter fun field => decide (field ≠ .body))).length := by
  let inLists := tree.children.filter fun child => decide (child.field ∈ lists)
  have hTrees : tree.trees .body =
      (inLists.filter fun child => decide (child.field = .body)).filterMap Child.tree? := by
    rw [trees_eq, List.filter_filter]
    congr 1
    apply List.filter_congr
    intro child _
    by_cases hField : child.field = .body <;> simp [hField, hBody]
  have hBeside : tree.branches (lists.filter fun field => decide (field ≠ .body)) =
      (inLists.filter fun child => !decide (child.field = .body)).filterMap Child.tree? := by
    rw [branches, List.filter_filter]
    congr 1
    apply List.filter_congr
    intro child _
    by_cases hField : child.field = .body <;> simp [hField]
  rw [hTrees, hBeside, ← List.length_append, ← List.filterMap_append]
  exact ((List.filter_append_perm _ inLists).filterMap _).length_eq.symm

/-- The branches are the body if and only if no other list has any. -/
theorem body_eq_branches_iff (hBody : .body ∈ lists) : tree.trees .body = tree.branches lists ↔
    ∀ field ∈ lists, field ≠ .body → tree.trees field = [] := by
  have hLength : (tree.branches lists).length = _ := length_branches hBody
  calc tree.trees .body = tree.branches lists
    _ ↔ tree.branches (lists.filter fun field => decide (field ≠ .body)) = [] := by
        constructor
        · intro h
          rw [h] at hLength
          exact List.length_eq_zero_iff.mp (by omega)
        · intro h
          rw [h, List.length_nil, Nat.add_zero] at hLength
          exact (body_sublist_branches hBody).eq_of_length hLength.symm
    _ ↔ ∀ field ∈ lists, field ≠ .body → tree.trees field = [] := by
        simp only [List.eq_nil_iff_forall_not_mem, mem_branches, List.mem_filter,
          decide_eq_true_eq]
        constructor
        · intro h field hField hOther t ht
          exact h t ⟨field, ⟨hField, hOther⟩, ht⟩
        · rintro h t ⟨field, ⟨hField, hOther⟩, ht⟩
          exact h field hField hOther t ht

/-- What a statement comes to is kept whole only if its branches are its body. -/
theorem body_eq_branches_of_flat_eq (hBody : .body ∈ lists) (hAlone : tree.standsAlone = false)
    (h : tree.flat [.body] = tree.flat lists) : tree.trees .body = tree.branches lists ∧
      ∀ t ∈ tree.trees .body, t.flat [.body] = t.flat lists := by
  have hLeaves : ∀ t ∈ tree.flat [.body], t.standsAlone = true ∨ t.branches lists = [] := by
    rw [h]
    exact fun t ht => (of_mem_flat ht).2
  rcases flat_cases [.body] tree with ⟨hFlat, hCases⟩ | ⟨_, hBranches, hFlat⟩
  · rw [branches_body, hAlone] at hCases
    have hNil : tree.trees .body = [] := hCases.resolve_left (by decide)
    rw [hFlat] at hLeaves
    have hNone : tree.branches lists = [] :=
      (hLeaves tree (List.mem_singleton_self tree)).resolve_left (by rw [hAlone]; decide)
    rw [hNil, hNone]
    exact ⟨rfl, fun t ht => absurd ht List.not_mem_nil⟩
  · rw [branches_body] at hBranches hFlat
    rw [hFlat] at hLeaves
    have hPieces := flat_sublist_of_mem_body hBody hLeaves
    rw [hFlat, flat_of_compound hAlone (branches_ne_nil hBody hBranches)] at h
    -- the body through `lists` lies between the two equal lists
    have hBetween : (tree.trees .body).flatMap (flat lists) =
        (tree.branches lists).flatMap (flat lists) := by
      apply ((body_sublist_branches hBody).flatMap _).antisymm
      rw [← h]
      exact List.Sublist.flatMap_right _ hPieces
    rw [← hBetween] at h
    exact ⟨eq_of_sublist_of_flatMap_eq (body_sublist_branches hBody) (flat_ne_nil lists) hBetween,
      eq_of_flatMap_eq hPieces h⟩

theorem flat_body_of_open (hAlone : tree.standsAlone = false) (h : tree.trees .body ≠ []) :
    tree.flat [.body] = tree.statements [.body] := by
  rw [← branches_body] at h
  rw [flat_of_compound hAlone h, branches_body, statements]

theorem filter_importsModules_statements (lists : List Field) (tree : Tree) :
    (tree.statements lists).filter importsModules =
      (tree.trees .body).flatMap fun t => (t.flat lists).filter importsModules :=
  List.filter_flatMap

/-- One step down: a statement is kept whole if it stands alone, or has nothing to lose itself and
its body is kept. -/
theorem isKept_iff (hBody : .body ∈ lists) : tree.IsKept lists ↔ tree.standsAlone = true ∨
    tree.HasNoLoss lists ∧ ∀ t ∈ tree.trees .body, t.IsKept lists := by
  cases hAlone : tree.standsAlone with
  | true =>
      rw [IsKept, flat_of_standsAlone hAlone, flat_of_standsAlone hAlone]
      simp
  | false =>
      rw [IsKept, filter_importsModules_of_open hAlone]
      constructor
      · rintro ⟨hFlat, hImports⟩
        have hSame := body_eq_branches_of_flat_eq hBody hAlone hFlat
        have hNone : ∀ t ∈ tree.trees .body, (t.flat [.body]).filter importsModules = [] := by
          intro t ht
          rw [flat_body_of_open hAlone (List.ne_nil_of_mem ht),
            filter_importsModules_statements] at hImports
          exact List.flatMap_eq_nil_iff.mp hImports t ht
        have hOther : ∀ t ∈ tree.trees .body, t.importsModules = false := by
          intro t ht
          cases hImport : t.importsModules with
          | false => rfl
          | true =>
              have hMem := hNone t ht
              rw [flat_of_standsAlone (by rw [standsAlone, hImport, Bool.or_true])] at hMem
              simp [hImport] at hMem
        refine Or.inr ⟨⟨(body_eq_branches_iff hBody).mp hSame.1, hOther⟩, fun t ht => ?_⟩
        exact ⟨hSame.2 t ht, by rw [hNone t ht]; simp [hOther t ht]⟩
      · rintro (hTrue | ⟨⟨hBeside, hOther⟩, hKept⟩)
        · exact absurd hTrue (by decide)
        · have hSame := (body_eq_branches_iff hBody).mpr hBeside
          by_cases hNil : tree.trees .body = []
          · rw [flat_of_branches_nil (by rw [branches_body, hNil]),
              flat_of_branches_nil (by rw [← hSame, hNil])]
            exact ⟨rfl, filter_importsModules_of_open hAlone⟩
          · rw [flat_body_of_open hAlone hNil, filter_importsModules_statements,
              flat_of_compound hAlone (by rw [← hSame]; exact hNil), ← hSame]
            constructor
            · exact List.flatMap_congr fun t ht => (hKept t ht).1
            · apply List.flatMap_eq_nil_iff.mpr
              intro t ht
              rw [(hKept t ht).2]
              simp [hOther t ht]

/-- Every statement is of one of the four kinds. -/
theorem length_eq_add_filters (statements : List Tree) : statements.length =
    (statements.filter definesClass).length + (statements.filter definesFunction).length +
      (statements.filter isPlain).length + (statements.filter importsModules).length := by
  induction statements with
  | nil => rfl
  | cons t rest ih =>
      cases t with
      | node kind line attributes children =>
          cases kind <;> simp [definesClass, definesFunction, isPlain, importsModules, standsAlone,
            Tree.kind] at ih ⊢ <;> omega

/-- Imports that stand in a namespace directly are among those found through bodies. -/
theorem filter_importsModules_sublist (t : Tree) :
    ([t].filter importsModules).Sublist ((t.flat [.body]).filter importsModules) := by
  cases hAlone : t.standsAlone with
  | true => rw [flat_of_standsAlone hAlone]
  | false =>
      rw [filter_importsModules_of_open hAlone]
      exact List.nil_sublist _

theorem filter_importsModules_body (tree : Tree) : (tree.trees .body).filter importsModules =
    (tree.trees .body).flatMap fun t => [t].filter importsModules := by
  induction tree.trees .body with
  | nil => rfl
  | cons t rest ih =>
      rw [List.flatMap_cons, ← ih]
      exact List.filter_append [t] rest

/-- Nothing is lost if and only if bodies lead to all that runs, and to no import. -/
theorem keepsAll_iff_statements_eq (hBody : .body ∈ lists) : tree.KeepsAll lists ↔
    tree.statements [.body] = tree.statements lists ∧
      (tree.trees .body).filter importsModules =
        (tree.statements [.body]).filter importsModules := by
  have hMembers := Members.ofTree_eq tree
  constructor
  · rintro ⟨hClasses, hFunctions, hPlain, hImports⟩
    rw [hMembers] at hClasses hFunctions hPlain hImports
    simp only [Members.classes, Members.functions, Members.body, Members.imports, List.map_map]
      at hClasses hFunctions hPlain hImports
    have hLeaves : ∀ t ∈ tree.statements [.body],
        t.standsAlone = true ∨ t.branches lists = [] := by
      intro t ht
      cases hAlone : t.standsAlone with
      | true => exact Or.inl rfl
      | false =>
          have hMem : t ∈ (tree.statements [.body]).filter isPlain :=
            List.mem_filter.mpr ⟨ht, by rw [isPlain, hAlone, Bool.not_false]⟩
          rw [hPlain] at hMem
          obtain ⟨s, _, hFlat⟩ := List.mem_flatMap.mp (List.mem_filter.mp hMem).1
          exact hAlone ▸ (of_mem_flat hFlat).2
    have hSub : (tree.statements [.body]).Sublist (tree.statements lists) :=
      List.Sublist.flatMap_right _ (flat_sublist_of_mem_body hBody hLeaves)
    have hFound : (tree.trees .body).filter importsModules =
        (tree.statements [.body]).filter importsModules := by
      apply List.Sublist.antisymm
      · rw [filter_importsModules_body, filter_importsModules_statements]
        exact List.Sublist.flatMap_right _ fun t _ => filter_importsModules_sublist t
      · rw [hImports]
        exact hSub.filter _
    refine ⟨hSub.eq_of_length ?_, hFound⟩
    have hId : (ClassMembers.definition ∘ fun c => .mk c (Members.ofTree c)) = (id : Tree → Tree) :=
      rfl
    rw [hId, List.map_id] at hClasses
    rw [length_eq_add_filters, length_eq_add_filters (tree.statements lists), hClasses, hFunctions,
      hPlain, ← hFound, hImports]
  · rintro ⟨hSame, hFound⟩
    constructor
    · rw [hMembers, ← hSame]
      simp only [Members.classes, List.map_map]
      exact List.map_id _
    · rw [hMembers, ← hSame, Members.functions]
    · rw [hMembers, ← hSame, Members.body]
    · rw [hMembers, ← hSame, Members.imports, hFound]

/-- A namespace loses nothing if and only if every statement of its body is kept whole. -/
theorem keepsAll_iff_isKept (hBody : .body ∈ lists) :
    tree.KeepsAll lists ↔ ∀ t ∈ tree.trees .body, t.IsKept lists := by
  rw [keepsAll_iff_statements_eq hBody, filter_importsModules_body,
    filter_importsModules_statements]
  constructor
  · rintro ⟨hSame, hFound⟩ t ht
    have hLeaves : ∀ t ∈ tree.statements [.body],
        t.standsAlone = true ∨ t.branches lists = [] := by
      intro t ht
      rw [hSame] at ht
      obtain ⟨s, _, hFlat⟩ := List.mem_flatMap.mp ht
      exact (of_mem_flat hFlat).2
    constructor
    · exact eq_of_flatMap_eq (flat_sublist_of_mem_body hBody hLeaves) hSame t ht
    · exact (eq_of_flatMap_eq (fun t _ => filter_importsModules_sublist t) hFound t ht).symm
  · intro hKept
    exact ⟨List.flatMap_congr fun t ht => (hKept t ht).1,
      List.flatMap_congr fun t ht => (hKept t ht).2.symm⟩

theorem isKept_of_standsIn (hBody : .body ∈ lists) (h : tree.KeepsAll lists)
    (hStands : tree.StandsIn s) : s.IsKept lists := by
  induction hStands with
  | direct hMem => exact (keepsAll_iff_isKept hBody).mp h _ hMem
  | inside _ hAlone hMem ih =>
      rcases (isKept_iff hBody).mp ih with hTrue | ⟨_, hKept⟩
      · rw [hAlone] at hTrue
        exact absurd hTrue (by decide)
      · exact hKept _ hMem

/-- **When separating loses nothing**: no compound statement that stands in the namespace has a
branch beside its body, or an import in its body. -/
theorem keepsAll_iff (hBody : .body ∈ lists) : tree.KeepsAll lists ↔
    ∀ s, tree.StandsIn s → s.standsAlone = false → s.HasNoLoss lists := by
  constructor
  · intro h s hStands hAlone
    rcases (isKept_iff hBody).mp (isKept_of_standsIn hBody h hStands) with hTrue | ⟨hNone, _⟩
    · rw [hAlone] at hTrue
      exact absurd hTrue (by decide)
    · exact hNone
  · intro h
    -- from the leaves upwards, along the bodies
    have hKept : ∀ s : Tree, tree.StandsIn s → s.IsKept lists := by
      intro s
      induction s using branches_induction [.body] with
      | step s ih =>
          intro hStands
          rw [branches_body] at ih
          cases hAlone : s.standsAlone with
          | true => exact (isKept_iff hBody).mpr (Or.inl hAlone)
          | false => exact (isKept_iff hBody).mpr (Or.inr ⟨h s hStands hAlone, fun t ht =>
              ih t ht (.inside hStands hAlone ht)⟩)
    exact (keepsAll_iff_isKept hBody).mpr fun t ht => hKept t (.direct ht)

/-- The fields in which compound statements hold statements, and guarded blocks their handlers. -/
def statementLists : List Field :=
  [.body, .other "handlers", .other "orelse", .other "finalbody"]

/-- Separating a namespace keeps what is reached through bodies, and of the imports those that stand
in it directly. For any choice of the statement lists, nothing that runs in the namespace is lost if
and only if no compound statement has a branch beside its body or an import in its body. -/
theorem statements_kept_exactly (lists : List Field) (hBody : .body ∈ lists) (tree : Tree) :
    Members.ofTree tree =
      .mk (((tree.statements [.body]).filter definesClass).map fun c => .mk c (Members.ofTree c))
        ((tree.statements [.body]).filter definesFunction)
        ((tree.statements [.body]).filter isPlain) ((tree.trees .body).filter importsModules) ∧
      (tree.KeepsAll lists ↔
        ∀ s, tree.StandsIn s → s.standsAlone = false → s.HasNoLoss lists) :=
  ⟨Members.ofTree_eq tree, keepsAll_iff hBody⟩

/-- A compound statement with a body alone. -/
def blockAt (line : Int) (label : String) (body : List Tree) : Tree :=
  .node (.other label) (some line) [] (body.map (.filled .body))

/-- `import re`, then `with: for: def f` and a class in the body of the same `with`. -/
def nestedBlocks : Tree :=
  moduleOf [importAt 1 "re", blockAt 2 "With" [
    blockAt 3 "For" [functionAt 4 "f" [passAt 5], passAt 6], classAt 7 "C" [passAt 8]]]

theorem statements_kept_exactly_nestedBlocks : .body ∈ statementLists ∧
    nestedBlocks.KeepsAll statementLists ∧
      ∀ s, nestedBlocks.StandsIn s → s.standsAlone = false → s.HasNoLoss statementLists :=
  ⟨by decide, ⟨rfl, rfl, rfl, rfl⟩,
    (statements_kept_exactly statementLists (by decide) nestedBlocks).2.mp ⟨rfl, rfl, rfl, rfl⟩⟩

/-- `try: import a`, with a handler that defines `f`. -/
def guardedImport : Tree :=
  moduleOf [.node (.other "Try") (some 1) [] [.filled .body (importAt 2 "a"),
    .filled (.other "handlers") (blockAt 3 "ExceptHandler" [functionAt 4 "f" [passAt 5]])]]

/-- Neither the definition in the handler nor the guarded import is kept, though both run in the
namespace. -/
theorem not_keepsAll_guardedImport : ¬ guardedImport.KeepsAll statementLists ∧
    guardedImport.statements statementLists = [importAt 2 "a", functionAt 4 "f" [passAt 5]] ∧
      Members.ofTree guardedImport = .empty := by
  refine ⟨fun h => ?_, rfl, rfl⟩
  have hLength := congrArg List.length h.functions
  exact absurd hLength (by decide)

end Tree

end CallGraph
