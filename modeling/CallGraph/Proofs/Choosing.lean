import CallGraph.Proofs.Clarity

/-!
# Which binding a plain call uses

A plain call `token()` is tried against the bindings that are visible where it stands, one after the
other, and the first that can be called decides. Visible bindings come in stretches: those of the
function itself up to the line of the call, and then the names of each group around it, from the
innermost outwards. Each stretch is sorted by line, the greatest first, and bindings on one line keep
their order. So the call uses the binding with the greatest line in the first stretch that has one.

The names of a group are sorted without regard to the line of the call. This matters where the caller
is the code of a file outside all functions: its bindings are among the names of the file, and there
also those below the call are found.

## Main definitions

* `Graph.callee?` — what calling a binding by a token leads to.
* `Latest` — the binding on the greatest line among those that pass a test.
* `Graph.stretches` — the visible bindings of a function, stretch by stretch.
* `Graph.Nearest` — the binding that a plain call uses.

## Main results

* `find?_sortBy_iff` — the first entry found after sorting by line is the latest one.
* `Query.nearest_binding_wins` — where a plain call goes.
-/

namespace CallGraph

/-! ## The latest binding -/

/-- The line of a binding; bindings without a line are taken to be on line 0. -/
def Binding.lineNumber (b : Binding) : Int :=
  b.line.getD 0

/-- A binding passes a test, and is the first on the greatest line on which bindings do. -/
def Latest (test : Binding → Bool) (bindings : List Binding) (b : Binding) : Prop :=
  ∃ front back, bindings = front ++ b :: back ∧ test b = true ∧
    (∀ other ∈ front, test other = true → other.lineNumber < b.lineNumber) ∧
    ∀ other ∈ back, test other = true → other.lineNumber ≤ b.lineNumber

theorem not_latest_nil (test : Binding → Bool) (b : Binding) : ¬Latest test [] b := by
  rintro ⟨front, back, hNil, _⟩
  exact absurd hNil.symm (List.append_ne_nil_of_right_ne_nil _ (List.cons_ne_nil _ _))

theorem latest_cons_iff {test : Binding → Bool} {first b : Binding} {rest : List Binding} :
    Latest test (first :: rest) b ↔
      (b = first ∧ test first = true ∧
        ∀ other ∈ rest, test other = true → other.lineNumber ≤ first.lineNumber) ∨
      (Latest test rest b ∧ (test first = true → first.lineNumber < b.lineNumber)) := by
  constructor
  · rintro ⟨front, back, hSplit, hTest, hFront, hBack⟩
    rcases List.cons_eq_append_iff.mp hSplit with ⟨rfl, hCons⟩ | ⟨front', rfl, hRest⟩
    · cases hCons
      exact Or.inl ⟨rfl, hTest, hBack⟩
    · obtain ⟨hFirst, hFront⟩ := List.forall_mem_cons.mp hFront
      exact Or.inr ⟨⟨front', back, hRest, hTest, hFront, hBack⟩, hFirst⟩
  · rintro (⟨rfl, hTest, hRest⟩ | ⟨⟨front, back, rfl, hTest, hFront, hBack⟩, hFirst⟩)
    · exact ⟨[], rest, rfl, hTest, fun _ h => absurd h List.not_mem_nil, hRest⟩
    · exact ⟨first :: front, back, rfl, hTest, List.forall_mem_cons.mpr ⟨hFirst, hFront⟩, hBack⟩

namespace Graph

theorem laterLine_iff {a b : Binding} :
    laterLine a b = true ↔ b.lineNumber ≤ a.lineNumber :=
  decide_eq_true_iff

theorem sorted_sortBy_laterLine (bindings : List Binding) :
    (sortBy laterLine bindings).Pairwise fun a b => b.lineNumber ≤ a.lineNumber := by
  refine (pairwise_sortBy (fun a b => ?_) (fun a b c => ?_) bindings).imp laterLine_iff.mp
  · simp only [laterLine_iff]
    exact le_total _ _
  · simp only [laterLine_iff]
    exact fun hab hbc => le_trans hbc hab

/-- What is found first once an entry is put into a list that is sorted by line: the entry, if nothing on
a greater line passes the test, and else what was found before. -/
theorem find?_insertBy_iff {test : Binding → Bool} {a b : Binding} {sorted : List Binding}
    (hSorted : sorted.Pairwise fun x y => y.lineNumber ≤ x.lineNumber) :
    (insertBy laterLine a sorted).find? test = some b ↔
      (b = a ∧ test a = true ∧
        ∀ other ∈ sorted, test other = true → other.lineNumber ≤ a.lineNumber) ∨
      (sorted.find? test = some b ∧ (test a = true → a.lineNumber < b.lineNumber)) := by
  induction sorted with
  | nil => cases hTest : test a <;> simp [insertBy, hTest, @eq_comm _ b a]
  | cons x rest ih =>
      obtain ⟨hFirst, hRest⟩ := List.pairwise_cons.mp hSorted
      rw [insertBy]
      by_cases hLe : x.lineNumber ≤ a.lineNumber
      · -- The entry comes in front of everything.
        have hAll : ∀ other ∈ x :: rest, other.lineNumber ≤ a.lineNumber :=
          List.forall_mem_cons.mpr ⟨hLe, fun other hOther => le_trans (hFirst other hOther) hLe⟩
        rw [if_pos (laterLine_iff.mpr hLe)]
        cases hTest : test a with
        | false => simp [hTest]
        | true =>
            rw [List.find?_cons_of_pos hTest]
            constructor
            · intro hFound
              exact Or.inl ⟨(Option.some.inj hFound).symm, rfl, fun other hOther _ => hAll other hOther⟩
            · rintro (⟨rfl, _⟩ | ⟨hFound, hLess⟩)
              · rfl
              · exact absurd (hAll b (List.mem_of_find?_eq_some hFound)) (not_le.mpr (hLess rfl))
      · rw [if_neg fun h => hLe (laterLine_iff.mp h)]
        cases hTest : test x with
        | false => simp [hTest, ih hRest]
        | true =>
            rw [List.find?_cons_of_pos hTest, List.find?_cons_of_pos hTest]
            constructor
            · intro hFound
              cases hFound
              exact Or.inr ⟨rfl, fun _ => not_le.mp hLe⟩
            · rintro (⟨_, _, hAll⟩ | ⟨hFound, _⟩)
              · exact absurd (hAll x List.mem_cons_self hTest) hLe
              · exact hFound

/-- The first binding that is found after sorting by line is the latest one. -/
theorem find?_sortBy_iff {test : Binding → Bool} {bindings : List Binding} {b : Binding} :
    (sortBy laterLine bindings).find? test = some b ↔ Latest test bindings b := by
  induction bindings generalizing b with
  | nil => simp [sortBy, not_latest_nil]
  | cons first rest ih =>
      rw [sortBy, find?_insertBy_iff (sorted_sortBy_laterLine rest), latest_cons_iff, ih]
      simp only [mem_sortBy]

/-- Bindings that all have a line are sorted by it. Where no line is set there is nothing to sort. -/
theorem latestFirst_of_lines {bindings : List Binding} (h : ∀ b ∈ bindings, b.line.isSome) :
    latestFirst bindings = .ok (sortBy laterLine bindings) := by
  unfold latestFirst
  split
  · rw [if_neg (by simp [any_isNone_eq_false h])]
  · rename_i hUnset
    have hZero : ∀ b ∈ bindings, b.lineNumber = 0 := by
      intro b hb
      obtain ⟨line, hLine⟩ := Option.isSome_iff_exists.mp (h b hb)
      have hNot : isSetLine b.line ≠ true := fun hSet =>
        hUnset (List.any_eq_true.mpr ⟨b, hb, hSet⟩)
      simpa [Binding.lineNumber, isSetLine, hLine] using hNot
    rw [sortBy_eq_insertionSort, List.Pairwise.insertionSort_eq
      (List.pairwise_of_forall_mem_list fun a ha b hb => ?_)]
    rw [laterLine_iff, hZero a ha, hZero b hb]

/-! ## What is visible -/

/-- The names of a group with a root node, in the order in which they are listed: those that the root
node binds, the subgroups, and the other nodes. -/
def groupNames (graph : Graph) (g : GroupId) : List Binding :=
  (graph.group g).root.elim [] fun root =>
    CallMap.bindingsOf graph root ++ (graph.group g).subgroups.map graph.groupBinding ++
      ((graph.group g).nodes.filter (· ≠ root)).map graph.nodeBinding

/-- The groups around a node, innermost first. -/
def groupsAround (graph : Graph) (n : NodeId) : List GroupId :=
  (graph.parentGroup? n).elim [] graph.chain

/-- What is visible in a node at a line, stretch by stretch: the names that the node binds up to the
line, and the names of the groups around it. -/
def stretches (graph : Graph) (n : NodeId) (line : Int) : List (List Binding) :=
  (CallMap.bindingsOf graph n).filter (fun b => decide (b.lineNumber ≤ line)) ::
    (graph.groupsAround n).map graph.groupNames

/-- A node that stands in a group, or in nothing, and all that is in scope there is bound on a line. -/
structure Numbered (graph : Graph) (n : NodeId) : Prop where
  outermost : ∀ m, (graph.node n).parent ≠ .node m
  body : (graph.node n).bindings.isSome
  line : ∀ b ∈ CallMap.bindingsOf graph n, b.line.isSome
  root : ∀ g ∈ graph.groupsAround n, ∀ r ∈ (graph.group g).root, (graph.node r).bindings.isSome
  name : ∀ g ∈ graph.groupsAround n, ∀ b ∈ graph.groupNames g, b.line.isSome ∧ b.token ≠ ""

variable {graph : Graph} {n : NodeId}

theorem bindings_eq_some (h : (graph.node n).bindings.isSome) :
    (graph.node n).bindings = some (CallMap.bindingsOf graph n) := by
  obtain ⟨bindings, hBindings⟩ := Option.isSome_iff_exists.mp h
  rw [CallMap.bindingsOf, hBindings]
  rfl

theorem groupBindings_of_numbered {g : GroupId}
    (hRoot : ∀ r ∈ (graph.group g).root, (graph.node r).bindings.isSome)
    (hNames : ∀ b ∈ graph.groupNames g, b.line.isSome ∧ b.token ≠ "") :
    graph.groupBindings g = .ok (sortBy laterLine (graph.groupNames g)) := by
  cases hSome : (graph.group g).root with
  | none => simp [groupBindings, groupNames, hSome, sortBy]
  | some r =>
      have hAll : graph.groupNames g = CallMap.bindingsOf graph r ++
          (graph.group g).subgroups.map graph.groupBinding ++
          ((graph.group g).nodes.filter (· ≠ r)).map graph.nodeBinding := by
        rw [groupNames, hSome]
        rfl
      rw [hAll] at hNames ⊢
      have hSubgroups := ownTokens_isOk fun b hb =>
        (hNames b (List.mem_append_left _ (List.mem_append_right _ hb))).2
      have hNodes := ownTokens_isOk fun b hb => (hNames b (List.mem_append_right _ hb)).2
      simp only [groupBindings, hSome, hSubgroups, bindings_eq_some (hRoot r hSome), hNodes]
      exact latestFirst_of_lines fun b hb => (hNames b hb).1

theorem groupsBindings_of_numbered {groups : List GroupId}
    (hRoots : ∀ g ∈ groups, ∀ r ∈ (graph.group g).root, (graph.node r).bindings.isSome)
    (hNames : ∀ g ∈ groups, ∀ b ∈ graph.groupNames g, b.line.isSome ∧ b.token ≠ "") :
    graph.groupsBindings groups =
      .ok ((groups.map graph.groupNames).flatMap (sortBy laterLine)) := by
  induction groups with
  | nil => rfl
  | cons g rest ih =>
      obtain ⟨hRoot, hRoots⟩ := List.forall_mem_cons.mp hRoots
      obtain ⟨hName, hNames⟩ := List.forall_mem_cons.mp hNames
      rw [groupsBindings, groupBindings_of_numbered hRoot hName, ih hRoots hNames]
      rfl

theorem ownBindings_of_lines (hBody : (graph.node n).bindings.isSome)
    (hLines : ∀ b ∈ CallMap.bindingsOf graph n, b.line.isSome) (line : Int) :
    graph.ownBindings n (some line) = .ok (sortBy laterLine
      ((CallMap.bindingsOf graph n).filter fun b => decide (b.lineNumber ≤ line))) := by
  rw [ownBindings, bindings_eq_some hBody]
  dsimp only
  rw [upTo, if_neg (by simp [any_isNone_eq_false hLines])]
  exact latestFirst_of_lines fun b hb => hLines b (List.mem_filter.mp hb).1

/-- What a node sees that does not stand in another node. -/
theorem visible_of_outermost (h : ∀ m, (graph.node n).parent ≠ .node m) (line : Option Int) :
    graph.visible n line = do
      let own ← graph.ownBindings n line
      let around ← graph.groupsBindings (graph.groupsAround n)
      return own ++ around := by
  cases hParent : (graph.node n).parent with
  | node m => exact absurd hParent (h m)
  | group g =>
      have hAround : graph.groupsAround n = graph.chain g := by
        simp [groupsAround, parentGroup?, hParent]
      rw [visible_of_parent hParent, hAround]
  | nothing =>
      have hAround : graph.groupsAround n = [] := by simp [groupsAround, parentGroup?, hParent]
      have hAbove : ∀ depth, graph.nodesUpwards depth .nothing = ([], none) := by
        intro depth
        cases depth <;> rfl
      have hNested : ∀ depth, graph.visibleAbove depth [] = .ok [] := by
        intro depth
        cases depth <;> rfl
      rw [visible, visibleWithin, hParent, hAround]
      simp only [hAbove, hNested, groupsBindings]
      cases graph.ownBindings n line with
      | error fault => rfl
      | ok own => simp [bind, Except.bind]

/-- What is visible is sorted stretch by stretch. -/
theorem Numbered.visible_eq (h : graph.Numbered n) (line : Int) :
    graph.visible n (some line) = .ok ((graph.stretches n line).flatMap (sortBy laterLine)) := by
  rw [visible_of_outermost h.outermost, ownBindings_of_lines h.body h.line,
    groupsBindings_of_numbered h.root h.name]
  rfl

/-! ## The nearest binding -/

/-- What calling a token leads to by a binding: the node that the token is bound to, or the constructor
of the class that it is bound to. -/
def callee? (graph : Graph) (token : String) (b : Binding) : Option NodeId :=
  if token = b.token then
    match b.target with
    | .node n => some n
    | .group g => graph.constructor? g
    | _ => none
  else none

/-- The binding that a plain call at a line uses: the latest one that can be called, in the first
stretch that has one. -/
def Nearest (graph : Graph) (n : NodeId) (line : Int) (token : String) (b : Binding) : Prop :=
  ∃ front stretch back, graph.stretches n line = front ++ stretch :: back ∧
    (∀ passed ∈ front, ∀ other ∈ passed, graph.callee? token other = none) ∧
    Latest (fun b => (graph.callee? token b).isSome) stretch b

theorem find?_stretches_iff {line : Int} {token : String} {b : Binding} :
    ((graph.stretches n line).flatMap (sortBy laterLine)).find?
        (fun b => (graph.callee? token b).isSome) = some b ↔ graph.Nearest n line token b := by
  have hNone : ∀ bindings : List Binding, (sortBy laterLine bindings).find?
      (fun b => (graph.callee? token b).isSome) = none ↔
        ∀ other ∈ bindings, graph.callee? token other = none := by
    intro bindings
    simp [List.find?_eq_none]
  rw [List.find?_flatMap, List.findSome?_eq_some_iff, Nearest]
  simp only [find?_sortBy_iff, hNone]
  constructor
  · rintro ⟨front, stretch, back, hSplit, hLatest, hFront⟩
    exact ⟨front, stretch, back, hSplit, hFront, hLatest⟩
  · rintro ⟨front, stretch, back, hSplit, hFront, hLatest⟩
    exact ⟨front, stretch, back, hSplit, hLatest, hFront⟩

end Graph

namespace Query

variable {query : Query}

/-- Where a plain call goes that no visible binding answers. -/
def withoutBindings (query : Query) : Except Fault Outcome :=
  query.viaFactory?.elim query.direct .ok

theorem matchBinding_of_plain {graph : Graph} {call : Call} (hPlain : call.owner = none)
    (b : Binding) : graph.matchBinding call b = .ok ((graph.callee? call.token b).map .node) := by
  unfold Graph.matchBinding Graph.callee?
  rw [hPlain]
  dsimp only
  split
  · cases b.target <;> rfl
  · rfl

theorem bySignature?_of_plain (hPlain : query.call.owner = none) : query.bySignature? = none := by
  simp [bySignature?, libraryOwner?, Call.namedOwner?, hPlain]

theorem viaBindings?_of_plain (hPlain : query.call.owner = none) (bindings : List Binding) :
    query.viaBindings? bindings =
      .ok ((bindings.findSome? (query.graph.callee? query.call.token)).map (.found · none)) := by
  induction bindings with
  | nil => rfl
  | cons b rest ih =>
      rw [viaBindings?, matchBinding_of_plain hPlain, List.findSome?_cons]
      cases query.graph.callee? query.call.token b with
      | none => exact ih
      | some n => simp [bySignature?_of_plain hPlain, bind, Except.bind, pure, Except.pure]

/-- A plain call goes where the first visible binding leads that can be called. -/
theorem resolve_of_plain (hPlain : query.call.owner = none) {bindings : List Binding}
    (hVisible : query.graph.visible query.caller query.call.line = .ok bindings) :
    query.resolve = (bindings.findSome? (query.graph.callee? query.call.token)).elim
      query.withoutBindings fun n => .ok (.found n none) := by
  have hEarly : query.early? = none := by
    simp [early?, viaSuper?, viaSelf?, viaUnknownOwner?, bySignature?_of_plain hPlain, hPlain]
  have hInstance : query.viaInstance? bindings = none := by
    simp [viaInstance?, Call.namedOwner?, hPlain]
  rw [resolve, hEarly]
  dsimp only
  rw [hVisible]
  dsimp only [bind, Except.bind]
  rw [late, hInstance]
  dsimp only
  rw [viaBindings?_of_plain hPlain]
  cases bindings.findSome? (query.graph.callee? query.call.token) with
  | some n => rfl
  | none =>
      simp only [withoutBindings, Option.map_none, Option.elim_none, bind, Except.bind]
      cases query.viaFactory? <;> rfl

end Query

/-! ## Bindings that do not matter -/

namespace Graph

/-- The graph in which a node binds other names. -/
def withBindings (graph : Graph) (n : NodeId) (bindings : List Binding) : Graph :=
  graph.modifyNode n fun entry => { entry with bindings := some bindings }

variable {before after : Graph}

theorem rebinds_withBindings {graph : Graph} {n : NodeId} (h : (graph.node n).bindings.isSome)
    (bindings : List Binding) : graph.Rebinds (graph.withBindings n bindings) :=
  rebinds_modifyNode ⟨some bindings, h.symm, rfl⟩

theorem bindingsOf_withBindings {graph : Graph} {n : NodeId} (h : (graph.node n).bindings.isSome)
    (bindings : List Binding) : CallMap.bindingsOf (graph.withBindings n bindings) n = bindings := by
  have hLt := graph.node_lt_of_bindings (bindings_eq_some h)
  rw [CallMap.bindingsOf, withBindings, node_modifyNode, if_pos ⟨rfl, hLt⟩]
  rfl

namespace Rebinds

theorem parentGroup?_eq (h : before.Rebinds after) (n : NodeId) :
    after.parentGroup? n = before.parentGroup? n := by
  rw [parentGroup?, parentGroup?, h.node_field Node.parent]

theorem parentToken?_eq (h : before.Rebinds after) (n : NodeId) :
    after.parentToken? n = before.parentToken? n := by
  rw [parentToken?, parentToken?, h.node_field Node.parent]
  cases (before.node n).parent with
  | group g => exact congrArg some (h.group_field Group.token (g := g))
  | node m => exact congrArg some (h.node_field Node.token (n := m))
  | nothing => rfl

theorem groupsAround_eq (h : before.Rebinds after) (n : NodeId) :
    after.groupsAround n = before.groupsAround n := by
  rw [groupsAround, groupsAround, h.parentGroup?_eq,
    chain_congr h.groups_size (h.group_field Group.parent)]

theorem constructor?_eq (h : before.Rebinds after) (g : GroupId) :
    after.constructor? g = before.constructor? g := by
  simp only [constructor?, h.nodes_of_group, h.group_field Group.kind,
    h.node_field Node.isConstructor]

theorem callee?_eq (h : before.Rebinds after) (token : String) :
    after.callee? token = before.callee? token := by
  funext b
  simp only [callee?, h.constructor?_eq]

/-- Names that root nodes bind aside, groups have the same names. -/
theorem groupNames_eq (h : before.Rebinds after) {g : GroupId}
    (hRoot : ∀ r ∈ (before.group g).root, CallMap.bindingsOf after r = CallMap.bindingsOf before r) :
    after.groupNames g = before.groupNames g := by
  rw [groupNames, groupNames, h.group_field Group.root]
  cases hSome : (before.group g).root with
  | none => rfl
  | some r =>
      have hGroups : after.groupBinding = before.groupBinding := by
        funext s
        simp only [groupBinding, h.group_field Group.token, h.group_field Group.line]
      have hNodes : after.nodeBinding = before.nodeBinding := funext h.nodeBinding_eq
      simp only [Option.elim_some, hRoot r hSome, hGroups, hNodes, h.subgroups_of_group,
        h.nodes_of_group]

/-- Without the visible bindings, names that bodies bind do not matter to a plain call. -/
theorem withoutBindings_eq {query : Query} (h : query.graph.Rebinds after)
    (hPlain : query.call.owner = none) :
    Query.withoutBindings { query with graph := after } = query.withoutBindings := by
  have hToken := h.node_field Node.token
  have hParent := h.node_field Node.parent
  have hGroupToken := h.group_field Group.token
  have hKind := h.group_field Group.kind
  have hFactory : Query.viaFactory? { query with graph := after } = query.viaFactory? := by
    simp only [Query.viaFactory?, Query.factory?, Query.lambdaOf, withToken?, hToken, hParent, hKind,
      h.parentGroup?_eq, h.node_field Node.signature]
  have hTarget : Query.isPlainTarget { query with graph := after } = query.isPlainTarget := by
    funext n
    simp only [Query.isPlainTarget, hToken, hKind, h.parentToken?_eq, h.parentGroup?_eq,
      h.node_field Node.isConstructor]
  have hClass : Query.namedClass? { query with graph := after } = query.namedClass? := by
    simp only [Query.namedClass?, hGroupToken, hKind, h.parentGroup?_eq]
  have hDirect : Query.direct { query with graph := after } = query.direct := by
    simp only [Query.direct, Query.byToken, Call.isMember, hPlain, Option.isSome_none,
      Bool.false_eq_true, if_false, hParent, hTarget, hClass, Query.constructorOf, h.constructor?_eq]
  rw [Query.withoutBindings, Query.withoutBindings, hFactory, hDirect]

end Rebinds

end Graph

namespace Query

variable {query : Query}

/-- Bindings of a caller below the line of a plain call do not matter, unless the caller is the root
node of a group around it. -/
theorem resolve_withBindings {line : Int} (hPlain : query.call.owner = none)
    (hLine : query.call.line = some line) (h : query.graph.Numbered query.caller)
    (hRoot : ∀ g ∈ query.graph.groupsAround query.caller,
      (query.graph.group g).root ≠ some query.caller) {other : List Binding}
    (hOther : ∀ b ∈ other, b.line.isSome)
    (hSame : other.filter (fun b => decide (b.lineNumber ≤ line)) =
      (CallMap.bindingsOf query.graph query.caller).filter fun b => decide (b.lineNumber ≤ line)) :
    resolve { query with graph := query.graph.withBindings query.caller other } =
      query.resolve := by
  have hRebinds := Graph.rebinds_withBindings h.body other
  have hOwn := Graph.bindingsOf_withBindings h.body other
  have hElse : ∀ n, n ≠ query.caller →
      (query.graph.withBindings query.caller other).node n = query.graph.node n := by
    intro n hn
    rw [Graph.withBindings, Graph.node_modifyNode, if_neg fun h => hn h.1]
  generalize query.graph.withBindings query.caller other = after at hRebinds hOwn hElse ⊢
  have hNames : ∀ g ∈ query.graph.groupsAround query.caller,
      after.groupNames g = query.graph.groupNames g := by
    intro g hg
    refine hRebinds.groupNames_eq fun r hr => ?_
    have hne : r ≠ query.caller := fun hSame => hRoot g hg (hSame ▸ hr)
    rw [CallMap.bindingsOf, CallMap.bindingsOf, hElse r hne]
  have hStretches : after.stretches query.caller line = query.graph.stretches query.caller line := by
    rw [Graph.stretches, Graph.stretches, hOwn, hSame, hRebinds.groupsAround_eq,
      List.map_congr_left hNames]
  have hNumbered : after.Numbered query.caller := by
    refine ⟨?_, ?_, ?_, ?_, ?_⟩
    · rw [hRebinds.node_field Node.parent]
      exact h.outermost
    · rw [hRebinds.bindings_isSome]
      exact h.body
    · rw [hOwn]
      exact hOther
    · intro g hg r hr
      rw [hRebinds.groupsAround_eq] at hg
      rw [hRebinds.group_field Group.root] at hr
      rw [hRebinds.bindings_isSome]
      exact h.root g hg r hr
    · intro g hg
      rw [hRebinds.groupsAround_eq] at hg
      rw [hNames g hg]
      exact h.name g hg
  have hVisible := h.visible_eq line
  have hVisibleAfter := hNumbered.visible_eq line
  rw [← hLine] at hVisible hVisibleAfter
  rw [hStretches] at hVisibleAfter
  rw [resolve_of_plain hPlain hVisible, ← hRebinds.withoutBindings_eq hPlain,
    ← hRebinds.callee?_eq]
  exact @resolve_of_plain { query with graph := after } hPlain _ hVisibleAfter

/--
**The nearest binding wins.** Let a plain call stand on a line of a node, and let everything in scope be
bound on a line. Then the call goes where the nearest binding leads that can be called: the latest one up
to the line of the call that the node itself binds, and if there is none, the latest name of the
innermost group around it that has one. If there is no such binding at all, the later rules decide. What
the node binds below the line of the call does not matter, unless the node is the root node of a group
around it.
-/
theorem nearest_binding_wins {line : Int} (hPlain : query.call.owner = none)
    (hLine : query.call.line = some line) (h : query.graph.Numbered query.caller) :
    (∀ b target, query.graph.Nearest query.caller line query.call.token b →
      query.graph.callee? query.call.token b = some target →
      query.resolve = .ok (.found target none)) ∧
    ((¬∃ b, query.graph.Nearest query.caller line query.call.token b) →
      (∀ stretch ∈ query.graph.stretches query.caller line, ∀ b ∈ stretch,
        query.graph.callee? query.call.token b = none) ∧
      query.resolve = query.withoutBindings) ∧
    ((∀ g ∈ query.graph.groupsAround query.caller,
        (query.graph.group g).root ≠ some query.caller) →
      ∀ other : List Binding, (∀ b ∈ other, b.line.isSome) →
        other.filter (fun b => decide (b.lineNumber ≤ line)) =
          (CallMap.bindingsOf query.graph query.caller).filter
            (fun b => decide (b.lineNumber ≤ line)) →
        resolve { query with graph := query.graph.withBindings query.caller other } =
          query.resolve) := by
  have hVisible := h.visible_eq line
  rw [← hLine] at hVisible
  have hResolve := resolve_of_plain hPlain hVisible
  refine ⟨fun b target hNearest hTarget => ?_, fun hNone => ?_, fun hRoot other hOther hSame =>
    resolve_withBindings hPlain hLine h hRoot hOther hSame⟩
  · obtain ⟨_, front, back, hSplit, hFront⟩ :=
      List.find?_eq_some_iff_append.mp (Graph.find?_stretches_iff.mpr hNearest)
    have hSkipped : front.findSome? (query.graph.callee? query.call.token) = none := by
      refine List.findSome?_eq_none_iff.mpr fun other hOther => ?_
      simpa using hFront other hOther
    rw [hResolve, hSplit, List.findSome?_append, hSkipped, List.findSome?_cons, hTarget]
    rfl
  · have hAll : ((query.graph.stretches query.caller line).flatMap
        (sortBy Graph.laterLine)).find?
          (fun b => (query.graph.callee? query.call.token b).isSome) = none := by
      by_contra hSome
      obtain ⟨b, hb⟩ := Option.ne_none_iff_exists'.mp hSome
      exact hNone ⟨b, Graph.find?_stretches_iff.mp hb⟩
    have hCallee : ∀ b ∈ (query.graph.stretches query.caller line).flatMap
        (sortBy Graph.laterLine), query.graph.callee? query.call.token b = none := by
      intro b hb
      simpa using List.find?_eq_none.mp hAll b hb
    constructor
    · intro stretch hStretch b hb
      exact hCallee b (List.mem_flatMap.mpr ⟨stretch, hStretch, mem_sortBy.mpr hb⟩)
    · rw [hResolve, List.findSome?_eq_none_iff.mpr hCallee]
      rfl

/-- A file with two functions `g` and `h`, and a function `f` that binds `t` four times. The code outside
all functions binds `t` on line 6. -/
def boundGraph : Graph where
  nodes := #[
    { token := "(global)", parent := .group ⟨0⟩, line := some 0,
      bindings := some [{ token := "t", target := .node ⟨2⟩, line := some 6 }] },
    { token := "f", parent := .group ⟨0⟩, line := some 2,
      bindings := some [
        { token := "t", target := .node ⟨2⟩, line := some 3 },
        { token := "t", target := .node ⟨3⟩, line := some 4 },
        { token := "t", target := .node ⟨2⟩, line := some 4 },
        { token := "t", target := .node ⟨2⟩, line := some 9 }] },
    { token := "g", parent := .group ⟨0⟩, line := some 10, bindings := some [] },
    { token := "h", parent := .group ⟨0⟩, line := some 11, bindings := some [] }]
  groups := #[
    { token := "a", kind := .file, display := "File", line := some 0, root := some ⟨0⟩,
      nodes := [⟨0⟩, ⟨1⟩, ⟨2⟩, ⟨3⟩] }]

/-- A call `t()` on line 5 of a node. -/
def boundQuery (caller : NodeId) : Query where
  graph := boundGraph
  heuristics := true
  caller := caller
  candidates := [⟨0⟩, ⟨1⟩, ⟨2⟩, ⟨3⟩]
  call := { token := "t", line := some 5 }

theorem numbered_boundGraph {n : NodeId} (h : n = ⟨0⟩ ∨ n = ⟨1⟩) : boundGraph.Numbered n := by
  rcases h with rfl | rfl
  · exact ⟨fun _ hNode => (by cases hNode), rfl, by decide +kernel, by decide +kernel,
      by decide +kernel⟩
  · exact ⟨fun _ hNode => (by cases hNode), rfl, by decide +kernel, by decide +kernel,
      by decide +kernel⟩

/-- In the sample, the function calls `h`, which `t` is bound to on line 4 first, and what it binds on
line 9 does not matter. -/
theorem nearest_binding_wins_boundQuery :
    boundGraph.Numbered ⟨1⟩ ∧ (boundQuery ⟨1⟩).resolve = .ok (.found ⟨3⟩ none) ∧
      resolve { boundQuery ⟨1⟩ with
          graph := boundGraph.withBindings ⟨1⟩ ((CallMap.bindingsOf boundGraph ⟨1⟩).take 3) } =
        .ok (.found ⟨3⟩ none) := by
  have hNumbered := numbered_boundGraph (Or.inr rfl)
  obtain ⟨hWins, _, hBelow⟩ := @nearest_binding_wins (boundQuery ⟨1⟩) 5 rfl rfl hNumbered
  have hNearest : boundGraph.Nearest ⟨1⟩ 5 "t"
      { token := "t", target := .node ⟨3⟩, line := some 4 } := by
    refine ⟨[], _, _, rfl, fun _ h => absurd h List.not_mem_nil, [_], [_], rfl, rfl, ?_, ?_⟩
    · intro other hOther _
      rw [List.mem_singleton.mp hOther]
      decide
    · intro other hOther _
      rw [List.mem_singleton.mp hOther]
      decide
  have hFound := hWins _ ⟨3⟩ hNearest rfl
  refine ⟨hNumbered, hFound, (hBelow ?_ _ (by decide +kernel) rfl).trans hFound⟩
  decide +kernel

/-- The code outside all functions calls `g` on line 5, although it binds `t` to `g` only on line 6:
without this binding nothing is found. -/
theorem later_binding_used_boundQuery :
    boundGraph.Numbered ⟨0⟩ ∧
      (CallMap.bindingsOf boundGraph ⟨0⟩).map (fun b => (b.token, b.line)) = [("t", some 6)] ∧
      (boundQuery ⟨0⟩).resolve = .ok (.found ⟨2⟩ none) ∧
      resolve { boundQuery ⟨0⟩ with graph := boundGraph.withBindings ⟨0⟩ [] } = .ok .unresolved :=
  ⟨numbered_boundGraph (Or.inl rfl), rfl, rfl, rfl⟩

end Query

end CallGraph
