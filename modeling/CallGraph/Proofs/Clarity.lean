import CallGraph.Proofs.Grammar
import CallGraph.Proofs.Preparing

/-!
# When names can be seen

Visible bindings are sorted by line, so they need one. What comes from legal trees has a line, and
so do packages; the anonymous functions that are made up while calls are resolved have none, and
each of them stands in a group beside the function that returns it. `Graph.Clear` says so of a whole
graph, and it holds as long as the graph grows.

In a clear graph, what a function sees can be sorted exactly as long as no group around it shows a
function that was made up (`visible_isOk_iff`). And apart from that, a call fails only on a binding
that has the name by which unknown owners go (`answered_iff`).

## Main definitions

* `Graph.Clear` — names and lines are there, but for functions that were made up.
* `Query.Obscured` — a function that was made up is in sight of the caller.
* `Query.Deceived` — a binding is taken for the unknown owner of the call.
* `Query.Blocked` — one of the two, when the call needs to look at bindings.

## Main results

* `Clear.of_grows` — a clear graph stays clear.
* `visible_isOk_iff` — when names can be seen.
* `answered_iff` — when calls are answered.
-/

namespace CallGraph

open Chart (isLibraryGroup)

/-- A binding that can be sorted by line; what it stands for is settled. -/
structure Binding.Clear (b : Binding) : Prop where
  line : b.line.isSome
  settleable : b.Settleable
  plain : ∀ call, b.target = .call call → call.Plain

namespace Graph

/-- Names and lines are there, but for functions that were made up. -/
structure Clear (graph : Graph) : Prop where
  bound : graph.Bound Binding.Clear
  calls : ∀ n, ∀ call ∈ (graph.node n).calls, call.Plain
  subgroup : ∀ {g s}, (graph.group g).root.isSome → s ∈ (graph.group g).subgroups →
    (graph.group s).token ≠ "" ∧ (graph.group s).line.isSome
  /-- A group with a root lists nodes with a name and a line, and beside functions also nodes that
  were made up. -/
  node : ∀ {g n}, (graph.group g).root.isSome → n ∈ (graph.group g).nodes →
    ((graph.node n).isInvented = false ∧ (graph.node n).token ≠ "" ∧ (graph.node n).line.isSome) ∨
      ((graph.node n).Lineless ∧ ∃ m ∈ (graph.group g).nodes, (graph.node m).signature.isSome)
  function_line : ∀ n, (graph.node n).signature.isSome → isSetLine (graph.node n).line = true

variable {graph after : Graph}

theorem Grows.bound {hold : Binding → Prop} (hGrows : graph.Grows after) (h : graph.Bound hold) :
    after.Bound hold := by
  intro n bindings hBindings
  rcases Nat.lt_or_ge n.index graph.nodes.size with hLt | hGe
  · rw [hGrows.node_field Node.bindings hLt] at hBindings
    exact h n bindings hBindings
  · rw [(hGrows.bodiless_of_new n hGe).1] at hBindings
    exact absurd hBindings (by simp)

/-- A clear graph stays clear as it grows, when its packages have names. -/
theorem Clear.of_grows (h : graph.Clear) (hSound : graph.Sound) (hGrows : graph.Grows after)
    {libraries : Libraries} {roots : List GroupId} (hStocked : libraries.Stocked after roots)
    (hNames : ∀ p ∈ libraries.packages, p.1 ≠ "") : after.Clear := by
  have hRoots : ∀ {g}, (after.group g).root.isSome → (graph.group g).root.isSome := by
    intro g hRoot
    rcases Nat.lt_or_ge g.index graph.groups.size with hLt | hGe
    · rwa [hGrows.group_field Group.root hLt] at hRoot
    · rw [hGrows.rootless_of_new g hGe] at hRoot
      exact absurd hRoot Bool.false_ne_true
  have hSignature : ∀ {n}, n.index < graph.nodes.size →
      (after.node n).signature = (graph.node n).signature :=
    fun hn => hGrows.node_field Node.signature hn
  refine ⟨hGrows.bound h.bound, fun n call hCall => ?_, fun {g s} hRoot hs => ?_,
    fun {g n} hRoot hn => ?_, fun n hn => ?_⟩
  · rw [hGrows.calls_eq] at hCall
    exact h.calls n call hCall
  · rcases hGrows.library_of_hung hs with hOld | hLibrary
    · rw [hGrows.group_field Group.token (hSound.subgroup_lt hOld),
        hGrows.group_field Group.line (hSound.subgroup_lt hOld)]
      exact h.subgroup (hRoots hRoot) hOld
    · obtain ⟨p, hp, rfl⟩ := hStocked.library_package hLibrary
      obtain ⟨hToken, hLine⟩ := hStocked.package_named p hp
      exact ⟨by rw [hToken]; exact hNames p hp, by rw [hLine]; rfl⟩
  · have hFunction : ∀ m ∈ (graph.group g).nodes, (graph.node m).signature.isSome →
        ∃ m ∈ (after.group g).nodes, (after.node m).signature.isSome := by
      intro m hm hSome
      refine ⟨m, hGrows.mem_nodes hm, ?_⟩
      rw [hSignature (hSound.listed_lt hm)]
      exact hSome
    rcases hGrows.beside_function hRoot hn with hOld | ⟨hLineless, m, hm, hSome⟩
    · obtain ⟨_, _, hNode⟩ := hGrows.node_eq n (hSound.listed_lt hOld)
      rw [hNode]
      refine (h.node (hRoots hRoot) hOld).imp id ?_
      rintro ⟨hLineless, m, hm, hSome⟩
      exact ⟨{ hLineless with }, hFunction m hm hSome⟩
    · exact Or.inr ⟨hLineless, hFunction m hm hSome⟩
  · rcases Nat.lt_or_ge n.index graph.nodes.size with hLt | hGe
    · rw [hSignature hLt] at hn
      rw [hGrows.node_field Node.line hLt]
      exact h.function_line n hn
    · rw [(hGrows.bodiless_of_new n hGe).2] at hn
      exact absurd hn Bool.false_ne_true

/-! ## What can be sorted -/

theorem any_isNone_eq_false {bindings : List Binding} (h : ∀ b ∈ bindings, b.line.isSome) :
    (bindings.any fun b => b.line.isNone) = false := by
  rw [List.any_eq_false]
  intro b hb
  simpa [Option.isSome_iff_ne_none] using h b hb

theorem latestFirst_isOk {bindings : List Binding} (h : ∀ b ∈ bindings, b.line.isSome) :
    ∃ sorted, latestFirst bindings = .ok sorted := by
  unfold latestFirst
  split
  · exact ⟨_, by rw [if_neg (by simp [any_isNone_eq_false h])]⟩
  · exact ⟨_, rfl⟩

/-- A binding without a line cannot be sorted with one that has a line. -/
theorem latestFirst_ne_ok {bindings : List Binding} {a b : Binding} (ha : a ∈ bindings)
    (hb : b ∈ bindings) (hSet : isSetLine a.line = true) (hNone : b.line = none)
    (sorted : List Binding) : latestFirst bindings ≠ .ok sorted := by
  have hLength : 2 ≤ bindings.length := by
    match bindings, ha, hb with
    | [_], ha, hb =>
        rw [List.mem_singleton.mp ha, ← List.mem_singleton.mp hb, hNone] at hSet
        exact absurd hSet Bool.false_ne_true
    | _ :: _ :: _, _, _ => simp
  have hAnySet : (bindings.any fun b => isSetLine b.line) = true :=
    List.any_eq_true.mpr ⟨a, ha, hSet⟩
  have hAnyNone : (bindings.any fun b => b.line.isNone) = true :=
    List.any_eq_true.mpr ⟨b, hb, by rw [hNone]; rfl⟩
  simp [latestFirst, hAnySet, hAnyNone, hLength]

theorem upTo_isOk {bindings : List Binding} (h : ∀ b ∈ bindings, b.line.isSome)
    (line : Option Int) : ∃ kept, upTo bindings line = .ok kept := by
  cases line with
  | none => exact ⟨_, rfl⟩
  | some line => exact ⟨_, by rw [upTo, if_neg (by simp [any_isNone_eq_false h])]⟩

theorem ownTokens_isOk {bindings : List Binding} (h : ∀ b ∈ bindings, b.token ≠ "") :
    ownTokens bindings = .ok bindings := by
  have hNone : (bindings.any fun b => decide (b.token = "")) = false := by
    rw [List.any_eq_false]
    intro b hb
    simpa using h b hb
  rw [ownTokens, if_neg (by simp [hNone])]

theorem Clear.ownBindings_isOk (h : graph.Clear) {n : NodeId}
    (hBody : (graph.node n).bindings.isSome) (line : Option Int) :
    ∃ bindings, graph.ownBindings n line = .ok bindings := by
  obtain ⟨all, hAll⟩ := Option.isSome_iff_exists.mp hBody
  have hLines : ∀ b ∈ all, b.line.isSome := fun b hb => (h.bound n all hAll b hb).line
  obtain ⟨kept, hKept⟩ := upTo_isOk hLines line
  obtain ⟨sorted, hSorted⟩ := latestFirst_isOk fun b hb => hLines b (mem_upTo hKept hb)
  refine ⟨sorted, ?_⟩
  unfold ownBindings
  rw [hAll]
  dsimp only
  rw [hKept]
  exact hSorted

/-- A group shows a function that was made up. -/
def Clouded (graph : Graph) (g : GroupId) : Prop :=
  (graph.group g).root.isSome ∧ ∃ n ∈ (graph.group g).nodes, (graph.node n).isInvented = true

/-- The names of a group with a root are sorted as they are. -/
theorem Clear.groupBindings_eq (h : graph.Clear) {g : GroupId} {r : NodeId} {own : List Binding}
    (hRoot : (graph.group g).root = some r) (hOwn : (graph.node r).bindings = some own) :
    graph.groupBindings g = latestFirst (own ++ (graph.group g).subgroups.map graph.groupBinding ++
      ((graph.group g).nodes.filter (· ≠ r)).map graph.nodeBinding) := by
  have hSome : (graph.group g).root.isSome := by rw [hRoot]; rfl
  have hSubgroups : ∀ b ∈ (graph.group g).subgroups.map graph.groupBinding, b.token ≠ "" := by
    intro b hb
    obtain ⟨s, hs, rfl⟩ := List.mem_map.mp hb
    exact (h.subgroup hSome hs).1
  have hNodes : ∀ b ∈ ((graph.group g).nodes.filter (· ≠ r)).map graph.nodeBinding,
      b.token ≠ "" := by
    intro b hb
    obtain ⟨n, hn, rfl⟩ := List.mem_map.mp hb
    rcases h.node hSome (List.mem_filter.mp hn).1 with ⟨_, hToken, _⟩ | ⟨hLineless, _⟩
    · exact hToken
    · exact hLineless.token_ne
  unfold groupBindings
  dsimp only
  rw [hRoot]
  dsimp only
  rw [ownTokens_isOk hSubgroups]
  dsimp only [bind, Except.bind]
  rw [hOwn]
  dsimp only
  rw [ownTokens_isOk hNodes]

/-- The names of a group can be seen unless one of them is that of a function that was made up. -/
theorem Clear.groupBindings_isOk_iff (h : graph.Clear) (hSound : graph.Sound) {g : GroupId} :
    (∃ bindings, graph.groupBindings g = .ok bindings) ↔ ¬graph.Clouded g := by
  cases hRoot : (graph.group g).root with
  | none =>
      refine iff_of_true ⟨[], ?_⟩ fun hClouded => ?_
      · simp [groupBindings, hRoot]
      · rw [Clouded, hRoot] at hClouded
        exact absurd hClouded.1 Bool.false_ne_true
  | some r =>
      have hSome : (graph.group g).root.isSome := by rw [hRoot]; rfl
      obtain ⟨own, hOwn⟩ := Option.isSome_iff_exists.mp (hSound.root_spec hRoot).2.1
      rw [h.groupBindings_eq hRoot hOwn]
      constructor
      · rintro ⟨sorted, hSorted⟩ ⟨_, n, hn, hInvented⟩
        rcases h.node hSome hn with ⟨hProper, _⟩ | ⟨hLineless, m, hm, hFunction⟩
        · rw [hProper] at hInvented
          exact absurd hInvented Bool.false_ne_true
        · -- Neither of the two is the root, which has a body and is no function.
          have hnr : n ≠ r := by
            rintro rfl
            simp [Node.isInvented, hOwn] at hInvented
          have hmr : m ≠ r := by
            rintro rfl
            rw [(hSound.root_spec hRoot).2.2] at hFunction
            exact absurd hFunction Bool.false_ne_true
          have hMem : ∀ k ∈ (graph.group g).nodes, k ≠ r → graph.nodeBinding k ∈
              own ++ (graph.group g).subgroups.map graph.groupBinding ++
                ((graph.group g).nodes.filter (· ≠ r)).map graph.nodeBinding := fun k hk hkr =>
            List.mem_append_right _ (List.mem_map_of_mem
              (List.mem_filter.mpr ⟨hk, decide_eq_true hkr⟩))
          exact latestFirst_ne_ok (hMem m hm hmr) (hMem n hn hnr) (h.function_line m hFunction)
            hLineless.line_none sorted hSorted
      · intro hClear
        refine latestFirst_isOk fun b hb => ?_
        rcases List.mem_append.mp hb with hb | hb
        · rcases List.mem_append.mp hb with hb | hb
          · exact (h.bound r own hOwn b hb).line
          · obtain ⟨s, hs, rfl⟩ := List.mem_map.mp hb
            exact (h.subgroup hSome hs).2
        · obtain ⟨n, hn, rfl⟩ := List.mem_map.mp hb
          have hn := (List.mem_filter.mp hn).1
          rcases h.node hSome hn with ⟨_, _, hLine⟩ | ⟨hLineless, _⟩
          · exact hLine
          · exact absurd ⟨hSome, n, hn, hLineless.invented⟩ hClear

theorem groupsBindings_isOk_iff {groups : List GroupId} :
    (∃ bindings, graph.groupsBindings groups = .ok bindings) ↔
      ∀ g ∈ groups, ∃ bindings, graph.groupBindings g = .ok bindings := by
  induction groups with
  | nil => exact iff_of_true ⟨[], rfl⟩ (by simp)
  | cons g rest ih =>
      rw [groupsBindings, exists_bind_eq_ok_iff, List.forall_mem_cons, ← ih]
      constructor
      · rintro ⟨first, hFirst, hRest⟩
        obtain ⟨others, hOthers, _⟩ := exists_bind_eq_ok_iff.mp hRest
        exact ⟨⟨first, hFirst⟩, others, hOthers⟩
      · rintro ⟨⟨first, hFirst⟩, others, hOthers⟩
        exact ⟨first, hFirst, exists_bind_eq_ok_iff.mpr ⟨others, hOthers, _, rfl⟩⟩

/-- When names can be seen. -/
theorem Clear.visible_isOk_iff (h : graph.Clear) (hSound : graph.Sound) {n : NodeId} {p : GroupId}
    (hParent : (graph.node n).parent = .group p) (hBody : (graph.node n).bindings.isSome)
    (line : Option Int) :
    (∃ bindings, graph.visible n line = .ok bindings) ↔ ∀ g ∈ graph.chain p, ¬graph.Clouded g := by
  obtain ⟨own, hOwn⟩ := h.ownBindings_isOk hBody line
  have hAround := @groupsBindings_isOk_iff graph (graph.chain p)
  simp only [h.groupBindings_isOk_iff hSound] at hAround
  rw [visible_of_parent hParent, hOwn, ← hAround]
  constructor
  · intro hVisible
    obtain ⟨_, _, hVisible⟩ := exists_bind_eq_ok_iff.mp hVisible
    obtain ⟨around, hAround, _⟩ := exists_bind_eq_ok_iff.mp hVisible
    exact ⟨around, hAround⟩
  · rintro ⟨around, hAround⟩
    exact exists_bind_eq_ok_iff.mpr
      ⟨own, rfl, exists_bind_eq_ok_iff.mpr ⟨around, hAround, _, rfl⟩⟩

/-! ## What a call meets among bindings -/

/-- Whether a node has a token and stands in the class of the given path. -/
def isIn (graph : Graph) (path token : String) (n : NodeId) : Bool :=
  decide ((graph.classPath n).toOption = some path ∧ (graph.node n).token = token)

theorem WellFormed.inClass_eq (h : graph.WellFormed) (path token : String) {nodes : List NodeId}
    (hNodes : ∀ n ∈ nodes, graph.Listed n) :
    graph.inClass path token nodes = .ok (nodes.find? (graph.isIn path token)) := by
  induction nodes with
  | nil => rfl
  | cons n rest ih =>
      obtain ⟨g, hParent, _⟩ := h.parent_of (hNodes n List.mem_cons_self)
      obtain ⟨own, hPath⟩ : ∃ own, graph.classPath n = .ok own := ⟨_, by rw [classPath, hParent]⟩
      have hIn : graph.isIn path token n =
          (decide (own = path) && decide ((graph.node n).token = token)) := by
        simp [isIn, hPath, Except.toOption]
      rw [inClass, ih fun m hm => hNodes m (List.mem_cons_of_mem _ hm), hPath, List.find?_cons,
        hIn]
      dsimp only [bind, Except.bind]
      cases decide (own = path) && decide ((graph.node n).token = token) <;> rfl

/-- Looking into a package finds a node or nothing. -/
theorem WellFormed.inPackage_isOk (h : graph.WellFormed) (call : Call) (owner : String)
    (b : Binding) :
    ∃ found : Option NodeId, graph.inPackage call owner b = .ok (found.map .node) := by
  unfold inPackage
  split
  · split
    · split
      · split
        · exact ⟨_, by rw [h.inClass_eq _ _ fun n hn => listed_of_mem_allNodes hn]; rfl⟩
        · exact ⟨none, rfl⟩
      · exact ⟨none, rfl⟩
    · exact ⟨none, rfl⟩
  · exact ⟨none, rfl⟩

/-- A call on something unknown meets a binding of that name which stands for a table, or is unknown
itself. -/
def Misleads (call : Call) (b : Binding) : Prop :=
  call.owner = some unknownOwner ∧ b.token = unknownOwner ∧
    (b.target = .name unknownOwner ∨ ∃ table, b.target = .table table)

/-- The first binding that a call does not pass over misleads it. -/
def Fools (graph : Graph) (call : Call) : List Binding → Prop
  | [] => False
  | b :: rest => Misleads call b ∨ (graph.matchBinding call b = .ok none ∧ Fools graph call rest)

theorem matchBinding_of_misleads {call : Call} {b : Binding} (h : Misleads call b) :
    (∃ fault, graph.matchBinding call b = .error fault) ∨
      graph.matchBinding call b = .ok (some (.marker unknownOwner)) := by
  obtain ⟨hOwner, hToken, hTarget⟩ := h
  unfold matchBinding
  rw [hOwner]
  dsimp only
  rw [if_pos (by simp [hToken])]
  rcases hTarget with hTarget | ⟨table, hTarget⟩
  · rw [hTarget]
    exact Or.inr rfl
  · rw [hTarget]
    exact Or.inl ⟨_, rfl⟩

/-- What a call that cannot go to a library meets in a binding that does not mislead it. -/
theorem WellFormed.matchBinding_cases (h : graph.WellFormed) {call : Call} (hPlain : call.Plain)
    (hOther : call.isLibrary = false) {b : Binding} (hb : b.Settleable)
    (hMisleads : ¬Misleads call b) :
    graph.matchBinding call b = .ok none ∨
      (∃ n, graph.matchBinding call b = .ok (some (.node n))) ∨
      graph.matchBinding call b = .ok (some (.marker unknownModule)) := by
  have hFound : ∀ found : Option NodeId, found.map Match.node = none ∨
      ∃ n, found.map Match.node = some (.node n) := by
    intro found
    cases found with
    | none => exact Or.inl rfl
    | some n => exact Or.inr ⟨n, rfl⟩
  have hPackage : ∀ owner, graph.inPackage call owner b = .ok none ∨
      ∃ n, graph.inPackage call owner b = .ok (some (.node n)) := by
    intro owner
    obtain ⟨found, hEq⟩ := h.inPackage_isOk call owner b
    rw [hEq]
    exact (hFound found).imp (congrArg _) fun ⟨n, hn⟩ => ⟨n, congrArg _ hn⟩
  unfold matchBinding
  rcases hPlain.other hOther with hOwner | hOwner
  · rw [hOwner]
    dsimp only
    split
    · split
      · exact Or.inr (Or.inl ⟨_, rfl⟩)
      · exact (hFound _).imp (congrArg _) fun ⟨n, hn⟩ => Or.inl ⟨n, congrArg _ hn⟩
      · exact Or.inl rfl
    · exact Or.inl rfl
  · rw [hOwner, hOther]
    dsimp only
    split
    · rename_i hToken
      have hToken : unknownOwner = b.token := by simpa using hToken
      split
      · split
        · exact Or.inr (Or.inl ⟨_, rfl⟩)
        · exact (hPackage _).imp_right Or.inl
      · -- Of the targets that are no groups, only the misleading ones stop the call.
        cases hTarget : b.target with
        | name name =>
            have hne : name ≠ unknownOwner := by
              rintro rfl
              exact hMisleads ⟨hOwner, hToken.symm, Or.inl hTarget⟩
            by_cases hModule : name = unknownModule
            · rw [hModule]
              exact Or.inr (Or.inr rfl)
            · exact Or.inl (by simp [markerOf, hne, hModule])
        | table table => exact absurd ⟨hOwner, hToken.symm, Or.inr ⟨table, hTarget⟩⟩ hMisleads
        | value value => exact absurd hTarget (hb value)
        | _ => exact Or.inl rfl
    · exact (hPackage _).imp_right Or.inl

end Graph

/-! ## When calls are answered -/

/-- Where a call goes is known, if anywhere: no name stands in for it. -/
def Outcome.Definite (outcome : Outcome) : Prop :=
  ∀ name, outcome ≠ .marker name

theorem Outcome.definite_found (n : NodeId) (via : Option Via) : (found n via).Definite := by
  intro name h
  cases h

theorem Outcome.definite_unresolved : unresolved.Definite := by
  intro name h
  cases h

namespace Query

/-- The call is answered, and not by a name. -/
def Answered (query : Query) : Prop :=
  ∃ outcome, query.resolve = .ok outcome ∧ outcome.Definite

/-- A function that was made up is in sight of the caller. -/
def Obscured (query : Query) : Prop :=
  ∃ p, (query.graph.node query.caller).parent = .group p ∧
    ∃ g ∈ query.graph.chain p, query.graph.Clouded g

/-- A binding is taken for the unknown owner of the call. -/
def Deceived (query : Query) : Prop :=
  ∃ bindings, query.graph.visible query.caller query.call.line = .ok bindings ∧
    query.viaInstance? bindings = none ∧ query.graph.Fools query.call bindings

/-- The call has to look at bindings and cannot. -/
def Blocked (query : Query) : Prop :=
  query.early? = none ∧ (query.Obscured ∨ query.Deceived)

/-- A call asked about in a clear graph, by a node with a body; if it goes to a library, the node is
there. -/
structure Fair (query : Query) : Prop extends query.Posed where
  clear : query.graph.Clear
  body : (query.graph.node query.caller).bindings.isSome
  plain : query.call.Plain
  supplied : query.call.isLibrary = true → query.bySignature?.isSome

variable {query : Query}

theorem definite_ofPossible? {via : Option Via} {nodes : List NodeId} {outcome : Outcome}
    (h : Outcome.ofPossible? via nodes = some outcome) : outcome.Definite := by
  unfold Outcome.ofPossible? at h
  split at h <;> cases h <;> exact nofun

theorem definite_constructorOf (g : GroupId) : (query.constructorOf g).Definite := by
  unfold constructorOf
  split <;> exact nofun

theorem definite_viaSuper? {outcome : Outcome} (h : query.viaSuper? = some outcome) :
    outcome.Definite := by
  unfold viaSuper? at h
  split at h
  · obtain ⟨g, _, h⟩ := Option.bind_eq_some_iff.mp h
    exact definite_ofPossible? h
  · exact absurd h (by simp)

theorem definite_viaSelf? {outcome : Outcome} (h : query.viaSelf? = some outcome) :
    outcome.Definite := by
  unfold viaSelf? at h
  split at h
  · obtain ⟨g, _, h⟩ := Option.bind_eq_some_iff.mp h
    split at h
    · rename_i found hFound
      cases h
      exact definite_ofPossible? hFound
    · split at h
      · cases h
        exact definite_constructorOf _
      · exact definite_ofPossible? h
  · exact absurd h (by simp)

theorem definite_viaUnknownOwner? {outcome : Outcome} (h : query.viaUnknownOwner? = some outcome) :
    outcome.Definite := by
  unfold viaUnknownOwner? at h
  split at h
  · obtain ⟨g, _, h⟩ := Option.bind_eq_some_iff.mp h
    split at h
    · exact definite_ofPossible? h
    · exact absurd h (by simp)
  · exact absurd h (by simp)

/-- The stages that do not look at bindings name a node. -/
theorem definite_early? {outcome : Outcome} (h : query.early? = some outcome) :
    outcome.Definite := by
  unfold early? at h
  rcases Option.or_eq_some_iff.mp h with h | ⟨_, h⟩
  · rcases Option.or_eq_some_iff.mp h with h | ⟨_, h⟩
    · rcases Option.or_eq_some_iff.mp h with h | ⟨_, h⟩
      · exact definite_viaSuper? h
      · exact definite_viaSelf? h
    · obtain ⟨n, _, rfl⟩ := Option.map_eq_some_iff.mp h
      exact nofun
  · exact definite_viaUnknownOwner? h

theorem bySignature?_of_early? (h : query.early? = none) : query.bySignature? = none := by
  unfold early? at h
  simp only [Option.or_eq_none_iff, Option.map_eq_none_iff] at h
  exact h.1.2

theorem definite_viaFactory? {outcome : Outcome} (h : query.viaFactory? = some outcome) :
    outcome.Definite := by
  unfold viaFactory? at h
  obtain ⟨factory, _, h⟩ := Option.bind_eq_some_iff.mp h
  dsimp only at h
  split at h
  · cases h
    exact nofun
  · split at h
    · cases h
      exact nofun
    · exact absurd h (by simp)

/-- The topmost entry above the caller is a group above the one that lists it. -/
theorem Posed.exists_callerTop? (h : query.Posed) :
    ∃ p top, query.caller ∈ (query.graph.group p).nodes ∧
      query.callerTop? = some (.group top) ∧ top ∈ query.graph.chain p := by
  obtain ⟨p, hParent, hMem⟩ := h.sound.parent_of h.caller
  have hChain : query.graph.chain p ≠ [] := by simp [Graph.chain]
  have hAbove : query.graph.nodesUpwards query.graph.nodes.size (.group p) = ([], some p) := by
    cases query.graph.nodes.size <;> rfl
  refine ⟨p, (query.graph.chain p).getLast hChain, hMem, ?_, List.getLast_mem hChain⟩
  unfold callerTop?
  rw [hParent, hAbove]
  dsimp only
  rw [List.getLast?_eq_some_getLast hChain]
  rfl

theorem Posed.byToken_isOk (h : query.Posed) : ∃ found, query.byToken = .ok found := by
  unfold byToken
  split
  · obtain ⟨_, top, _, hTop, _⟩ := h.exists_callerTop?
    rw [hTop]
    exact ⟨_, rfl⟩
  · split
    · rename_i hNothing
      obtain ⟨n, hn, hNothing⟩ := List.any_eq_true.mp hNothing
      obtain ⟨g, hParent, _⟩ := h.sound.parent_of (h.candidates n hn)
      rw [of_decide_eq_true hNothing] at hParent
      exact absurd hParent (by simp)
    · exact ⟨_, rfl⟩

theorem Posed.direct_isOk (h : query.Posed) :
    ∃ outcome, query.direct = .ok outcome ∧ outcome.Definite := by
  obtain ⟨⟨possible, impossible⟩, hFound⟩ := h.byToken_isOk
  unfold direct
  rw [hFound]
  dsimp only [bind, Except.bind]
  split
  · split
    · exact ⟨_, rfl, definite_constructorOf _⟩
    · exact ⟨_, rfl, nofun⟩
  · exact ⟨_, rfl, nofun⟩
  · exact ⟨_, rfl, nofun⟩

/-- The bindings answer the call, or none of them does, but no name stands in for an answer. -/
def Follows (query : Query) (bindings : List Binding) : Prop :=
  ∃ result, query.viaBindings? bindings = .ok result ∧ ∀ outcome ∈ result, outcome.Definite

/-- A call that cannot go to a library follows bindings unless one of them misleads it. -/
theorem Posed.follows_iff (h : query.Posed) (hPlain : query.call.Plain)
    (hOther : query.call.isLibrary = false) {bindings : List Binding}
    (hBindings : ∀ b ∈ bindings, b.Settleable) :
    query.Follows bindings ↔ ¬query.graph.Fools query.call bindings := by
  have hSignature : query.bySignature? = none := by simp [bySignature?, libraryOwner?, hOther]
  have hForest := h.sound.toWellFormed
  induction bindings with
  | nil => exact iff_of_true ⟨none, rfl, by simp⟩ id
  | cons b rest ih =>
      have ih := ih fun c hc => hBindings c (List.mem_cons_of_mem _ hc)
      by_cases hMisleads : Graph.Misleads query.call b
      · refine iff_of_false ?_ fun hNot => hNot (Or.inl hMisleads)
        rintro ⟨result, hResult, hDefinite⟩
        rcases Graph.matchBinding_of_misleads hMisleads with ⟨fault, hMatch⟩ | hMatch
        · rw [viaBindings?, hMatch] at hResult
          exact absurd hResult (by simp [bind, Except.bind])
        · rw [viaBindings?, hMatch] at hResult
          have hMarker : (if Match.marker unknownOwner = .marker unknownModule then
              (pure (some Outcome.unresolved) : Except Fault (Option Outcome))
            else pure (some (.marker unknownOwner))) = .ok result := by
            simpa [bind, Except.bind, hSignature] using hResult
          rw [if_neg (by decide)] at hMarker
          cases hMarker
          exact hDefinite _ rfl unknownOwner rfl
      · rcases hForest.matchBinding_cases hPlain hOther (hBindings b List.mem_cons_self) hMisleads
          with hMatch | ⟨n, hMatch⟩ | hMatch
        · have hSkip : query.viaBindings? (b :: rest) = query.viaBindings? rest := by
            rw [viaBindings?, hMatch]
            rfl
          have hFools : query.graph.Fools query.call (b :: rest) ↔
              query.graph.Fools query.call rest := by
            simp [Graph.Fools, hMisleads, hMatch]
          rw [Follows, hSkip, hFools]
          exact ih
        · refine iff_of_true ⟨some (.found n none), ?_, ?_⟩ ?_
          · rw [viaBindings?, hMatch]
            simp [bind, Except.bind, hSignature, pure, Except.pure]
          · rintro _ ⟨rfl⟩
            exact Outcome.definite_found n none
          · simp [Graph.Fools, hMisleads, hMatch]
        · refine iff_of_true ⟨some .unresolved, ?_, ?_⟩ ?_
          · rw [viaBindings?, hMatch]
            simp [bind, Except.bind, pure, Except.pure]
          · rintro _ ⟨rfl⟩
            exact Outcome.definite_unresolved
          · simp [Graph.Fools, hMisleads, hMatch]

/-- The stages that look at bindings answer unless a binding misleads the call. -/
theorem Posed.late_iff (h : query.Posed) (hPlain : query.call.Plain)
    (hOther : query.call.isLibrary = false) {bindings : List Binding}
    (hBindings : ∀ b ∈ bindings, b.Settleable) :
    (∃ outcome, query.late bindings = .ok outcome ∧ outcome.Definite) ↔
      ¬(query.viaInstance? bindings = none ∧ query.graph.Fools query.call bindings) := by
  have hFollows := h.follows_iff hPlain hOther hBindings
  unfold late
  cases hInstance : query.viaInstance? bindings with
  | some n => exact iff_of_true ⟨_, rfl, Outcome.definite_found n none⟩ (by simp)
  | none =>
      simp only [true_and]
      rw [← hFollows]
      constructor
      · rintro ⟨outcome, hLate, hDefinite⟩
        obtain ⟨result, hResult, hLate⟩ := exists_of_bind_eq_ok hLate
        refine ⟨result, hResult, fun found hFound => ?_⟩
        rw [Option.mem_def] at hFound
        rw [hFound] at hLate
        cases hLate
        exact hDefinite
      · rintro ⟨result, hResult, hDefinite⟩
        rw [hResult]
        cases result with
        | some outcome => exact ⟨outcome, rfl, hDefinite outcome rfl⟩
        | none =>
            dsimp only [bind, Except.bind]
            cases hFactory : query.viaFactory? with
            | some outcome => exact ⟨outcome, rfl, definite_viaFactory? hFactory⟩
            | none => exact h.direct_isOk

/-- What a function sees is settled. -/
theorem Fair.settleable (h : query.Fair) {bindings : List Binding}
    (hVisible : query.graph.visible query.caller query.call.line = .ok bindings) :
    ∀ b ∈ bindings, b.Settleable := by
  intro b hb
  obtain ⟨p, hParent, _⟩ := h.sound.parent_of h.caller
  cases Graph.mem_visible hParent hVisible b hb with
  | body hBindings hb => exact (h.clear.bound _ _ hBindings b hb).settleable
  | group g => exact nofun
  | listed hn => exact nofun

/-- When names can be seen. -/
theorem Fair.visible_isOk_iff (h : query.Fair) :
    (∃ bindings, query.graph.visible query.caller query.call.line = .ok bindings) ↔
      ¬query.Obscured := by
  obtain ⟨p, hParent, _⟩ := h.sound.parent_of h.caller
  rw [h.clear.visible_isOk_iff h.sound hParent h.body]
  constructor
  · rintro hClear ⟨q, hq, g, hg, hClouded⟩
    rw [hParent] at hq
    cases hq
    exact hClear g hg hClouded
  · exact fun hClear g hg hClouded => hClear ⟨p, hParent, g, hg, hClouded⟩

/-- When calls are answered. -/
theorem Fair.answered_iff (h : query.Fair) : query.Answered ↔ ¬query.Blocked := by
  unfold Answered Blocked resolve
  cases hEarly : query.early? with
  | some outcome => exact iff_of_true ⟨outcome, rfl, definite_early? hEarly⟩ (by simp)
  | none =>
      have hOther : query.call.isLibrary = false := by
        by_contra hLibrary
        have hSupplied := h.supplied (by simpa using hLibrary)
        rw [bySignature?_of_early? hEarly] at hSupplied
        exact absurd hSupplied Bool.false_ne_true
      simp only [true_and]
      by_cases hObscured : query.Obscured
      · refine iff_of_false ?_ fun hNot => hNot (Or.inl hObscured)
        rintro ⟨outcome, hOutcome, _⟩
        obtain ⟨bindings, hVisible, _⟩ := exists_of_bind_eq_ok hOutcome
        exact h.visible_isOk_iff.mp ⟨bindings, hVisible⟩ hObscured
      · obtain ⟨bindings, hVisible⟩ := h.visible_isOk_iff.mpr hObscured
        have hLate := h.late_iff h.plain hOther (h.settleable hVisible)
        rw [hVisible]
        refine hLate.trans (not_congr ?_)
        constructor
        · exact fun hFooled => Or.inr ⟨bindings, hVisible, hFooled⟩
        · rintro (hNot | ⟨seen, hSeen, hFooled⟩)
          · exact absurd hNot hObscured
          · rw [hVisible] at hSeen
            cases hSeen
            exact hFooled

end Query

end CallGraph
