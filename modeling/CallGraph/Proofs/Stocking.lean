import CallGraph.Proofs.Names
import CallGraph.Proofs.Resolving

/-!
# Library nodes in the graph

Library nodes are made before calls are linked, for the calls that name a library, and while they
are linked, for the names that every program can call. Both go through the same table of packages
and signatures. `Libraries.Stocked` is the invariant of a graph together with this table, and
`Libraries.Stocks` says what making some nodes does: they are put into packages of the table, and
packages that are new stand at the top until they are hung below a file.

## Main definitions

* `Libraries.Stocked` — the graph, its roots and the table agree.
* `Libraries.Stocks` — library nodes were made.
* `Libraries.Fills` — the table was filled call by call.

## Main results

* `fills_ofCalls`, `fills_ofInstances` — the two passes make nodes under signatures that are new.
* `Fills.stocks` — these are library nodes of the table.
* `hangAll_spec` — when the packages are hung, the files are the roots.
-/

namespace CallGraph

open Chart (isLibraryGroup)
open CallGraph.Graph

namespace Libraries

/-- A graph with its libraries; `roots` are the groups at the top. -/
structure Stocked (libraries : Libraries) (graph : Graph) (roots : List GroupId) : Prop where
  sound : graph.Sound
  rooted : graph.Roots roots
  covered : graph.Covered roots
  package_lt : ∀ p ∈ libraries.packages, p.2.index < graph.groups.size
  package_library : ∀ p ∈ libraries.packages, isLibraryGroup (graph.group p.2) = true
  /-- A package has the name under which the table knows it. -/
  package_named : ∀ p ∈ libraries.packages,
    (graph.group p.2).token = p.1 ∧ (graph.group p.2).line = some 0
  /-- The table knows all packages. -/
  library_package : ∀ {g}, isLibraryGroup (graph.group g) = true →
    ∃ p ∈ libraries.packages, p.2 = g
  node_listed : ∀ e ∈ libraries.nodes, graph.Listed e.2
  node_library : ∀ e ∈ libraries.nodes, (graph.node e.2).isLibrary = true
  /-- A node can be imported under the signature it was made for, which ends in its token. -/
  node_signature : ∀ e ∈ libraries.nodes, e.1 ∈ (graph.node e.2).importTokens ∧
    ∃ owner, e.1 = Dotted.join [owner, (graph.node e.2).token]
  /-- It stands in a package, and constructs nothing. -/
  node_housed : ∀ e ∈ libraries.nodes, (graph.node e.2).isConstructor = false ∧
    ∃ p ∈ libraries.packages, (graph.node e.2).parent = .group p.2

variable {libraries : Libraries} {graph after : Graph} {roots : List GroupId}

/-- Groups behind the end of the table stand for nothing. -/
theorem not_library_of_le {g : GroupId} (h : graph.groups.size ≤ g.index) :
    isLibraryGroup (graph.group g) = false := by
  rw [graph.group_eq_default h]
  rfl

/-- A graph that grows keeps its libraries, unless a package is added. -/
theorem Stocked.of_grows (h : libraries.Stocked graph roots) {roots' : List GroupId}
    (hGrows : graph.Grows after) (hSound : after.Sound) (hRooted : after.Roots roots')
    (hCovered : after.Covered roots')
    (hNew : ∀ g : GroupId, graph.groups.size ≤ g.index → isLibraryGroup (after.group g) = false) :
    libraries.Stocked after roots' where
  sound := hSound
  rooted := hRooted
  covered := hCovered
  package_lt p hp := Nat.lt_of_lt_of_le (h.package_lt p hp) hGrows.groups_le
  package_library p hp := by
    rw [hGrows.group_field isLibraryGroup (h.package_lt p hp)]
    exact h.package_library p hp
  package_named p hp := by
    rw [hGrows.group_field Group.token (h.package_lt p hp),
      hGrows.group_field Group.line (h.package_lt p hp)]
    exact h.package_named p hp
  library_package {g} hg := by
    rcases Nat.lt_or_ge g.index graph.groups.size with hLt | hGe
    · rw [hGrows.group_field isLibraryGroup hLt] at hg
      exact h.library_package hg
    · exact absurd (hNew g hGe) (by simp [hg])
  node_listed e he := hGrows.listed (h.node_listed e he)
  node_library e he := by
    rw [hGrows.node_field Node.isLibrary (h.sound.lt_of_listed (h.node_listed e he))]
    exact h.node_library e he
  node_signature e he := by
    have hn := h.sound.lt_of_listed (h.node_listed e he)
    rw [hGrows.node_field Node.importTokens hn, hGrows.node_field Node.token hn]
    exact h.node_signature e he
  node_housed e he := by
    have hn := h.sound.lt_of_listed (h.node_listed e he)
    rw [hGrows.node_field Node.isConstructor hn, hGrows.node_field Node.parent hn]
    exact h.node_housed e he

theorem Stocked.insertNode (h : libraries.Stocked graph roots) {node : Node} {p : GroupId}
    (hNode : graph.Insertable p node) : libraries.Stocked (graph.insertNode node).1 roots :=
  h.of_grows (grows_insertNode hNode) (h.sound.insertNode hNode)
    (h.rooted.insertNode hNode.parent) (h.covered.insertNode hNode.parent) fun _ hg =>
      not_library_of_le (by rwa [groups_size_insertNode])

theorem Stocked.addGroup (h : libraries.Stocked graph roots) {group : Group}
    (hGroup : Graph.Group.Blank group) (hLibrary : isLibraryGroup group = false) :
    libraries.Stocked (graph.addGroup group).1 (roots ++ [⟨graph.groups.size⟩]) := by
  refine h.of_grows (grows_addGroup hGroup) (h.sound.addGroup hGroup)
    (h.rooted.addGroup hGroup.parent_none) (h.covered.addGroup hGroup.subgroups_nil) fun g hg => ?_
  rw [group_addGroup]
  split
  · exact hLibrary
  · exact not_library_of_le hg

theorem Stocked.markEdge (h : libraries.Stocked graph roots) (edge : Edge) :
    libraries.Stocked (graph.markEdge edge) roots :=
  h.of_grows (grows_markEdge edge) (h.sound.markEdge edge)
    (h.rooted.of_eq (by simp) (by simp)) (h.covered.of_eq (by simp) (by simp)) fun _ hg =>
      not_library_of_le (by simpa using hg)

theorem Stocked.invents {new : List NodeId} (h : libraries.Stocked graph roots)
    (hInvents : graph.Invents new after) : libraries.Stocked after roots :=
  h.of_grows (hInvents.grows h.sound) (hInvents.sound h.sound) (hInvents.roots h.sound h.rooted)
    (hInvents.covered h.sound h.covered) fun _ hg =>
      not_library_of_le (by rwa [hInvents.groups_size])

theorem Stocked.perm (h : libraries.Stocked graph roots) {roots' : List GroupId}
    (hPerm : roots.Perm roots') : libraries.Stocked graph roots' :=
  { h with rooted := h.rooted.perm hPerm, covered := h.covered.perm hPerm }

/-! ## Making library nodes -/

/-- Library nodes were made: `new`, in packages of the table; `extra` are the packages that were
not there before. -/
structure Stocks (libraries : Libraries) (graph : Graph) (roots : List GroupId)
    (libraries' : Libraries) (after : Graph) (new : List NodeId) (extra : List GroupId) : Prop where
  stocked : libraries'.Stocked after (roots ++ extra)
  packages_eq : libraries'.packages.map (·.2) = libraries.packages.map (·.2) ++ extra
  grows : graph.Grows after
  node_eq : ∀ n : NodeId, n.index < graph.nodes.size → after.node n = graph.node n
  subgroups_eq : ∀ g, (after.group g).subgroups = (graph.group g).subgroups
  fresh : ∀ n ∈ new, graph.nodes.size ≤ n.index
  nodup : new.Nodup
  library : ∀ n ∈ new, (after.node n).isLibrary = true ∧ (after.node n).isLeaf = true ∧
    (after.node n).isTrunk = true
  mem_nodes : ∀ {g n}, n ∈ (after.group g).nodes ↔
    n ∈ (graph.group g).nodes ∨ (n ∈ new ∧ (after.node n).parent = .group g)
  in_package : ∀ n ∈ new, ∃ p ∈ libraries'.packages, (after.node n).parent = .group p.2

theorem Stocks.refl (h : libraries.Stocked graph roots) :
    Stocks libraries graph roots libraries graph [] [] where
  stocked := by rwa [List.append_nil]
  packages_eq := by simp
  grows := Grows.refl _
  node_eq _ _ := rfl
  subgroups_eq _ := rfl
  fresh := by simp
  nodup := List.nodup_nil
  library := by simp
  mem_nodes := by simp
  in_package := by simp

theorem Stocks.listed {libraries' : Libraries} {new : List NodeId} {extra : List GroupId}
    (h : Stocks libraries graph roots libraries' after new extra) {n : NodeId} :
    after.Listed n ↔ graph.Listed n ∨ n ∈ new := by
  constructor
  · rintro ⟨g, hn⟩
    rcases h.mem_nodes.mp hn with hOld | ⟨hNew, _⟩
    · exact Or.inl ⟨g, hOld⟩
    · exact Or.inr hNew
  · rintro (hOld | hNew)
    · exact h.grows.listed hOld
    · obtain ⟨p, _, hParent⟩ := h.in_package n hNew
      exact ⟨p.2, h.mem_nodes.mpr (Or.inr ⟨hNew, hParent⟩)⟩

theorem Stocks.trans {libraries₁ libraries₂ libraries₃ : Libraries} {graph₁ graph₂ graph₃ : Graph}
    {new new' : List NodeId} {extra extra' : List GroupId}
    (hFirst : Stocks libraries₁ graph₁ roots libraries₂ graph₂ new extra)
    (hLast : Stocks libraries₂ graph₂ (roots ++ extra) libraries₃ graph₃ new' extra') :
    Stocks libraries₁ graph₁ roots libraries₃ graph₃ (new ++ new') (extra ++ extra') := by
  have hLt : ∀ n ∈ new, n.index < graph₂.nodes.size := fun n hn =>
    hFirst.stocked.sound.lt_of_listed (hFirst.listed.mpr (Or.inr hn))
  refine
    { stocked := by rw [← List.append_assoc]; exact hLast.stocked
      packages_eq := by rw [hLast.packages_eq, hFirst.packages_eq, List.append_assoc]
      grows := hFirst.grows.trans hLast.grows
      node_eq := ?_, subgroups_eq := ?_, fresh := ?_, nodup := ?_, library := ?_, mem_nodes := ?_
      in_package := ?_ }
  · intro n hn
    rw [hLast.node_eq n (Nat.lt_of_lt_of_le hn hFirst.grows.nodes_le), hFirst.node_eq n hn]
  · intro g
    rw [hLast.subgroups_eq, hFirst.subgroups_eq]
  · intro n hn
    rcases List.mem_append.mp hn with hn | hn
    · exact hFirst.fresh n hn
    · exact Nat.le_trans hFirst.grows.nodes_le (hLast.fresh n hn)
  · exact nodup_append_of_index hFirst.nodup hLast.nodup hLt hLast.fresh
  · intro n hn
    rcases List.mem_append.mp hn with hn | hn
    · rw [hLast.node_eq n (hLt n hn)]
      exact hFirst.library n hn
    · exact hLast.library n hn
  · intro g n
    rw [hLast.mem_nodes, hFirst.mem_nodes, List.mem_append, or_assoc]
    constructor
    · rintro (hOld | ⟨hn, hParent⟩ | ⟨hn, hParent⟩)
      · exact Or.inl hOld
      · exact Or.inr ⟨Or.inl hn, by rw [hLast.node_eq n (hLt n hn)]; exact hParent⟩
      · exact Or.inr ⟨Or.inr hn, hParent⟩
    · rintro (hOld | ⟨hn | hn, hParent⟩)
      · exact Or.inl hOld
      · exact Or.inr (Or.inl ⟨hn, by rwa [hLast.node_eq n (hLt n hn)] at hParent⟩)
      · exact Or.inr (Or.inr ⟨hn, hParent⟩)
  · intro n hn
    rcases List.mem_append.mp hn with hn | hn
    · obtain ⟨p, hp, hParent⟩ := hFirst.in_package n hn
      have hGroup : p.2 ∈ libraries₃.packages.map (·.2) := by
        rw [hLast.packages_eq]
        exact List.mem_append_left _ (List.mem_map_of_mem hp)
      obtain ⟨q, hq, hEq⟩ := List.mem_map.mp hGroup
      exact ⟨q, hq, by rw [hLast.node_eq n (hLt n hn), hParent, hEq]⟩
    · exact hLast.in_package n hn

theorem blank_packageGroup (name : String) : Graph.Group.Blank (packageGroup name) :=
  ⟨rfl, rfl, rfl, rfl, rfl, fun _ => rfl⟩

theorem isLibraryGroup_packageGroup (name : String) :
    isLibraryGroup (packageGroup name) = true := by
  unfold isLibraryGroup packageGroup
  split <;> rfl

/-- The signature and the package under which a call gets a library node: the call names the owner,
or the owner is a variable that holds a library object. -/
def Signs (graph : Graph) (call : Call) (signature package : String) : Prop :=
  signature? call = some (signature, package) ∨
    ∃ nodes, instanceSignature? graph nodes call = some (signature, package)

/-- The package is named by the first part of the signature, and the signature ends in the token of
the call. -/
theorem Signs.parts {call : Call} {signature package : String}
    (h : Signs graph call signature package) :
    Dotted.first signature = package ∧ ∃ owner, signature = Dotted.join [owner, call.token] := by
  rcases h with h | ⟨nodes, h⟩
  · obtain ⟨owner, _, hEq⟩ := Option.map_eq_some_iff.mp h
    cases hEq
    exact ⟨Dotted.first_join owner [call.token], owner, rfl⟩
  · unfold instanceSignature? at h
    obtain ⟨owner, _, h⟩ := Option.bind_eq_some_iff.mp h
    split at h
    · exact absurd h (by simp)
    · obtain ⟨binding, _, h⟩ := Option.bind_eq_some_iff.mp h
      obtain ⟨library, _, h⟩ := Option.bind_eq_some_iff.mp h
      cases h
      -- A first part has no parts of its own.
      refine ⟨?_, _, rfl⟩
      rw [Dotted.first_join]
      exact Dotted.first_of_not_dotted (Dotted.not_dotted_of_mem_parts (Dotted.first_mem_parts _))

/-- Library nodes are made for some of the calls, each under a signature that the table lacks. -/
inductive Fills (calls : List Call) : Libraries → Graph → Libraries → Graph → List NodeId → Prop
  | nothing {libraries : Libraries} {graph : Graph} :
      Fills calls libraries graph libraries graph []
  | node {libraries filled : Libraries} {graph after : Graph} {call : Call}
      {signature package : String} {new : List NodeId} :
      call ∈ calls → Signs graph call signature package → libraries.node? signature = none →
      Fills calls (addNode graph libraries package signature call).2.1
        (addNode graph libraries package signature call).1 filled after new →
      Fills calls libraries graph filled after
        ((addNode graph libraries package signature call).2.2 :: new)

theorem Fills.trans {calls : List Call} {filled last : Libraries} {middle after : Graph}
    {new others : List NodeId} (hFirst : Fills calls libraries graph filled middle new)
    (hLast : Fills calls filled middle last after others) :
    Fills calls libraries graph last after (new ++ others) := by
  induction hFirst with
  | nothing => exact hLast
  | node hCall hSigns hNone _ ih => exact .node hCall hSigns hNone (ih hLast)

theorem fills_ofCalls {calls some : List Call} (h : some ⊆ calls) :
    Fills calls libraries graph (ofCalls graph libraries some).2.1 (ofCalls graph libraries some).1
      (ofCalls graph libraries some).2.2 := by
  induction some generalizing graph libraries with
  | nil => exact .nothing
  | cons call rest ih =>
      obtain ⟨hCall, hRest⟩ := List.cons_subset.mp h
      rw [ofCalls]
      split
      · exact ih hRest
      · rename_i signature package hSignature
        split
        · exact ih hRest
        · rename_i hNew
          exact .node hCall (Or.inl hSignature) (by simpa using hNew) (ih hRest)

theorem fills_ofInstances (nodes : List NodeId) {calls some : List Call} (h : some ⊆ calls) :
    Fills calls libraries graph (ofInstances nodes graph libraries some).2.1
      (ofInstances nodes graph libraries some).1
      ((ofInstances nodes graph libraries some).2.2.map (·.2)) := by
  induction some generalizing graph libraries with
  | nil => exact .nothing
  | cons call rest ih =>
      obtain ⟨hCall, hRest⟩ := List.cons_subset.mp h
      rw [ofInstances]
      split
      · exact ih hRest
      · rename_i signature package hSignature
        split
        · exact ih hRest
        · rename_i hNew
          exact .node hCall (Or.inr ⟨nodes, hSignature⟩) (by simpa using hNew) (ih hRest)

theorem package?_ensurePackage (graph : Graph) (libraries : Libraries) (name : String) :
    (ensurePackage graph libraries name).2.1.package? name =
      some (ensurePackage graph libraries name).2.2 := by
  unfold ensurePackage
  split
  · rename_i package hFound
    exact hFound
  · rename_i hNone
    rw [package?, List.lookup_append]
    simp [show libraries.packages.lookup name = none from hNone]

/-- A package is added under its own name only. -/
theorem mem_packages_ensurePackage (graph : Graph) (libraries : Libraries) (name : String) :
    ∀ p ∈ (ensurePackage graph libraries name).2.1.packages,
      p ∈ libraries.packages ∨ p.1 = name := by
  unfold ensurePackage
  split
  · exact fun p hp => Or.inl hp
  · intro p hp
    rcases List.mem_append.mp hp with hp | hp
    · exact Or.inl hp
    · rw [List.mem_singleton.mp hp]
      exact Or.inr rfl

theorem nodes_of_ensurePackage (graph : Graph) (libraries : Libraries) (name : String) :
    (ensurePackage graph libraries name).2.1.nodes = libraries.nodes := by
  unfold ensurePackage
  split <;> rfl

theorem nodes_ensurePackage (graph : Graph) (libraries : Libraries) (name : String) :
    (ensurePackage graph libraries name).1.nodes = graph.nodes := by
  unfold ensurePackage
  split <;> rfl

/-- Adding a package at the top. -/
theorem Stocked.addPackage (h : libraries.Stocked graph roots) (name : String) :
    Stocked { libraries with packages := libraries.packages ++ [(name, ⟨graph.groups.size⟩)] }
      (graph.addGroup (packageGroup name)).1 (roots ++ [⟨graph.groups.size⟩]) := by
  have hBlank := blank_packageGroup name
  have hOld : ∀ p ∈ libraries.packages, (graph.addGroup (packageGroup name)).1.group p.2 =
      graph.group p.2 := fun p hp => group_addGroup_old _ (h.package_lt p hp)
  refine
    { sound := h.sound.addGroup hBlank, rooted := h.rooted.addGroup rfl
      covered := h.covered.addGroup rfl
      package_lt := ?_, package_library := ?_, package_named := ?_, library_package := ?_
      node_listed := fun e he => (grows_addGroup hBlank).listed (h.node_listed e he)
      node_library := h.node_library, node_signature := h.node_signature
      node_housed := fun e he => by
        obtain ⟨hPlain, p, hp, hParent⟩ := h.node_housed e he
        exact ⟨hPlain, p, List.mem_append_left _ hp, hParent⟩ }
  · intro p hp
    rcases List.mem_append.mp hp with hp | hp
    · exact Nat.lt_of_lt_of_le (h.package_lt p hp) (by simp)
    · rw [List.mem_singleton.mp hp]
      simp
  · intro p hp
    rcases List.mem_append.mp hp with hp | hp
    · rw [hOld p hp]
      exact h.package_library p hp
    · rw [List.mem_singleton.mp hp, group_addGroup_new]
      exact isLibraryGroup_packageGroup name
  · intro p hp
    rcases List.mem_append.mp hp with hp | hp
    · rw [hOld p hp]
      exact h.package_named p hp
    · rw [List.mem_singleton.mp hp, group_addGroup_new]
      exact ⟨rfl, rfl⟩
  · intro g hg
    rw [group_addGroup] at hg
    split at hg
    · rename_i hNew
      exact ⟨(name, ⟨graph.groups.size⟩), List.mem_append_right _ List.mem_cons_self,
        (groupId_ext hNew).symm⟩
    · obtain ⟨p, hp, hEq⟩ := h.library_package hg
      exact ⟨p, List.mem_append_left _ hp, hEq⟩

/-- Finding a package, or adding it at the top. -/
theorem stocks_ensurePackage (h : libraries.Stocked graph roots) (name : String) :
    ∃ extra, Stocks libraries graph roots (ensurePackage graph libraries name).2.1
      (ensurePackage graph libraries name).1 [] extra ∧
      (extra = [] ∨ extra = [(ensurePackage graph libraries name).2.2]) := by
  unfold ensurePackage
  split
  · exact ⟨[], Stocks.refl h, Or.inl rfl⟩
  · have hBlank := blank_packageGroup name
    refine ⟨[⟨graph.groups.size⟩], ?_, Or.inr rfl⟩
    refine
      { stocked := h.addPackage name
        packages_eq := by simp
        grows := grows_addGroup hBlank, node_eq := fun _ _ => rfl
        subgroups_eq := subgroups_of_addGroup hBlank.subgroups_nil, fresh := by simp
        nodup := List.nodup_nil, library := by simp, mem_nodes := ?_, in_package := by simp }
    intro g n
    rw [nodes_of_addGroup hBlank.nodes_nil]
    simp

/-- In a package that is there, only the node is added. -/
theorem addNode_of_package? {name : String} {package : GroupId}
    (h : libraries.package? name = some package) (graph : Graph) (signature : String)
    (call : Call) :
    addNode graph libraries name signature call =
      ((graph.insertNode (libraryNode package signature call)).1,
        { libraries with nodes := libraries.nodes ++
          [(signature, (graph.insertNode (libraryNode package signature call)).2)] },
        (graph.insertNode (libraryNode package signature call)).2) := by
  simp only [addNode, ensurePackage, h]

/-- Putting a library node into a package of the table. -/
theorem stocks_insertNode (h : libraries.Stocked graph roots) {name : String} {package : GroupId}
    (hPackage : (name, package) ∈ libraries.packages) (signature : String) (call : Call)
    (hSignature : ∃ owner, signature = Dotted.join [owner, call.token]) :
    Stocks libraries graph roots
      { libraries with nodes := libraries.nodes ++
        [(signature, (graph.insertNode (libraryNode package signature call)).2)] }
      (graph.insertNode (libraryNode package signature call)).1 [⟨graph.nodes.size⟩] [] := by
  have hParent : (libraryNode package signature call).parent = .group package := rfl
  have hp := h.package_lt (name, package) hPackage
  have hNode : graph.Insertable package (libraryNode package signature call) :=
    ⟨hParent, rfl, rfl, rfl, fun hMissing => absurd hMissing Bool.false_ne_true, fun _ => rfl,
      fun hRoot => by
        obtain ⟨r, hr⟩ := Option.isSome_iff_exists.mp hRoot
        have hKind := h.sound.library_kind (h.package_library _ hPackage)
        exact absurd (h.sound.root_spec hr).1 (by rw [hKind]; simp)⟩
  have hInserted := h.insertNode hNode
  have hNew := graph.node_insertNode_new (libraryNode package signature call)
  refine
    { stocked := ?_, packages_eq := by simp, grows := grows_insertNode hNode
      node_eq := fun n hn => node_insertNode_of_lt _ hn
      subgroups_eq := subgroups_insertNode hParent
      fresh := ?_, nodup := List.nodup_singleton _, library := ?_, mem_nodes := ?_
      in_package := ?_ }
  · rw [List.append_nil, index_insertNode]
    refine ⟨hInserted.sound, hInserted.rooted, hInserted.covered, hInserted.package_lt,
      hInserted.package_library, hInserted.package_named, hInserted.library_package, ?_, ?_, ?_, ?_⟩
    · intro e he
      rcases List.mem_append.mp he with he | he
      · exact hInserted.node_listed e he
      · rw [List.mem_singleton.mp he, listed_insertNode hParent hp]
        exact Or.inr rfl
    · intro e he
      rcases List.mem_append.mp he with he | he
      · exact hInserted.node_library e he
      · rw [List.mem_singleton.mp he, hNew]
        rfl
    · intro e he
      rcases List.mem_append.mp he with he | he
      · exact hInserted.node_signature e he
      · rw [List.mem_singleton.mp he, hNew]
        exact ⟨List.mem_cons_self, hSignature⟩
    · intro e he
      rcases List.mem_append.mp he with he | he
      · exact hInserted.node_housed e he
      · rw [List.mem_singleton.mp he, hNew]
        exact ⟨rfl, _, hPackage, rfl⟩
  · intro n hn
    rw [List.mem_singleton.mp hn]
  · intro n hn
    rw [List.mem_singleton.mp hn, hNew]
    exact ⟨rfl, rfl, rfl⟩
  · intro g n
    rw [mem_nodes_insertNode hParent, List.mem_singleton]
    constructor
    · rintro (hOld | ⟨⟨rfl, _⟩, rfl⟩)
      · exact Or.inl hOld
      · exact Or.inr ⟨rfl, by rw [hNew]; rfl⟩
    · rintro (hOld | ⟨rfl, hGroup⟩)
      · exact Or.inl hOld
      · rw [hNew] at hGroup
        cases hGroup
        exact Or.inr ⟨⟨rfl, hp⟩, rfl⟩
  · intro n hn
    rw [List.mem_singleton.mp hn, hNew]
    exact ⟨_, hPackage, rfl⟩

/-- Making one library node. -/
theorem stocks_addNode (h : libraries.Stocked graph roots) (package : String) {signature : String}
    {call : Call} (hSignature : ∃ owner, signature = Dotted.join [owner, call.token]) :
    ∃ extra, Stocks libraries graph roots (addNode graph libraries package signature call).2.1
      (addNode graph libraries package signature call).1 [⟨graph.nodes.size⟩] extra ∧
      (addNode graph libraries package signature call).2.2 = ⟨graph.nodes.size⟩ := by
  obtain ⟨extra, hFound, _⟩ := stocks_ensurePackage h package
  have hNodes := nodes_ensurePackage graph libraries package
  have hAdded := stocks_insertNode hFound.stocked
    (mem_of_lookup (package?_ensurePackage graph libraries package)) signature call hSignature
  rw [hNodes] at hAdded
  have hBoth := hFound.trans hAdded
  rw [List.nil_append, List.append_nil] at hBoth
  exact ⟨extra, hBoth, by rw [← hNodes]; exact index_insertNode _⟩

theorem Fills.stocks {calls : List Call} {filled : Libraries} {after : Graph} {new : List NodeId}
    (h : Fills calls libraries graph filled after new) (hStocked : libraries.Stocked graph roots) :
    ∃ extra, Stocks libraries graph roots filled after new extra := by
  induction h generalizing roots with
  | nothing => exact ⟨[], Stocks.refl hStocked⟩
  | @node _ _ _ _ _ _ package _ _ hSigns _ _ ih =>
      obtain ⟨extra, hAdded, hNew⟩ := stocks_addNode hStocked package hSigns.parts.2
      obtain ⟨extra', hRest⟩ := ih hAdded.stocked
      rw [hNew]
      exact ⟨extra ++ extra', hAdded.trans hRest⟩

/-! ## Hanging packages -/

theorem blank_builtinFile : Graph.Group.Blank builtinFile :=
  ⟨rfl, rfl, rfl, rfl, rfl, fun hLibrary => absurd hLibrary (by decide)⟩

/-- What hanging packages does: the roots change, and nothing that is listed. -/
structure Hung (libraries : Libraries) (graph after : Graph) (roots : List GroupId) : Prop where
  stocked : libraries.Stocked after roots
  grows : graph.Grows after
  nodes_eq : after.nodes = graph.nodes
  nodes_of_group : ∀ g, (after.group g).nodes = (graph.group g).nodes

theorem Hung.trans {middle : Graph} {roots' : List GroupId}
    (hFirst : Hung libraries graph middle roots') (hLast : Hung libraries middle after roots) :
    Hung libraries graph after roots where
  stocked := hLast.stocked
  grows := hFirst.grows.trans hLast.grows
  nodes_eq := hLast.nodes_eq.trans hFirst.nodes_eq
  nodes_of_group g := (hLast.nodes_of_group g).trans (hFirst.nodes_of_group g)

/-- A package at the top is hung below a file that is another root. -/
theorem Stocked.hang {package : GroupId} {rest : List GroupId}
    (h : libraries.Stocked graph (package :: rest)) {file : GroupId} (hFile : file ∈ rest)
    (hKind : (graph.group file).kind = .file)
    (hPackage : isLibraryGroup (graph.group package) = true) :
    Hung libraries graph (hang graph file package) rest := by
  have hFileLt := h.rooted.lt file (List.mem_cons_of_mem _ hFile)
  have hLt := h.rooted.lt package List.mem_cons_self
  have hne : file ≠ package := by
    rintro rfl
    exact absurd ((h.sound.library_kind hPackage).symm.trans hKind) (by simp)
  have hGrows := grows_hang hFileLt hLt hne hPackage
  have hSound := h.sound.hang hFileLt hLt hne hKind (h.rooted.no_parent package List.mem_cons_self)
    hPackage
  refine ⟨?_, hGrows, rfl, nodes_of_hang hFileLt hLt hne⟩
  exact h.of_grows hGrows hSound (h.rooted.hang (List.Perm.refl _) hFileLt hne)
    (h.covered.hang h.rooted (List.Perm.refl _) hFileLt hne ⟨file, hFile, Below.refl file⟩)
    fun _ hg => not_library_of_le (by rwa [groups_size_hang])

/-- A package at the top is hung below a file made for it. -/
theorem Stocked.hangNew {package : GroupId} {rest : List GroupId}
    (h : libraries.Stocked graph (package :: rest))
    (hPackage : isLibraryGroup (graph.group package) = true) :
    Hung libraries graph
      (Libraries.hang (graph.addGroup builtinFile).1 ⟨graph.groups.size⟩ package)
      (rest ++ [⟨graph.groups.size⟩]) ∧
    ((Libraries.hang (graph.addGroup builtinFile).1 ⟨graph.groups.size⟩ package).group
      ⟨graph.groups.size⟩).kind = .file := by
  have hAdded : libraries.Stocked (graph.addGroup builtinFile).1
      (package :: (rest ++ [⟨graph.groups.size⟩])) := h.addGroup blank_builtinFile rfl
  have hLt := h.rooted.lt package List.mem_cons_self
  have hKind : ((graph.addGroup builtinFile).1.group ⟨graph.groups.size⟩).kind = .file := by
    rw [group_addGroup_new]
    rfl
  have hHung := hAdded.hang (List.mem_append_right _ List.mem_cons_self) hKind
    (by rw [group_addGroup_old _ hLt]; exact hPackage)
  refine ⟨⟨hHung.stocked, (grows_addGroup blank_builtinFile).trans hHung.grows, hHung.nodes_eq,
    fun g => ?_⟩, ?_⟩
  · rw [hHung.nodes_of_group, nodes_of_addGroup rfl]
  · rw [hHung.grows.group_field Group.kind (by simp)]
    exact hKind

theorem hangAll_spec {pending : List (String × GroupId)} {files : List GroupId}
    (h : libraries.Stocked graph (files ++ pending.map (·.2)))
    (hKind : ∀ f ∈ files, (graph.group f).kind = .file)
    (hPackage : ∀ p ∈ pending, isLibraryGroup (graph.group p.2) = true)
    (hFiles : pending ≠ [] → files ≠ []) :
    Hung libraries graph (hangAll graph files pending).1 (hangAll graph files pending).2 ∧
      (∀ f ∈ (hangAll graph files pending).2,
        ((hangAll graph files pending).1.group f).kind = .file) ∧
      files <+: (hangAll graph files pending).2 := by
  induction pending generalizing graph files with
  | nil =>
      rw [List.map_nil, List.append_nil] at h
      rw [hangAll]
      exact ⟨⟨h, Grows.refl _, rfl, fun _ => rfl⟩, hKind, List.prefix_rfl⟩
  | cons entry rest ih =>
      obtain ⟨name, package⟩ := entry
      have hLibrary := hPackage (name, package) List.mem_cons_self
      have hTop : libraries.Stocked graph (package :: (files ++ rest.map (·.2))) :=
        h.perm List.perm_middle
      -- Whichever file the package is hung below, the others find what they need unchanged.
      have hStep : ∀ {next : Graph} {files' : List GroupId},
          Hung libraries graph next (files' ++ rest.map (·.2)) →
          (∀ f ∈ files', (next.group f).kind = .file) → files <+: files' → files' ≠ [] →
          Hung libraries graph (hangAll next files' rest).1 (hangAll next files' rest).2 ∧
            (∀ f ∈ (hangAll next files' rest).2,
              ((hangAll next files' rest).1.group f).kind = .file) ∧
            files <+: (hangAll next files' rest).2 := by
        intro next files' hNext hKind' hPrefix hne
        obtain ⟨hHung, hKinds, hPrefix'⟩ := ih hNext.stocked hKind' (fun p hp => by
          rw [hNext.grows.group_field isLibraryGroup (h.rooted.lt p.2 (by
            simp only [List.map_cons, List.mem_append, List.mem_cons]
            exact Or.inr (Or.inr (List.mem_map_of_mem hp))))]
          exact hPackage p (List.mem_cons_of_mem _ hp)) fun _ => hne
        exact ⟨hNext.trans hHung, hKinds, hPrefix.trans hPrefix'⟩
      have hLt : ∀ f ∈ files, f.index < graph.groups.size := fun f hf =>
        h.rooted.lt f (List.mem_append_left _ hf)
      rw [hangAll.eq_def]
      dsimp only
      split
      · obtain ⟨hNext, hNewKind⟩ := hTop.hangNew hLibrary
        refine hStep ⟨hNext.stocked.perm ?_, hNext.grows, hNext.nodes_eq, hNext.nodes_of_group⟩ ?_
          (List.prefix_append _ _) (by simp)
        · rw [List.append_assoc, List.append_assoc]
          exact List.Perm.append_left _ List.perm_append_comm
        · intro f hf
          rcases List.mem_append.mp hf with hf | hf
          · rw [index_addGroup, hNext.grows.group_field Group.kind (hLt f hf)]
            exact hKind f hf
          · rw [List.mem_singleton.mp hf]
            exact hNewKind
      · split
        · exact absurd rfl (hFiles (List.cons_ne_nil _ _))
        · rename_i first others
          have hNext := hTop.hang (List.mem_append_left _ List.mem_cons_self)
            (hKind first List.mem_cons_self) hLibrary
          refine hStep hNext (fun f hf => ?_) List.prefix_rfl (List.cons_ne_nil _ _)
          rw [hNext.grows.group_field Group.kind (hLt f hf)]
          exact hKind f hf

end Libraries

end CallGraph
