import CallGraph.Graph.Load
import CallGraph.Proofs.Building

/-!
# Loading outlines

Loading puts every function, class and import of the outlines into the graph. The result is a
forest whose roots are the files, and its entries are made in five ways only: as the root of a
file, as a function, as an import, as a file or as a class. So a property of nodes and a property
of groups that these five have is a property of everything loaded (`loading_loaded`); which
properties are wanted is left open here, since some depend on what the outlines say.

## Main definitions

* `ClassOutline.Every` — a property of all functions and classes inside a class.
* `Graph.Loading` — what holds while outlines are loaded.

## Main results

* `loading_loaded` — what holds after loading.
-/

namespace CallGraph

mutual

/-- All functions in a class, and all classes in it and the class itself, have some properties. -/
def ClassOutline.Every (onFunction : FunctionOutline → Prop) (onClass : ClassOutline → Prop) :
    ClassOutline → Prop
  | .mk token line bases functions classes =>
      onClass (.mk token line bases functions classes) ∧ (∀ f ∈ functions, onFunction f) ∧
        ClassOutline.EveryOf onFunction onClass classes

/-- All functions in some classes, and all classes in them and the classes themselves, have some
properties. -/
def ClassOutline.EveryOf (onFunction : FunctionOutline → Prop) (onClass : ClassOutline → Prop) :
    List ClassOutline → Prop
  | [] => True
  | definition :: rest =>
      ClassOutline.Every onFunction onClass definition ∧
        ClassOutline.EveryOf onFunction onClass rest

end

theorem ClassOutline.everyOf_of_forall {onFunction : FunctionOutline → Prop}
    {onClass : ClassOutline → Prop} {classes : List ClassOutline}
    (h : ∀ c ∈ classes, c.Every onFunction onClass) :
    ClassOutline.EveryOf onFunction onClass classes := by
  induction classes with
  | nil => trivial
  | cons c rest ih =>
      exact ⟨h c List.mem_cons_self, ih fun d hd => h d (List.mem_cons_of_mem _ hd)⟩

mutual

/-- What all functions and classes have, those inside a class have. -/
theorem ClassOutline.every_of_all {onFunction : FunctionOutline → Prop}
    {onClass : ClassOutline → Prop} (hFunction : ∀ f, onFunction f) (hClass : ∀ c, onClass c)
    (c : ClassOutline) : c.Every onFunction onClass := by
  match c with
  | .mk token line bases functions classes =>
      exact ⟨hClass _, fun f _ => hFunction f,
        ClassOutline.everyOf_of_all hFunction hClass classes⟩

theorem ClassOutline.everyOf_of_all {onFunction : FunctionOutline → Prop}
    {onClass : ClassOutline → Prop} (hFunction : ∀ f, onFunction f) (hClass : ∀ c, onClass c)
    (classes : List ClassOutline) : ClassOutline.EveryOf onFunction onClass classes := by
  match classes with
  | [] => trivial
  | c :: rest =>
      exact ⟨ClassOutline.every_of_all hFunction hClass c,
        ClassOutline.everyOf_of_all hFunction hClass rest⟩

end

mutual

/-- A property of functions and of classes that follows from others. -/
theorem ClassOutline.Every.imp {onFunction onFunction' : FunctionOutline → Prop}
    {onClass onClass' : ClassOutline → Prop} (hFunction : ∀ f, onFunction f → onFunction' f)
    (hClass : ∀ c, onClass c → onClass' c) (c : ClassOutline) (h : c.Every onFunction onClass) :
    c.Every onFunction' onClass' := by
  match c, h with
  | .mk token line bases functions classes, ⟨hSelf, hFunctions, hClasses⟩ =>
      have hInner := ClassOutline.EveryOf.imp hFunction hClass classes hClasses
      exact ⟨hClass _ hSelf, fun f hf => hFunction f (hFunctions f hf), hInner⟩

theorem ClassOutline.EveryOf.imp {onFunction onFunction' : FunctionOutline → Prop}
    {onClass onClass' : ClassOutline → Prop} (hFunction : ∀ f, onFunction f → onFunction' f)
    (hClass : ∀ c, onClass c → onClass' c) (classes : List ClassOutline)
    (h : ClassOutline.EveryOf onFunction onClass classes) :
    ClassOutline.EveryOf onFunction' onClass' classes := by
  match classes, h with
  | [], _ => trivial
  | c :: rest, ⟨hFirst, hRest⟩ =>
      exact ⟨ClassOutline.Every.imp hFunction hClass c hFirst,
        ClassOutline.EveryOf.imp hFunction hClass rest hRest⟩

end

namespace Graph

/-- The properties of nodes and groups that loading is to establish. -/
structure Properties where
  node : Node → Prop
  group : Group → Prop
  /-- The serial number does not matter. -/
  node_serial : ∀ {entry : Node} (serial : Nat), node entry → node { entry with serial := serial }
  /-- What a group contains and where it stands does not matter. -/
  group_contents : ∀ {entry : Group} (parent : Option GroupId) (nodes : List NodeId)
    (root : Option NodeId) (subgroups : List GroupId) (serial : Nat), group entry →
    group { entry with
      parent := parent, nodes := nodes, root := root, subgroups := subgroups, serial := serial }

variable {want : Properties} {graph : Graph} {roots : List GroupId}

/-- What holds while outlines are loaded. -/
structure Loading (want : Properties) (graph : Graph) (roots : List GroupId) : Prop
    extends WellFormed graph where
  rooted : graph.Roots roots
  covered : graph.Covered roots
  file_kind : ∀ r ∈ roots, (graph.group r).kind = .file
  /-- Classes are all that lies inside something. -/
  inner_class : ∀ {g s}, s ∈ (graph.group g).subgroups → (graph.group s).kind = .classBody
  node_want : ∀ n : NodeId, n.index < graph.nodes.size → want.node (graph.node n)
  group_want : ∀ g : GroupId, g.index < graph.groups.size → want.group (graph.group g)
  /-- Only files have root nodes, which have a body and are no functions. -/
  root_spec : ∀ {g r}, (graph.group g).root = some r → (graph.group g).kind = .file ∧
    (graph.node r).bindings.isSome ∧ (graph.node r).signature = none

/-- The wanted properties of a class and of what it contains. -/
def Properties.OfClass (want : Properties) (definition : ClassOutline) : Prop :=
  definition.Every (fun f => ∀ g token, want.node (functionNode true g token f))
    (fun c => ∀ token, want.group (classGroup token c))

/-- The wanted properties of a file and of what it contains. -/
structure Properties.OfFile (want : Properties) (file : FileOutline) : Prop where
  group : want.group (fileGroup file)
  root : ∀ g, want.node (rootNode g file)
  functions : ∀ f ∈ file.functions, ∀ g token, want.node (functionNode false g token f)
  classes : ∀ c ∈ file.classes, want.OfClass c
  imports : ∀ i ∈ file.imports, ∀ g token, want.node (importNode g token i)

theorem empty_loading (want : Properties) : Loading want Graph.empty [] := by
  have hNode : ∀ n, Graph.empty.node n = default := fun n => node_eq_default _ (Nat.zero_le _)
  have hGroup : ∀ g, Graph.empty.group g = default := fun g => group_eq_default _ (Nat.zero_le _)
  refine
    { parent_of_listed := ?_, listed_lt := ?_, nodes_nodup := ?_, parent_of_subgroup := ?_
      subgroup_lt := ?_, subgroups_nodup := ?_, acyclic := ⟨fun _ => 0, ?_⟩
      rooted := ⟨List.nodup_nil, by simp, by simp⟩, covered := ?_, file_kind := by simp
      inner_class := ?_
      node_want := ?_, group_want := ?_, root_spec := ?_ }
  · intro g n hn
    rw [hGroup] at hn
    exact absurd hn List.not_mem_nil
  · intro g n hn
    rw [hGroup] at hn
    exact absurd hn List.not_mem_nil
  · intro g
    rw [hGroup]
    exact List.nodup_nil
  · intro g s hs
    rw [hGroup] at hs
    exact absurd hs List.not_mem_nil
  · intro g s hs
    rw [hGroup] at hs
    exact absurd hs List.not_mem_nil
  · intro g
    rw [hGroup]
    exact List.nodup_nil
  · intro g s hs
    rw [hGroup] at hs
    exact absurd hs List.not_mem_nil
  · intro g hg
    exact absurd hg (Nat.not_lt_zero _)
  · intro g s hs
    rw [hGroup] at hs
    exact absurd hs List.not_mem_nil
  · intro n hn
    exact absurd hn (Nat.not_lt_zero _)
  · intro g hg
    exact absurd hg (Nat.not_lt_zero _)
  · intro g r hr
    rw [hGroup] at hr
    exact absurd hr (by simp [default, instInhabitedGroup.default])

/-! ## One entry -/

theorem Loading.insertNode (h : Loading want graph roots) {node : Node} {p : GroupId}
    (hParent : node.parent = .group p) (hNode : want.node node) :
    Loading want (graph.insertNode node).1 roots := by
  refine { h.toWellFormed.insertNode hParent with
    rooted := h.rooted.insertNode hParent, covered := h.covered.insertNode hParent
    file_kind := ?_, inner_class := ?_, node_want := ?_, group_want := ?_, root_spec := ?_ }
  · intro r hr
    rw [group_field_insertNode hParent Group.kind]
    exact h.file_kind r hr
  · intro g s hs
    rw [subgroups_insertNode hParent] at hs
    rw [group_field_insertNode hParent Group.kind]
    exact h.inner_class hs
  · intro n hn
    rw [nodes_size_insertNode] at hn
    rw [node_insertNode]
    split
    · exact want.node_serial _ hNode
    · exact h.node_want n (by omega)
  · intro g hg
    rw [groups_size_insertNode] at hg
    rw [group_insertNode hParent]
    split
    · rename_i hp
      exact want.group_contents (graph.group p).parent _ (graph.group p).root
        (graph.group p).subgroups (graph.group p).serial (h.group_want p hp.2)
    · exact h.group_want g hg
  · intro g r hr
    rw [group_field_insertNode hParent Group.root] at hr
    have hRoot := h.root_spec hr
    obtain ⟨bindings, hBindings⟩ := Option.isSome_iff_exists.mp hRoot.2.1
    rw [node_insertNode_of_lt node (graph.node_lt_of_bindings hBindings),
      group_field_insertNode hParent Group.kind]
    exact hRoot

theorem Loading.insertNodes (h : Loading want graph roots) (nodes : List Node) {p : GroupId}
    (hNodes : ∀ node ∈ nodes, node.parent = .group p ∧ want.node node) :
    Loading want (graph.insertNodes nodes) roots ∧
      (graph.insertNodes nodes).groups.size = graph.groups.size := by
  induction nodes generalizing graph with
  | nil => exact ⟨h, rfl⟩
  | cons node rest ih =>
      have hFirst := hNodes node List.mem_cons_self
      have hRest := ih (h.insertNode hFirst.1 hFirst.2)
        fun other hOther => hNodes other (List.mem_cons_of_mem _ hOther)
      exact ⟨hRest.1, hRest.2.trans (groups_size_insertNode node)⟩

theorem Loading.addFile (h : Loading want graph roots) (file : FileOutline)
    (hFile : want.group (fileGroup file)) :
    Loading want (graph.addGroup (fileGroup file)).1 (roots ++ [⟨graph.groups.size⟩]) := by
  refine { h.toWellFormed.addGroup rfl rfl with
    rooted := h.rooted.addGroup rfl, covered := h.covered.addGroup rfl
    file_kind := ?_, inner_class := ?_, node_want := h.node_want, group_want := ?_
    root_spec := ?_ }
  · intro r hr
    rcases List.mem_append.mp hr with hOld | hNew
    · rw [group_addGroup_old _ (h.rooted.lt r hOld)]
      exact h.file_kind r hOld
    · rw [List.mem_singleton.mp hNew, group_addGroup_new]
      rfl
  · intro g s hs
    rw [subgroups_of_addGroup rfl] at hs
    rw [group_addGroup_old _ (h.subgroup_lt hs)]
    exact h.inner_class hs
  · intro g hg
    rw [groups_size_addGroup] at hg
    rw [group_addGroup]
    split
    · exact want.group_contents none [] none [] graph.size hFile
    · exact h.group_want g (by omega)
  · intro g r hr
    rw [group_addGroup] at hr ⊢
    split at hr
    · exact absurd hr (by simp [fileGroup])
    · rename_i hOld
      rw [if_neg hOld]
      exact h.root_spec hr

theorem Loading.setRoot (h : Loading want graph roots) {g : GroupId} {r : NodeId}
    (hKind : (graph.group g).kind = .file) (hBody : (graph.node r).bindings.isSome)
    (hSignature : (graph.node r).signature = none) :
    Loading want (graph.modifyGroup g fun entry => { entry with root := some r }) roots := by
  have hField : ∀ {α : Type} (field : Group → α),
      (∀ group root, field { group with root := root } = field group) → ∀ other,
      field ((graph.modifyGroup g fun entry => { entry with root := some r }).group other) =
        field (graph.group other) := by
    intro α field hField other
    rw [group_modifyGroup]
    split
    · rename_i hg
      rw [hField, hg.1]
    · rfl
  have hSubgroups := hField Group.subgroups (fun _ _ => rfl)
  have hParent := hField Group.parent (fun _ _ => rfl)
  have hForest : (graph.modifyGroup g fun entry => { entry with root := some r }).WellFormed :=
    h.toWellFormed.of_eq rfl (groups_size_modifyGroup ..) (fun _ => rfl) fun other =>
      ⟨hField Group.nodes (fun _ _ => rfl) other, hSubgroups other, hParent other⟩
  refine { hForest with
    rooted := h.rooted.of_eq (groups_size_modifyGroup ..) hParent
    covered := h.covered.of_eq (groups_size_modifyGroup ..) hSubgroups
    file_kind := ?_, inner_class := ?_, node_want := h.node_want, group_want := ?_
    root_spec := ?_ }
  · intro f hf
    rw [hField Group.kind (fun _ _ => rfl)]
    exact h.file_kind f hf
  · intro other s hs
    rw [hSubgroups] at hs
    rw [hField Group.kind (fun _ _ => rfl)]
    exact h.inner_class hs
  · intro other hOther
    rw [groups_size_modifyGroup] at hOther
    rw [group_modifyGroup]
    split
    · rename_i hg
      exact want.group_contents (graph.group g).parent (graph.group g).nodes (some r)
        (graph.group g).subgroups (graph.group g).serial (h.group_want g hg.2)
    · exact h.group_want other hOther
  · intro other root hRoot
    rw [hField Group.kind (fun _ _ => rfl)]
    rw [group_modifyGroup] at hRoot
    split at hRoot
    · rename_i hOther
      cases hRoot
      rw [hOther.1]
      exact ⟨hKind, hBody, hSignature⟩
    · exact h.root_spec hRoot

theorem Loading.insertSubgroup (h : Loading want graph roots) {parent : GroupId}
    (hParent : parent.index < graph.groups.size) (group : Group) (hNodes : group.nodes = [])
    (hSubgroups : group.subgroups = []) (hRoot : group.root = none) (hTop : group.parent = none)
    (hKind : group.kind = .classBody) (hGroup : want.group group) :
    Loading want (graph.insertSubgroup parent group).1 roots ∧
      (graph.insertSubgroup parent group).1.groups.size = graph.groups.size + 1 := by
  have hne : parent ≠ ⟨graph.groups.size⟩ := by
    rintro rfl
    exact Nat.lt_irrefl _ hParent
  have hOuter : parent.index < (graph.addGroup group).1.groups.size := by
    rw [groups_size_addGroup]
    omega
  have hInner : (⟨graph.groups.size⟩ : GroupId).index < (graph.addGroup group).1.groups.size := by
    simp
  have hPerm := List.perm_append_singleton (⟨graph.groups.size⟩ : GroupId) roots
  have hAdded := h.rooted.addGroup hTop
  obtain ⟨top, hTopMem, hTopBelow⟩ := h.covered parent hParent
  have hTopBelow' : (graph.addGroup group).1.Below top parent :=
    hTopBelow.mono fun a s hs => by rwa [subgroups_of_addGroup hSubgroups]
  rw [insertSubgroup_eq_hang hParent]
  have hForest := (h.toWellFormed.addGroup hNodes hSubgroups).hang hOuter hInner hne
    (by rw [group_addGroup_new]; exact hTop) (by rw [group_addGroup_new]; exact hSubgroups)
  refine ⟨{ hForest with
    rooted := hAdded.hang hPerm hOuter hne
    covered := (h.covered.addGroup hSubgroups).hang hAdded hPerm hOuter hne
      ⟨top, hTopMem, hTopBelow'⟩
    file_kind := ?_, inner_class := ?_, node_want := h.node_want, group_want := ?_
    root_spec := ?_ }, by simp⟩
  · intro r hr
    rw [group_field_hang hOuter hInner hne Group.kind, group_addGroup_old _ (h.rooted.lt r hr)]
    exact h.file_kind r hr
  · intro g s hs
    rw [group_field_hang hOuter hInner hne Group.kind]
    rcases (mem_subgroups_hang hOuter hInner hne).mp hs with hOld | ⟨_, rfl⟩
    · rw [subgroups_of_addGroup hSubgroups] at hOld
      rw [group_addGroup_old _ (h.subgroup_lt hOld)]
      exact h.inner_class hOld
    · rw [group_addGroup_new]
      exact hKind
  · intro g hg
    rw [groups_size_hang, groups_size_addGroup] at hg
    have hWant : want.group ((graph.addGroup group).1.group g) := by
      rw [group_addGroup]
      split
      · exact want.group_contents group.parent group.nodes group.root group.subgroups _ hGroup
      · exact h.group_want g (by omega)
    rw [group_hang hOuter hInner hne]
    split
    · rename_i hg
      exact hg ▸ want.group_contents (some parent) _ _ _ _ hWant
    · split
      · rename_i hg
        exact hg ▸ want.group_contents _ _ _ _ _ hWant
      · exact hWant
  · intro g r hr
    rw [group_field_hang hOuter hInner hne Group.root, group_addGroup] at hr
    rw [group_field_hang hOuter hInner hne Group.kind, group_addGroup]
    split at hr
    · exact absurd (hRoot.symm.trans hr) (by simp)
    · rename_i hOld
      rw [if_neg hOld]
      exact h.root_spec hr

/-! ## Classes and files -/

/-- The nodes that functions make are as wanted. -/
theorem node_want_of_functions {inClass : Bool} {functions : List FunctionOutline}
    (h : ∀ f ∈ functions, ∀ g token, want.node (functionNode inClass g token f)) (g : GroupId)
    (token : String) :
    ∀ node ∈ functions.map (functionNode inClass g token),
      node.parent = .group g ∧ want.node node := by
  intro node hNode
  obtain ⟨f, hf, rfl⟩ := List.mem_map.mp hNode
  exact ⟨rfl, h f hf _ _⟩

mutual

theorem Loading.insertClass {graph : Graph} (h : Loading want graph roots) {parent : GroupId}
    (hParent : parent.index < graph.groups.size) (token : String) (definition : ClassOutline)
    (hClass : want.OfClass definition) :
    Loading want (graph.insertClass parent token definition) roots ∧
      graph.groups.size ≤ (graph.insertClass parent token definition).groups.size := by
  match definition, hClass with
  | .mk name line bases functions classes, ⟨hGroup, hFunctions, hClasses⟩ =>
      have hAdded := h.insertSubgroup hParent
        (classGroup token (.mk name line bases functions classes)) rfl rfl rfl rfl rfl
        (hGroup token)
      have hNodes := hAdded.1.insertNodes _
        (node_want_of_functions hFunctions ⟨graph.groups.size⟩ name)
      have hInner := Loading.insertClasses hNodes.1 ⟨graph.groups.size⟩
        (by rw [hNodes.2, hAdded.2]; exact Nat.lt_succ_self _) name classes hClasses
      refine ⟨hInner.1, Nat.le_trans ?_ hInner.2⟩
      rw [hNodes.2, hAdded.2]
      exact Nat.le_succ _

theorem Loading.insertClasses {graph : Graph} (h : Loading want graph roots) (parent : GroupId)
    (hParent : parent.index < graph.groups.size) (token : String)
    (definitions : List ClassOutline)
    (hClasses : ClassOutline.EveryOf (fun f => ∀ g token, want.node (functionNode true g token f))
      (fun c => ∀ token, want.group (classGroup token c)) definitions) :
    Loading want (graph.insertClasses parent token definitions) roots ∧
      graph.groups.size ≤ (graph.insertClasses parent token definitions).groups.size := by
  match definitions, hClasses with
  | [], _ => exact ⟨h, Nat.le_refl _⟩
  | definition :: rest, ⟨hDefinition, hOthers⟩ =>
      have hFirst := Loading.insertClass h hParent token definition hDefinition
      have hRest := Loading.insertClasses hFirst.1 parent
        (Nat.lt_of_lt_of_le hParent hFirst.2) token rest hOthers
      exact ⟨hRest.1, Nat.le_trans hFirst.2 hRest.2⟩

end

theorem Loading.insertFile (h : Loading want graph roots) {file : FileOutline}
    (hFile : want.OfFile file) :
    Loading want (graph.insertFile file).1 (roots ++ [(graph.insertFile file).2]) := by
  have hAdded := h.addFile file hFile.group
  have hRooted := hAdded.insertNode rfl (hFile.root ⟨graph.groups.size⟩)
  have hRootNode : ((graph.addGroup (fileGroup file)).1.insertNode
      (rootNode ⟨graph.groups.size⟩ file)).1.node ⟨graph.nodes.size⟩ =
      { rootNode ⟨graph.groups.size⟩ file with
        serial := (graph.addGroup (fileGroup file)).1.size } := by
    rw [node_insertNode, if_pos (by simp)]
  have hMarked := hRooted.setRoot (g := ⟨graph.groups.size⟩) (r := ⟨graph.nodes.size⟩)
    (by rw [group_field_insertNode rfl Group.kind, group_addGroup_new]; rfl)
    (by rw [hRootNode]; rfl) (by rw [hRootNode]; rfl)
  have hFunctions := hMarked.insertNodes _
    (node_want_of_functions hFile.functions ⟨graph.groups.size⟩ file.token)
  have hClasses := hFunctions.1.insertClasses ⟨graph.groups.size⟩
    (by rw [hFunctions.2]; simp) file.token file.classes (ClassOutline.everyOf_of_forall hFile.classes)
  have hImports := hClasses.1.insertNodes
    (file.imports.map (importNode ⟨graph.groups.size⟩ file.token)) (p := ⟨graph.groups.size⟩) (by
      intro node hNode
      obtain ⟨i, hi, rfl⟩ := List.mem_map.mp hNode
      exact ⟨rfl, hFile.imports i hi _ _⟩)
  have hRoot : (graph.addGroup (fileGroup file)).1.insertNode (rootNode ⟨graph.groups.size⟩ file) =
      (((graph.addGroup (fileGroup file)).1.insertNode (rootNode ⟨graph.groups.size⟩ file)).1,
        ⟨graph.nodes.size⟩) := Prod.ext rfl (index_insertNode _)
  simp only [Graph.insertFile, index_addGroup]
  rw [hRoot]
  exact hImports.1

theorem insertFiles_loading (h : Loading want graph roots) {files : List FileOutline}
    (hFiles : ∀ file ∈ files, want.OfFile file) :
    Loading want (graph.insertFiles files).1 (roots ++ (graph.insertFiles files).2) := by
  induction files generalizing graph roots with
  | nil => simpa [insertFiles] using h
  | cons file rest ih =>
      have hFirst := h.insertFile (hFiles file List.mem_cons_self)
      have hRest := ih hFirst fun other hOther => hFiles other (List.mem_cons_of_mem _ hOther)
      simpa [insertFiles] using hRest

/-- What the files have, the loaded graph has. -/
theorem loading_loaded {files : List FileOutline} (hFiles : ∀ file ∈ files, want.OfFile file) :
    Loading want (loaded files).1 (loaded files).2 := by
  have hLoaded := insertFiles_loading (empty_loading want) hFiles
  rwa [List.nil_append] at hLoaded

end Graph

end CallGraph
