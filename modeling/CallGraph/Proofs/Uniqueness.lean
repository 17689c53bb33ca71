import CallGraph.Proofs.Contents
import CallGraph.Proofs.Keeping
import CallGraph.Proofs.Placing

/-!
# What is made is made once

Linking makes nodes of three kinds: library nodes, for calls that leave the sources; placeholders,
for calls that lead nowhere; and constructors that a class does not spell out. Library nodes are made
at three places: for calls that name a library, for calls on objects that a library made, and for the
functions that every program can call. One table keeps them by their signatures, another the packages
they stand in by their names, and a third the placeholders by the texts of calls.

## Main definitions

* `Libraries.Distinct` — the tables of library nodes and packages have no key twice, and they know
  everything that was made.
* `Linking.SharesMissing` — calls share a placeholder exactly if they read alike.
* `Graph.MadeOnce` — what was made was made once, said of the graph alone.

## Main results

* `Linking.kept_distinct` — no step of linking makes a library node twice.
* `CallMap.madeOnce_of_build` — every run makes every node once.
-/

namespace CallGraph

open Chart (isLibraryGroup)
open CallGraph.Graph

/-! ## Library nodes -/

namespace Libraries

variable {libraries : Libraries} {graph after : Graph} {roots : List GroupId} {size : Nat}

/-- The tables have no key twice, and say of every library node that was made, that is of all behind
the first `size` nodes, under which signature it can be imported and in which package it is. -/
structure Distinct (libraries : Libraries) (graph : Graph) (size : Nat) : Prop where
  names_nodup : (libraries.packages.map Prod.fst).Nodup
  signatures_nodup : (libraries.nodes.map Prod.fst).Nodup
  entry : ∀ e ∈ libraries.nodes, (graph.node e.2).importTokens = [e.1] ∧
    (graph.node e.2).isImplicit = false ∧
    ∃ g, (Dotted.first e.1, g) ∈ libraries.packages ∧ (graph.node e.2).parent = .group g
  known : ∀ n, graph.Listed n → (graph.node n).isLibrary = true → size ≤ n.index →
    ∃ signature, (signature, n) ∈ libraries.nodes

/-- A graph that grows without library nodes keeps its tables. -/
theorem Distinct.grows (h : libraries.Distinct graph size) (hStocked : libraries.Stocked graph roots)
    (hGrows : graph.Grows after)
    (hNew : ∀ n, after.Listed n → graph.Listed n ∨ (after.node n).isLibrary = false) :
    libraries.Distinct after size where
  names_nodup := h.names_nodup
  signatures_nodup := h.signatures_nodup
  entry e he := by
    have hLt := hStocked.sound.lt_of_listed (hStocked.node_listed e he)
    rw [hGrows.node_field Node.importTokens hLt, hGrows.node_field Node.isImplicit hLt,
      hGrows.node_field Node.parent hLt]
    exact h.entry e he
  known n hn hLibrary hSize := by
    rcases hNew n hn with hOld | hNot
    · rw [hGrows.node_field Node.isLibrary (hStocked.sound.lt_of_listed hOld)] at hLibrary
      exact h.known n hOld hLibrary hSize
    · rw [hNot] at hLibrary
      exact absurd hLibrary Bool.false_ne_true

theorem Distinct.ensurePackage (h : libraries.Distinct graph size) (name : String) :
    (Libraries.ensurePackage graph libraries name).2.1.Distinct
      (Libraries.ensurePackage graph libraries name).1 size := by
  unfold Libraries.ensurePackage
  split
  · exact h
  · rename_i hNone
    refine ⟨nodup_keys_append h.names_nodup (not_mem_keys_of_lookup hNone) _, h.signatures_nodup,
      fun e he => ?_, fun n hn => ?_⟩
    · obtain ⟨hTokens, hExplicit, g, hg, hParent⟩ := h.entry e he
      exact ⟨hTokens, hExplicit, g, List.mem_append_left _ hg, hParent⟩
    · exact h.known n ((listed_addGroup (blank_packageGroup name).nodes_nil).mp hn)

/-- Making a library node under a signature that the table does not know. -/
theorem Distinct.addNode (h : libraries.Distinct graph size)
    (hStocked : libraries.Stocked graph roots) {package signature : String} {call : Call}
    (hSignature : ∃ owner, signature = Dotted.join [owner, call.token])
    (hFirst : Dotted.first signature = package) (hNone : libraries.node? signature = none) :
    (Libraries.addNode graph libraries package signature call).2.1.Distinct
      (Libraries.addNode graph libraries package signature call).1 size := by
  obtain ⟨extra, hStocks, _⟩ := stocks_addNode hStocked package hSignature
  have hPackage := h.ensurePackage package
  have hMade : (Libraries.addNode graph libraries package signature call).1.node
      ⟨graph.nodes.size⟩ =
      { libraryNode (Libraries.ensurePackage graph libraries package).2.2 signature call with
        serial := (Libraries.ensurePackage graph libraries package).1.size } := by
    unfold Libraries.addNode
    dsimp only
    rw [node_insertNode, if_pos (by rw [nodes_ensurePackage])]
  refine ⟨hPackage.names_nodup, ?_, fun e he => ?_, fun n hn hLibrary hSize => ?_⟩
  · rw [nodes_of_addNode]
    exact nodup_keys_append h.signatures_nodup (not_mem_keys_of_lookup hNone) _
  · rw [nodes_of_addNode] at he
    rcases List.mem_append.mp he with hOld | hNew
    · rw [hStocks.node_eq e.2 (hStocked.sound.lt_of_listed (hStocked.node_listed e hOld))]
      obtain ⟨hTokens, hExplicit, g, hg, hParent⟩ := h.entry e hOld
      refine ⟨hTokens, hExplicit, g, ?_, hParent⟩
      change (_, g) ∈ (Libraries.ensurePackage graph libraries package).2.1.packages
      unfold Libraries.ensurePackage
      split
      · exact hg
      · exact List.mem_append_left _ hg
    · rw [List.mem_singleton.mp hNew, hMade, hFirst]
      exact ⟨rfl, rfl, _, mem_of_lookup (package?_ensurePackage graph libraries package), rfl⟩
  · rw [nodes_of_addNode]
    rcases hStocks.listed.mp hn with hOld | hNew
    · rw [hStocks.node_eq n (hStocked.sound.lt_of_listed hOld)] at hLibrary
      obtain ⟨known, hKnown⟩ := h.known n hOld hLibrary hSize
      exact ⟨known, List.mem_append_left _ hKnown⟩
    · rw [List.mem_singleton.mp hNew]
      exact ⟨signature, List.mem_append_right _ List.mem_cons_self⟩

theorem Fills.distinct {calls : List Call} {filled : Libraries} {after : Graph} {new : List NodeId}
    (h : Fills calls libraries graph filled after new) (hDistinct : libraries.Distinct graph size)
    (hStocked : libraries.Stocked graph roots) : filled.Distinct after size := by
  induction h generalizing roots with
  | nothing => exact hDistinct
  | @node _ _ _ _ _ _ package _ _ hSigns hNone _ ih =>
      obtain ⟨hFirst, hOwner⟩ := hSigns.parts
      obtain ⟨extra, hStocks, _⟩ := stocks_addNode hStocked package hOwner
      exact ih (hDistinct.addNode hStocked hOwner hFirst hNone) hStocks.stocked

end Libraries

namespace Linking

variable {state : Linking} {pending : List Link} {size : Nat}

/-- The node for a call that every program can make. -/
theorem Valid.distinct_builtinTarget (h : state.Valid [] pending)
    (hDistinct : state.libraries.Distinct state.graph size) (call : Call) :
    (state.builtinTarget call).1.libraries.Distinct (state.builtinTarget call).1.graph size := by
  have hStocked : state.libraries.Stocked state.graph (state.files ++ [state.missingGroup]) := by
    simpa using h.stocked
  obtain ⟨extra, hFound, _⟩ := Libraries.stocks_ensurePackage hStocked builtinModule
  have hPackage := hDistinct.ensurePackage builtinModule
  unfold Linking.builtinTarget
  dsimp only
  split
  · exact hPackage
  · rename_i hNone
    exact hPackage.addNode hFound.stocked ⟨builtinModule, rfl⟩
      ((Dotted.first_join builtinModule [call.token]).trans (by decide)) hNone

/-- Giving a call that was not resolved its target. -/
theorem Valid.distinct_fallback (h : state.Valid [] pending) (hFiles : state.files ≠ [])
    (hDistinct : state.libraries.Distinct state.graph size) (call : Call) :
    (state.fallback call).1.libraries.Distinct (state.fallback call).1.graph size := by
  unfold Linking.fallback
  split
  · obtain ⟨package, extra, hValid, _, hProgress, hPackage, hExtra⟩ := h.builtinTarget call
    obtain ⟨hHung, hHang⟩ := hValid.hangBuiltins hPackage hExtra (hProgress.files_ne hFiles)
    obtain ⟨_, hNodes, hLibraries⟩ := (state.builtinTarget call).1.libraries_hangBuiltins
    rw [hLibraries]
    -- Hanging the package lists no node that was not listed.
    apply (h.distinct_builtinTarget hDistinct call).grows hValid.stocked hHang.grows
    intro n hn
    have hCases := hValid.listed_of_progress hHung hHang (hNodes.trans (List.append_nil _).symm) hn
    exact Or.inl (hCases.resolve_right List.not_mem_nil)
  · unfold Linking.missingTarget
    split
    · exact hDistinct
    · have hNode := h.insertable_placeholder call.token
      apply hDistinct.grows h.stocked (grows_insertNode hNode)
      intro n hn
      rcases (listed_insertNode hNode.parent (h.stocked.rooted.lt state.missingGroup (by simp))).mp
        hn with hOld | rfl
      · exact Or.inl hOld
      · rw [node_insertNode_new]
        exact Or.inr rfl

/-- No step of linking makes a library node twice. -/
theorem kept_distinct (size : Nat) :
    Kept fun state => state.libraries.Distinct state.graph size where
  resolved {state new after} hValid hInvents h := by
    apply h.grows hValid.stocked (hInvents.grows hValid.sound)
    intro n hn
    rcases (hInvents.listed hValid.sound).mp hn with hOld | hNew
    · exact Or.inl hOld
    · obtain ⟨_, hInvented, _⟩ := hInvents.new_spec hValid.sound n hNew
      simp only [Node.isInvented, Bool.and_eq_true, Bool.not_eq_true'] at hInvented
      exact Or.inr hInvented.1.2
  noted link h := by
    unfold note
    split <;> exact h
  found call hValid hFiles h := hValid.distinct_fallback hFiles h call
  drawn {state pending} edge hValid h :=
    h.grows hValid.stocked (grows_markEdge edge) fun n hn =>
      Or.inl ((listed_draw state edge).mp hn)

end Linking

/-! ## Placeholders -/

theorem nodup_foldl_lack {table : List (String × String)} (h : (table.map Prod.fst).Nodup)
    (calls : List Call) : ((calls.foldl lack table).map Prod.fst).Nodup := by
  induction calls generalizing table with
  | nil => exact h
  | cons call rest ih =>
      apply ih
      unfold lack
      split
      · exact h
      · rename_i hNew
        exact nodup_keys_append h hNew _

/-- No text is in the table twice. -/
theorem nodup_lacking (calls : List Call) : ((lacking calls).map Prod.fst).Nodup :=
  @nodup_foldl_lack [] List.nodup_nil calls

theorem mem_foldl_lack {table : List (String × String)} {calls : List Call} {text : String} :
    text ∈ (calls.foldl lack table).map Prod.fst ↔
      text ∈ table.map Prod.fst ∨ ∃ call ∈ calls, call.text = text := by
  induction calls generalizing table with
  | nil => simp
  | cons call rest ih =>
      have hStep : text ∈ (lack table call).map Prod.fst ↔
          text ∈ table.map Prod.fst ∨ call.text = text := by
        unfold lack
        split
        · rename_i hOld
          exact ⟨Or.inl, fun h => h.elim id fun hSame => hSame ▸ hOld⟩
        · simp [eq_comm]
      rw [List.foldl_cons, ih, hStep, or_assoc]
      simp

/-- The texts in the table are those of the calls. -/
theorem mem_lacking {calls : List Call} {text : String} :
    text ∈ (lacking calls).map Prod.fst ↔ ∃ call ∈ calls, call.text = text := by
  rw [lacking, mem_foldl_lack]
  simp

namespace Linking

variable {options : LinkOptions} {state next : Linking} {caller : NodeId}

/-- The target of a call that needs a placeholder is the one under its text; entries stay. -/
theorem entered_targetOf (state : Linking) (link : Link) :
    (∀ e ∈ state.missing, e ∈ (state.targetOf link).1.missing) ∧
      (link.isMissed = true →
        (link.call.text, (state.targetOf link).2) ∈ (state.targetOf link).1.missing) := by
  unfold Link.isMissed Call.isFree targetOf
  split
  · rename_i n hn
    simp [hn]
  · unfold fallback
    split
    · rename_i hFree
      rw [(state.builtinTarget link.call).1.libraries_hangBuiltins.1,
        (state.entered_builtinTarget link.call).1]
      simp [hFree]
    · unfold missingTarget
      split
      · rename_i n hn
        exact ⟨fun e he => he, fun _ => mem_of_lookup hn⟩
      · exact ⟨fun e he => List.mem_append_left _ he,
          fun _ => List.mem_append_right _ List.mem_cons_self⟩

theorem connect_enters {link : Link} (h : state.connect options caller link = .ok next) :
    (∀ e ∈ state.missing, e ∈ next.missing) ∧ ∃ edge : Edge,
      next.edges = state.edges ++ [edge] ∧
      (link.isMissed = true → (link.call.text, edge.target) ∈ next.missing) := by
  unfold connect at h
  split at h
  · exact absurd h (by simp)
  · cases h
    obtain ⟨hKeeps, hEnters⟩ := (state.note link).entered_targetOf link
    rw [missing_note] at hKeeps
    refine ⟨hKeeps, _, congrArg (· ++ [_]) ((edges_targetOf (state.note link) link).1.trans ?_),
      hEnters⟩
    unfold note
    split <;> rfl

theorem connectAll_enters {links : List Link}
    (h : state.connectAll options caller links = .ok next) :
    (∀ e ∈ state.missing, e ∈ next.missing) ∧ ∃ drawn, next.edges = state.edges ++ drawn ∧
      List.Forall₂ (fun link (edge : Edge) => (∀ name, link.outcome ≠ .marker name) ∧
        (link.isMissed = true → (link.call.text, edge.target) ∈ next.missing)) links drawn := by
  induction links generalizing state with
  | nil =>
      cases h
      exact ⟨fun e he => he, [], by simp, .nil⟩
  | cons link rest ih =>
      obtain ⟨middle, hFirst, hRest⟩ := exists_of_bind_eq_ok h
      obtain ⟨hKeeps, edge, hEdge, hEnters⟩ := connect_enters hFirst
      obtain ⟨hKeeps', drawn, hDrawn, hEnters'⟩ := ih hRest
      refine ⟨fun e he => hKeeps' e (hKeeps e he), edge :: drawn, by simp [hDrawn, hEdge],
        .cons ⟨not_marker_of_connect hFirst, fun hMissed => hKeeps' _ (hEnters hMissed)⟩ hEnters'⟩

/-- Questions that need a placeholder lead to the one under the text of the call. -/
theorem linkAll_enters {imports callers : List NodeId}
    (h : state.linkAll options imports callers = .ok next) :
    (∀ e ∈ state.missing, e ∈ next.missing) ∧ ∃ drawn, next.edges = state.edges ++ drawn ∧
      List.Forall₂ (fun query (edge : Edge) => query.isMissed = true →
        (query.call.text, edge.target) ∈ next.missing)
        (askedAll options imports state callers) drawn := by
  induction callers generalizing state with
  | nil =>
      cases h
      exact ⟨fun e he => he, [], by simp, .nil⟩
  | cons caller rest ih =>
      obtain ⟨middle, hFirst, hRest⟩ := exists_of_bind_eq_ok h
      obtain ⟨⟨after, links⟩, hResolve, hConnect⟩ := exists_of_bind_eq_ok hFirst
      obtain ⟨hKeeps, drawn, hDrawn, hEnters⟩ := connectAll_enters hConnect
      obtain ⟨hKeeps', drawn', hDrawn', hEnters'⟩ := ih hRest
      refine ⟨fun e he => hKeeps' e (hKeeps e he), drawn ++ drawn', ?_, ?_⟩
      · rw [hDrawn', hDrawn, List.append_assoc]
      · rw [askedAll, hFirst]
        refine List.rel_append ?_ hEnters'
        refine forall₂_chain ?_ (answers_of_resolveCalls hResolve).1 hEnters
        intro query link edge hAnswers hEdge hMissed
        rw [hAnswers.isMissed_eq hEdge.1] at hMissed
        rw [← hAnswers.call_eq]
        exact hKeeps' _ (hEdge.2 hMissed)

/-- Every placeholder was made for a call, and two calls that need one share it exactly if they read
alike. Questions and edges stand in the same order. -/
structure SharesMissing (state : Linking) (asked : List Query) : Prop where
  length_eq : asked.length = state.edges.length
  made : ∀ n, state.graph.Listed n → (state.graph.node n).isMissing = true →
    ∃ p ∈ asked.zip state.edges, p.1.isMissed = true ∧ p.2.target = n
  shared : ∀ p ∈ asked.zip state.edges, ∀ q ∈ asked.zip state.edges, p.1.isMissed = true →
    q.1.isMissed = true → (p.2.target = q.2.target ↔ p.1.call.text = q.1.call.text)

/-- Distinct entries of the table are distinct nodes: placeholders are listed once. -/
theorem Lacks.nodup_targets {calls : List Call} (h : next.Lacks calls) {added : List NodeId}
    (hNodes : next.nodes = state.nodes ++ added) (hAdded : added.Nodup)
    (hOld : ∀ n ∈ state.nodes, (next.graph.node n).isMissing = false) :
    (next.missing.map Prod.snd).Nodup := by
  rw [← h.nodes_eq, hNodes, List.filter_append, List.filter_eq_nil_iff.mpr (by simpa using hOld),
    List.nil_append]
  exact hAdded.filter _

theorem sharesMissing_of_enters {asked : List Query} (hValid : next.Valid [] [])
    (hLacks : next.Lacks (missedCalls asked)) (hTargets : (next.missing.map Prod.snd).Nodup)
    (hEnters : List.Forall₂ (fun query (edge : Edge) => query.isMissed = true →
      (query.call.text, edge.target) ∈ next.missing) asked next.edges) :
    next.SharesMissing asked := by
  have hKeys : next.missing.map Prod.fst = (lacking (missedCalls asked)).map Prod.fst := by
    rw [← hLacks.table, List.map_map]
    rfl
  have hNodup : (next.missing.map Prod.fst).Nodup := by
    rw [hKeys]
    exact nodup_lacking _
  have hEntry : ∀ p ∈ asked.zip next.edges, p.1.isMissed = true →
      (p.1.call.text, p.2.target) ∈ next.missing := fun p hp =>
    (List.forall₂_iff_zip.mp hEnters).2 hp
  refine ⟨hEnters.length_eq, fun n hn hMissing => ?_, fun p hp q hq hpMissed hqMissed => ?_⟩
  · have hMem : n ∈ next.nodes := by
      rcases hValid.listed_cases n hn with hMem | ⟨hInvented, _⟩
      · exact hMem
      · simp [Node.isInvented, hMissing] at hInvented
    have hTable : n ∈ next.missing.map Prod.snd := by
      rw [← hLacks.nodes_eq]
      exact List.mem_filter.mpr ⟨hMem, hMissing⟩
    obtain ⟨e, he, rfl⟩ := List.mem_map.mp hTable
    have hText : e.1 ∈ (lacking (missedCalls asked)).map Prod.fst := by
      rw [← hKeys]
      exact List.mem_map_of_mem he
    obtain ⟨call, hCall, hText⟩ := mem_lacking.mp hText
    obtain ⟨query, hQuery, rfl⟩ := List.mem_map.mp hCall
    obtain ⟨hAsked, hMissed⟩ := List.mem_filter.mp hQuery
    obtain ⟨i, hi, rfl⟩ := List.mem_iff_getElem.mp hAsked
    have hLength := hEnters.length_eq
    refine ⟨(asked[i], next.edges[i]), ?_, hMissed, ?_⟩
    · rw [← List.getElem_zip (h := by simp; omega)]
      exact List.getElem_mem _
    · have hPair : (asked[i].call.text, next.edges[i].target) ∈ next.missing := by
        apply hEntry (asked[i], next.edges[i]) _ hMissed
        rw [← List.getElem_zip (h := by simp; omega)]
        exact List.getElem_mem _
      rw [hText] at hPair
      exact eq_of_nodup_keys hNodup hPair he
  · have hpEntry := hEntry p hp hpMissed
    have hqEntry := hEntry q hq hqMissed
    constructor
    · intro hTarget
      exact congrArg Prod.fst (List.inj_on_of_nodup_map hTargets hpEntry hqEntry hTarget)
    · intro hText
      rw [hText] at hpEntry
      exact eq_of_nodup_keys hNodup hpEntry hqEntry

end Linking

/-! ## Every run -/

/-- What is made is made once; the first `size` nodes were loaded and not made. -/
structure Graph.MadeOnce (graph : Graph) (size : Nat) : Prop where
  /-- A library node has one signature and stands in the package named by the first part of it. -/
  signature : ∀ n, graph.Listed n → (graph.node n).isLibrary = true → size ≤ n.index →
    ∃ signature g, (graph.node n).importTokens = [signature] ∧ n ∈ (graph.group g).nodes ∧
      isLibraryGroup (graph.group g) = true ∧ (graph.group g).token = Dotted.first signature
  library : ∀ m n, graph.Listed m → graph.Listed n → (graph.node m).isLibrary = true →
    (graph.node n).isLibrary = true → size ≤ m.index → size ≤ n.index →
    ∀ signature ∈ (graph.node m).importTokens, signature ∈ (graph.node n).importTokens → m = n
  package : ∀ g h, isLibraryGroup (graph.group g) = true → isLibraryGroup (graph.group h) = true →
    (graph.group g).token = (graph.group h).token → g = h
  constructor : graph.OneConstructor
  /-- Nor is there a method beside it that is named like a constructor. -/
  nameless : ∀ g, ∀ n ∈ (graph.group g).nodes, (graph.node n).isImplicit = true →
    ∀ m ∈ (graph.group g).nodes, (graph.node m).signature.isSome = true →
      (graph.node m).token ≠ "__init__" ∧ (graph.node m).token ≠ "__new__"

theorem Graph.MadeOnce.shrinks {graph after : Graph} {size : Nat} (h : graph.MadeOnce size)
    (hGraph : graph.WellFormed) (hShrinks : graph.Shrinks after) : after.MadeOnce size where
  signature n hn hLibrary hSize := by
    rw [hShrinks.node_eq] at hLibrary ⊢
    obtain ⟨signature, g, hTokens, hMem, hPackage, hToken⟩ :=
      h.signature n (hShrinks.listed hn) hLibrary hSize
    obtain ⟨p, hp⟩ := hn
    cases hGraph.group_eq_of_listed hMem ((hShrinks.nodes_sublist p).subset hp)
    refine ⟨signature, g, hTokens, hp, ?_, ?_⟩
    · rw [hShrinks.group_field isLibraryGroup]
      exact hPackage
    · rw [hShrinks.group_field Group.token]
      exact hToken
  library m n hm hn := by
    rw [hShrinks.node_eq, hShrinks.node_eq]
    exact h.library m n (hShrinks.listed hm) (hShrinks.listed hn)
  package g g' := by
    rw [hShrinks.group_field isLibraryGroup, hShrinks.group_field isLibraryGroup,
      hShrinks.group_field Group.token,
      hShrinks.group_field Group.token]
    exact h.package g g'
  constructor := h.constructor.shrinks hShrinks
  nameless g n hn hImplicit m hm hSignature := by
    have hSub := hShrinks.nodes_sublist g
    rw [hShrinks.node_eq] at hImplicit hSignature ⊢
    exact h.nameless g n (hSub.subset hn) hImplicit m (hSub.subset hm) hSignature

namespace CallMap

variable {files : FileSystem} {options : Options} {sources : List String}
variable {outlines : List FileOutline} {prepared : Prepared} {ns : List NodeId}
variable {settled after : Graph} {size : Nat}

/-- What is loaded is spelled out, and a method that is named like a constructor is one. Methods are
the functions that cannot be imported. -/
def spelledProperties : Properties where
  node node := node.isImplicit = false ∧ (node.signature.isSome = true → node.importTokens = [] →
    node.token = "__init__" ∨ node.token = "__new__" → node.isConstructor = true)
  group _ := True
  node_serial _ h := h
  group_contents _ _ _ _ _ _ := trivial

theorem spelledProperties_ofFile (file : FileOutline) : spelledProperties.OfFile file where
  group := trivial
  root _ := ⟨rfl, fun hSome => absurd hSome Bool.false_ne_true⟩
  functions _ _ _ _ := ⟨rfl, fun _ hNil => absurd hNil (List.cons_ne_nil _ _)⟩
  classes c _ := ClassOutline.every_of_all
    (fun f _ _ => ⟨rfl, fun _ _ hName => by
      simpa [functionNode, FunctionOutline.isConstructor] using hName⟩) (fun _ _ => trivial) c
  imports _ _ _ _ := ⟨rfl, fun hSome => absurd hSome Bool.false_ne_true⟩

theorem spelled_of_loaded (outlines : List FileOutline) {n : NodeId}
    (hn : n.index < (Graph.loaded outlines).1.nodes.size) :
    spelledProperties.node ((Graph.loaded outlines).1.node n) :=
  (loading_loaded fun file (_ : file ∈ outlines) => spelledProperties_ofFile file).node_want n hn

/-- A constructor that a class does not spell out was made. -/
theorem Prepares.le_of_implicit (h : Prepares options outlines ns settled prepared)
    (hGrows : prepared.start.graph.Grows after) {n : NodeId}
    (hImplicit : (after.node n).isImplicit = true) :
    (Graph.loaded outlines).1.nodes.size ≤ n.index := by
  rcases Nat.lt_or_ge n.index (Graph.loaded outlines).1.nodes.size with hLt | hGe
  · rw [h.node_field hGrows Node.isImplicit hLt, (spelled_of_loaded outlines hLt).1] at hImplicit
    exact absurd hImplicit Bool.false_ne_true
  · exact hGe

/-- A method in a class that is named like a constructor is one. -/
theorem Prepares.isConstructor_of_name (h : Prepares options outlines ns settled prepared)
    (hGrows : prepared.start.graph.Grows after) (hAfter : after.WellFormed) {g : GroupId}
    {m : NodeId} (hm : m ∈ (after.group g).nodes) (hKind : (after.group g).kind = .classBody)
    (hSignature : (after.node m).signature.isSome = true)
    (hName : (after.node m).token = "__init__" ∨ (after.node m).token = "__new__") :
    (after.node m).isConstructor = true := by
  obtain ⟨_, hStarted, _⟩ := h.started
  have hLater := hStarted.grows.trans hGrows
  have hSize := h.nodes_size
  -- What was made has no signature.
  have hLt : m.index < (Graph.loaded outlines).1.nodes.size := by
    rcases Nat.lt_or_ge m.index (Graph.loaded outlines).1.nodes.size with hLt | hGe
    · exact hLt
    · rw [(hLater.bodiless_of_new m (by omega)).2] at hSignature
      exact absurd hSignature Bool.false_ne_true
  obtain ⟨p, hParent, hp, hNone, _⟩ := tagged_insertFiles outlines hLt
  rw [← h.node_field hGrows Node.parent hLt] at hParent
  cases (hAfter.parent_of_listed hm).symm.trans hParent
  have hGroups : settled.groups.size = (Graph.loaded outlines).1.groups.size := by
    rw [h.ready.1.groups_size, (shrinks_removeNodes _ ns).size_eq]
  rw [hLater.group_field Group.kind (by omega), group_field_settled h.ready.1 Group.kind] at hKind
  rw [h.node_field hGrows Node.signature hLt] at hSignature
  rw [h.node_field hGrows Node.token hLt] at hName
  rw [h.node_field hGrows Node.isConstructor hLt]
  exact (spelled_of_loaded outlines hLt).2 hSignature (hNone hKind) hName

/-- Hanging packages into files makes nothing. -/
theorem distinct_startWith {libraries : Libraries} {graph : Graph} {roots files : List GroupId}
    (h : libraries.Distinct graph size) (hHung : Libraries.Hung libraries graph
      (Libraries.hangAll graph files libraries.packages).1 roots) (nodes : List NodeId) :
    (startWith graph files libraries nodes).libraries.Distinct
      (startWith graph files libraries nodes).graph size := by
  have hNode : ∀ n, (startWith graph files libraries nodes).graph.node n = graph.node n := by
    intro n
    unfold startWith
    dsimp only
    rw [node_addGroup, Graph.node, hHung.nodes_eq]
    rfl
  refine ⟨h.names_nodup, h.signatures_nodup, fun e he => ?_, fun n hn => ?_⟩
  · rw [hNode]
    exact h.entry e he
  · rw [hNode]
    apply h.known
    unfold startWith at hn
    dsimp only at hn
    rw [listed_addGroup rfl] at hn
    simpa only [Listed, hHung.nodes_of_group] using hn

/-- Before calls are linked, the tables of libraries have no key twice. -/
theorem Prepares.distinct_start (h : Prepares options outlines ns settled prepared) :
    prepared.start.libraries.Distinct prepared.start.graph
      (Graph.loaded outlines).1.nodes.size := by
  have hReady := h.ready.2
  have hEmpty : Libraries.Distinct {} settled (Graph.loaded outlines).1.nodes.size := by
    refine ⟨List.nodup_nil, List.nodup_nil, by simp, fun n hn _ hSize => ?_⟩
    have hLt := hReady.sound.lt_of_listed hn
    rw [h.nodes_size] at hLt
    omega
  rw [h.start_eq]
  generalize Graph.loaded outlines = loaded at *
  -- Without a file there is no call.
  have hCalls : loaded.2 = [] → callsOf settled (settled.nodesOf loaded.2) = [] := by
    intro hNil
    rw [hNil]
    rfl
  generalize callsOf settled (settled.nodesOf loaded.2) = calls at *
  have hMade :=
    (fills_passes settled (settled.nodesOf loaded.2) calls).distinct hEmpty hReady.stocked
  have hStocks := hReady.stocks (settled.nodesOf loaded.2) calls
  obtain ⟨hHung, _⟩ := Libraries.hangAll_spec hStocks.stocked
    (fun f hf => by
      rw [hStocks.grows.group_field Group.kind (hReady.rooted.lt f hf)]
      exact hReady.file_kind f hf)
    hStocks.stocked.package_library (fun hPackages hNil => by
      rw [hCalls hNil] at hPackages
      exact hPackages rfl)
  exact distinct_startWith hMade hHung _

/-- Before calls are linked, all constructors are spelled out. -/
theorem Prepares.oneConstructor_start (h : Prepares options outlines ns settled prepared) :
    prepared.start.graph.OneConstructor := by
  intro g n hn hImplicit
  obtain ⟨_, hStarted, _⟩ := h.started
  -- What is new at the start is in the table of libraries, and no library node is implicit.
  have hGe := h.le_of_implicit (Grows.refl _) hImplicit
  have hMem : n ∈ prepared.start.nodes := by
    rcases hStarted.valid.listed_cases n ⟨g, hn⟩ with hMem | ⟨_, ⟨edge, hEdge, _⟩ | hNone⟩
    · exact hMem
    · rw [hStarted.edges_nil] at hEdge
      exact absurd hEdge List.not_mem_nil
    · obtain ⟨_, hLink, _⟩ := hNone
      exact absurd hLink List.not_mem_nil
  have hLibrary := hStarted.library_of_new n hMem (by rw [h.nodes_size]; exact hGe)
  obtain ⟨signature, hKnown⟩ := h.distinct_start.known n ⟨g, hn⟩ hLibrary hGe
  rw [(h.distinct_start.entry _ hKnown).2.1] at hImplicit
  exact absurd hImplicit Bool.false_ne_true

/-- Linking from a prepared start keeps what its steps keep. -/
theorem Prepares.kept (h : Prepares options outlines ns settled prepared) {holds : Linking → Prop}
    (hKept : Linking.Kept holds) (hStart : holds prepared.start) {linkOptions : LinkOptions}
    {callers : List NodeId} {state : Linking} (hCallers : callers <+: prepared.start.nodes)
    (hState : prepared.start.linkAll linkOptions prepared.imports callers = .ok state) :
    holds state :=
  hKept.linkAll (h.linkable hCallers) hStart hState

section State

variable {linkOptions : LinkOptions} {callers : List NodeId} {state : Linking}

/-- After the calls of some nodes are linked, what was made was made once. -/
theorem Prepares.madeOnce (h : Prepares options outlines ns settled prepared)
    (hCallers : callers <+: prepared.start.nodes)
    (hState : prepared.start.linkAll linkOptions prepared.imports callers = .ok state) :
    state.graph.MadeOnce (Graph.loaded outlines).1.nodes.size := by
  obtain ⟨_, hStarted, _⟩ := h.started
  have hLinked := Linking.linkAll_spec (h.linkable hCallers) hState
  obtain ⟨_, hProgress, _⟩ := hLinked.progress
  have hDistinct := h.kept (Linking.kept_distinct _) h.distinct_start hCallers hState
  have hOne := h.kept Linking.kept_oneConstructor h.oneConstructor_start hCallers hState
  have hStocked := hLinked.valid.stocked
  exact
    { signature := fun n hn hLibrary hSize => by
        obtain ⟨signature, hKnown⟩ := hDistinct.known n hn hLibrary hSize
        obtain ⟨hTokens, _, g, hg, hParent⟩ := hDistinct.entry _ hKnown
        obtain ⟨p, hp⟩ := hn
        cases (hLinked.valid.sound.parent_of_listed hp).symm.trans hParent
        exact ⟨signature, g, hTokens, hp, hStocked.package_library _ hg,
          (hStocked.package_named _ hg).1⟩
      library := fun m n hm hn hmLibrary hnLibrary hmSize hnSize signature hmToken hnToken => by
        obtain ⟨first, hFirst⟩ := hDistinct.known m hm hmLibrary hmSize
        obtain ⟨second, hSecond⟩ := hDistinct.known n hn hnLibrary hnSize
        rw [(hDistinct.entry _ hFirst).1, List.mem_singleton] at hmToken
        rw [(hDistinct.entry _ hSecond).1, List.mem_singleton] at hnToken
        subst hmToken hnToken
        exact eq_of_nodup_keys hDistinct.signatures_nodup hFirst hSecond
      package := fun g g' hg hg' hToken => by
        obtain ⟨p, hp, rfl⟩ := hStocked.library_package hg
        obtain ⟨q, hq, rfl⟩ := hStocked.library_package hg'
        rw [(hStocked.package_named p hp).1, (hStocked.package_named q hq).1] at hToken
        exact congrArg Prod.snd (List.inj_on_of_nodup_map hDistinct.names_nodup hp hq hToken)
      constructor := hOne
      nameless := fun g n hn hImplicit m hm hSignature => by
        obtain ⟨hKind, hOnly⟩ := hOne g n hn hImplicit
        have hGe := h.le_of_implicit hProgress.grows hImplicit
        have hNew := (hStarted.grows.trans hProgress.grows).bodiless_of_new n
          (by rw [h.nodes_size]; exact hGe)
        by_contra hName
        have hMem : m ∈ state.graph.constructors g := by
          rw [constructors, List.mem_filter]
          refine ⟨hm, h.isConstructor_of_name hProgress.grows hLinked.valid.sound.toWellFormed hm
            hKind hSignature ?_⟩
          tauto
        rw [hOnly, List.mem_singleton] at hMem
        rw [hMem, hNew.2] at hSignature
        exact absurd hSignature Bool.false_ne_true }

/-- After the calls of some nodes are linked, calls that read alike share a placeholder. -/
theorem Prepares.sharesMissing (h : Prepares options outlines ns settled prepared)
    (hCallers : callers <+: prepared.start.nodes)
    (hState : prepared.start.linkAll linkOptions prepared.imports callers = .ok state) :
    state.SharesMissing
      (Linking.askedAll linkOptions prepared.imports prepared.start callers) := by
  obtain ⟨_, hStarted, _⟩ := h.started
  have hLinked := Linking.linkAll_spec (h.linkable hCallers) hState
  have hLanded := Linking.linkAll_landed (h.linkable hCallers) h.lacks_start hState
  obtain ⟨_, hProgress, _⟩ := hLinked.progress
  obtain ⟨added, hNodes, hAdded, _⟩ := hProgress.nodes_eq
  obtain ⟨others, hLined⟩ := h.lined
  obtain ⟨_, drawn, hEdges, hEnters⟩ := Linking.linkAll_enters hState
  rw [hStarted.edges_nil, List.nil_append] at hEdges
  rw [← hEdges] at hEnters
  have hPresent : ∀ n ∈ prepared.start.nodes, (state.graph.node n).isMissing = false := by
    intro n hn
    rw [hProgress.grows.node_field Node.isMissing (hStarted.valid.node_lt n hn)]
    exact hLined.present n hn
  exact Linking.sharesMissing_of_enters hLinked.valid hLanded.lacks
    (hLanded.lacks.nodup_targets hNodes hAdded hPresent) hEnters

end State

end CallMap

namespace CallMap

/--
What a run makes it makes once. Whichever nodes have had their calls linked, no two library nodes were
made under one signature, each stands in the package named by the first part of its signature, and no
two packages have one name; a constructor that a class does not spell out is the only constructor of
the class; and of the calls that lead nowhere, those share a placeholder that read alike. The same
holds of the nodes and groups of the finished chart.
-/
theorem madeOnce_of_build {files : FileSystem} {options : Options} {language : Value}
    {sources : List String} {chart : Chart}
    (h : (build files options language sources).result = .ok chart) :
    ∃ read prepared, (outlines files options sources).result = .ok read ∧
      (prepare options read).result = .ok prepared ∧
      (∀ callers, callers <+: prepared.start.nodes → ∃ state,
        prepared.start.linkAll ⟨options.heuristics, options.aliasLabels⟩ prepared.imports callers =
          .ok state ∧
        state.graph.MadeOnce (Graph.loaded read).1.nodes.size ∧
        state.SharesMissing (Linking.askedAll ⟨options.heuristics, options.aliasLabels⟩
          prepared.imports prepared.start callers)) ∧
      chart.graph.MadeOnce (Graph.loaded read).1.nodes.size := by
  obtain ⟨read, prepared, linked, hRun, rfl⟩ := exists_run_of_build h
  obtain ⟨_, _, hPrepares⟩ := exists_of_prepare hRun.prepares
  refine ⟨read, prepared, hRun.reads, hRun.prepares, fun callers hCallers => ?_, ?_⟩
  · obtain ⟨state, hState⟩ := exists_linkAll_of_prefix hCallers hRun.finishes
    exact ⟨state, hState, hPrepares.madeOnce hCallers hState,
      hPrepares.sharesMissing hCallers hState⟩
  · have hFounded := founded_of_linkAll hRun.prepares List.prefix_rfl hRun.finishes
    have hGraph : (chartOf linked.withMissing).graph = linked.graph := linked.graph_withMissing
    have hLinked := hPrepares.madeOnce List.prefix_rfl hRun.finishes
    rw [← hGraph] at hLinked
    exact hLinked.shrinks hFounded.wellFormed (shrinks_cut hRun.complete options)

/-- Two functions that both call a library, a class without a constructor and a name that is defined
nowhere. -/
def repeatingModule : Tree :=
  let body := fun line : Int =>
    [Tree.statementAt line (.callAt line (.memberAt line (.nameAt line "os") "getcwd")),
     Tree.statementAt (line + 1) (.callAt (line + 1) (.nameAt (line + 1) "Shape")),
     Tree.statementAt (line + 2) (.callAt (line + 2) (.nameAt (line + 2) "absent"))]
  .moduleOf
    [.importAt 1 "os", .classAt 2 "Shape" [.functionAt 3 "area" []],
     .functionAt 5 "main" (body 6), .functionAt 9 "report" (body 10)]

theorem madeOnce_of_build_repeating :
    ∃ chart read, (build { entries := [(["a.py"], .file { content := .ok repeatingModule })] }
        { showLibraries := true } (.text "py") ["a.py"]).result = .ok chart ∧
      chart.edges.length = 6 ∧
      chart.nodes.countP (fun n => (chart.graph.node n).isLibrary) = 1 ∧
      chart.nodes.countP (fun n => (chart.graph.node n).isMissing) = 1 ∧
      chart.nodes.countP (fun n => (chart.graph.node n).isImplicit) = 1 ∧
      chart.graph.MadeOnce (Graph.loaded read).1.nodes.size := by
  obtain ⟨chart, hChart, hCounts⟩ := exists_ok_of_any
    (show (build { entries := [(["a.py"], .file { content := .ok repeatingModule })] }
      { showLibraries := true } (.text "py") ["a.py"]).result.toOption.any (fun chart =>
        chart.edges.length == 6 &&
        (chart.nodes.countP (fun n => (chart.graph.node n).isLibrary) == 1 &&
        (chart.nodes.countP (fun n => (chart.graph.node n).isMissing) == 1 &&
        chart.nodes.countP (fun n => (chart.graph.node n).isImplicit) == 1))) = true
      by decide +kernel)
  obtain ⟨read, _, _, _, _, hMade⟩ := madeOnce_of_build hChart
  simp only [Bool.and_eq_true, beq_iff_eq] at hCounts
  exact ⟨chart, read, hChart, hCounts.1, hCounts.2.1, hCounts.2.2.1, hCounts.2.2.2, hMade⟩

end CallMap

end CallGraph
