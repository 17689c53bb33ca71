import CallGraph.Proofs.Collecting
import CallGraph.Proofs.Leading
import CallGraph.Proofs.Starting

/-!
# Library calls

A call on the name of an imported module goes to the first node that answers to its signature. The
nodes of the files stand in front of the library nodes that were made for such calls, so a library
node is the target only where no file offers the function; and since there is a library node for
every signature, there always is a target.

The question may come up late, when further nodes have been made. They stand behind the nodes there
are at the start of linking, so the answer is the one that could have been given at the start.

## Main definitions

* `Graph.Offers` — a node answers to the signature of a call.

## Main results

* `Query.After.bySignature?_eq` — the answer does not depend on when the question comes up.
* `library_calls_of_build` — where library calls go.
-/

namespace CallGraph

open CallGraph.Graph

/-- A node answers to the signature of a call on `owner`: it has the token of the call, and it can be
imported under the signature or stands in a group named by the first part of the owner. -/
def Graph.Offers (graph : Graph) (owner token : String) (n : NodeId) : Prop :=
  (graph.node n).token = token ∧
    (Dotted.join [owner, token] ∈ (graph.node n).importTokens ∨
      ∃ g, (graph.node n).parent = .group g ∧ (graph.group g).token = Dotted.first owner)

/-- What a node offers does not change while a graph grows. -/
theorem Graph.Grows.offers_iff {before after : Graph} (h : before.Grows after)
    (hSound : before.Sound) {n : NodeId} (hn : before.Listed n) {owner token : String} :
    after.Offers owner token n ↔ before.Offers owner token n := by
  have hLt := hSound.lt_of_listed hn
  obtain ⟨p, hParent, hMem⟩ := hSound.parent_of hn
  have hToken := h.group_field Group.token (before.group_lt_of_nodes hMem)
  unfold Offers
  rw [h.node_field Node.token hLt, h.node_field Node.importTokens hLt,
    h.node_field Node.parent hLt, hParent]
  simp [hToken]

namespace Query

variable {query : Query}

theorem answersTo_iff {owner : String} {n : NodeId} :
    (decide ((query.graph.node n).token = query.call.token) && query.answersTo owner n) = true ↔
      query.graph.Offers owner query.call.token n := by
  unfold answersTo Offers parentGroup?
  rw [Bool.and_eq_true, decide_eq_true_iff, Bool.or_eq_true, List.contains_iff_mem]
  cases (query.graph.node n).parent <;> simp

theorem bySignature?_eq_find? {owner : String} (hOwner : libraryOwner? query.call = some owner) :
    query.bySignature? = query.candidates.find? fun n =>
      decide ((query.graph.node n).token = query.call.token) && query.answersTo owner n := by
  unfold bySignature? sameToken
  rw [hOwner]
  dsimp only
  rw [List.find?_filter]
  simp only [Bool.decide_and, Bool.decide_eq_true]

/--
The answer to a library call does not depend on when the question comes up: it is the first of the
nodes listed at the start that answers to the signature.
-/
theorem After.bySignature?_eq {state : Linking} {heuristics : Bool} {owner : String}
    (h : query.After state heuristics) (hValid : state.Valid [] [])
    (hSupplies : state.graph.Supplies state.nodes query.call)
    (hOwner : libraryOwner? query.call = some owner) :
    ∃ n front back, query.bySignature? = some n ∧ state.nodes = front ++ n :: back ∧
      state.graph.Offers owner query.call.token n ∧
      ∀ m ∈ front, ¬state.graph.Offers owner query.call.token m := by
  obtain ⟨tail, hTail⟩ := h.kept
  have hOffers : ∀ m ∈ state.nodes, query.graph.Offers owner query.call.token m ↔
      state.graph.Offers owner query.call.token m :=
    fun m hm => h.grows.offers_iff hValid.sound (hValid.nodes_listed m hm)
  have hSome : (state.nodes.find? fun n => decide ((query.graph.node n).token = query.call.token) &&
      query.answersTo owner n).isSome := by
    obtain ⟨n, hn, hToken, hImport⟩ := hSupplies owner hOwner
    rw [List.find?_isSome]
    exact ⟨n, hn, answersTo_iff.mpr ((hOffers n hn).mpr ⟨hToken, Or.inl hImport⟩)⟩
  obtain ⟨n, hn⟩ := Option.isSome_iff_exists.mp hSome
  obtain ⟨hFound, front, back, hSplit, hFront⟩ := List.find?_eq_some_iff_append.mp hn
  have hMem : ∀ m ∈ front ++ n :: back, m ∈ state.nodes := fun m hm => hSplit ▸ hm
  refine ⟨n, front, back, ?_, hSplit, ?_, fun m hm hOffer => ?_⟩
  · rw [bySignature?_eq_find? hOwner, ← hTail, List.find?_append, hn]
    rfl
  · exact (hOffers n (hMem n (by simp))).mp (answersTo_iff.mp hFound)
  · have hQuery := (hOffers m (hMem m (by simp [hm]))).mpr hOffer
    have hNot := hFront m hm
    rw [answersTo_iff.mpr hQuery] at hNot
    exact absurd hNot (by simp)

/-- A call that is not on `self` or `super`, or not made in a class, is answered by signature
first. -/
theorem resolve_of_bySignature? {n : NodeId} (h : query.bySignature? = some n)
    (hOwner : query.heuristics = true → query.callerClass? = none ∨
      query.call.owner ≠ some "self" ∧ query.call.owner ≠ some "super") :
    query.resolve = .ok (.found n none) := by
  have hSuper : query.viaSuper? = none := by
    unfold viaSuper?
    split
    · rename_i hBoth
      rw [Bool.and_eq_true, decide_eq_true_iff] at hBoth
      rcases hOwner hBoth.1 with hNone | hOther
      · rw [hNone]
        rfl
      · exact absurd hBoth.2 hOther.2
    · rfl
  have hSelf : query.viaSelf? = none := by
    unfold viaSelf?
    split
    · rename_i hBoth
      rw [Bool.and_eq_true, decide_eq_true_iff] at hBoth
      rcases hOwner hBoth.1 with hNone | hOther
      · rw [hNone]
        rfl
      · exact absurd hBoth.2 hOther.1
    · rfl
  unfold resolve early?
  rw [hSuper, hSelf, h]
  rfl

end Query

namespace CallMap

variable {files : FileSystem} {options : Options} {sources : List String}
variable {read : List FileOutline} {prepared : Prepared} {linked : Linking}

/-! ## The nodes there are at the start -/

/-- Loading makes no placeholders. -/
def presentProperties : Properties where
  node node := node.isMissing = false
  group _ := True
  node_serial _ h := h
  group_contents _ _ _ _ _ h := h

theorem loading_present (outlines : List FileOutline) :
    Loading presentProperties (Graph.loaded outlines).1 (Graph.loaded outlines).2 :=
  loading_loaded fun _ _ =>
    { group := trivial
      root := fun _ => rfl
      functions := fun _ _ _ _ => rfl
      classes := fun c _ => ClassOutline.every_of_all (fun _ _ _ => rfl) (fun _ _ => trivial) c
      imports := fun _ _ _ _ => rfl }

/-- The nodes at the start of linking: first those of the files that were not left out, then library
nodes. -/
structure Lined (loaded : Graph) (start : Linking) (own others : List NodeId) : Prop where
  nodes_eq : start.nodes = own ++ others
  own_loaded : ∀ n ∈ own, loaded.Listed n
  others_new : ∀ n ∈ others, ¬loaded.Listed n ∧ (start.graph.node n).isLibrary = true
  present : ∀ n ∈ start.nodes, (start.graph.node n).isMissing = false

/-- Neither leaving out nodes nor settling bindings makes nodes. -/
theorem Prepares.nodes_size {ns : List NodeId} {settled : Graph}
    (h : Prepares options read ns settled prepared) :
    settled.nodes.size = (Graph.loaded read).1.nodes.size := by
  rw [h.ready.1.nodes_size, (shrinks_removeNodes (Graph.loaded read).1 ns).nodes_eq]

/-- What a loaded node has that neither settling its bindings nor linking changes. -/
theorem Prepares.node_field {α : Type _} {ns : List NodeId} {settled : Graph}
    (h : Prepares options read ns settled prepared) {after : Graph}
    (hGrows : prepared.start.graph.Grows after) (field : Node → α) {n : NodeId}
    (hn : n.index < (Graph.loaded read).1.nodes.size)
    (hMarks : ∀ node leaf trunk,
      field { node with isLeaf := leaf, isTrunk := trunk } = field node := by intros; rfl)
    (hBindings : ∀ node bindings,
      field { node with bindings := bindings } = field node := by intros; rfl) :
    field (after.node n) = field ((Graph.loaded read).1.node n) := by
  obtain ⟨hRebinds, _⟩ := h.ready
  obtain ⟨_, hStarted, _⟩ := h.started
  have hSize := h.nodes_size
  rw [(hStarted.grows.trans hGrows).node_field field (by omega) hMarks,
    node_field_settled hRebinds field hBindings]

theorem Prepares.lined {ns : List NodeId} {settled : Graph}
    (h : Prepares options read ns settled prepared) :
    ∃ others, Lined (Graph.loaded read).1 prepared.start
      (settled.nodesOf (Graph.loaded read).2) others := by
  obtain ⟨hRebinds, hReady⟩ := h.ready
  obtain ⟨direct, hStarted, _⟩ := h.started
  obtain ⟨all, hNodes, hDirect, _, hNew⟩ := hStarted.nodes_eq
  have hLoaded := loading_present read
  have hShrinks := shrinks_removeNodes (Graph.loaded read).1 ns
  have hSize := h.nodes_size
  have hOwn : ∀ n ∈ settled.nodesOf (Graph.loaded read).2,
      (Graph.loaded read).1.Listed n := fun n hn =>
    hShrinks.listed (hRebinds.listed.mp (listed_of_mem_nodesOf hn))
  have hOthers : ∀ n ∈ direct ++ all, settled.nodes.size ≤ n.index := by
    intro n hn
    rcases List.mem_append.mp hn with hn | hn
    · exact hNew n (hDirect n hn)
    · exact hNew n hn
  rw [List.append_assoc] at hNodes
  have hLibrary : ∀ n ∈ direct ++ all, (prepared.start.graph.node n).isLibrary = true := by
    intro n hn
    refine hStarted.library_of_new n ?_ (hOthers n hn)
    rw [hNodes]
    exact List.mem_append_right _ hn
  refine ⟨direct ++ all, hNodes, hOwn, fun n hn => ⟨fun hListed => ?_, hLibrary n hn⟩,
    fun n hn => ?_⟩
  · have hLt := hLoaded.lt_of_listed hListed
    have hGe := hOthers n hn
    omega
  · have hLt := hStarted.valid.node_lt n hn
    rw [hNodes] at hn
    rcases List.mem_append.mp hn with hn | hn
    · have hOld := hLoaded.lt_of_listed (hOwn n hn)
      rw [h.node_field (.refl _) Node.isMissing hOld]
      exact hLoaded.node_want n hOld
    · -- A placeholder is no library node.
      rw [← Bool.not_eq_true]
      intro hMissing
      have hNot := ((hStarted.valid.sound.regular n hLt).missing_bodiless hMissing).2
      rw [hLibrary n hn] at hNot
      exact absurd hNot (by simp)

section Order

variable {loaded : Graph} {start : Linking} {own others front back : List NodeId} {m n : NodeId}

theorem Lined.mem_own (h : Lined loaded start own others) (hm : m ∈ start.nodes)
    (hLoaded : loaded.Listed m) : m ∈ own := by
  rw [h.nodes_eq] at hm
  exact (List.mem_append.mp hm).resolve_right fun hNew => (h.others_new m hNew).1 hLoaded

/-- What stands in front of a node that is not of the files: all nodes of the files. -/
theorem Lined.mem_front (h : Lined loaded start own others)
    (hSplit : start.nodes = front ++ n :: back) (hn : ¬loaded.Listed n) (hm : m ∈ start.nodes)
    (hLoaded : loaded.Listed m) : m ∈ front := by
  have hOwn := h.mem_own hm hLoaded
  rw [h.nodes_eq] at hSplit
  rcases split_of_append_eq hSplit with ⟨rest, hRest⟩ | ⟨rest, hFront, _⟩
  · exact absurd (h.own_loaded n (by rw [hRest]; simp)) hn
  · rw [hFront]
    exact List.mem_append_left _ hOwn

/-- The nodes of the files up to one of them. -/
theorem Lined.own_split (h : Lined loaded start own others)
    (hSplit : start.nodes = front ++ n :: back) (hn : loaded.Listed n) :
    ∃ rest, own = front ++ n :: rest := by
  rw [h.nodes_eq] at hSplit
  rcases split_of_append_eq hSplit with hOwn | ⟨rest, _, hOthers⟩
  · exact hOwn
  · exact absurd hn (h.others_new n (by rw [hOthers]; simp)).1

end Order

/-- If nothing is to be left out, nothing is. -/
theorem Prepares.listed_of_unlimited {ns : List NodeId} {settled : Graph}
    (h : Prepares options read ns settled prepared)
    (hNamespaces : options.excludeNamespaces = [] ∧ options.onlyNamespaces = [])
    (hFunctions : options.excludeFunctions = [] ∧ options.onlyFunctions = []) {n : NodeId}
    (hn : (Graph.loaded read).1.Listed n) :
    n ∈ settled.nodesOf (Graph.loaded read).2 := by
  have hLimits := h.limits
  simp only [limit, limitNamespaces, limitFunctions, hNamespaces.1, hNamespaces.2, hFunctions.1,
    hFunctions.2, List.isEmpty_nil, Bool.and_self, if_true, Reported.result_bind,
    Reported.result_pure] at hLimits
  obtain ⟨hRebinds, hReady⟩ := h.ready
  rw [hReady.mem_nodesOf, hRebinds.listed, ← Except.ok.inj hLimits]
  exact hn

/-- All that was loaded is there when linking starts, unless there are limits. -/
theorem Run.mem_nodes_of_unlimited (h : Run files options sources read prepared linked)
    (hNamespaces : options.excludeNamespaces = [] ∧ options.onlyNamespaces = [])
    (hFunctions : options.excludeFunctions = [] ∧ options.onlyFunctions = []) {n : NodeId}
    (hn : (Graph.loaded read).1.Listed n) : n ∈ prepared.start.nodes := by
  obtain ⟨ns, settled, hPrepares⟩ := exists_of_prepare h.prepares
  obtain ⟨others, hLined⟩ := hPrepares.lined
  rw [hLined.nodes_eq]
  exact List.mem_append_left _ (hPrepares.listed_of_unlimited hNamespaces hFunctions hn)

/-! ## Where library calls go -/

/-- For a library call there always is a node that answers to its signature, the first of those there
are at the start. -/
theorem Run.exists_bySignature? (h : Run files options sources read prepared linked)
    (hLegal : files.AllLegal) {query : Query} (hQuery : query ∈ prepared.asked options)
    (hLibrary : query.call.isLibrary = true) :
    ∃ owner n front back, query.call.owner = some owner ∧ query.bySignature? = some n ∧
      prepared.start.nodes = front ++ n :: back ∧
      prepared.start.graph.Offers owner query.call.token n ∧
      ∀ m ∈ front, ¬prepared.start.graph.Offers owner query.call.token m := by
  have hAble := able_of_prepare (clear_of_outlines hLegal h.reads) h.prepares
  -- The question is about a call of one of the nodes there are at the start.
  have hOwned : (query.caller, query.call) ∈
      Linking.ownedCalls prepared.start.graph prepared.start.nodes := by
    rw [← h.led.calls]
    exact List.mem_map.mpr ⟨query, hQuery, rfl⟩
  obtain ⟨caller, hCaller, hOwned⟩ := List.mem_flatMap.mp hOwned
  obtain ⟨call, hCall, hSame⟩ := List.mem_map.mp hOwned
  obtain ⟨rfl, rfl⟩ := Prod.mk.inj hSame
  obtain ⟨owner, hNamed⟩ := (hAble.clear.calls _ _ hCall).libraryOwner? hLibrary
  obtain ⟨n, front, back, hFound, hSplit, hOffers, hFront⟩ :=
    (h.led.after query hQuery).bySignature?_eq hAble.valid (hAble.supplies _ hCaller _ hCall) hNamed
  have hSome : query.call.owner = some owner := by
    unfold Query.libraryOwner? at hNamed
    rw [if_pos hLibrary] at hNamed
    exact (Option.filter_eq_some_iff.mp hNamed).1
  exact ⟨owner, n, front, back, hSome, hFound, hSplit, hOffers, hFront⟩

/-- A library call goes to the first of the nodes there are at the start that answers to its
signature. -/
theorem Run.resolve_library (h : Run files options sources read prepared linked)
    (hLegal : files.AllLegal) {query : Query} (hQuery : query ∈ prepared.asked options)
    (hLibrary : query.call.isLibrary = true)
    (hOwner : options.heuristics = true → query.callerClass? = none ∨
      query.call.owner ≠ some "self" ∧ query.call.owner ≠ some "super") :
    ∃ owner n front back, query.call.owner = some owner ∧
      query.resolve = .ok (.found n none) ∧ prepared.start.nodes = front ++ n :: back ∧
      prepared.start.graph.Offers owner query.call.token n ∧
      ∀ m ∈ front, ¬prepared.start.graph.Offers owner query.call.token m := by
  obtain ⟨owner, n, front, back, hSome, hFound, hSplit, hOffers, hFront⟩ :=
    h.exists_bySignature? hLegal hQuery hLibrary
  refine ⟨owner, n, front, back, hSome, Query.resolve_of_bySignature? hFound ?_, hSplit, hOffers,
    hFront⟩
  rw [(h.led.after query hQuery).heuristics_eq]
  exact hOwner

/--
Library calls are always linked. The edge of a call on an imported module, other than one on `self`
or `super` that the guessing rules take, leads to a node that answers to the signature of the call;
it is no placeholder, and the call is not reported as ambiguous. If it is not a node of the files, it
is a library node, and that is so exactly if no node of the files that was not left out answers to
the signature.
-/
theorem library_calls_of_build {language : Value} {chart : Chart} (hLegal : files.AllLegal)
    (h : (build files options language sources).result = .ok chart) :
    ∃ read prepared linked, Run files options sources read prepared linked ∧
      chart = cut options (chartOf linked.withMissing) ∧
      linked.edges.length =
        (Linking.ownedCalls prepared.start.graph prepared.start.nodes).length ∧
      (∀ caller call edge, ((caller, call), edge) ∈
          (Linking.ownedCalls prepared.start.graph prepared.start.nodes).zip linked.edges →
        call.isLibrary = true →
        (options.heuristics = true → call.owner ≠ some "self" ∧ call.owner ≠ some "super") →
        edge.source = caller ∧ (linked.graph.node edge.target).isMissing = false ∧
          call ∉ linked.ambiguous ∧
          ∃ owner, call.owner = some owner ∧ linked.graph.Offers owner call.token edge.target ∧
            ((Graph.loaded read).1.Listed edge.target ∨
              (linked.graph.node edge.target).isLibrary = true) ∧
            (¬(Graph.loaded read).1.Listed edge.target ↔
              ∀ n ∈ prepared.start.nodes, (Graph.loaded read).1.Listed n →
                ¬linked.graph.Offers owner call.token n)) ∧
      (options.excludeNamespaces = [] ∧ options.onlyNamespaces = [] →
        options.excludeFunctions = [] ∧ options.onlyFunctions = [] →
        ∀ n, (Graph.loaded read).1.Listed n → n ∈ prepared.start.nodes) := by
  obtain ⟨read, prepared, linked, hRun, hChart⟩ := exists_run_of_build h
  obtain ⟨ns, settled, hPrepares⟩ := exists_of_prepare hRun.prepares
  obtain ⟨direct, hStarted, _⟩ := hPrepares.started
  obtain ⟨others, hLined⟩ := hPrepares.lined
  obtain ⟨_, hProgress, _⟩ := hRun.links.progress
  have hValid := hStarted.valid
  refine ⟨read, prepared, linked, hRun, hChart, hRun.length_edges, ?_,
    fun hNamespaces hFunctions n hn => ?_⟩
  · intro caller call edge hPair hLibrary hOwner
    obtain ⟨query, hQuery, rfl, rfl, hLeads⟩ := hRun.exists_asked hPair
    obtain ⟨owner, n, front, back, hSome, hResolve, hSplit, hOffers, hFront⟩ :=
      hRun.resolve_library hLegal hQuery hLibrary fun hOn => Or.inr (hOwner hOn)
    have hTarget : edge.target = n := hLeads.target_eq n none hResolve
    have hMem : n ∈ prepared.start.nodes := by
      rw [hSplit]
      exact List.mem_append_right _ List.mem_cons_self
    have hLt := hValid.node_lt n hMem
    have hOffersIff : ∀ m ∈ prepared.start.nodes, linked.graph.Offers owner query.call.token m ↔
        prepared.start.graph.Offers owner query.call.token m := fun m hm =>
      hProgress.grows.offers_iff hValid.sound (hValid.nodes_listed m hm)
    rw [hTarget]
    refine ⟨hLeads.source_eq, ?_, ?_, owner, hSome, (hOffersIff n hMem).mpr hOffers, ?_, ?_⟩
    · rw [hProgress.grows.node_field Node.isMissing hLt]
      exact hLined.present n hMem
    · -- An equal call is a library call too, so its answer is a node as well.
      rw [hRun.led.ambiguous, hStarted.ambiguous_nil, List.nil_append]
      intro hAmbiguous
      obtain ⟨other, hOther, hSame⟩ := List.mem_map.mp hAmbiguous
      obtain ⟨hOther, hIs⟩ := List.mem_filter.mp hOther
      obtain ⟨_, m, _, _, _, hFound, _⟩ :=
        hRun.resolve_library hLegal hOther (hSame ▸ hLibrary) fun hOn => Or.inr (hSame ▸ hOwner hOn)
      unfold Query.isAmbiguous at hIs
      rw [hFound] at hIs
      exact absurd hIs (by simp [Outcome.isAmbiguous])
    · rw [hProgress.grows.node_field Node.isLibrary hLt]
      rw [hLined.nodes_eq] at hMem
      rcases List.mem_append.mp hMem with hOwn | hNew
      · exact Or.inl (hLined.own_loaded n hOwn)
      · exact Or.inr (hLined.others_new n hNew).2
    · constructor
      · intro hNot m hm hLoaded hOffer
        exact hFront m (hLined.mem_front hSplit hNot hm hLoaded) ((hOffersIff m hm).mp hOffer)
      · exact fun hNone hLoaded => hNone n hMem hLoaded ((hOffersIff n hMem).mpr hOffers)
  · rw [hLined.nodes_eq]
    exact List.mem_append_left _ (hPrepares.listed_of_unlimited hNamespaces hFunctions hn)

/-- A program of two files. The first calls a function of the second and one of a module that is not
analysed. -/
def borrowingFiles : FileSystem :=
  { entries := [(["a.py"], .file { content := .ok (.moduleOf
      [.importAt 1 "b", .importAt 2 "os",
       .functionAt 3 "main"
         [.statementAt 4 (.callAt 4 (.memberAt 4 (.nameAt 4 "b") "run")),
          .statementAt 5 (.callAt 5 (.memberAt 5 (.nameAt 5 "os") "getcwd"))]]) }),
    (["b.py"], .file { content := .ok (.moduleOf [.functionAt 1 "run" [.statementAt 2 (.nameAt 2 "done")]]) })] }

/-- The first call goes to the function of the second file, the second call to a library node. -/
theorem library_calls_of_build_borrowing :
    ∃ chart read prepared linked,
      (build borrowingFiles {} (.text "py") ["a.py"]).result = .ok chart ∧
      Run borrowingFiles {} ["a.py"] read prepared linked ∧
      ∃ inner outer : NodeId × Call × Edge,
        inner.2.1.owner = some "b" ∧ outer.2.1.owner = some "os" ∧
        inner.2.2.source = inner.1 ∧ outer.2.2.source = outer.1 ∧
        (Graph.loaded read).1.Listed inner.2.2.target ∧
        linked.graph.Offers "b" "run" inner.2.2.target ∧
        (linked.graph.node outer.2.2.target).isLibrary = true ∧
        (linked.graph.node outer.2.2.target).isMissing = false ∧
        linked.graph.Offers "os" "getcwd" outer.2.2.target ∧
        ∀ n, (Graph.loaded read).1.Listed n → ¬linked.graph.Offers "os" "getcwd" n := by
  have hLegal : borrowingFiles.AllLegal := FileSystem.allLegal_of_trees (by decide +kernel)
  obtain ⟨chart, hChart, _⟩ := exists_ok_of_any
    (show (build borrowingFiles {} (.text "py") ["a.py"]).result.toOption.any
      (fun _ => true) = true by decide +kernel)
  obtain ⟨read, prepared, linked, hRun, _, _, hCalls, hAll⟩ :=
    library_calls_of_build hLegal hChart
  have hTest := hRun.test_of_passes
    (show passes borrowingFiles {} ["a.py"] (fun read prepared linked =>
      ((Linking.ownedCalls prepared.start.graph prepared.start.nodes).zip linked.edges).map
        (fun entry => (entry.1.2.owner, entry.1.2.token, entry.1.2.isLibrary,
          decide (entry.2.target.index < (Graph.loaded read).1.nodes.size),
          (linked.graph.node entry.2.target).isLibrary))
        == [(some "b", "run", true, true, false), (some "os", "getcwd", true, false, true)]) = true
      by decide +kernel)
  obtain ⟨inner, rest, hZip, hInner, hRest⟩ := List.map_eq_cons_iff.mp (eq_of_beq hTest)
  obtain ⟨outer, _, rfl, hOuter, _⟩ := List.map_eq_cons_iff.mp hRest
  obtain ⟨⟨caller, call⟩, edge⟩ := inner
  obtain ⟨⟨caller', call'⟩, edge'⟩ := outer
  simp only [Prod.mk.injEq, decide_eq_true_eq, decide_eq_false_iff_not] at hInner hOuter
  obtain ⟨hOwner, hToken, hLibrary, _, hOwn⟩ := hInner
  obtain ⟨hOwner', hToken', hLibrary', hNew, hOther⟩ := hOuter
  obtain ⟨hSource, _, _, owner, hSome, hOffers, hCases, _⟩ := hCalls caller call edge
    (by rw [hZip]; simp) hLibrary (by simp [hOwner])
  obtain ⟨hSource', hPresent, _, owner', hSome', hOffers', _, hIff⟩ := hCalls caller' call' edge'
    (by rw [hZip]; simp) hLibrary' (by simp [hOwner'])
  cases hOwner.symm.trans hSome
  cases hOwner'.symm.trans hSome'
  rw [hToken] at hOffers
  rw [hToken'] at hOffers' hIff
  have hNot : ¬(Graph.loaded read).1.Listed edge'.target :=
    fun hListed => hNew ((loading_insertFiles read).lt_of_listed hListed)
  refine ⟨chart, read, prepared, linked, hChart, hRun, (caller, call, edge),
    (caller', call', edge'), hOwner, hOwner', hSource, hSource', ?_, hOffers, hOther, hPresent,
    hOffers', fun n hn => ?_⟩
  · exact hCases.resolve_right (by simp [hOwn])
  · exact hIff.mp hNot n (hAll ⟨rfl, rfl⟩ ⟨rfl, rfl⟩ n hn) hn

end CallMap

end CallGraph
