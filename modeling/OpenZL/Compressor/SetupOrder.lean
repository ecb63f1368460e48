import OpenZL.Compressor.SetupBuilds

/-!
# Components are set up in dependency order

`setupNodes` and then `setupGraphs` are the two traversals of a deserialization. When every
reference leads somewhere and no description depends on itself, either all described components have
been registered, each once and after those it refers to, or the traversal was ended by a refusal.

* `components_settle` — a traversal ends; what it registers is in order; its errors are a cycle that
  is there, a reference that leads nowhere, or a refusal: a container that the descriptions can fill,
  one of them that cannot be read, a registration not accepted in the state reached by then.
* `reference_resolves_refused` — resolved references alone do not make it succeed.
-/

namespace OpenZL.Compressor.Setup

open Lib NamedTable
open Shared.A1cbor (Item)

section Statement

variable (map : A1C_Map) (refs : Pair → List Name)

/-- The description of `key` refers to the description of `d`. -/
def Refers (key d : Name) : Prop :=
  ∃ pair, A1C_Map_get map key = some pair ∧ d ∈ refs pair ∧ (A1C_Map_get map d).isSome

/-- No description depends on itself. -/
def Acyclic : Prop := ∀ key, ¬Relation.TransGen (Refers map refs) key key

/-- Every reference leads to a description, or to what exists. -/
def Supplied (targets : A1C_Map) (existing : Name → Bool) : Prop :=
  ∀ key pair d, A1C_Map_get map key = some pair → d ∈ refs pair →
    (A1C_Map_get targets d).isSome = true ∨ existing d = true

/-- `order` lists the described names, each once and after those it refers to. -/
structure InOrder (order : List Name) : Prop where
  nodup : order.Nodup
  mem : ∀ key, key ∈ order ↔ (A1C_Map_get map key).isSome
  after : ∀ before key later, order = before ++ key :: later →
    ∀ d, Refers map refs key d → d ∈ before

/-- What a traversal of `map` comes to. -/
structure Settles (supplied : Prop) (refusal : Stop → Prop) (registered : State → Prop)
    (result : Except Stop State) : Prop where
  ends : result ≠ .error .outOfFuel
  registers : ∀ st, result = .ok st → registered st
  succeeds : supplied → Acyclic map refs →
    (∃ st, result = .ok st) ∨ ∃ e, result = .error e ∧ refusal e
  errors : ∀ e, result = .error e → e = .cycle ∨ (e = .missing ∧ ¬supplied) ∨ refusal e
  cyclic : ∀ key, Relation.TransGen (Refers map refs) key key → ∃ e, result = .error e
  reported : result = .error .cycle → ∃ key, Relation.TransGen (Refers map refs) key key

end Statement

section Setup

variable (R : Registry) (doc : Serialized)

/-- `ZL_CompressorDeserializer_setupNodes`, on a compressor and no names. -/
def setupNodes (c : ZL_Compressor) : Except Stop State :=
  dfs (tryBuildNode R doc) (rounds doc.nodes nodeRefs) doc.nodes ⟨c, .empty, .empty⟩

/-- `ZL_CompressorDeserializer_setupGraphs`. -/
def setupGraphs (st : State) : Except Stop State :=
  dfs (tryBuildGraph R doc) (rounds doc.graphs graphRefs) doc.graphs st

/-- The nodes that were registered: those described, in order. -/
def NodesRegistered (c : ZL_Compressor) (st : State) : Prop :=
  ∃ order added, InOrder doc.nodes nodeRefs order ∧
    st.compressor = { c with cnodes := c.cnodes ++ added } ∧
    added.map CNode.name = order.map (Resolver.rename st.node_names.map)

/-- The graphs that were registered: those described, in order. -/
def GraphsRegistered (st st' : State) : Prop :=
  ∃ order added, InOrder doc.graphs graphRefs order ∧
    st'.compressor = { st.compressor with gdv := st.compressor.gdv ++ added } ∧
    added.map Graph_Desc_internal.name = order.map (Resolver.rename st'.graph_names.map)

/-- The compressor has only gained nodes. -/
def NodesAdded (c c' : ZL_Compressor) : Prop :=
  ∃ added, c' = { c with cnodes := c.cnodes ++ added }

/-- A state of the setup of nodes on `c`: what was built follows what it refers to. -/
def NodesBuilt (c : ZL_Compressor) (names : NameMap Name) (c' : ZL_Compressor) : Prop :=
  (nodeSetup R doc).Built (NodesAdded c) (fun c => c.cnodes.map CNode.name) c names c'

/-- All nodes are set up, and the compressor has only gained graphs. -/
def GraphsAdded (c : ZL_Compressor) (env : GraphEnv) : Prop :=
  NodesReady R doc env ∧ ∃ added, env.compressor = { c with gdv := c.gdv ++ added }

/-- A state of the setup of graphs from `st` on. -/
def GraphsBuilt (st : State) (names : NameMap Name) (env : GraphEnv) : Prop :=
  (graphSetup R doc).Built (GraphsAdded R doc st.compressor)
    (fun env => env.compressor.gdv.map Graph_Desc_internal.name) st.graphEnv names env

/-- The setup of nodes on `c` is refused: by a container that the descriptions can fill, for one of
them that cannot be read, or by the registration of a described node whose base is resolved, in the
state reached by then. -/
def NodeRefusal (c : ZL_Compressor) (e : Stop) : Prop :=
  (e = .allocation ∧ NodesFill doc) ∨
    (∃ code, e = .malformed code ∧ ∃ pair ∈ doc.nodes, ¬NodeReadable pair) ∨
    ∃ code, e = .refused code ∧ ∃ pair ∈ described doc.nodes, ∃ names c',
      NodesBuilt R doc c names c' ∧ (∀ d ∈ nodeRefs pair, Resolver.Resolved names d) ∧
        buildNode R doc pair names c' = .error e

/-- The setup of graphs from `st` on is refused. -/
def GraphRefusal (st : State) (e : Stop) : Prop :=
  (e = .allocation ∧ GraphsFill doc ∨ NodeNamesFull doc e) ∨
    (∃ code, e = .malformed code ∧ ∃ pair ∈ doc.graphs, ¬GraphReadable pair) ∨
    ∃ code, e = .refused code ∧ ∃ pair ∈ described doc.graphs, ∃ names env,
      GraphsBuilt R doc st names env ∧ (∀ d ∈ graphRefs pair, Resolver.Resolved names d) ∧
        buildGraph R doc pair names env = .error e

/-- Every reference of a node leads somewhere. -/
def NodesSupplied (c : ZL_Compressor) : Prop :=
  Supplied doc.nodes nodeRefs doc.nodes fun d => (lookupNodeHelper R c d).isSome

/-- Every reference of a graph leads somewhere. -/
def GraphsSupplied (c : ZL_Compressor) : Prop :=
  Supplied doc.graphs graphRefs doc.graphs (fun d => (lookupGraphHelper R c d).isSome) ∧
    Supplied doc.graphs graphNodeRefs doc.nodes fun d => (lookupNodeHelper R c d).isSome

end Setup

section Loop

variable {γ σ : Type} {T : Resolver Name Pair γ σ Stop} {map : A1C_Map} {refs : Pair → List Name}
  {P : σ → Prop} {trace : σ → List Name} {s₀ s : σ} {names : NameMap Name}

/-- The resolver is one over the descriptions of a map. -/
structure Over (T : Resolver Name Pair γ σ Stop) (map : A1C_Map) (refs : Pair → List Name) :
    Prop where
  items : T.items = described map
  key : T.key = pairName
  deps : T.deps = refs
  cycle : T.cycle = .cycle
  missing : T.missing = .missing

variable (hT : Over T map refs)

include hT

theorem Over.lookup (key : Name) : T.lookup key = A1C_Map_get map key := by
  rw [Resolver.lookup, hT.items, hT.key, find?_described]

theorem Over.needs_iff (key d : Name) :
    T.Needs key d ↔ Refers map refs key d := by
  simp only [Resolver.Needs, Refers, hT.items, hT.key, hT.deps, hT.lookup]
  constructor
  · rintro ⟨pair, hpair, rfl, hd⟩
    exact ⟨pair, (mem_described.1 hpair).2, hd⟩
  · rintro ⟨pair, hpair, hd⟩
    have hname : pairName pair = key := by
      rw [pairName, (A1C_Map_get_some hpair).2, Option.getD_some]
    refine ⟨pair, mem_described.2 ⟨?_, ?_⟩, hname, hd⟩
    · rw [hname, (A1C_Map_get_some hpair).2]
    · rw [hname, hpair]

theorem Over.needs : T.Needs = Refers map refs := by
  funext key d
  exact propext (hT.needs_iff key d)

theorem Over.nodup : (T.items.map T.key).Nodup := by
  rw [hT.items, hT.key]
  exact nodup_described map

theorem Over.inOrder (hbuilt : T.Built P trace s₀ names s)
    (hall : ∀ pair ∈ T.items, Resolver.Resolved names (T.key pair)) :
    Acyclic map refs ∧ ∃ order, InOrder map refs order ∧
      trace s = trace s₀ ++ order.map (Resolver.rename names) := by
  constructor
  · intro key
    rw [← hT.needs]
    exact Resolver.acyclic_of_acc (fun pair hpair => hbuilt.founded _ (hall pair hpair)) key
  · obtain ⟨order, hlog⟩ := hbuilt.logged
    refine ⟨order, ⟨hlog.nodup, fun key => ?_, ?_⟩, hlog.trace⟩
    · rw [hlog.mem, hT.lookup, and_iff_left_iff_imp]
      intro hsome
      obtain ⟨pair, hpair⟩ := Option.isSome_iff_exists.1 hsome
      have hl : T.lookup key = some pair := by rw [hT.lookup, hpair]
      exact Resolver.lookup_key hl ▸ hall pair (Resolver.lookup_mem hl)
    · intro before key later hsplit d hrefers
      obtain ⟨pair, hpair, hkey, hd, hsome⟩ := (hT.needs_iff key d).2 hrefers
      exact hlog.after pair hpair before later (hkey ▸ hsplit) d hd hsome

variable {func : Pair → List Pair → State → Except Stop (List Pair × State)}
  {nm : State → NameMap Name} {env : State → σ} {Inv : State → Prop} {fault : Pair → Stop → Prop}
  {st : State}

variable (hV : T.Visits (visitPair func) nm env Inv (rounds map refs) fault map)
  (hone : T.BuildsOne P trace) (hstart : nm st = fun _ => none) (hinv : Inv st) (henv : P (env st))

include hV hone hstart hinv henv

theorem Over.dfs_spec :
    (∃ st', dfs func (rounds map refs) map st = .ok st' ∧ Inv st' ∧
      T.Built P trace (env st) (nm st') (env st') ∧ (∀ key, nm st' key ≠ some none) ∧
      ∀ pair ∈ T.items, Resolver.Resolved (nm st') (T.key pair)) ∨
    ∃ e, dfs func (rounds map refs) map st = .error e ∧
      T.Stops fault map (T.Built P trace (env st)) e := by
  have hbuilt : T.Built P trace (env st) (nm st) (env st) := by
    rw [hstart]
    refine ⟨henv, fun d new hnew => ?_, ⟨[], .initial trace (env st)⟩, ?_⟩
    · cases hnew
    · rintro k ⟨new, hnew⟩
      cases hnew
  have hwork : T.pendingWork (nm st) map [] < rounds map refs := by
    have hweight : T.weight = fun pair => 1 + (refs pair).length := by
      funext pair
      rw [Resolver.weight, hT.deps]
    simp only [Resolver.pendingWork, hstart, hT.items, hweight, rounds, Option.isNone_none,
      List.filter_true, List.length_nil]
    omega
  have hpending : T.Pending (T.Built P trace (env st)) [] (nm st) (env st) := by
    refine ⟨⟨fun _ h => h, by simp, ?_, fun _ h => .inl h⟩, ?_, hbuilt⟩
    · intro k hk
      simp [hstart] at hk
    · intro k hk
      simp [hstart] at hk
  exact hV.traverse_spec (hone.sound hT.nodup (env st)) (fun _ _ h => h.known)
    (List.nil_append map).symm hwork le_rfl hinv hpending (by simp)

theorem Over.settles {supplied : Prop} {refusal : Stop → Prop} {registered : State → Prop}
    (hregistered : ∀ st', T.Built P trace (env st) (nm st') (env st') →
      (∀ pair ∈ T.items, Resolver.Resolved (nm st') (T.key pair)) → registered st')
    (hrefusal : ∀ e, refusal e → e ≠ .cycle ∧ e ≠ .outOfFuel)
    (hfault : ∀ pair ∈ map, ∀ e, fault pair e → refusal e)
    (hmissing : ∀ pair ∈ described map, ∀ d ∈ refs pair, ∀ s, A1C_Map_get map d = none →
      T.existing s d = none → P s → ¬supplied)
    (hbuild : ∀ pair ∈ described map, ∀ names s e,
      (∀ d ∈ refs pair, Resolver.Resolved names d) → T.Built P trace (env st) names s →
      T.build pair names s = .error e → refusal e ∨ e = .missing ∧ ¬supplied) :
    Settles map refs supplied refusal registered (dfs func (rounds map refs) map st) := by
  rcases hT.dfs_spec hV hone hstart hinv henv with
    ⟨st', hok, -, hbuilt, -, hall⟩ | ⟨e, herr, hstop⟩
  · have hacyclic := (hT.inOrder hbuilt hall).1
    constructor
    · simp [hok]
    · intro st'' h
      rw [hok] at h
      cases h
      exact hregistered st' hbuilt hall
    · exact fun _ _ => .inl ⟨st', hok⟩
    · intro e herr
      rw [hok] at herr
      cases herr
    · exact fun key hkey => absurd hkey (hacyclic key)
    · simp [hok]
  · have hcases : (e = .cycle ∧ ∃ key, Relation.TransGen (Refers map refs) key key) ∨
        refusal e ∨ (e = .missing ∧ ¬supplied) := by
      cases hstop with
      | cycle key hkey => exact .inl ⟨hT.cycle, key, hT.needs ▸ hkey⟩
      | missing pair d names s hpair hd hl hnone hbuilt =>
        rw [hT.items] at hpair
        rw [hT.deps] at hd
        rw [hT.lookup] at hl
        exact .inr (.inr ⟨hT.missing, hmissing pair hpair d hd s hl hnone hbuilt.env⟩)
      | fault pair e hpair he => exact .inr (.inl (hfault pair hpair e he))
      | build pair names s e hpair hdeps hbuilt he =>
        rw [hT.items] at hpair
        rw [hT.deps] at hdeps
        exact .inr (hbuild pair hpair names s e hdeps hbuilt he)
    constructor
    · rw [herr]
      rintro h
      cases h
      rcases hcases with ⟨h, -⟩ | h | ⟨h, -⟩
      · cases h
      · exact (hrefusal _ h).2 rfl
      · cases h
    · intro st' h
      rw [herr] at h
      cases h
    · intro hsupplied hacyclic
      refine .inr ⟨e, herr, ?_⟩
      rcases hcases with ⟨-, key, hkey⟩ | h | ⟨-, h⟩
      · exact absurd hkey (hacyclic key)
      · exact h
      · exact absurd hsupplied h
    · intro e' herr'
      rw [herr] at herr'
      cases herr'
      exact hcases.imp And.left Or.symm
    · exact fun _ _ => ⟨e, herr⟩
    · rw [herr]
      rintro h
      cases h
      rcases hcases with ⟨-, hkey⟩ | h | ⟨h, -⟩
      · exact hkey
      · exact absurd rfl (hrefusal _ h).1
      · cases h

end Loop

section Nodes

variable (R : Registry) (doc : Serialized) (c : ZL_Compressor)

theorem over_nodeSetup : Over (nodeSetup R doc) doc.nodes nodeRefs := ⟨rfl, rfl, rfl, rfl, rfl⟩

theorem nodeSetup_buildsOne :
    (nodeSetup R doc).BuildsOne (NodesAdded c) fun c => c.cnodes.map CNode.name := by
  rintro pair names c₁ c₂ new - - - ⟨added, rfl⟩ hb
  obtain ⟨n, rfl, hname, -, hsome⟩ := buildNode_ok hb
  refine ⟨⟨added ++ [n], by simp⟩, by simp [hname], hsome, fun k hk => ?_⟩
  exact lookupNodeHelper_append [n] hk

variable {R doc c}

theorem NodesAdded.supplies {c' : ZL_Compressor} (h : NodesAdded c c') {d : Name}
    (hnone : lookupNodeHelper R c' d = none) : ¬(lookupNodeHelper R c d).isSome = true := by
  intro hsome
  obtain ⟨added, rfl⟩ := h
  have hsome' := lookupNodeHelper_append added hsome
  rw [hnone] at hsome'
  cases hsome'

theorem nodesRegistered {st : State}
    (hbuilt : NodesBuilt R doc c st.node_names.map st.compressor)
    (hall : ∀ pair ∈ (nodeSetup R doc).items,
      Resolver.Resolved st.node_names.map ((nodeSetup R doc).key pair)) :
    NodesRegistered doc c st := by
  obtain ⟨order, horder, htrace⟩ := ((over_nodeSetup R doc).inOrder hbuilt hall).2
  obtain ⟨added, hadded⟩ := hbuilt.env
  refine ⟨order, added, horder, hadded, ?_⟩
  rw [hadded, List.map_append] at htrace
  exact List.append_cancel_left htrace

theorem setupNodes_spec (R : Registry) (doc : Serialized) (c : ZL_Compressor) :
    Settles doc.nodes nodeRefs (NodesSupplied R doc c) (NodeRefusal R doc c)
      (NodesRegistered doc c) (setupNodes R doc c) := by
  refine (over_nodeSetup R doc).settles (tryBuildNode_visits R doc) (nodeSetup_buildsOne R doc c)
    rfl ⟨Nat.zero_le _, rfl⟩ ⟨[], by simp⟩ (fun st => nodesRegistered) ?_ ?_ ?_ ?_
  · rintro e (⟨rfl, -⟩ | ⟨code, rfl, -⟩ | ⟨code, rfl, -⟩) <;> exact ⟨by simp, by simp⟩
  · rintro pair hpair e (hfull | ⟨hread, code, rfl⟩)
    · exact .inl hfull
    · exact .inr (.inl ⟨code, rfl, pair, hpair, hread⟩)
  · intro pair hpair d hd c' hget hnone hadded hsupplied
    rcases hsupplied _ pair d (mem_described.1 hpair).2 hd with hsome | hsome
    · simp [hget] at hsome
    · exact hadded.supplies hnone hsome
  · intro pair hpair names c' e hdeps hbuilt hb
    have hmem := (A1C_Map_get_some (mem_described.1 hpair).2).1
    rcases buildNode_error hbuilt.known hdeps hb with ⟨hread, code, rfl⟩ | ⟨code, rfl⟩
    · exact .inl (.inr (.inl ⟨code, rfl, pair, hmem, hread⟩))
    · exact .inl (.inr (.inr ⟨code, rfl, pair, hpair, names, c', hbuilt, hdeps, hb⟩))

theorem setupNodes_ready {st : State} (h : setupNodes R doc c = .ok st) :
    NodesReady R doc st.graphEnv ∧ NodesAdded c st.compressor ∧ st.graph_names = .empty := by
  have hstart : NodesAdded c (State.mk c .empty .empty).compressor := ⟨[], by simp⟩
  rcases (over_nodeSetup R doc).dfs_spec (tryBuildNode_visits R doc) (nodeSetup_buildsOne R doc c)
    rfl ⟨Nat.zero_le _, rfl⟩ hstart with ⟨st', hok, hfits, hbuilt, hmark, hall⟩ | ⟨e, herr, -⟩
  · rw [setupNodes, hok] at h
    cases h
    exact ⟨⟨hmark, hall, hbuilt.known, hfits.1.append _⟩, hbuilt.env, hfits.2⟩
  · rw [setupNodes, herr] at h
    cases h

end Nodes

section Graphs

variable (R : Registry) (doc : Serialized) (c : ZL_Compressor)

theorem over_graphSetup : Over (graphSetup R doc) doc.graphs graphRefs :=
  ⟨rfl, rfl, rfl, rfl, rfl⟩

theorem graphSetup_buildsOne :
    (graphSetup R doc).BuildsOne (GraphsAdded R doc c)
      fun env => env.compressor.gdv.map Graph_Desc_internal.name := by
  rintro pair names env env' new hpair hdeps hknown ⟨hready, added, hadded⟩ hb
  have hspec := buildGraph_spec hready hpair hdeps hknown
  rw [show buildGraph R doc pair names env = .ok (env', new) from hb] at hspec
  obtain ⟨hready', g, hc, hname, -, hsome⟩ := hspec
  refine ⟨⟨hready', added ++ [g], by rw [hc, hadded]; simp⟩, by simp [hc, hname], hsome,
    fun k hk => ?_⟩
  have hkept := lookupGraphHelper_append [g] hk
  rw [← hc] at hkept
  exact hkept

variable {R doc c}

theorem graphsRegistered {st st' : State}
    (hbuilt : GraphsBuilt R doc st st'.graph_names.map st'.graphEnv)
    (hall : ∀ pair ∈ (graphSetup R doc).items,
      Resolver.Resolved st'.graph_names.map ((graphSetup R doc).key pair)) :
    GraphsRegistered doc st st' := by
  obtain ⟨order, horder, htrace⟩ := ((over_graphSetup R doc).inOrder hbuilt hall).2
  obtain ⟨-, added, hadded⟩ := hbuilt.env
  refine ⟨order, added, horder, hadded, ?_⟩
  rw [hadded, List.map_append] at htrace
  exact List.append_cancel_left htrace

theorem GraphsAdded.supplies {st : State} {env : GraphEnv} (h : GraphsAdded R doc st.compressor env)
    (hnodes : NodesAdded c st.compressor) {d : Name}
    (hnone : lookupGraphHelper R env.compressor d = none) :
    ¬(lookupGraphHelper R c d).isSome = true := by
  intro hsome
  obtain ⟨-, added, hadded⟩ := h
  obtain ⟨nodes, hnodes⟩ := hnodes
  have hsome' : (lookupGraphHelper R st.compressor d).isSome = true := by
    rw [hnodes]
    exact hsome
  have hkept := lookupGraphHelper_append added hsome'
  rw [← hadded, hnone] at hkept
  cases hkept

theorem GraphsAdded.suppliesNodes {st : State} {env : GraphEnv}
    (h : GraphsAdded R doc st.compressor env) (hnodes : NodesAdded c st.compressor) {d : Name}
    (hnone : lookupNodeHelper R env.compressor d = none) :
    ¬(lookupNodeHelper R c d).isSome = true := by
  obtain ⟨-, added, hadded⟩ := h
  rw [hadded] at hnone
  exact hnodes.supplies hnone

theorem setupGraphs_spec {st : State} (h : setupNodes R doc c = .ok st) :
    Settles doc.graphs graphRefs (GraphsSupplied R doc c) (GraphRefusal R doc st)
      (GraphsRegistered doc st) (setupGraphs R doc st) := by
  obtain ⟨hready, hnodes, hnames⟩ := setupNodes_ready h
  have hstart : st.graph_names.map = fun _ => none := by rw [hnames]; rfl
  have hempty : GraphsFit doc st := by
    rw [GraphsFit, hnames]
    exact Nat.zero_le _
  have henv : GraphsAdded R doc st.compressor st.graphEnv :=
    ⟨hready, [], by simp [State.graphEnv]⟩
  refine (over_graphSetup R doc).settles (tryBuildGraph_visits R doc)
    (graphSetup_buildsOne R doc st.compressor) hstart hempty henv (fun st' => graphsRegistered)
    ?_ ?_ ?_ ?_
  · rintro e ((⟨rfl, -⟩ | ⟨rfl, -⟩) | ⟨code, rfl, -⟩ | ⟨code, rfl, -⟩) <;> exact ⟨by simp, by simp⟩
  · rintro pair hpair e (hfull | ⟨hread, code, rfl⟩)
    · exact .inl (.inl hfull)
    · exact .inr (.inl ⟨code, rfl, pair, hpair, hread⟩)
  · intro pair hpair d hd env hget hnone hadded hsupplied
    rcases hsupplied.1 _ pair d (mem_described.1 hpair).2 hd with hsome | hsome
    · simp [hget] at hsome
    · exact hadded.supplies hnodes hnone hsome
  · intro pair hpair names env e hdeps hbuilt hb
    have hmem := (A1C_Map_get_some (mem_described.1 hpair).2).1
    have hspec := buildGraph_spec hbuilt.env.1 hpair hdeps hbuilt.known
    rw [show buildGraph R doc pair names env = .error e from hb] at hspec
    rcases hspec with hfull | ⟨hread, code, rfl⟩ | ⟨rfl, d, hd, hget, hnone⟩ | ⟨code, rfl⟩
    · exact .inl (.inl (.inr hfull))
    · exact .inl (.inr (.inl ⟨code, rfl, pair, hmem, hread⟩))
    · refine .inr ⟨rfl, fun hsupplied => ?_⟩
      rcases hsupplied.2 _ pair d (mem_described.1 hpair).2 hd with hsome | hsome
      · simp [hget] at hsome
      · exact hbuilt.env.suppliesNodes hnodes hnone hsome
    · exact .inl (.inr (.inr ⟨code, rfl, pair, hpair, names, env, hbuilt, hdeps, hb⟩))

end Graphs

/-- **Components are set up in dependency order.** -/
theorem components_settle (R : Registry) (doc : Serialized) (c : ZL_Compressor) :
    Settles doc.nodes nodeRefs (NodesSupplied R doc c) (NodeRefusal R doc c)
        (NodesRegistered doc c) (setupNodes R doc c) ∧
      ∀ st, setupNodes R doc c = .ok st →
        Settles doc.graphs graphRefs (GraphsSupplied R doc c) (GraphRefusal R doc st)
          (GraphsRegistered doc st) (setupGraphs R doc st) :=
  ⟨setupNodes_spec R doc c, fun _ h => setupGraphs_spec h⟩

/-- A string item. -/
def text (name : Name) : Item := .string (name.map fun a => UInt8.ofNat a.toNat)

/-- A name of the library. -/
def libraryName (p : Name) (hHash : '#' ∉ p) (hBang : '!' ∉ p)
    (hShort : p.length ≤ ZL_PREFIX_MAX_LEN) : ComponentName := ⟨p, none, hHash, hBang, hShort⟩

/-- A library with one node `b` and one graph `s`, on serial streams. -/
def smallLibrary : Registry where
  standardNodes := [none, some ⟨libraryName ['b'] (by decide) (by decide) (by decide),
    ZL_NODE_ILLEGAL, ⟨[ZL_Type_serial], false, [ZL_Type_serial], []⟩, .none⟩]
  standardGraphs := [none, some ⟨libraryName ['s'] (by decide) (by decide) (by decide),
    ZL_GRAPH_ILLEGAL, .standard, ⟨[ZL_Type_serial], false, [], [], .none⟩⟩]

/-- A node `n` made from `b`, and a graph `g` that runs it and then `s`. -/
def chainDoc : Serialized where
  params := []
  nodes := [(text ['n'], .map [(text ['b', 'a', 's', 'e'], text ['b'])])]
  graphs := [(text ['g'], .map [
    (text ['t', 'y', 'p', 'e'], text ['s', 't', 'a', 't', 'i', 'c']),
    (text ['s', 'u', 'c', 'c', 'e', 's', 's', 'o', 'r', 's'], .array [text ['s']]),
    (text ['n', 'o', 'd', 'e'], text ['n'])])]
  mparams := []

theorem components_settle_chain : ∃ st st',
    setupNodes smallLibrary chainDoc ZL_Compressor_create = .ok st ∧
    setupGraphs smallLibrary chainDoc st = .ok st' ∧
    NodesRegistered chainDoc ZL_Compressor_create st ∧ GraphsRegistered chainDoc st st' := by
  have hruns : ∃ st, setupNodes smallLibrary chainDoc ZL_Compressor_create = .ok st ∧
      ∃ st', setupGraphs smallLibrary chainDoc st = .ok st' := ⟨_, rfl, _, rfl⟩
  obtain ⟨st, hnodes, st', hgraphs⟩ := hruns
  have hsettle := components_settle smallLibrary chainDoc ZL_Compressor_create
  exact ⟨st, st', hnodes, hgraphs, hsettle.1.registers st hnodes,
    (hsettle.2 st hnodes).registers st' hgraphs⟩

/-- A node `n` made from `b` with a parameter set that is not there. -/
def lostParamsDoc : Serialized where
  params := []
  nodes := [(text ['n'], .map [(text ['b', 'a', 's', 'e'], text ['b']),
    (text ['p', 'a', 'r', 'a', 'm', 's'], text ['p'])])]
  graphs := []
  mparams := []

/-- **Resolved references are not enough**: the parameters of a node can be refused. -/
theorem reference_resolves_refused : ¬∀ (R : Registry) (doc : Serialized) (c : ZL_Compressor),
    NodesSupplied R doc c → Acyclic doc.nodes nodeRefs →
      ∃ st, setupNodes R doc c = .ok st ∧ NodesRegistered doc c st := by
  intro hall
  have hget : ∀ key pair, A1C_Map_get lostParamsDoc.nodes key = some pair →
      nodeRefs pair = [['b']] := by
    intro key pair h
    have hmem := (A1C_Map_get_some h).1
    rw [List.mem_singleton.1 hmem]
    rfl
  have hsupplied : NodesSupplied smallLibrary lostParamsDoc ZL_Compressor_create := by
    intro key pair d h hd
    rw [hget key pair h, List.mem_singleton] at hd
    subst hd
    exact .inr rfl
  have hacyclic : Acyclic lostParamsDoc.nodes nodeRefs := by
    intro key hcycle
    obtain ⟨d, ⟨pair, hpair, hd, hsome⟩, -⟩ := Relation.TransGen.head'_iff.1 hcycle
    rw [hget key pair hpair, List.mem_singleton] at hd
    subst hd
    cases hsome
  have hrefused : setupNodes smallLibrary lostParamsDoc ZL_Compressor_create =
      .error (.refused .corruption) := rfl
  obtain ⟨st, hok, -⟩ := hall smallLibrary lostParamsDoc ZL_Compressor_create hsupplied hacyclic
  rw [hrefused] at hok
  cases hok

end OpenZL.Compressor.Setup
