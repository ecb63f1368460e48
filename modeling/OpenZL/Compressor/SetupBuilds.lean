import OpenZL.Compressor.SetupGraphs

/-!
# Registering graphs

What the registration of a graph does once the graphs it refers to are resolved, and all nodes are.

Principal results: `findGraphs_isOk`, `buildGraph_spec`.
-/

namespace OpenZL.Compressor.Setup

open Lib NamedTable
open Shared.A1cbor (Item)

section Builds

variable (R : Registry) (doc : Serialized)

/-- The names the table of nodes can hold in the end. -/
def nodeNames : List Name :=
  namesOf doc.nodes nodeRefs ++ (described doc.graphs).flatMap graphNodeRefs

/-- The table of nodes is full. -/
def NodeNamesFull (e : Stop) : Prop :=
  e = .allocation ∧ ZL_ENCODER_GRAPH_LIMIT ≤ (nodeNames doc).length

/-- All nodes have been set up. -/
structure NodesReady (env : GraphEnv) : Prop where
  mark : ∀ name, env.node_names.map name ≠ some none
  described : ∀ pair ∈ described doc.nodes, Resolver.Resolved env.node_names.map (pairName pair)
  known : (nodeSetup R doc).Known env.node_names.map env.compressor
  fits : env.node_names.Fits (nodeNames doc)

/-- A reference to a node leads nowhere. -/
def NoNode (c : ZL_Compressor) (name : Name) : Prop :=
  A1C_Map_get doc.nodes name = none ∧ lookupNodeHelper R c name = none

variable {R doc} {env env' : GraphEnv} {c c' : ZL_Compressor} {pair : Pair}

theorem NodesReady.grows {node_names : Names} (h : NodesReady R doc env)
    (hg : (nodeSetup R doc).Grows env.compressor env.node_names.map node_names.map)
    (hfits : node_names.Fits (nodeNames doc)) :
    NodesReady R doc { env with node_names := node_names } :=
  ⟨fun name hname => h.mark name ((hg.mark_iff name).1 hname),
    fun pair hpair => hg.resolved (h.described pair hpair), h.known.grows hg, hfits⟩

theorem findNode_spec (h : NodesReady R doc env) (item : Option Item)
    (hB : ∀ name, tryGetString item = .ok name → name ∈ nodeNames doc) :
    match findNode R doc env item with
    | .ok (env', _) => NodesReady R doc env' ∧ env'.compressor = env.compressor
    | .error e => NodeNamesFull doc e ∨
        ((∀ name, tryGetString item ≠ .ok name) ∧ ∃ code, e = .malformed code) ∨
        e = .missing ∧ ∃ name, tryGetString item = .ok name ∧ NoNode R doc env.compressor name := by
  unfold findNode
  cases hname : tryGetString item with
  | error code => exact .inr (.inl ⟨fun name hread => (by cases hread), code, rfl⟩)
  | ok name =>
    simp only [readable, ok_bind]
    cases hfind : findIfNodeNeedsSetup R env.compressor doc.nodes env.node_names name with
    | error e =>
      rcases (mirrors_nodeSetup env.compressor).find_error hfind with ⟨rfl, hsize⟩ | he
      · exact .inl ⟨rfl, hsize.trans h.fits.le⟩
      · rcases Resolver.resolve_error he with ⟨-, hmark⟩ | ⟨new, hnew, hnone⟩ | ⟨rfl, hl, hnone⟩
        · exact absurd hmark (h.mark name)
        · have hsome := h.known name new hnew
          rw [hnone] at hsome
          cases hsome
        · refine .inr (.inr ⟨rfl, name, rfl, ?_, hnone⟩)
          rw [← find?_described doc.nodes name]
          exact hl
    | ok r =>
      obtain ⟨node_names, found⟩ := r
      have hres := (mirrors_nodeSetup (R := R) env.compressor).find_ok hfind
      obtain ⟨hg, -, hcase⟩ := Resolver.resolve_ok hres
      cases found with
      | inl setup_item =>
        exfalso
        rcases hcase with ⟨x, -, hl, hnone⟩ | ⟨_, hc, -⟩
        · obtain ⟨new, hnew⟩ := h.described x (Resolver.lookup_mem hl)
          have hkey : pairName x = name := Resolver.lookup_key hl
          rw [hkey, hnone] at hnew
          cases hnew
        · cases hc
      | inr nid => exact ⟨h.grows hg (find_fits h.fits (hB name hname) hfind), rfl⟩

theorem findNodes_spec (h : NodesReady R doc env) {items : List Item}
    (hB : ∀ name ∈ readNames items, name ∈ nodeNames doc) :
    match findNodes R doc env items with
    | .ok (env', _) => NodesReady R doc env' ∧ env'.compressor = env.compressor
    | .error e => NodeNamesFull doc e ∨ (¬AllRead items ∧ ∃ code, e = .malformed code) ∨
        e = .missing ∧ ∃ name ∈ readNames items, NoNode R doc env.compressor name := by
  induction items generalizing env with
  | nil => exact ⟨h, rfl⟩
  | cons item items ih =>
    rw [findNodes]
    have hnode := findNode_spec h (some item) fun name hname => hB name (by simp [readNames, hname])
    cases hfind : findNode R doc env (some item) with
    | error e =>
      rw [hfind] at hnode
      rcases hnode with he | ⟨hunread, he⟩ | ⟨he, name, hname, hno⟩
      · exact .inl he
      · refine .inr (.inl ⟨fun hall => ?_, he⟩)
        obtain ⟨name, hname⟩ := hall item (by simp)
        exact hunread name hname
      · exact .inr (.inr ⟨he, name, by simp [readNames, hname], hno⟩)
    | ok r =>
      obtain ⟨env₁, nid⟩ := r
      rw [hfind] at hnode
      obtain ⟨hready, hc⟩ := hnode
      obtain ⟨name', hname⟩ : ∃ name', tryGetString (some item) = .ok name' := by
        cases hname : tryGetString (some item) with
        | ok name' => exact ⟨name', rfl⟩
        | error code =>
          unfold findNode at hfind
          rw [hname] at hfind
          cases hfind
      simp only [ok_bind]
      have hrest := ih hready fun name hmem => hB name (by simp [readNames, hname, hmem])
      cases hnodes : findNodes R doc env₁ items with
      | error e =>
        rw [hnodes] at hrest
        rcases hrest with he | ⟨hunread, he⟩ | ⟨he, name, hmem, hno⟩
        · exact .inl he
        · exact .inr (.inl ⟨fun hall => hunread fun i hi => hall i (by simp [hi]), he⟩)
        · exact .inr (.inr ⟨he, name, by simp [readNames, hname, hmem], hc ▸ hno⟩)
      | ok r =>
        rw [hnodes] at hrest
        exact ⟨hrest.1, hrest.2.trans hc⟩

theorem lookupGraphHelper_unique {n : ComponentName} (h : cstr n.unique = n.unique)
    (c : ZL_Compressor) :
    lookupGraphHelper R c n.unique = idOf Graph_Desc_internal.name (graphTable R c) n.unique := by
  rw [lookupGraphHelper, h, GM_getGraphByName, if_neg n.not_bang_unique]

theorem lookupGraphHelper_append {k : Name} (added : List Graph_Desc_internal)
    (h : (lookupGraphHelper R c k).isSome) :
    (lookupGraphHelper R { c with gdv := c.gdv ++ added } k).isSome := by
  unfold lookupGraphHelper GM_getGraphByName at *
  split at h
  · cases h
  · rename_i hhead
    rw [if_neg hhead]
    have htable : graphTable R { c with gdv := c.gdv ++ added } =
        graphTable R c ++ added.map some := by simp [graphTable]
    rw [htable]
    exact idOf_isSome_append h _

/-- One graph was added, under a fresh name. -/
def GraphAdded (R : Registry) (c c' : ZL_Compressor) (gid : GraphID) : Prop :=
  ∃ g, c' = { c with gdv := c.gdv ++ [g] } ∧ getGraphName R c' gid = .ok g.name ∧
    lookupGraphHelper R c g.name = none ∧ (lookupGraphHelper R c' g.name).isSome

theorem GM_registerInternalGraph_added {p : Name} {migd : FunctionGraphDesc} {base gid : GraphID}
    {type : GraphType}
    (h : GM_registerInternalGraph R c (some (cstr p)) migd base type = .ok (c', gid)) :
    GraphAdded R c c' gid := by
  obtain ⟨name, hinit, rfl, rfl, hfresh, -⟩ := GM_registerInternalGraph_ok h
  have hcstr := cstr_unique hinit
  have hsome : (idOf Graph_Desc_internal.name
      (graphTable R c ++ [some ⟨name, base, type, migd⟩]) name.unique).isSome :=
    idOf_concat_isSome (graphTable R c) (Graph_Desc_internal.mk name base type migd)
  rw [← graphTable_concat, ← lookupGraphHelper_unique hcstr] at hsome
  refine ⟨⟨name, base, type, migd⟩, rfl, ?_, ?_, hsome⟩
  · rw [getGraphName, getGraph, graphTable_concat, entry_concat]
  · exact (lookupGraphHelper_unique hcstr c).trans hfresh

theorem findGraphs_isOk (R : Registry) (doc : Serialized) {graph_names : Names}
    {items : List Item} (hall : AllRead items)
    (hres : ∀ d ∈ readNames items, Resolver.Resolved graph_names.map d)
    (hknown : ∀ d new, graph_names.map d = some (some new) → (lookupGraphHelper R c new).isSome) :
    ∃ gids, items.mapM (findGraph R doc c graph_names) = .ok gids := by
  induction items with
  | nil => exact ⟨[], rfl⟩
  | cons item items ih =>
    obtain ⟨name, hname⟩ := hall item (by simp)
    obtain ⟨new, hnew⟩ := hres name (mem_readNames hall (by simp) hname)
    obtain ⟨gid, hgid⟩ := Option.isSome_iff_exists.1 (hknown name new hnew)
    obtain ⟨gids, hgids⟩ := ih (fun i hi => hall i (by simp [hi]))
      (fun d hd => hres d (by simp [readNames, hname, hd]))
    refine ⟨gid :: gids, ?_⟩
    rw [List.mapM_cons, findGraph_resolved graph_names hname ⟨new, hnew⟩,
      resolvedComponent_eq hnew hgid, hgids]
    rfl

theorem findGraph_isOk (R : Registry) (doc : Serialized) {graph_names : Names} {item : Item}
    {name : Name}
    (hname : tryGetString (some item) = .ok name)
    (hres : Resolver.Resolved graph_names.map name)
    (hknown : ∀ d new, graph_names.map d = some (some new) → (lookupGraphHelper R c new).isSome) :
    ∃ gid, findGraph R doc c graph_names item = .ok gid := by
  obtain ⟨new, hnew⟩ := hres
  obtain ⟨gid, hgid⟩ := Option.isSome_iff_exists.1 (hknown name new hnew)
  exact ⟨gid, by rw [findGraph_resolved graph_names hname ⟨new, hnew⟩,
    resolvedComponent_eq hnew hgid]⟩

/-- What can go wrong in the registration of a graph whose prerequisites are resolved. -/
def RegisterFails (R : Registry) (doc : Serialized) (c : ZL_Compressor) (items : List Item)
    (e : Stop) : Prop :=
  NodeNamesFull doc e ∨ (¬AllRead items ∧ ∃ code, e = .malformed code) ∨
    (e = .missing ∧ ∃ name ∈ readNames items, NoNode R doc c name) ∨ ∃ code, e = .refused code

section Register

variable {graph_names : Names} {ser_name : Name} {val_map : A1C_Map}

theorem registerStatic_spec {successors : List Item} (h : NodesReady R doc env)
    (hall : AllRead successors)
    (hres : ∀ d ∈ readNames successors, Resolver.Resolved graph_names.map d)
    (hknown : ∀ d new, graph_names.map d = some (some new) →
      (lookupGraphHelper R env.compressor new).isSome)
    (hB : ∀ name ∈ readNames (A1C_Map_get_cstr val_map ['n', 'o', 'd', 'e']).toList,
      name ∈ nodeNames doc) :
    match registerStatic R doc ser_name val_map successors graph_names env with
    | .ok (env', gid) =>
      NodesReady R doc env' ∧ GraphAdded R env.compressor env'.compressor gid
    | .error e => (A1C_Map_get_cstr val_map ['n', 'o', 'd', 'e'] = none ∧
          ∃ code, e = .malformed code) ∨
        RegisterFails R doc env.compressor
          (A1C_Map_get_cstr val_map ['n', 'o', 'd', 'e']).toList e := by
  unfold registerStatic
  have hnode := findNode_spec h (A1C_Map_get_cstr val_map ['n', 'o', 'd', 'e']) fun name hname => by
    cases hitem : A1C_Map_get_cstr val_map ['n', 'o', 'd', 'e'] with
    | none =>
      rw [hitem] at hname
      cases hname
    | some item => exact hB name (by simp [hitem, readNames, hitem ▸ hname])
  cases hfind : findNode R doc env (A1C_Map_get_cstr val_map ['n', 'o', 'd', 'e']) with
  | error e =>
    rw [hfind] at hnode
    cases hitem : A1C_Map_get_cstr val_map ['n', 'o', 'd', 'e'] with
    | none =>
      rw [hitem] at hnode
      rcases hnode with he | ⟨-, he⟩ | ⟨-, name, hname, -⟩
      · exact .inr (.inl he)
      · exact .inl ⟨rfl, he⟩
      · cases hname
    | some item =>
      rw [hitem] at hnode
      refine .inr ?_
      rcases hnode with he | ⟨hunread, he⟩ | ⟨he, name, hname, hno⟩
      · exact .inl he
      · refine .inr (.inl ⟨fun hall => ?_, he⟩)
        obtain ⟨name, hname⟩ := hall item (by simp)
        exact hunread name hname
      · exact .inr (.inr (.inl ⟨he, name, by simp [readNames, hname], hno⟩))
  | ok r =>
    obtain ⟨env₁, nid⟩ := r
    rw [hfind] at hnode
    obtain ⟨hready, hc⟩ := hnode
    have hrefused : ∀ e, (∃ code, e = Stop.refused code) → RegisterFails R doc env.compressor
        (A1C_Map_get_cstr val_map ['n', 'o', 'd', 'e']).toList e :=
      fun e he => .inr (.inr (.inr he))
    simp only [ok_bind]
    cases hhead : NM_getCNode R env₁.compressor nid with
    | none => exact .inr (hrefused _ ⟨_, rfl⟩)
    | some head =>
      dsimp only
      cases hparams : accepted (LocalParams_resolve doc.params
          (A1C_Map_get_cstr val_map ['p', 'a', 'r', 'a', 'm', 's']) head.localParams) with
      | error e => exact .inr (hrefused _ (accepted_error hparams))
      | ok local_params =>
        obtain ⟨gids, hgids⟩ := findGraphs_isOk R doc (c := env₁.compressor) hall hres
          (hc ▸ hknown)
        simp only [ok_bind, hgids]
        cases hreg : accepted (orIllegal (GM_registerStaticGraph R env₁.compressor
            { name := some (cstr (stripNameFragment ser_name))
              headNodeid := nid
              successor_gids := gids
              localParams := some local_params })) with
        | error e => exact .inr (hrefused _ (accepted_error hreg))
        | ok r =>
          obtain ⟨c', gid⟩ := r
          obtain ⟨_, _, _, _, hinternal⟩ :=
            GM_registerStaticGraph_ok (orIllegal_ok (accepted_ok hreg))
          have hadded := GM_registerInternalGraph_added hinternal
          refine ⟨?_, hc ▸ hadded⟩
          obtain ⟨g, rfl, -⟩ := hadded
          exact ⟨hready.mark, hready.described, hready.known, hready.fits⟩

theorem registerParameterized_spec {graphs : List Item} {base_item : Item}
    (h : NodesReady R doc env) (hall : AllRead (graphs ++ [base_item]))
    (hres : ∀ d ∈ readNames (graphs ++ [base_item]), Resolver.Resolved graph_names.map d)
    (hknown : ∀ d new, graph_names.map d = some (some new) →
      (lookupGraphHelper R env.compressor new).isSome)
    (hB : ∀ name ∈ readNames (nodeItems val_map), name ∈ nodeNames doc)
    (htype : read_graph_type (A1C_Map_get_cstr val_map ['t', 'y', 'p', 'e']) =
      .ok .parameterized) :
    match registerParameterized R doc ser_name val_map graphs base_item graph_names env with
    | .ok (env', gid) =>
      NodesReady R doc env' ∧ GraphAdded R env.compressor env'.compressor gid
    | .error e =>
      (∃ code, tryGetArray (A1C_Map_get_cstr val_map ['n', 'o', 'd', 'e', 's']) = .error code ∧
          ∃ code, e = .malformed code) ∨
        (∃ code, e = .refused code) ∨
        ∃ nodes, tryGetArray (A1C_Map_get_cstr val_map ['n', 'o', 'd', 'e', 's']) = .ok nodes ∧
          RegisterFails R doc env.compressor nodes e := by
  have hgraphs : AllRead graphs := fun item hitem => hall item (by simp [hitem])
  obtain ⟨base_name, hbase⟩ := hall base_item (by simp)
  have hbase_res := hres base_name (mem_readNames hall (by simp) hbase)
  rw [readNames_append hgraphs] at hres
  unfold registerParameterized
  obtain ⟨base_gid, hgid⟩ := findGraph_isOk R doc hbase hbase_res hknown
  rw [hgid, ok_bind]
  cases hstore : failWhen (base_gid = SERIAL_STORE) (Stop.refused .corruption) with
  | error e =>
    refine .inr (.inl ⟨.corruption, ?_⟩)
    unfold failWhen at hstore
    split at hstore
    · cases hstore
      rfl
    · cases hstore
  | ok _ =>
    simp only [ok_bind]
    cases hgraph : getGraph R env.compressor base_gid with
    | none => exact .inr (.inl ⟨_, rfl⟩)
    | some base =>
      dsimp only
      cases hparams : accepted (LocalParams_resolve doc.params
          (A1C_Map_get_cstr val_map ['p', 'a', 'r', 'a', 'm', 's']) base.migd.localParams) with
      | error e => exact .inr (.inl (accepted_error hparams))
      | ok local_params =>
        simp only [ok_bind]
        cases hnodes : tryGetArray (A1C_Map_get_cstr val_map ['n', 'o', 'd', 'e', 's']) with
        | error code => exact .inl ⟨code, rfl, code, rfl⟩
        | ok nodes =>
          simp only [readable, ok_bind]
          have hspec := @findNodes_spec R doc env h nodes fun name hname =>
            hB name (by simpa only [nodeItems, htype, hnodes] using hname)
          cases hfind : findNodes R doc env nodes with
          | error e =>
            rw [hfind] at hspec
            refine .inr (.inr ⟨nodes, rfl, ?_⟩)
            rcases hspec with he | he | he
            · exact .inl he
            · exact .inr (.inl he)
            · exact .inr (.inr (.inl he))
          | ok r =>
            obtain ⟨env₁, nids⟩ := r
            rw [hfind] at hspec
            obtain ⟨hready, hc⟩ := hspec
            obtain ⟨gids, hgids⟩ := findGraphs_isOk R doc (c := env₁.compressor)
              hgraphs (fun d hd => hres d (List.mem_append_left _ hd)) (hc ▸ hknown)
            simp only [ok_bind, hgids]
            cases hmparam : accepted (findMParam doc.mparams val_map) with
            | error e => exact .inr (.inl (accepted_error hmparam))
            | ok mparam =>
              simp only [ok_bind]
              cases hreg : accepted (orIllegal (GM_registerParameterizedGraph R env₁.compressor
                  { name := some (cstr (stripNameFragment ser_name))
                    graph := base_gid
                    customGraphs := gids
                    customNodes := nids
                    localParams := some local_params })) with
              | error e => exact .inr (.inl (accepted_error hreg))
              | ok r =>
                obtain ⟨c', gid⟩ := r
                obtain ⟨_, _, hinternal⟩ :=
                  GM_registerParameterizedGraph_ok (orIllegal_ok (accepted_ok hreg))
                have hadded := GM_registerInternalGraph_added hinternal
                refine ⟨?_, hc ▸ hadded⟩
                obtain ⟨g, rfl, -⟩ := hadded
                exact ⟨hready.mark, hready.described, hready.known, hready.fits⟩

end Register

theorem registerGraph_spec {graph_names : Names} {ser_name : Name} {val_map : A1C_Map}
    (h : NodesReady R doc env) (hall : AllRead (prerequisiteItems val_map))
    (hres : ∀ d ∈ readNames (prerequisiteItems val_map), Resolver.Resolved graph_names.map d)
    (hknown : ∀ d new, graph_names.map d = some (some new) →
      (lookupGraphHelper R env.compressor new).isSome)
    (hB : ∀ name ∈ readNames (nodeItems val_map), name ∈ nodeNames doc) :
    match registerGraph R doc ser_name val_map graph_names env with
    | .ok (env', gid) =>
      NodesReady R doc env' ∧ GraphAdded R env.compressor env'.compressor gid
    | .error e => NodeNamesFull doc e ∨ (¬FieldsReadable val_map ∧ ∃ code, e = .malformed code) ∨
        (e = .missing ∧ ∃ name ∈ readNames (nodeItems val_map), NoNode R doc env.compressor name) ∨
        ∃ code, e = .refused code := by
  unfold registerGraph
  cases htype : read_graph_type (A1C_Map_get_cstr val_map ['t', 'y', 'p', 'e']) with
  | error code => exact .inr (.inl ⟨by simp [FieldsReadable, htype], code, rfl⟩)
  | ok type =>
    cases type with
    | static =>
      simp only [readable, ok_bind]
      cases hsucc : tryGetArray
          (A1C_Map_get_cstr val_map ['s', 'u', 'c', 'c', 'e', 's', 's', 'o', 'r', 's']) with
      | error code => exact .inr (.inl ⟨by simp [FieldsReadable, htype, hsucc], code, rfl⟩)
      | ok successors =>
        have hitems : prerequisiteItems val_map = successors := by
          simp only [prerequisiteItems, htype, hsucc]
        have hnodes : nodeItems val_map =
            (A1C_Map_get_cstr val_map ['n', 'o', 'd', 'e']).toList := by
          simp only [nodeItems, htype]
        rw [hitems] at hall hres
        simp only [ok_bind]
        have hspec := @registerStatic_spec R doc env graph_names ser_name val_map successors h hall
          hres hknown (hnodes ▸ hB)
        cases hreg : registerStatic R doc ser_name val_map successors graph_names env with
        | ok r =>
          rw [hreg] at hspec
          exact hspec
        | error e =>
          rw [hreg] at hspec
          rcases hspec with ⟨hnone, he⟩ | he | ⟨hunread, he⟩ | ⟨he, hmissing⟩ | he
          · exact .inr (.inl ⟨by simp [FieldsReadable, htype, hnone], he⟩)
          · exact .inl he
          · exact .inr (.inl ⟨fun hread => hunread (hnodes ▸ hread.2.1), he⟩)
          · exact .inr (.inr (.inl ⟨he, hnodes ▸ hmissing⟩))
          · exact .inr (.inr (.inr he))
    | parameterized =>
      simp only [readable, ok_bind]
      cases hgraphs : tryGetArray (A1C_Map_get_cstr val_map ['g', 'r', 'a', 'p', 'h', 's']) with
      | error code => exact .inr (.inl ⟨by simp [FieldsReadable, htype, hgraphs], code, rfl⟩)
      | ok graphs =>
        simp only [ok_bind]
        cases hbase : A1C_Map_get_cstr val_map ['b', 'a', 's', 'e'] with
        | none => exact .inr (.inl ⟨by simp [FieldsReadable, htype, hbase], _, rfl⟩)
        | some base_item =>
          have hitems : prerequisiteItems val_map = graphs ++ [base_item] := by
            simp only [prerequisiteItems, htype, hgraphs, hbase, Option.toList_some]
          rw [hitems] at hall hres
          dsimp only
          have hspec := @registerParameterized_spec R doc env graph_names ser_name val_map graphs
            base_item h hall hres hknown hB htype
          cases hreg : registerParameterized R doc ser_name val_map graphs base_item graph_names
              env with
          | ok r =>
            rw [hreg] at hspec
            exact hspec
          | error e =>
            rw [hreg] at hspec
            rcases hspec with ⟨code, hnone, he⟩ | he | ⟨nodes, harray, hfails⟩
            · exact .inr (.inl ⟨by simp [FieldsReadable, htype, hnone], he⟩)
            · exact .inr (.inr (.inr he))
            · have hnodes : nodeItems val_map = nodes := by
                simp only [nodeItems, htype, harray]
              rcases hfails with he | ⟨hunread, he⟩ | ⟨he, hmissing⟩ | he
              · exact .inl he
              · exact .inr (.inl ⟨fun hread => hunread (hnodes ▸ hread.2.1), he⟩)
              · exact .inr (.inr (.inl ⟨he, hnodes ▸ hmissing⟩))
              · exact .inr (.inr (.inr he))
    | standard => exact .inr (.inl ⟨by simp [FieldsReadable, htype], _, rfl⟩)
    | selector => exact .inr (.inl ⟨by simp [FieldsReadable, htype], _, rfl⟩)
    | function => exact .inr (.inl ⟨by simp [FieldsReadable, htype], _, rfl⟩)
    | multiInput => exact .inr (.inl ⟨by simp [FieldsReadable, htype], _, rfl⟩)
    | segmenter => exact .inr (.inl ⟨by simp [FieldsReadable, htype], _, rfl⟩)

/-- What is left that can keep a graph from being registered. -/
def BuildFails (R : Registry) (doc : Serialized) (c : ZL_Compressor) (pair : Pair) (e : Stop) :
    Prop :=
  NodeNamesFull doc e ∨ (¬GraphReadable pair ∧ ∃ code, e = .malformed code) ∨
    (e = .missing ∧ ∃ name ∈ graphNodeRefs pair, NoNode R doc c name) ∨ ∃ code, e = .refused code

theorem buildGraph_spec {names : NameMap Name} (h : NodesReady R doc env)
    (hpair : pair ∈ described doc.graphs)
    (hres : ∀ d ∈ graphRefs pair, Resolver.Resolved names d)
    (hknown : ∀ d new, names d = some (some new) →
      (lookupGraphHelper R env.compressor new).isSome) :
    match buildGraph R doc pair names env with
    | .ok (env', new) => NodesReady R doc env' ∧
      ∃ g, env'.compressor = { env.compressor with gdv := env.compressor.gdv ++ [g] } ∧
        g.name = new ∧ lookupGraphHelper R env.compressor new = none ∧
        (lookupGraphHelper R env'.compressor new).isSome
    | .error e => BuildFails R doc env.compressor pair e := by
  unfold buildGraph
  cases hval : tryGetMap (some pair.2) with
  | error code =>
    refine .inr (.inl ⟨?_, code, rfl⟩)
    rintro ⟨-, val_map, hread, -⟩
    simp [hval] at hread
  | ok val_map =>
    simp only [readable, ok_bind]
    by_cases hall : AllRead (prerequisiteItems val_map)
    · rw [failWhen_of_not _ (not_not.2 hall), ok_bind]
      have hrefs : graphRefs pair = readNames (prerequisiteItems val_map) := by
        simp only [graphRefs, refsOf, hval]
      have hspec := @registerGraph_spec R doc env ⟨names, 0⟩ (pairName pair) val_map h hall
        (fun d hd => hres d (hrefs ▸ hd)) hknown fun name hname =>
          List.mem_append_right _ (List.mem_flatMap.2 ⟨pair, hpair,
            by simpa only [graphNodeRefs, refsOf, hval] using hname⟩)
      cases hreg : registerGraph R doc (pairName pair) val_map ⟨names, 0⟩ env with
      | error e =>
        rw [hreg] at hspec
        rcases hspec with he | ⟨hunread, he⟩ | ⟨he, hmissing⟩ | he
        · exact .inl he
        · exact .inr (.inl ⟨not_readable hval hunread, he⟩)
        · refine .inr (.inr (.inl ⟨he, ?_⟩))
          simpa only [graphNodeRefs, refsOf, hval] using hmissing
        · exact .inr (.inr (.inr he))
      | ok r =>
        rw [hreg] at hspec
        obtain ⟨hready, g, hc, hname, hnone, hsome⟩ := hspec
        simp only [ok_bind, hname, accepted]
        exact ⟨hready, g, hc, rfl, hnone, hsome⟩
    · rw [failWhen_of _ hall]
      exact .inr (.inl ⟨not_readable hval fun hread => hall hread.1, _, rfl⟩)

end Builds

end OpenZL.Compressor.Setup
