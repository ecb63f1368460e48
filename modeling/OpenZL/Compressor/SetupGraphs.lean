import OpenZL.Compressor.SetupNodes

/-!
# Setting up graphs in dependency order

A visit of a graph does what a visit of the resolver `graphSetup` does, or fails because a container
is full or the description cannot be read.

Principal results: `setupGraph_simulates`, `tryBuildGraph_visits`.
-/

namespace OpenZL.Compressor.Setup

open Lib NamedTable
open Shared.A1cbor (Item)

section Descriptions

/-- The names of a list of references, up to the first that cannot be read. -/
def readNames : List Item → List Name
  | [] => []
  | item :: items =>
    match tryGetString (some item) with
    | .ok name => name :: readNames items
    | .error _ => []

/-- All references of a list can be read. -/
def AllRead (items : List Item) : Prop :=
  ∀ item ∈ items, ∃ name, tryGetString (some item) = .ok name

theorem allRead_iff {items : List Item} :
    AllRead items ↔ ∀ item ∈ items, (itemString item).isSome := by
  simp only [AllRead, Option.isSome_iff_exists, itemString_eq_some]

instance (items : List Item) : Decidable (AllRead items) := decidable_of_iff' _ allRead_iff

/-- The references to graphs, in the order they are checked. -/
def prerequisiteItems (val_map : A1C_Map) : List Item :=
  match read_graph_type (A1C_Map_get_cstr val_map ['t', 'y', 'p', 'e']) with
  | .ok .static =>
    match tryGetArray
      (A1C_Map_get_cstr val_map ['s', 'u', 'c', 'c', 'e', 's', 's', 'o', 'r', 's']) with
    | .ok successors => successors
    | .error _ => []
  | .ok .parameterized =>
    match tryGetArray (A1C_Map_get_cstr val_map ['g', 'r', 'a', 'p', 'h', 's']) with
    | .ok graphs => graphs ++ (A1C_Map_get_cstr val_map ['b', 'a', 's', 'e']).toList
    | .error _ => []
  | _ => []

/-- The references to nodes. -/
def nodeItems (val_map : A1C_Map) : List Item :=
  match read_graph_type (A1C_Map_get_cstr val_map ['t', 'y', 'p', 'e']) with
  | .ok .static => (A1C_Map_get_cstr val_map ['n', 'o', 'd', 'e']).toList
  | .ok .parameterized =>
    match tryGetArray (A1C_Map_get_cstr val_map ['n', 'o', 'd', 'e', 's']) with
    | .ok nodes => nodes
    | .error _ => []
  | _ => []

/-- The names a description refers to, as far as they can be read. -/
def refsOf (items : A1C_Map → List Item) (pair : Pair) : List Name :=
  match tryGetMap (some pair.2) with
  | .ok val_map => readNames (items val_map)
  | .error _ => []

/-- The graphs a graph refers to. -/
def graphRefs (pair : Pair) : List Name := refsOf prerequisiteItems pair

/-- The nodes a graph refers to. -/
def graphNodeRefs (pair : Pair) : List Name := refsOf nodeItems pair

/-- The fields of a description that refer to components are there, and are what their type asks
for. -/
def FieldsReadable (val_map : A1C_Map) : Prop :=
  AllRead (prerequisiteItems val_map) ∧ AllRead (nodeItems val_map) ∧
    match read_graph_type (A1C_Map_get_cstr val_map ['t', 'y', 'p', 'e']) with
    | .ok .static =>
      (∃ successors, tryGetArray (A1C_Map_get_cstr val_map
        ['s', 'u', 'c', 'c', 'e', 's', 's', 'o', 'r', 's']) = .ok successors) ∧
      (A1C_Map_get_cstr val_map ['n', 'o', 'd', 'e']).isSome
    | .ok .parameterized =>
      (∃ graphs, tryGetArray (A1C_Map_get_cstr val_map
        ['g', 'r', 'a', 'p', 'h', 's']) = .ok graphs) ∧
      (A1C_Map_get_cstr val_map ['b', 'a', 's', 'e']).isSome ∧
      ∃ nodes, tryGetArray (A1C_Map_get_cstr val_map ['n', 'o', 'd', 'e', 's']) = .ok nodes
    | _ => False

/-- A description of a graph has a name and readable references. -/
def GraphReadable (pair : Pair) : Prop :=
  (itemString pair.1).isSome ∧
    ∃ val_map, tryGetMap (some pair.2) = .ok val_map ∧ FieldsReadable val_map

theorem readNames_append {items items' : List Item} (h : AllRead items) :
    readNames (items ++ items') = readNames items ++ readNames items' := by
  induction items with
  | nil => rfl
  | cons item items ih =>
    obtain ⟨name, hname⟩ := h item (by simp)
    simp only [List.cons_append, readNames, hname,
      ih fun item' hitem' => h item' (by simp [hitem'])]

theorem mem_readNames {items : List Item} {item : Item} {name : Name} (h : AllRead items)
    (hitem : item ∈ items) (hname : tryGetString (some item) = .ok name) :
    name ∈ readNames items := by
  induction items with
  | nil => cases hitem
  | cons item' items ih =>
    obtain ⟨name', hname'⟩ := h item' (by simp)
    rw [readNames, hname']
    rcases List.mem_cons.1 hitem with rfl | hitem
    · rw [hname] at hname'
      cases hname'
      simp
    · exact List.mem_cons_of_mem _ (ih (fun i hi => h i (by simp [hi])) hitem)

end Descriptions

section Graphs

variable (R : Registry) (doc : Serialized)

/-- The registration of a graph by its type. -/
def registerGraph (ser_name : Name) (val_map : A1C_Map) (graph_names : Names) (env : GraphEnv) :
    Except Stop (GraphEnv × GraphID) := do
  let graph_type ← readable (read_graph_type (A1C_Map_get_cstr val_map ['t', 'y', 'p', 'e']))
  match graph_type with
  | .static => do
    let successors ← readable (tryGetArray
      (A1C_Map_get_cstr val_map ['s', 'u', 'c', 'c', 'e', 's', 's', 'o', 'r', 's']))
    registerStatic R doc ser_name val_map successors graph_names env
  | .parameterized => do
    let graphs ← readable (tryGetArray
      (A1C_Map_get_cstr val_map ['g', 'r', 'a', 'p', 'h', 's']))
    match A1C_Map_get_cstr val_map ['b', 'a', 's', 'e'] with
    | none => .error (.malformed .corruption)
    | some base_item =>
      registerParameterized R doc ser_name val_map graphs base_item graph_names env
  | _ => .error (.malformed .corruption)

/-- Registers a graph whose prerequisites can be read and are resolved; none of them is added to the
map. -/
def buildGraph (pair : Pair) (names : NameMap Name) (env : GraphEnv) :
    Except Stop (GraphEnv × Name) := do
  let val_map ← readable (tryGetMap (some pair.2))
  failWhen (¬AllRead (prerequisiteItems val_map)) (.malformed .corruption)
  let (env, gid) ← registerGraph R doc (pairName pair) val_map ⟨names, 0⟩ env
  let new_name ← accepted (getGraphName R env.compressor gid)
  .ok (env, new_name)

/-- `ZL_CompressorDeserializer_setupGraphs`, as a resolver. -/
def graphSetup : Resolver Name Pair GraphID GraphEnv Stop where
  items := described doc.graphs
  key := pairName
  deps := graphRefs
  existing := fun env => lookupGraphHelper R env.compressor
  build := buildGraph R doc
  cycle := .cycle
  dangling := .dangling
  missing := .missing
  revisited := .revisited

/-- The graphs and the references of their descriptions can fill a container: the stack holds what
waits, and what one visit adds. -/
def GraphsFill : Prop := ZL_ENCODER_GRAPH_LIMIT < 2 * rounds doc.graphs graphRefs

/-- A graph cannot be visited: a container is full, or the description cannot be read. -/
def GraphFault (pair : Pair) (e : Stop) : Prop :=
  e = .allocation ∧ GraphsFill doc ∨ ¬GraphReadable pair ∧ ∃ code, e = .malformed code

variable {R doc} {c : ZL_Compressor} {pair : Pair} {pending : List Pair} {st : State}
  {env : GraphEnv}

theorem mirrors_graphSetup (env : GraphEnv) :
    Mirrors (graphSetup R doc) env (lookupGraphHelper R env.compressor) doc.graphs :=
  ⟨rfl, fun key => find?_described doc.graphs key, rfl, rfl, rfl⟩

/-- What the checks of one graph put on the stack: `ys`, above the graph itself when it is not
there yet. -/
def pushed (this_item : Pair) (unsatisfied : Nat) (ys : List Pair) : List Pair :=
  ys.reverse ++ if unsatisfied = 0 ∧ ys ≠ [] then [this_item] else []

theorem pushed_cons (this_item y : Pair) (unsatisfied : Nat) (ys pending : List Pair) :
    pushed this_item unsatisfied (y :: ys) ++ pending =
      pushed this_item (unsatisfied + 1) ys ++
        y :: ((if unsatisfied = 0 then [this_item] else []) ++ pending) := by
  by_cases h : unsatisfied = 0 <;> simp [pushed, h]

theorem enqueueThis_ok {this_item : Pair} {unsatisfied : Nat} {pending' : List Pair}
    (h : enqueueThis this_item unsatisfied pending = .ok pending') :
    pending' = (if unsatisfied = 0 then [this_item] else []) ++ pending := by
  unfold enqueueThis at h
  split at h
  · rename_i hzero
    rw [enqueuePending_ok h, if_pos hzero]
    rfl
  · rename_i hzero
    cases h
    rw [if_neg hzero]
    rfl

theorem enqueueThis_error {this_item : Pair} {unsatisfied : Nat} {e : Stop}
    (h : enqueueThis this_item unsatisfied pending = .error e) :
    e = .allocation ∧ unsatisfied = 0 ∧ ZL_ENCODER_GRAPH_LIMIT ≤ pending.length := by
  unfold enqueueThis at h
  split at h
  · rename_i hzero
    obtain ⟨he, hfull⟩ := enqueuePending_error h
    exact ⟨he, hzero, hfull⟩
  · cases h

/-- The names, or the stack after the checks of `items`, can be too many for a container. -/
def ChecksFill (B : List Name) (items : List Item) (pending : List Pair) (unsatisfied : Nat) :
    Prop :=
  ZL_ENCODER_GRAPH_LIMIT ≤ B.length ∨ ZL_ENCODER_GRAPH_LIMIT ≤
    pending.length + (readNames items).length + if unsatisfied = 0 then 1 else 0

theorem checkPrerequisiteGraphs_spec (R : Registry) (doc : Serialized) (env : GraphEnv)
    (this_item : Pair) {B : List Name} {items : List Item} {graph_names : Names}
    (pending : List Pair) (unsatisfied : Nat) (hfits : graph_names.Fits B)
    (hB : ∀ name ∈ readNames items, name ∈ B) :
    match checkPrerequisiteGraphs R doc env.compressor this_item items graph_names pending
      unsatisfied with
    | .ok (graph_names', pending', unsatisfied') => graph_names'.Fits B ∧
      AllRead items ∧ ∃ ys, (graphSetup R doc).waiting env graph_names.map (readNames items) =
        .ok (graph_names'.map, ys) ∧ pending' = pushed this_item unsatisfied ys ++ pending ∧
        unsatisfied' = unsatisfied + ys.length
    | .error e => (e = .allocation ∧ ChecksFill B items pending unsatisfied) ∨
        (¬AllRead items ∧ ∃ code, e = .malformed code) ∨
        (graphSetup R doc).waiting env graph_names.map (readNames items) = .error e := by
  induction items generalizing graph_names pending unsatisfied with
  | nil => exact ⟨hfits, by simp [AllRead], [], rfl, by simp [pushed], rfl⟩
  | cons item items ih =>
    rw [checkPrerequisiteGraphs, readNames]
    rw [readNames] at hB
    unfold ChecksFill
    rw [readNames]
    cases hname : tryGetString (some item) with
    | error code =>
      refine .inr (.inl ⟨fun hall => ?_, code, rfl⟩)
      obtain ⟨name, hread⟩ := hall item (by simp)
      rw [hname] at hread
      cases hread
    | ok name =>
      have hcons : AllRead items → AllRead (item :: items) := by
        intro hall item' hitem'
        rcases List.mem_cons.1 hitem' with rfl | hitem'
        · exact ⟨name, hname⟩
        · exact hall item' hitem'
      have htail : ¬AllRead items → ¬AllRead (item :: items) := fun hnot hall =>
        hnot fun item' hitem' => hall item' (by simp [hitem'])
      simp only [hname] at hB
      have hB' : ∀ name ∈ readNames items, name ∈ B := fun d hd => hB d (List.mem_cons_of_mem _ hd)
      simp only [readable, ok_bind, Resolver.waiting, List.length_cons]
      cases hfind : findIfGraphNeedsSetup R env.compressor doc.graphs graph_names name with
      | error e =>
        rcases (mirrors_graphSetup env).find_error hfind with ⟨rfl, hsize⟩ | he
        · exact .inl ⟨rfl, .inl (hsize.trans hfits.le)⟩
        · exact .inr (.inr (by rw [he]; rfl))
      | ok r =>
        obtain ⟨graph_names₁, found⟩ := r
        have hfits₁ := find_fits hfits (hB name (by simp)) hfind
        rw [(mirrors_graphSetup env).find_ok hfind]
        cases found with
        | inr gid =>
          simp only [ok_bind]
          have hrest := ih pending unsatisfied hfits₁ hB'
          cases hcheck : checkPrerequisiteGraphs R doc env.compressor this_item items graph_names₁
            pending unsatisfied with
          | error e =>
            rw [hcheck] at hrest
            rcases hrest with ⟨he, hfull⟩ | ⟨hnot, he⟩ | he
            · exact .inl ⟨he, hfull.imp_right (by omega)⟩
            · exact .inr (.inl ⟨htail hnot, he⟩)
            · exact .inr (.inr (by rw [he]; rfl))
          | ok r =>
            rw [hcheck] at hrest
            obtain ⟨hfits', hall, ys, hys, hpending, hcount⟩ := hrest
            exact ⟨hfits', hcons hall, ys, by rw [hys]; rfl, hpending, hcount⟩
        | inl setup_item =>
          simp only [ok_bind]
          cases h₁ : enqueueThis this_item unsatisfied pending with
          | error e =>
            obtain ⟨he, -, hfull⟩ := enqueueThis_error h₁
            exact .inl ⟨he, .inr (by omega)⟩
          | ok pending₁ =>
            have hthis : pending₁.length = (if unsatisfied = 0 then 1 else 0) + pending.length := by
              rw [enqueueThis_ok h₁, List.length_append]
              split <;> rfl
            simp only [ok_bind]
            cases h₂ : enqueuePending pending₁ setup_item with
            | error e =>
              obtain ⟨he, hfull⟩ := enqueuePending_error h₂
              exact .inl ⟨he, .inr (by omega)⟩
            | ok pending₂ =>
              simp only [ok_bind]
              have hpushed : pending₂.length = pending₁.length + 1 := by
                rw [enqueuePending_ok h₂, List.length_cons]
              have hrest := ih pending₂ (unsatisfied + 1) hfits₁ hB'
              cases hcheck : checkPrerequisiteGraphs R doc env.compressor this_item items
                graph_names₁ pending₂ (unsatisfied + 1) with
              | error e =>
                rw [hcheck] at hrest
                rcases hrest with ⟨he, hfull⟩ | ⟨hnot, he⟩ | he
                · refine .inl ⟨he, hfull.imp_right fun hfull => ?_⟩
                  rw [if_neg (by omega)] at hfull
                  omega
                · exact .inr (.inl ⟨htail hnot, he⟩)
                · exact .inr (.inr (by rw [he]; rfl))
              | ok r =>
                rw [hcheck] at hrest
                obtain ⟨hfits', hall, ys, hys, hpending, hcount⟩ := hrest
                refine ⟨hfits', hcons hall, setup_item :: ys, by rw [hys]; rfl, ?_, ?_⟩
                · rw [hpending, enqueuePending_ok h₂, enqueueThis_ok h₁, pushed_cons]
                · rw [hcount, List.length_cons]
                  omega

theorem checkPrerequisiteGraphs_append (R : Registry) (doc : Serialized) (c : ZL_Compressor)
    (this_item : Pair) (items items' : List Item) (graph_names : Names) (pending : List Pair)
    (unsatisfied : Nat) :
    checkPrerequisiteGraphs R doc c this_item (items ++ items') graph_names pending unsatisfied =
      (do
        let (graph_names, pending, unsatisfied) ←
          checkPrerequisiteGraphs R doc c this_item items graph_names pending unsatisfied
        checkPrerequisiteGraphs R doc c this_item items' graph_names pending unsatisfied) := by
  induction items generalizing graph_names pending unsatisfied with
  | nil => rfl
  | cons item items ih =>
    simp only [List.cons_append, checkPrerequisiteGraphs, bind_assoc]
    refine bind_congr fun name => bind_congr fun r => ?_
    obtain ⟨graph_names₁, found⟩ := r
    cases found with
    | inl setup_item =>
      simp only [bind_assoc]
      exact bind_congr fun pending₁ => bind_congr fun pending₂ => ih _ _ _
    | inr gid => exact ih _ _ _

theorem findGraph_resolved (graph_names : Names) {item : Item} {name : Name}
    (hname : tryGetString (some item) = .ok name)
    (hres : Resolver.Resolved graph_names.map name) :
    findGraph R doc c graph_names item =
      resolvedComponent (lookupGraphHelper R c) graph_names.map name := by
  obtain ⟨new, hnew⟩ := hres
  simp only [findGraph, hname, readable, ok_bind, findIfGraphNeedsSetup,
    findIfNeedsSetup_generic, hnew, resolvedComponent]
  cases lookupGraphHelper R c new <;> rfl

theorem findGraphs_size {graph_names : Names} {items : List Item} (hall : AllRead items)
    (hres : ∀ d ∈ readNames items, Resolver.Resolved graph_names.map d) (c : ZL_Compressor) :
    items.mapM (findGraph R doc c graph_names) =
      items.mapM (findGraph R doc c ⟨graph_names.map, 0⟩) := by
  induction items with
  | nil => rfl
  | cons item items ih =>
    obtain ⟨name, hname⟩ := hall item (by simp)
    have hmem : name ∈ readNames (item :: items) := mem_readNames hall (by simp) hname
    rw [List.mapM_cons, List.mapM_cons, findGraph_resolved graph_names hname (hres name hmem),
      findGraph_resolved ⟨graph_names.map, 0⟩ hname (hres name hmem),
      ih (fun i hi => hall i (by simp [hi]))
        (fun d hd => hres d (by simp [readNames, hname, hd]))]

theorem registerStatic_size {ser_name : Name} {val_map : A1C_Map} {successors : List Item}
    {graph_names : Names} (hall : AllRead successors)
    (hres : ∀ d ∈ readNames successors, Resolver.Resolved graph_names.map d) (env : GraphEnv) :
    registerStatic R doc ser_name val_map successors graph_names env =
      registerStatic R doc ser_name val_map successors ⟨graph_names.map, 0⟩ env := by
  simp only [registerStatic, findGraphs_size hall hres]

theorem registerParameterized_size {ser_name : Name} {val_map : A1C_Map} {graphs : List Item}
    {base_item : Item} {graph_names : Names} (hall : AllRead (graphs ++ [base_item]))
    (hres : ∀ d ∈ readNames (graphs ++ [base_item]), Resolver.Resolved graph_names.map d)
    (env : GraphEnv) :
    registerParameterized R doc ser_name val_map graphs base_item graph_names env =
      registerParameterized R doc ser_name val_map graphs base_item ⟨graph_names.map, 0⟩ env := by
  have hgraphs : AllRead graphs := fun item hitem => hall item (by simp [hitem])
  obtain ⟨base, hbase⟩ := hall base_item (by simp)
  have hbase' := hres base (mem_readNames hall (by simp) hbase)
  rw [readNames_append hgraphs] at hres
  simp only [registerParameterized,
    findGraphs_size hgraphs fun d hd => hres d (List.mem_append_left _ hd),
    findGraph_resolved graph_names hbase hbase',
    findGraph_resolved ⟨graph_names.map, 0⟩ hbase hbase']

/-- The part of the state a graph is set up in. -/
def State.graphEnv (st : State) : GraphEnv := ⟨st.compressor, st.node_names⟩

theorem not_readable {val_map : A1C_Map} (hval : tryGetMap (some pair.2) = .ok val_map)
    (h : ¬FieldsReadable val_map) : ¬GraphReadable pair := by
  rintro ⟨-, val_map', hval', hread⟩
  rw [hval] at hval'
  cases hval'
  exact h hread

/-- A state of the setup of graphs: the names are among those described and referred to. -/
def GraphsFit (doc : Serialized) (st : State) : Prop :=
  st.graph_names.Fits (namesOf doc.graphs graphRefs)

theorem settle_simulates {names : NameMap Name} {inserted : Bool} {graph_names : Names}
    {ys : List Pair} {register : Except Stop (GraphEnv × GraphID)}
    (hfits : graph_names.Fits (namesOf doc.graphs graphRefs))
    (hnot : ¬Resolver.Resolved names (pairName pair))
    (hins : names (pairName pair) = none ↔ inserted = true)
    (hwaiting : (graphSetup R doc).waiting st.graphEnv
      (Function.update names (pairName pair) (some none)) (graphRefs pair) =
        .ok (graph_names.map, ys))
    (hbuild : ys = [] → buildGraph R doc pair graph_names.map st.graphEnv = (do
      let (env, gid) ← register
      let new_name ← accepted (getGraphName R env.compressor gid)
      .ok (env, new_name))) :
    Simulates (fun st => st.graph_names.map) State.graphEnv (GraphsFit doc) (GraphFault doc pair)
      pending
      (if ys.length ≠ 0 then do
        failWhen (inserted = false) .revisited
        .ok (pushed pair 0 ys ++ pending, { st with graph_names := graph_names })
      else do
        let (env, gid) ← register
        finishGraph R (pairName pair) (pushed pair 0 ys ++ pending) graph_names env gid)
      ((graphSetup R doc).visit pair names st.graphEnv) := by
  have hkey : (graphSetup R doc).key pair = pairName pair := rfl
  have hdeps : (graphSetup R doc).deps pair = graphRefs pair := rfl
  rw [Resolver.visit_of_not_resolved hnot, hkey, hdeps, hwaiting]
  simp only [ok_bind]
  by_cases hys : ys = []
  · have hmark : graph_names.map (pairName pair) = some none := by
      have hg := (Resolver.waiting_ok hwaiting).1
      exact (hg.mark_iff _).2 (Function.update_self ..)
    have hb : (graphSetup R doc).build pair graph_names.map st.graphEnv =
        buildGraph R doc pair graph_names.map st.graphEnv := rfl
    rw [if_neg (by simp [hys]), if_pos hys, hb, hbuild hys]
    cases register with
    | error e => exact .inr rfl
    | ok r =>
      obtain ⟨env, gid⟩ := r
      simp only [ok_bind, finishGraph]
      cases hname : getGraphName R env.compressor gid with
      | error code => exact .inr rfl
      | ok new_name =>
        have hcomplete : graph_names.complete (pairName pair) new_name = .ok
            ⟨Function.update graph_names.map (pairName pair) (some (some new_name)),
              graph_names.size⟩ := by
          simp only [Names.complete, hmark]
        simp only [accepted, ok_bind, hcomplete]
        exact ⟨hfits.complete hcomplete, [], by simp [pushed, hys], rfl⟩
  · rw [if_pos (by simpa using hys), if_neg hys]
    cases inserted with
    | false =>
      refine .inr ?_
      rw [if_neg (by simp [hins])]
      rfl
    | true =>
      rw [failWhen_of_not _ (by simp), ok_bind, if_pos (hins.2 rfl)]
      exact ⟨hfits, _, rfl, by simp [pushed, hys, State.graphEnv]⟩

section Visit

variable {names : NameMap Name} {val_map : A1C_Map} {inserted : Bool}
  (hpair : pair ∈ described doc.graphs) (hroom : pending.length + 1 < rounds doc.graphs graphRefs)
  (hfits : GraphsFit doc st) (hval : tryGetMap (some pair.2) = .ok val_map)
  (hnot : ¬Resolver.Resolved names (pairName pair))
  (hmap : st.graph_names.map = Function.update names (pairName pair) (some none))
  (hins : names (pairName pair) = none ↔ inserted = true)

include hpair hroom hfits hval hnot hmap

theorem checkPrerequisiteGraphs_fault {items : List Item} {e : Stop}
    (hitems : prerequisiteItems val_map = items)
    (h : checkPrerequisiteGraphs R doc st.compressor pair items st.graph_names pending 0 =
      .error e) :
    GraphFault doc pair e ∨ (graphSetup R doc).visit pair names st.graphEnv = .error e := by
  have hrefs : graphRefs pair = readNames items := by
    simp only [graphRefs, refsOf, hval, hitems]
  have hspec := checkPrerequisiteGraphs_spec R doc st.graphEnv pair pending 0 hfits
    fun d hd => mem_namesOf hpair d (List.mem_cons_of_mem _ (hrefs ▸ hd))
  rw [show st.graphEnv.compressor = st.compressor from rfl, h] at hspec
  rcases hspec with ⟨he, hfull⟩ | ⟨hunread, he⟩ | he
  · have hB := length_namesOf doc.graphs graphRefs
    have hlen : (graphRefs pair).length < (namesOf doc.graphs graphRefs).length :=
      length_refs_lt hpair
    rw [ChecksFill, ← hrefs, if_pos rfl] at hfull
    exact .inl (.inl ⟨he, by unfold GraphsFill; omega⟩)
  · exact .inl (.inr ⟨not_readable hval fun hread => hunread (hitems ▸ hread.1), he⟩)
  · rw [hmap] at he
    rw [Resolver.visit_of_not_resolved hnot,
      show (graphSetup R doc).deps pair = readNames items from hrefs,
      show (graphSetup R doc).key pair = pairName pair from rfl, he]
    exact .inr rfl

include hins

theorem checked_simulates {items : List Item}
    {register : Names → Except Stop (GraphEnv × GraphID)}
    (hitems : prerequisiteItems val_map = items)
    (hbuild : ∀ graph_names : Names, AllRead items →
      (∀ d ∈ readNames items, Resolver.Resolved graph_names.map d) →
      buildGraph R doc pair graph_names.map st.graphEnv = (do
        let (env, gid) ← register graph_names
        let new_name ← accepted (getGraphName R env.compressor gid)
        .ok (env, new_name))) :
    Simulates (fun st => st.graph_names.map) State.graphEnv (GraphsFit doc) (GraphFault doc pair)
      pending
      (do
        let (graph_names, pending, unsatisfied) ←
          checkPrerequisiteGraphs R doc st.compressor pair items st.graph_names pending 0
        if unsatisfied ≠ 0 then do
          failWhen (inserted = false) .revisited
          .ok (pending, { st with graph_names := graph_names })
        else do
          let (env, gid) ← register graph_names
          finishGraph R (pairName pair) pending graph_names env gid)
      ((graphSetup R doc).visit pair names st.graphEnv) := by
  have hrefs : graphRefs pair = readNames items := by
    simp only [graphRefs, refsOf, hval, hitems]
  have hspec := checkPrerequisiteGraphs_spec R doc st.graphEnv pair pending 0 hfits
    fun d hd => mem_namesOf hpair d (List.mem_cons_of_mem _ (hrefs ▸ hd))
  rw [show st.graphEnv.compressor = st.compressor from rfl] at hspec
  cases hcheck : checkPrerequisiteGraphs R doc st.compressor pair items st.graph_names pending 0 with
  | error e =>
    exact checkPrerequisiteGraphs_fault hpair hroom hfits hval hnot hmap hitems hcheck
  | ok r =>
    obtain ⟨graph_names, pending', unsatisfied⟩ := r
    rw [hcheck] at hspec
    obtain ⟨hfits', hall, ys, hwaiting, rfl, rfl⟩ := hspec
    rw [hmap, ← hrefs] at hwaiting
    simp only [ok_bind, Nat.zero_add]
    refine settle_simulates hfits' hnot hins hwaiting fun hys =>
      hbuild graph_names hall fun d hd => ?_
    exact ((Resolver.waiting_ok hwaiting).2.2.1 d (hrefs ▸ hd)).resolve_right (by simp [hys])

theorem setupStatic_simulates
    (htype : read_graph_type (A1C_Map_get_cstr val_map ['t', 'y', 'p', 'e']) = .ok .static) :
    Simulates (fun st => st.graph_names.map) State.graphEnv (GraphsFit doc) (GraphFault doc pair)
      pending
      (setupStatic R doc pair (pairName pair) val_map inserted pending st)
      ((graphSetup R doc).visit pair names st.graphEnv) := by
  unfold setupStatic
  cases hsucc : tryGetArray
      (A1C_Map_get_cstr val_map ['s', 'u', 'c', 'c', 'e', 's', 's', 'o', 'r', 's']) with
  | error code =>
    refine .inl (.inr ⟨not_readable hval ?_, code, rfl⟩)
    simp [FieldsReadable, htype, hsucc]
  | ok successors =>
    have hitems : prerequisiteItems val_map = successors := by
      simp only [prerequisiteItems, htype, hsucc]
    refine @checked_simulates R doc pair pending st names val_map inserted hpair hroom hfits hval
      hnot hmap hins _
      (fun graph_names => registerStatic R doc (pairName pair) val_map successors graph_names
        st.graphEnv) hitems fun graph_names hall hres => ?_
    have hread : AllRead (prerequisiteItems val_map) := by rwa [hitems]
    simp only [buildGraph, registerGraph, hval, htype, hsucc, readable, ok_bind,
      failWhen_of_not _ (not_not.2 hread), registerStatic_size hall hres]

theorem setupParameterized_simulates
    (htype : read_graph_type (A1C_Map_get_cstr val_map ['t', 'y', 'p', 'e']) =
      .ok .parameterized) :
    Simulates (fun st => st.graph_names.map) State.graphEnv (GraphsFit doc) (GraphFault doc pair)
      pending
      (setupParameterized R doc pair (pairName pair) val_map inserted pending st)
      ((graphSetup R doc).visit pair names st.graphEnv) := by
  unfold setupParameterized
  cases hgraphs : tryGetArray (A1C_Map_get_cstr val_map ['g', 'r', 'a', 'p', 'h', 's']) with
  | error code =>
    refine .inl (.inr ⟨not_readable hval ?_, code, rfl⟩)
    simp [FieldsReadable, htype, hgraphs]
  | ok graphs =>
    have hitems : prerequisiteItems val_map =
        graphs ++ (A1C_Map_get_cstr val_map ['b', 'a', 's', 'e']).toList := by
      simp only [prerequisiteItems, htype, hgraphs]
    simp only [readable, ok_bind]
    cases hbase : A1C_Map_get_cstr val_map ['b', 'a', 's', 'e'] with
    | none =>
      rw [hbase, Option.toList_none, List.append_nil] at hitems
      cases hcheck : checkPrerequisiteGraphs R doc st.compressor pair graphs st.graph_names
          pending 0 with
      | error e =>
        exact checkPrerequisiteGraphs_fault hpair hroom hfits hval hnot hmap hitems hcheck
      | ok r =>
        refine .inl (.inr ⟨not_readable hval ?_, _, rfl⟩)
        simp [FieldsReadable, htype, hbase]
    | some base_item =>
      rw [hbase, Option.toList_some] at hitems
      -- the two checks are one, of the graphs and then of the base
      have hsim := @checked_simulates R doc pair pending st names val_map inserted hpair hroom
        hfits hval hnot hmap hins _ (fun graph_names => registerParameterized R doc (pairName pair)
          val_map graphs base_item graph_names st.graphEnv) hitems fun graph_names hall hres => by
        have hread : AllRead (prerequisiteItems val_map) := by rwa [hitems]
        simp only [buildGraph, registerGraph, hval, htype, hgraphs, hbase, readable, ok_bind,
          failWhen_of_not _ (not_not.2 hread), registerParameterized_size hall hres]
      rw [checkPrerequisiteGraphs_append, bind_assoc] at hsim
      exact hsim

theorem setupGraph_simulates :
    Simulates (fun st => st.graph_names.map) State.graphEnv (GraphsFit doc) (GraphFault doc pair)
      pending
      (setupGraph R doc pair (pairName pair) val_map inserted pending st)
      ((graphSetup R doc).visit pair names st.graphEnv) := by
  unfold setupGraph
  cases htype : read_graph_type (A1C_Map_get_cstr val_map ['t', 'y', 'p', 'e']) with
  | error code =>
    refine .inl (.inr ⟨not_readable hval ?_, code, rfl⟩)
    simp [FieldsReadable, htype]
  | ok type =>
    have hother : ∀ e : Stop, e = .malformed .corruption →
        (∀ t : GraphType, type = t → t ≠ .static → t ≠ .parameterized → GraphFault doc pair e) := by
      rintro e rfl t rfl hstatic hparam
      refine .inr ⟨not_readable hval ?_, _, rfl⟩
      cases type <;> simp_all [FieldsReadable]
    cases type with
    | static => exact setupStatic_simulates hpair hroom hfits hval hnot hmap hins htype
    | parameterized =>
      exact setupParameterized_simulates hpair hroom hfits hval hnot hmap hins htype
    | standard => exact .inl (hother _ rfl _ rfl (by simp) (by simp))
    | selector => exact .inl (hother _ rfl _ rfl (by simp) (by simp))
    | function => exact .inl (hother _ rfl _ rfl (by simp) (by simp))
    | multiInput => exact .inl (hother _ rfl _ rfl (by simp) (by simp))
    | segmenter => exact .inl (hother _ rfl _ rfl (by simp) (by simp))

end Visit

/-- **The traversal of the graphs follows the resolver.** -/
theorem tryBuildGraph_visits (R : Registry) (doc : Serialized) :
    (graphSetup R doc).Visits (visitPair (tryBuildGraph R doc)) (fun st => st.graph_names.map)
      State.graphEnv (GraphsFit doc) (rounds doc.graphs graphRefs) (GraphFault doc)
      doc.graphs := by
  have hB := length_namesOf doc.graphs graphRefs
  refine visitNew_visits rfl rfl (fun _ _ => ⟨rfl, rfl⟩) (fun _ hst => ⟨hst, fun _ h => h⟩)
    (fun pair hpair => mem_namesOf hpair _ (by simp))
    (fun _ hfull => .inl ⟨rfl, by unfold GraphsFill; omega⟩) ?_ ?_
  · rintro pair code (hnone | hval) <;> refine .inr ⟨?_, code, rfl⟩
    · rintro ⟨hsome, -⟩
      simp [hnone] at hsome
    · rintro ⟨-, val_map, hval', -⟩
      exact hval val_map hval'
  · intro pair pending names val_map inserted st hpair hroom hfits hval hnot hmap hins
    exact setupGraph_simulates hpair hroom hfits hval hnot hmap hins

end Graphs

end OpenZL.Compressor.Setup
