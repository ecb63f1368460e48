import Mathlib.Data.List.TakeWhile
import OpenZL.Compressor.SetupNames

/-!
# Setting up nodes in dependency order

A visit of a node does what a visit of the resolver `nodeSetup` does, or fails because a container
is full or the description cannot be read.

Principal results: `tryBuildNode_visits`, `buildNode_ok`, `buildNode_error`.
-/

namespace OpenZL.Compressor.Setup

open Lib NamedTable
open Shared.A1cbor (Item)

section Nodes

variable (R : Registry) (doc : Serialized)

/-- The base of a node, by its description. -/
def readNode (val : Item) : Except ErrorCode Name := do
  let val_map ← tryGetMap (some val)
  tryGetString (A1C_Map_get_cstr val_map ['b', 'a', 's', 'e'])

/-- What a node refers to. -/
def nodeRefs (pair : Pair) : List Name :=
  match readNode pair.2 with
  | .ok base => [base]
  | .error _ => []

/-- A description of a node has a name and a base. -/
def NodeReadable (pair : Pair) : Prop :=
  (itemString pair.1).isSome ∧ ∃ base, readNode pair.2 = .ok base

/-- Registers a node whose base is resolved. -/
def buildNode (pair : Pair) (names : NameMap Name) (c : ZL_Compressor) :
    Except Stop (ZL_Compressor × Name) := do
  let val_map ← readable (tryGetMap (some pair.2))
  let base_name ← readable (tryGetString (A1C_Map_get_cstr val_map ['b', 'a', 's', 'e']))
  let base_nid ← resolvedComponent (lookupNodeHelper R c) names base_name
  accepted (registerNode R doc (pairName pair) val_map c base_nid)

/-- `ZL_CompressorDeserializer_setupNodes`, as a resolver. -/
def nodeSetup : Resolver Name Pair NodeID ZL_Compressor Stop where
  items := described doc.nodes
  key := pairName
  deps := nodeRefs
  existing := lookupNodeHelper R
  build := buildNode R doc
  cycle := .cycle
  dangling := .dangling
  missing := .missing
  revisited := .revisited

/-- The nodes and the references of their descriptions can fill a container. -/
def NodesFill : Prop := ZL_ENCODER_GRAPH_LIMIT < rounds doc.nodes nodeRefs

/-- A node cannot be visited: a container is full, or the description cannot be read. -/
def NodeFault (pair : Pair) (e : Stop) : Prop :=
  e = .allocation ∧ NodesFill doc ∨ ¬NodeReadable pair ∧ ∃ code, e = .malformed code

variable {R doc} {c : ZL_Compressor} {pair : Pair} {pending : List Pair} {st : State}

theorem mirrors_nodeSetup (c : ZL_Compressor) :
    Mirrors (nodeSetup R doc) c (lookupNodeHelper R c) doc.nodes :=
  ⟨rfl, fun key => find?_described doc.nodes key, rfl, rfl, rfl⟩

/-- A state of the setup of nodes: the names are among those described and referred to. -/
def NodesFit (doc : Serialized) (st : State) : Prop :=
  st.node_names.Fits (namesOf doc.nodes nodeRefs) ∧ st.graph_names = .empty

theorem setupNode_simulates {names : NameMap Name} {val_map : A1C_Map} {inserted : Bool}
    (hpair : pair ∈ described doc.nodes) (hroom : pending.length + 1 < rounds doc.nodes nodeRefs)
    (hst : NodesFit doc st) (hval : tryGetMap (some pair.2) = .ok val_map)
    (hnot : ¬Resolver.Resolved names (pairName pair))
    (hmap : st.node_names.map = Function.update names (pairName pair) (some none))
    (hins : names (pairName pair) = none ↔ inserted = true) :
    Simulates (fun st => st.node_names.map) State.compressor (NodesFit doc) (NodeFault doc pair)
      pending
      (setupNode R doc pair (pairName pair) val_map inserted pending st)
      ((nodeSetup R doc).visit pair names st.compressor) := by
  rw [Resolver.visit_of_not_resolved hnot]
  unfold setupNode
  cases hbase : tryGetString (A1C_Map_get_cstr val_map ['b', 'a', 's', 'e']) with
  | error code =>
    refine .inl (.inr ⟨?_, code, rfl⟩)
    rintro ⟨-, base, hread⟩
    simp [readNode, hval, hbase] at hread
  | ok base =>
    have hdeps : nodeRefs pair = [base] := by
      simp only [nodeRefs, readNode, hval, hbase, ok_bind]
    have hbaseB : base ∈ namesOf doc.nodes nodeRefs := mem_namesOf hpair base (by simp [hdeps])
    have hB := length_namesOf doc.nodes nodeRefs
    replace hdeps : (nodeSetup R doc).deps pair = [base] := hdeps
    have hkey : (nodeSetup R doc).key pair = pairName pair := rfl
    simp only [readable, ok_bind, hdeps, hkey, Resolver.waiting, ← hmap]
    cases hfind : findIfNodeNeedsSetup R st.compressor doc.nodes st.node_names base with
    | error e =>
      rcases (mirrors_nodeSetup st.compressor).find_error hfind with ⟨rfl, hsize⟩ | he
      · exact .inl (.inl ⟨rfl, (hsize.trans hst.1.le).trans_lt hB⟩)
      · exact .inr (by rw [he]; rfl)
    | ok r =>
      obtain ⟨node_names, found⟩ := r
      have hres := (mirrors_nodeSetup (R := R) st.compressor).find_ok hfind
      have hfits' := find_fits hst.1 hbaseB hfind
      rw [hres]
      cases found with
      | inl base_item =>
        simp only [ok_bind]
        cases inserted with
        | false =>
          refine .inr ?_
          rw [if_neg (by simp), if_neg (by simp [hins])]
          rfl
        | true =>
          rw [failWhen_of_not _ (by simp), ok_bind]
          cases h₁ : enqueuePending pending pair with
          | error e =>
            obtain ⟨rfl, hfull⟩ := enqueuePending_error h₁
            exact .inl (.inl ⟨rfl, by unfold NodesFill; omega⟩)
          | ok pending₁ =>
            rw [ok_bind]
            cases h₂ : enqueuePending pending₁ base_item with
            | error e =>
              obtain ⟨rfl, hfull⟩ := enqueuePending_error h₂
              rw [enqueuePending_ok h₁, List.length_cons] at hfull
              exact .inl (.inl ⟨rfl, hfull.trans_lt hroom⟩)
            | ok pending₂ =>
              refine ⟨⟨hfits', hst.2⟩, [base_item, pair], ?_, ?_⟩
              · rw [enqueuePending_ok h₂, enqueuePending_ok h₁]
                rfl
              · rw [if_neg (by simp), if_pos (hins.2 rfl)]
                rfl
      | inr base_nid =>
        obtain ⟨new, hnew, hid⟩ := Resolver.resolve_component hres
        have hbuild : (nodeSetup R doc).build pair node_names.map st.compressor =
            accepted (registerNode R doc (pairName pair) val_map st.compressor base_nid) := by
          have hfound : resolvedComponent (lookupNodeHelper R st.compressor) node_names.map base =
              .ok base_nid := resolvedComponent_eq hnew hid
          simp only [nodeSetup, buildNode, hval, hbase, readable, ok_bind, hfound]
        have hmark : node_names.map (pairName pair) = some none := by
          have hg := (Resolver.resolve_ok hres).1
          exact (hg.mark_iff _).2 (by rw [hmap, Function.update_self])
        simp only [ok_bind, if_true, hbuild]
        cases hreg : registerNode R doc (pairName pair) val_map st.compressor base_nid with
        | error code => exact .inr rfl
        | ok r =>
          obtain ⟨c, new_name⟩ := r
          have hcomplete : node_names.complete (pairName pair) new_name = .ok
              ⟨Function.update node_names.map (pairName pair) (some (some new_name)),
                node_names.size⟩ := by
            simp only [Names.complete, hmark]
          simp only [accepted, ok_bind, hcomplete]
          exact ⟨⟨hfits'.complete hcomplete, hst.2⟩, [], rfl, rfl⟩

/-- **The traversal of the nodes follows the resolver.** -/
theorem tryBuildNode_visits (R : Registry) (doc : Serialized) :
    (nodeSetup R doc).Visits (visitPair (tryBuildNode R doc)) (fun st => st.node_names.map)
      State.compressor (NodesFit doc) (rounds doc.nodes nodeRefs) (NodeFault doc) doc.nodes := by
  refine visitNew_visits rfl rfl (fun _ _ => ⟨rfl, rfl⟩)
    (fun _ hst => ⟨hst.1, fun _ hfits => ⟨hfits, hst.2⟩⟩)
    (fun pair hpair => mem_namesOf hpair _ (by simp))
    (fun _ hfull => .inl ⟨rfl, hfull.trans_lt (length_namesOf ..)⟩) ?_ ?_
  · rintro pair code (hnone | hval) <;> refine .inr ⟨?_, code, rfl⟩
    · rintro ⟨hsome, -⟩
      simp [hnone] at hsome
    · rintro ⟨-, base, hread⟩
      obtain ⟨val_map, hval', -⟩ := bind_eq_ok.1 hread
      exact hval val_map hval'
  · intro pair pending names val_map inserted st hpair hroom hst hval hnot hmap hins
    exact setupNode_simulates hpair hroom hst hval hnot hmap hins

theorem ZL_Name_init_ok {p : Option Name} {id : Nat} {n : ComponentName}
    (h : ZL_Name_init p id = .ok n) : n.namePrefix = unmarked (p.getD []) := by
  unfold ZL_Name_init at h
  dsimp only at h
  split at h
  · cases h
  · split at h
    · cases h
    · split at h
      · cases h
      · split at h
        · cases h
        · cases h
          rfl

theorem mem_unmarked {a : Char} {p : Name} (h : a ∈ unmarked p) : a ∈ p := by
  unfold unmarked at h
  split at h
  · exact List.mem_cons_of_mem _ h
  · exact h

theorem cstr_unique {p : Name} {id : Nat} {n : ComponentName}
    (h : ZL_Name_init (some (cstr p)) id = .ok n) : cstr n.unique = n.unique := by
  have hprefix : ∀ a ∈ n.namePrefix, a ≠ Char.ofNat 0 := by
    intro a ha
    rw [ZL_Name_init_ok h] at ha
    simpa using List.mem_takeWhile_imp (mem_unmarked ha)
  refine List.takeWhile_eq_self_iff.2 fun a ha => ?_
  rw [decide_eq_true_eq]
  unfold ComponentName.unique at ha
  cases hid : n.uniqueID with
  | none => exact hprefix a (by simpa [hid] using ha)
  | some id =>
    rw [hid] at ha
    rcases List.mem_append.1 ha with ha | ha
    · exact hprefix a ha
    · rcases List.mem_cons.1 ha with rfl | ha
      · decide
      · have hdigit := Nat.isDigit_of_mem_toDigits (by decide) (Nat.le_refl 10) ha
        rintro rfl
        exact absurd hdigit (by decide)

theorem orIllegal_ok {α : Type} {x : Except ErrorCode α} {a : α} (h : orIllegal x = .ok a) :
    x = .ok a := by
  cases x with
  | error code => cases h
  | ok b =>
    cases h
    rfl

theorem lookupNodeHelper_unique {n : ComponentName} (h : cstr n.unique = n.unique)
    (c : ZL_Compressor) :
    lookupNodeHelper R c n.unique = idOf CNode.name (nodeTable R c) n.unique := by
  rw [lookupNodeHelper, h, NM_getNodeByName, if_neg n.not_bang_unique]

theorem lookupNodeHelper_append {k : Name} (added : List CNode)
    (h : (lookupNodeHelper R c k).isSome) :
    (lookupNodeHelper R { c with cnodes := c.cnodes ++ added } k).isSome := by
  unfold lookupNodeHelper NM_getNodeByName at *
  split at h
  · cases h
  · rename_i hhead
    rw [if_neg hhead]
    have htable : nodeTable R { c with cnodes := c.cnodes ++ added } =
        nodeTable R c ++ added.map some := by simp [nodeTable]
    rw [htable]
    exact idOf_isSome_append h _

theorem registerNode_ok {ser_name new : Name} {val_map : A1C_Map} {base_nid : NodeID}
    {c' : ZL_Compressor} (h : registerNode R doc ser_name val_map c base_nid = .ok (c', new)) :
    ∃ n, c' = { c with cnodes := c.cnodes ++ [n] } ∧ n.name = new ∧ n.baseNodeID = base_nid ∧
      lookupNodeHelper R c new = none ∧ (lookupNodeHelper R c' new).isSome := by
  unfold registerNode at h
  split at h
  · cases h
  · obtain ⟨local_params, -, h⟩ := bind_eq_ok.1 h
    obtain ⟨_, -, h⟩ := bind_eq_ok.1 h
    obtain ⟨_, -, h⟩ := bind_eq_ok.1 h
    obtain ⟨⟨c₁, nid⟩, hreg, h⟩ := bind_eq_ok.1 h
    obtain ⟨new_name, hname, h⟩ := bind_eq_ok.1 h
    cases h
    obtain ⟨src, -, hreg⟩ := NM_parameterizeNode_ok (orIllegal_ok hreg)
    obtain ⟨name, hinit, rfl, rfl, hfresh, -⟩ := CTM_registerCNode_ok hreg
    have hcstr := cstr_unique hinit
    generalize hn : (CNode.mk name base_nid src.gd ((some local_params).getD src.localParams)) = n
      at hname
    have hnm : n.maybeName = name := by rw [← hn]
    have hnew : new = name.unique := by
      have hget : NM_getCNode R { c with cnodes := c.cnodes ++ [n] } (nodeTable R c).length =
          some n := by
        rw [NM_getCNode, nodeTable_concat]
        exact entry_concat n
      rw [getNodeName, hget] at hname
      cases hname
      rw [CNode.name, hnm]
    subst hnew
    refine ⟨n, rfl, by rw [CNode.name, hnm], by rw [← hn], ?_, ?_⟩
    · rw [lookupNodeHelper_unique hcstr, hfresh]
    · rw [lookupNodeHelper_unique hcstr, nodeTable_concat, ← hnm]
      exact idOf_concat_isSome (nodeTable R c) n

theorem buildNode_ok {names : NameMap Name} {new : Name} {c' : ZL_Compressor}
    (h : buildNode R doc pair names c = .ok (c', new)) :
    ∃ n, c' = { c with cnodes := c.cnodes ++ [n] } ∧ n.name = new ∧
      lookupNodeHelper R c new = none ∧ (lookupNodeHelper R c' new).isSome := by
  obtain ⟨val_map, -, h⟩ := bind_eq_ok.1 h
  obtain ⟨base_name, -, h⟩ := bind_eq_ok.1 h
  obtain ⟨base_nid, -, h⟩ := bind_eq_ok.1 h
  obtain ⟨n, hc, hname, -, hnone, hsome⟩ := registerNode_ok (accepted_ok h)
  exact ⟨n, hc, hname, hnone, hsome⟩

/-- **Why a node is not registered** once its base is there: it is refused. -/
theorem buildNode_error {names : NameMap Name} {e : Stop}
    (hknown : ∀ d new, names d = some (some new) → (lookupNodeHelper R c new).isSome)
    (hdeps : ∀ d ∈ nodeRefs pair, Resolver.Resolved names d)
    (h : buildNode R doc pair names c = .error e) :
    (¬NodeReadable pair ∧ ∃ code, e = .malformed code) ∨ ∃ code, e = .refused code := by
  unfold buildNode at h
  cases hval : tryGetMap (some pair.2) with
  | error code =>
    rw [hval] at h
    cases h
    refine .inl ⟨?_, code, rfl⟩
    rintro ⟨-, base, hread⟩
    simp [readNode, hval] at hread
  | ok val_map =>
    simp only [hval, readable, ok_bind] at h
    cases hbase : tryGetString (A1C_Map_get_cstr val_map ['b', 'a', 's', 'e']) with
    | error code =>
      rw [hbase] at h
      cases h
      refine .inl ⟨?_, code, rfl⟩
      rintro ⟨-, base, hread⟩
      simp [readNode, hval, hbase] at hread
    | ok base =>
      simp only [hbase, ok_bind] at h
      obtain ⟨new, hnew⟩ := hdeps base (by simp [nodeRefs, readNode, hval, hbase])
      obtain ⟨nid, hnid⟩ := Option.isSome_iff_exists.1 (hknown base new hnew)
      rw [resolvedComponent_eq hnew hnid, ok_bind] at h
      exact .inr (accepted_error h)

end Nodes

end OpenZL.Compressor.Setup
