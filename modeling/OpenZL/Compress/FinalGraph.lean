import OpenZL.Compress.EncodeChunkHeader
import OpenZL.Compress.RTGraph

/-!
# From the runtime graph to the chunk (`cctx.c`)

`CCTX_getFinalGraph` lists the nodes of a runtime graph for the header encoder, last created first.

Principal results: `Built.layout`, `Layout.exact`, `getFinalGraph_eq`.
-/

namespace OpenZL.Compress

open OpenZL.Lib

variable {g : RTGraph}

/-- `RTGM_getInputDistance`, for each input of a node. -/
def RTNode.inputDistances (node : RTNode) : List Nat :=
  node.inRtsids.map (node.startOutRtsids - ·)

/-- The entries of `GraphInfo` for a node. -/
def RTNode.desc (node : RTNode) : TransformDesc where
  trInfo := node.cnode.trInfo
  trHSize := node.nodeHeader.length
  nbVOs := node.nbOutStreams - node.cnode.getNbOut1s
  nbTrInputs := node.inRtsids.length
  dictIdx := node.cnode.dictIdx

/-- The first loop of `CCTX_getFinalGraph`. -/
def describeNodes : List RTNode → Except ErrorCode (List TransformDesc)
  | [] => .ok []
  | node :: nodes => do
    failWhen (node.nbOutStreams < node.cnode.getNbOut1s) .corruption
    let descs ← describeNodes nodes
    return node.desc :: descs

/-- `CCTX_getFinalGraph`; the headers sent by the nodes are the first stored buffer. -/
def getFinalGraph (formatVersion nbInputs : Nat) (g : RTGraph) : Except ErrorCode GraphInfo := do
  failWhen (g.nodes.length ≥ runtimeNodeLimit formatVersion) .formatVersion_unsupported
  failWhen (g.streams.length + 1 ≥ runtimeStreamLimit formatVersion) .formatVersion_unsupported
  failWhen (nbInputs > runtimeInputLimit formatVersion) .formatVersion_unsupported
  let transforms ← describeNodes g.nodes.reverse
  return {
    nbSessionInputs := nbInputs
    transforms
    distances := g.nodes.reverse.flatMap RTNode.inputDistances
    storedBuffs := g.nodes.reverse.flatMap (·.nodeHeader) :: RTGM.listBuffersToStore g }

/-- The description of a graph, once its nodes have passed their check. -/
def RTGraph.info (g : RTGraph) (nbInputs : Nat) : GraphInfo where
  nbSessionInputs := nbInputs
  transforms := g.nodes.reverse.map RTNode.desc
  distances := g.nodes.reverse.flatMap RTNode.inputDistances
  storedBuffs := g.nodes.reverse.flatMap (·.nodeHeader) :: RTGM.listBuffersToStore g

/-- The limits of a format version, as `CCTX_getFinalGraph` checks them. -/
structure FitsFormat (v nbInputs : Nat) (g : RTGraph) : Prop where
  nodes_lt : g.nodes.length < runtimeNodeLimit v
  streams_lt : g.streams.length + 1 < runtimeStreamLimit v
  inputs_le : nbInputs ≤ runtimeInputLimit v

theorem describeNodes_eq : ∀ {nodes : List RTNode},
    (∀ node ∈ nodes, node.cnode.getNbOut1s ≤ node.nbOutStreams) →
    describeNodes nodes = .ok (nodes.map RTNode.desc)
  | [], _ => rfl
  | node :: nodes, h => by
    have ih := describeNodes_eq fun n hn => h n (List.mem_cons_of_mem _ hn)
    have hhead := h node (by simp)
    rw [describeNodes, failWhen_of_not _ (by omega), ok_bind, ih]
    rfl

theorem getFinalGraph_eq {v nbInputs : Nat} (hfits : FitsFormat v nbInputs g)
    (hnodes : ∀ node ∈ g.nodes, node.cnode.getNbOut1s ≤ node.nbOutStreams) :
    getFinalGraph v nbInputs g = .ok (g.info nbInputs) := by
  have hn := hfits.nodes_lt
  have hs := hfits.streams_lt
  have hi := hfits.inputs_le
  unfold getFinalGraph
  rw [failWhen_of_not _ (by omega), ok_bind, failWhen_of_not _ (by omega), ok_bind,
    failWhen_of_not _ (by omega), ok_bind,
    describeNodes_eq fun node hnode => hnodes node (List.mem_reverse.1 hnode)]
  rfl

/-! ## Built graphs -/

/-- The graphs built in format version `v` from the session inputs `ins`. -/
inductive Built (v : Nat) (ins : List Data) : RTGraph → Prop
  /-- `CCTX_startCompression` refuses to start without an input. -/
  | inputs {g : RTGraph} : ins ≠ [] →
      Cmd.forEach (fun d => do let _ ← RTGM.refInput d; return ()) ins ⟨[], []⟩ =
        some (.ok (), g) → Built v ins g
  /-- `ZL_Edge_runMultiInputNode` asserts that there is an input. -/
  | runCNode {g g' : RTGraph} {codec : Codec} {cnode : CNode} {irtsids : List Nat}
      {out : Nat × Nat} : Built v ins g → irtsids ≠ [] →
      Compress.runCNode v codec cnode irtsids g = some (.ok out, g') → Built v ins g'
  /-- Only a stream that can be read is stored. -/
  | storeStream {g g' : RTGraph} {rtsid : Nat} : Built v ins g → g.Alive rtsid →
      RTGM.storeStream rtsid g = some (.ok (), g') → Built v ins g'
  | guardRTStream {g g' : RTGraph} {rtsid protectRank : Nat} : Built v ins g →
      RTGM.guardRTStream rtsid protectRank g = some (.ok (), g') → Built v ins g'
  | clearRTStream {g g' : RTGraph} {rtsid protectRank : Nat} : Built v ins g →
      RTGM.clearRTStream protectRank rtsid g = some (.ok (), g') → Built v ins g'
  | clearNodesFrom {g g' : RTGraph} {nodeRank : Nat} : Built v ins g →
      RTGM.clearNodesFrom nodeRank g = some (.ok (), g') → Built v ins g'

namespace RTGraph

/-- Where the outputs of node `k` start; the end of the streams beyond the last node. -/
def bound (g : RTGraph) (k : Nat) : Nat :=
  match g.nodes[k]? with
  | some node => node.startOutRtsids
  | none => g.streams.length

/-- A slot in which no stream was ever registered: nothing stores it, nothing reads it. -/
structure Unused (g : RTGraph) (s : Nat) : Prop where
  slot : ∃ slot, g.streams[s]? = some slot ∧ slot.stream = none ∧ slot.toStore = false
  unread : ∀ node ∈ g.nodes, s ∉ node.inRtsids

theorem bound_of_node {k : Nat} {node : RTNode} (h : g.nodes[k]? = some node) :
    g.bound k = node.startOutRtsids := by
  rw [bound, h]

theorem bound_of_le {k : Nat} (h : g.nodes.length ≤ k) :
    g.bound k = g.streams.length := by
  rw [bound, List.getElem?_eq_none h]

end RTGraph

/-! ## Layout -/

/-- What is known of a node once it has run. -/
structure Settled (v : Nat) (node : RTNode) : Prop where
  accepted : Accepted v node
  compatible : node.cnode.isNbInputsCompatible node.inRtsids.length = true
  nbInputs_le : node.inRtsids.length ≤ runtimeNodeInputLimit v
  inRtsids_ne : node.inRtsids ≠ []
  inRtsids_lt : ∀ s ∈ node.inRtsids, s < node.startOutRtsids
  no_VO : node.cnode.getNbVOs = 0 → node.nbOutStreams = node.cnode.getNbOut1s

/-- The layout of a built graph. -/
structure Layout (v : Nat) (ins : List Data) (g : RTGraph) : Prop where
  first : g.bound 0 = ins.length
  settled : ∀ node ∈ g.nodes, Settled v node
  next : ∀ k node, g.nodes[k]? = some node →
    node.startOutRtsids + node.nbOutStreams ≤ g.bound (k + 1)
  unused : ∀ k node, g.nodes[k]? = some node → ∀ s, node.startOutRtsids + node.nbOutStreams ≤ s →
    s < g.bound (k + 1) → g.Unused s
  stored : ∀ (s : Nat) slot, g.streams[s]? = some slot → slot.toStore = true → slot.stream.isSome
  session : ∀ (k : Nat) d, ins[k]? = some d → ∃ slot, g.streams[k]? = some slot ∧
    (slot.stream = none ∨ slot.stream = some d)

namespace Layout

variable {v : Nat} {ins : List Data} {g g' : RTGraph}

variable (h : Layout v ins g)

include h

theorem bound_mono {j k : Nat} (hjk : j ≤ k) : g.bound j ≤ g.bound k := by
  induction k, hjk using Nat.le_induction with
  | base => exact Nat.le_refl _
  | succ k hle ih =>
    cases hnode : g.nodes[k]? with
    | none =>
      have hlen := List.getElem?_eq_none_iff.1 hnode
      rwa [RTGraph.bound_of_le (k := k + 1) (by omega), ← RTGraph.bound_of_le hlen]
    | some node =>
      have hnext := h.next k node hnode
      rw [RTGraph.bound_of_node hnode] at ih
      omega

theorem bound_le (k : Nat) : g.bound k ≤ g.streams.length := by
  rw [← RTGraph.bound_of_le (g := g) (Nat.le_max_right k g.nodes.length)]
  exact h.bound_mono (Nat.le_max_left _ _)

theorem start_le {node : RTNode} (hnode : node ∈ g.nodes) :
    node.startOutRtsids ≤ g.streams.length := by
  obtain ⟨k, hk⟩ := List.getElem?_of_mem hnode
  rw [← RTGraph.bound_of_node hk]
  exact h.bound_le k

theorem unread_of_le {s : Nat} (hs : g.streams.length ≤ s) {node : RTNode}
    (hnode : node ∈ g.nodes) : s ∉ node.inRtsids := by
  intro hmem
  have h1 := (h.settled node hnode).inRtsids_lt s hmem
  have h2 := h.start_le hnode
  omega

theorem of_streams (hnodes : g'.nodes = g.nodes) (hlen : g'.streams.length = g.streams.length)
    (hslot : ∀ (s : Nat) slot', g'.streams[s]? = some slot' → ∃ slot, g.streams[s]? = some slot ∧
      (slot'.stream = slot.stream ∨ slot'.stream = none ∧ slot.toStore = false) ∧
      (slot'.toStore = slot.toStore ∨ slot.stream.isSome ∧ slot'.stream = slot.stream)) :
    Layout v ins g' := by
  have hbound : ∀ k, g'.bound k = g.bound k := by
    intro k
    unfold RTGraph.bound
    rw [hnodes, hlen]
  have hget : ∀ s : Nat, s < g.streams.length → ∃ slot', g'.streams[s]? = some slot' :=
    fun s hs => ⟨_, List.getElem?_eq_getElem (by omega)⟩
  constructor
  · rw [hbound, h.first]
  · rw [hnodes]
    exact h.settled
  · intro k node hk
    rw [hnodes] at hk
    rw [hbound]
    exact h.next k node hk
  · intro k node hk s hle hlt
    rw [hnodes] at hk
    rw [hbound] at hlt
    obtain ⟨⟨slot, hs, hnone, hst⟩, hunread⟩ := h.unused k node hk s hle hlt
    obtain ⟨slot', hs'⟩ := hget s (List.getElem?_eq_some_iff.1 hs).1
    obtain ⟨slot₀, hs₀, hstream, hstore⟩ := hslot s slot' hs'
    obtain rfl : slot₀ = slot := Option.some.inj (hs₀.symm.trans hs)
    refine ⟨⟨slot', hs', ?_, ?_⟩, by rwa [hnodes]⟩
    · rcases hstream with heq | ⟨heq, -⟩
      · rw [heq, hnone]
      · exact heq
    · rcases hstore with heq | ⟨hsome, -⟩
      · rw [heq, hst]
      · rw [hnone] at hsome
        cases hsome
  · intro s slot' hs' hst'
    obtain ⟨slot, hs, hstream, hstore⟩ := hslot s slot' hs'
    rcases hstore with heq | ⟨hsome, heq⟩
    · have hst : slot.toStore = true := by rw [← heq, hst']
      rcases hstream with heq' | ⟨-, hfalse⟩
      · rw [heq']
        exact h.stored s slot hs hst
      · rw [hst] at hfalse
        cases hfalse
    · rwa [heq]
  · intro k d hk
    obtain ⟨slot, hs, hd⟩ := h.session k d hk
    obtain ⟨slot', hs'⟩ := hget k (List.getElem?_eq_some_iff.1 hs).1
    obtain ⟨slot₀, hs₀, hstream, -⟩ := hslot k slot' hs'
    obtain rfl : slot₀ = slot := Option.some.inj (hs₀.symm.trans hs)
    refine ⟨slot', hs', ?_⟩
    rcases hstream with heq | ⟨heq, -⟩
    · rwa [heq]
    · exact Or.inl heq

theorem of_modify {rtsid : Nat} {f : RTCStream → RTCStream}
    (hf : ∀ slot, g.streams[rtsid]? = some slot →
      ((f slot).stream = slot.stream ∨ (f slot).stream = none ∧ slot.toStore = false) ∧
      ((f slot).toStore = slot.toStore ∨ slot.stream.isSome ∧ (f slot).stream = slot.stream)) :
    Layout v ins { g with streams := g.streams.modify rtsid f } := by
  refine h.of_streams rfl (List.length_modify ..) fun s slot' hs' => ?_
  rw [List.getElem?_modify] at hs'
  obtain ⟨slot, hs, rfl⟩ := Option.map_eq_some_iff.1 hs'
  refine ⟨slot, hs, ?_⟩
  split
  · rename_i heq
    exact hf slot (heq ▸ hs)
  · exact ⟨Or.inl rfl, Or.inl rfl⟩

theorem storeStream {rtsid : Nat} (halive : g.Alive rtsid) :
    Layout v ins { g with streams := g.streams.modify rtsid ({ · with toStore := true }) } := by
  refine h.of_modify fun slot hslot => ⟨Or.inl rfl, Or.inr ⟨?_, rfl⟩⟩
  obtain ⟨slot', d, hslot', hd⟩ := halive
  obtain rfl : slot' = slot := Option.some.inj (hslot'.symm.trans hslot)
  rw [hd]
  rfl

theorem clearRTStream (protectRank rtsid : Nat) :
    Layout v ins { g with streams := g.streams.modify rtsid (RTGM.clearSlot protectRank) } := by
  refine h.of_modify fun slot _ => ?_
  unfold RTGM.clearSlot
  split
  · exact ⟨Or.inl rfl, Or.inl rfl⟩
  · rename_i hst
    split
    · exact ⟨Or.inl rfl, Or.inl rfl⟩
    · exact ⟨Or.inr ⟨rfl, by simpa using hst⟩, Or.inl rfl⟩

theorem guardRTStream (protectRank rtsid : Nat) :
    Layout v ins { g with streams := g.streams.modify rtsid fun s =>
      if s.protectRank = 0 then { s with protectRank } else s } := by
  refine h.of_modify fun slot _ => ?_
  split <;> exact ⟨Or.inl rfl, Or.inl rfl⟩

theorem clearSlots (protectRank : Nat) (rtsids : List Nat) :
    Layout v ins { g with streams := Compress.clearSlots protectRank rtsids g.streams } := by
  induction rtsids generalizing g with
  | nil => exact h
  | cons rtsid rtsids ih => exact ih (h.clearRTStream protectRank rtsid)

theorem clearNodesFrom {nodeRank : Nat} {node : RTNode} (hnode : g.nodes[nodeRank]? = some node) :
    Layout v ins ⟨g.nodes.take nodeRank, g.streams.take node.startOutRtsids⟩ := by
  have hrank := (List.getElem?_eq_some_iff.1 hnode).1
  have hstart := h.start_le (List.mem_of_getElem? hnode)
  have hbound : ∀ k ≤ nodeRank,
      RTGraph.bound ⟨g.nodes.take nodeRank, g.streams.take node.startOutRtsids⟩ k = g.bound k := by
    intro k hk
    unfold RTGraph.bound
    rcases Nat.lt_or_eq_of_le hk with hlt | rfl
    · simp only [List.getElem?_take_of_lt hlt, List.getElem?_eq_getElem (hlt.trans hrank)]
    · rw [hnode]
      simp [hstart]
  have hold : ∀ {k : Nat} {n : RTNode}, (g.nodes.take nodeRank)[k]? = some n →
      k < nodeRank ∧ g.nodes[k]? = some n := by
    intro k n hk
    rw [List.getElem?_take] at hk
    split at hk
    · exact ⟨‹_›, hk⟩
    · cases hk
  have hlt : ∀ k < nodeRank, g.bound (k + 1) ≤ node.startOutRtsids := by
    intro k hk
    rw [← RTGraph.bound_of_node hnode]
    exact h.bound_mono hk
  constructor
  · rw [hbound 0 (Nat.zero_le _), h.first]
  · exact fun n hn => h.settled n (List.mem_of_mem_take hn)
  · intro k n hk
    obtain ⟨hkr, hk⟩ := hold hk
    rw [hbound (k + 1) hkr]
    exact h.next k n hk
  · intro k n hk s hle hs
    obtain ⟨hkr, hk⟩ := hold hk
    rw [hbound (k + 1) hkr] at hs
    obtain ⟨⟨slot, hslot, hnone⟩, hunread⟩ := h.unused k n hk s hle hs
    refine ⟨⟨slot, ?_, hnone⟩, fun m hm => hunread m (List.mem_of_mem_take hm)⟩
    rw [List.getElem?_take_of_lt (by have := hlt k hkr; omega), hslot]
  · intro s slot hs
    rw [List.getElem?_take] at hs
    split at hs
    · exact h.stored s slot hs
    · cases hs
  · intro k d hk
    obtain ⟨slot, hs, hd⟩ := h.session k d hk
    have hfirst := h.bound_mono (Nat.zero_le nodeRank)
    rw [h.first, RTGraph.bound_of_node hnode] at hfirst
    have hkl := (List.getElem?_eq_some_iff.1 hk).1
    exact ⟨slot, by rw [List.getElem?_take_of_lt (by omega), hs], hd⟩

theorem runCNode {cnode : CNode} {irtsids : List Nat} {node : RTNode} {tail : List RTCStream}
    (hne : irtsids ≠ []) (hrun : NodeRun v g cnode irtsids node tail g') :
    Layout v ins g' := by
  have hc := h.clearSlots 0 irtsids
  obtain ⟨rfl, hn, hacc, halive, hcompat, hlimit, hreg⟩ := hrun
  have hrun : NodeRun v g cnode irtsids node tail _ := ⟨rfl, hn, hacc, halive, hcompat, hlimit, hreg⟩
  have hold : ∀ k ≤ g.nodes.length, RTGraph.bound
      ⟨g.nodes ++ [node], Compress.clearSlots 0 irtsids g.streams ++ tail⟩ k = g.bound k := by
    intro k hk
    unfold RTGraph.bound
    rcases Nat.lt_or_eq_of_le hk with hlt | rfl
    · simp only [List.getElem?_append_left hlt, List.getElem?_eq_getElem hlt]
    · simp [hn.start_eq]
  have hlast : RTGraph.bound
      ⟨g.nodes ++ [node], Compress.clearSlots 0 irtsids g.streams ++ tail⟩ (g.nodes.length + 1) =
      g.streams.length + tail.length := by
    rw [RTGraph.bound_of_le (by simp)]
    simp
  have hcases : ∀ {k : Nat} {n : RTNode}, (g.nodes ++ [node])[k]? = some n →
      k < g.nodes.length ∧ g.nodes[k]? = some n ∨ k = g.nodes.length ∧ n = node := by
    intro k n hk
    rcases Nat.lt_or_ge k g.nodes.length with hlt | hge
    · rw [List.getElem?_append_left hlt] at hk
      exact Or.inl ⟨hlt, hk⟩
    · obtain ⟨rfl, rfl⟩ : k = g.nodes.length ∧ n = node := by
        have hlt := (List.getElem?_eq_some_iff.1 hk).1
        simp at hlt
        obtain rfl : k = g.nodes.length := by omega
        exact ⟨rfl, by simpa using hk.symm⟩
      exact Or.inr ⟨rfl, rfl⟩
  have hfresh : ∀ s, g.streams.length ≤ s → ∀ m ∈ g.nodes ++ [node], s ∉ m.inRtsids := by
    intro s hs m hm
    rcases List.mem_append.1 hm with hm | hm
    · exact h.unread_of_le hs hm
    · rw [List.mem_singleton.1 hm, hn.inRtsids_eq]
      intro hmem
      have := (halive s hmem).lt
      omega
  constructor
  · rw [hold 0 (Nat.zero_le _), h.first]
  · intro n hmem
    rcases List.mem_append.1 hmem with hmem | hmem
    · exact h.settled n hmem
    · rw [List.mem_singleton.1 hmem]
      refine ⟨hacc, ?_, ?_, ?_, ?_, ?_⟩
      · rw [hn.cnode_eq, hn.inRtsids_eq, hcompat]
      · rw [hn.inRtsids_eq]
        exact hlimit
      · rw [hn.inRtsids_eq]
        exact hne
      · rw [hn.inRtsids_eq, hn.start_eq]
        exact fun s hs => (halive s hs).lt
      · intro h0
        have h1 := hrun.nbOut_le_length
        have h2 := hacc.nbOut1s_le
        rw [hn.cnode_eq] at h0 h2 ⊢
        rw [hn.no_VO h0] at h1
        omega
  · intro k n hk
    rcases hcases hk with ⟨hlt, hk⟩ | ⟨rfl, rfl⟩
    · rw [hold (k + 1) hlt]
      exact h.next k n hk
    · rw [hlast, hn.start_eq]
      have := hrun.nbOut_le_length
      omega
  · intro k n hk s hle hs
    rcases hcases hk with ⟨hlt, hk⟩ | ⟨rfl, rfl⟩
    · rw [hold (k + 1) hlt] at hs
      obtain ⟨⟨slot, hslot, hnone, hst⟩, hunread⟩ := h.unused k n hk s hle hs
      have hsl := (List.getElem?_eq_some_iff.1 hslot).1
      have hnotin : s ∉ irtsids := by
        intro hmem
        obtain ⟨slot', d, hslot', hd⟩ := halive s hmem
        obtain rfl := Option.some.inj (hslot'.symm.trans hslot)
        rw [hnone] at hd
        cases hd
      refine ⟨⟨slot, ?_, hnone, hst⟩, fun m hm => ?_⟩
      · rw [List.getElem?_append_left (by simpa using hsl), getElem?_clearSlots, if_neg hnotin,
          hslot]
      · rcases List.mem_append.1 hm with hm | hm
        · exact hunread m hm
        · rwa [List.mem_singleton.1 hm, hn.inRtsids_eq]
    · rw [hlast] at hs
      rw [hn.start_eq] at hle
      obtain ⟨i, rfl⟩ : ∃ i, s = g.streams.length + i := ⟨s - g.streams.length, by omega⟩
      have hget := List.getElem?_eq_getElem (l := tail) (i := i) (by omega)
      refine ⟨⟨_, ?_, hrun.unregistered (by omega) hget, ?_⟩, hfresh _ (by omega)⟩
      · rw [List.getElem?_append_right (by simp), length_clearSlots, Nat.add_sub_cancel_left, hget]
      · exact (hn.fresh _ (List.mem_of_getElem? hget)).1
  · intro s slot hs hst
    rcases Nat.lt_or_ge s g.streams.length with hlt | hge
    · rw [List.getElem?_append_left (by simpa using hlt)] at hs
      exact hc.stored s slot hs hst
    · rw [List.getElem?_append_right (by simpa using hge)] at hs
      rw [(hn.fresh slot (List.mem_of_getElem? hs)).1] at hst
      cases hst
  · intro k d hk
    obtain ⟨slot, hs, hd⟩ := hc.session k d hk
    have hlt := (List.getElem?_eq_some_iff.1 hs).1
    exact ⟨slot, by rw [List.getElem?_append_left hlt]; exact hs, hd⟩

end Layout

theorem refInput_some {d : Data} {g g' : RTGraph} {r : Except ErrorCode Nat}
    (h : RTGM.refInput d g = some (r, g')) : g'.nodes = g.nodes ∧ ∀ rtsid, r = .ok rtsid →
      rtsid = g.streams.length ∧
        g'.streams = g.streams ++ [{ RTCStream.empty with stream := some d }] := by
  unfold RTGM.refInput at h
  rw [Cmd.run_get_bind] at h
  rcases Cmd.run_failWhen_bind_some h with ⟨-, rfl, rfl⟩ | ⟨-, hrun⟩
  · exact ⟨rfl, fun _ hr => by cases hr⟩
  · rw [Cmd.run_modify_bind] at hrun
    obtain ⟨rfl, rfl⟩ := Cmd.run_pure_iff.1 hrun
    exact ⟨rfl, fun _ hr => ⟨(Except.ok.inj hr).symm, rfl⟩⟩

theorem refInputs_ok : ∀ {ins : List Data} {g g' : RTGraph},
    Cmd.forEach (fun d => do let _ ← RTGM.refInput d; return ()) ins g = some (.ok (), g') →
    g' = ⟨g.nodes, g.streams ++ ins.map fun d => { RTCStream.empty with stream := some d }⟩
  | [], g, g', h => by
    obtain ⟨-, rfl⟩ := Cmd.run_pure_iff.1 h
    simp
  | d :: ins, g, g', h => by
    obtain ⟨_, t, hhead, hrest⟩ := Cmd.run_bind_ok.1 h
    obtain ⟨rtsid, t', href, hpure⟩ := Cmd.run_bind_ok.1 hhead
    obtain ⟨-, rfl⟩ := Cmd.run_pure_iff.1 hpure
    obtain ⟨hnodes, hstreams⟩ := refInput_some href
    rw [refInputs_ok hrest, hnodes, (hstreams rtsid rfl).2]
    simp

theorem Layout.ofInputs (v : Nat) (ins : List Data) :
    Layout v ins ⟨[], ins.map fun d => { RTCStream.empty with stream := some d }⟩ := by
  constructor
  · simp [RTGraph.bound]
  · simp
  · simp
  · simp
  · intro s slot hs hst
    rw [List.getElem?_map] at hs
    obtain ⟨d, -, rfl⟩ := Option.map_eq_some_iff.1 hs
    rfl
  · intro k d hk
    exact ⟨_, by rw [List.getElem?_map, hk]; rfl, Or.inr rfl⟩

/-- **Every built graph is laid out node after node.** -/
theorem Built.layout {v : Nat} {ins : List Data} (h : Built v ins g) :
    Layout v ins g := by
  induction h with
  | inputs _ hrun =>
    rw [refInputs_ok hrun]
    exact Layout.ofInputs v ins
  | runCNode _ hne hrun ih =>
    rcases runCNode_some hrun with ⟨_, hr, -⟩ | ⟨node, tail, -, hnode⟩
    · cases hr
    · exact ih.runCNode hne hnode
  | storeStream _ halive hrun ih =>
    obtain ⟨-, rfl⟩ := Prod.mk.inj (Option.some.inj hrun)
    exact ih.storeStream halive
  | guardRTStream _ hrun ih =>
    obtain ⟨-, rfl⟩ := Prod.mk.inj (Option.some.inj hrun)
    split
    · exact ih
    · exact ih.guardRTStream _ _
  | clearRTStream _ hrun ih =>
    obtain ⟨-, rfl⟩ := Prod.mk.inj (Option.some.inj hrun)
    exact ih.clearRTStream _ _
  | clearNodesFrom _ hrun ih =>
    unfold RTGM.clearNodesFrom at hrun
    rw [Cmd.run_get_bind] at hrun
    split at hrun
    · obtain ⟨-, rfl⟩ := Cmd.run_pure_iff.1 hrun
      exact ih
    · obtain ⟨node, hnode, hmod⟩ := Cmd.run_expect_bind.1 hrun
      obtain ⟨-, rfl⟩ := Prod.mk.inj (Option.some.inj hmod)
      exact ih.clearNodesFrom hnode

theorem Built.ins_ne {v : Nat} {ins : List Data} (h : Built v ins g) : ins ≠ [] := by
  induction h with
  | inputs hne _ => exact hne
  | runCNode _ _ _ ih => exact ih
  | storeStream _ _ _ ih => exact ih
  | guardRTStream _ _ ih => exact ih
  | clearRTStream _ _ ih => exact ih
  | clearNodesFrom _ _ ih => exact ih

/-! ## Use of streams -/

/-- The streams read by the nodes, once per input slot. -/
def RTGraph.consumed (g : RTGraph) : List Nat := g.nodes.flatMap (·.inRtsids)

/-- Whether a stream is marked for storage. -/
def RTGraph.isStored (g : RTGraph) (s : Nat) : Bool := (g.streams[s]?.map (·.toStore)).getD false

/-- A stream is read by exactly one input slot of exactly one node, or stored, and not both. -/
def RTGraph.UsedOnce (g : RTGraph) (s : Nat) : Prop :=
  g.consumed.count s = 1 ∧ g.isStored s = false ∨ g.consumed.count s = 0 ∧ g.isStored s = true

theorem RTGraph.UsedOnce.not_unused {s : Nat} (h : g.UsedOnce s) : ¬ g.Unused s := by
  rintro ⟨⟨slot, hslot, -, hst⟩, hunread⟩
  rcases h with ⟨hcount, -⟩ | ⟨-, hstored⟩
  · have hmem : s ∈ g.consumed := List.count_pos_iff.1 (by omega)
    obtain ⟨node, hnode, hs⟩ := List.mem_flatMap.1 hmem
    exact hunread node hnode hs
  · unfold RTGraph.isStored at hstored
    rw [hslot] at hstored
    simp [hst] at hstored

theorem Layout.consumed_lt {v : Nat} {ins : List Data} (h : Layout v ins g) :
    ∀ s ∈ g.consumed, s < g.streams.length := by
  intro s hs
  obtain ⟨node, hnode, hmem⟩ := List.mem_flatMap.1 hs
  have h1 := (h.settled node hnode).inRtsids_lt s hmem
  have h2 := h.start_le hnode
  omega

/-- Nodes, last first, each owning exactly its outputs, from `hi` down to `lo`. -/
def Stacked (lo : Nat) : Nat → List RTNode → Prop
  | hi, [] => hi = lo
  | hi, node :: nodes =>
    node.startOutRtsids + node.nbOutStreams = hi ∧ Stacked lo node.startOutRtsids nodes

theorem Stacked.le {lo : Nat} : ∀ {hi : Nat} {nodes : List RTNode}, Stacked lo hi nodes → lo ≤ hi
  | _, [], h => Nat.le_of_eq h.symm
  | _, _ :: _, ⟨heq, hrest⟩ => by
    have := hrest.le
    omega

theorem Stacked.end_le {lo : Nat} : ∀ {hi : Nat} {nodes : List RTNode}, Stacked lo hi nodes →
    ∀ node ∈ nodes, node.startOutRtsids + node.nbOutStreams ≤ hi
  | _, [], _ => by simp
  | _, n :: _, ⟨heq, hrest⟩ => by
    intro node hnode
    rcases List.mem_cons.1 hnode with rfl | hnode
    · exact Nat.le_of_eq heq
    · have := hrest.end_le node hnode
      omega

theorem Stacked.lo_le {lo : Nat} : ∀ {hi : Nat} {nodes : List RTNode}, Stacked lo hi nodes →
    ∀ node ∈ nodes, lo ≤ node.startOutRtsids
  | _, [], _ => by simp
  | _, n :: _, ⟨_, hrest⟩ => by
    intro node hnode
    rcases List.mem_cons.1 hnode with rfl | hnode
    · exact hrest.le
    · exact hrest.lo_le node hnode

theorem Layout.exact {v : Nat} {ins : List Data} (h : Layout v ins g)
    (hused : ∀ s < g.streams.length, g.UsedOnce s) :
    Stacked ins.length g.streams.length g.nodes.reverse := by
  have hexact : ∀ k node, g.nodes[k]? = some node →
      node.startOutRtsids + node.nbOutStreams = g.bound (k + 1) := by
    intro k node hk
    have hle := h.next k node hk
    by_contra hne
    have hunused := h.unused k node hk _ (Nat.le_refl _) (by omega)
    have hlt := h.bound_le (k + 1)
    exact (hused _ (by omega)).not_unused hunused
  have htake : ∀ m ≤ g.nodes.length, Stacked ins.length (g.bound m) (g.nodes.take m).reverse := by
    intro m
    induction m with
    | zero =>
      intro _
      exact h.first
    | succ m ih =>
      intro hm
      have hget := List.getElem?_eq_getElem (l := g.nodes) (i := m) hm
      rw [List.take_add_one, hget, Option.toList_some, List.reverse_append, List.reverse_singleton,
        List.singleton_append]
      refine ⟨hexact m _ hget, ?_⟩
      rw [← RTGraph.bound_of_node hget]
      exact ih (by omega)
  have hall := htake g.nodes.length (Nat.le_refl _)
  rwa [RTGraph.bound_of_le (Nat.le_refl _), List.take_length] at hall

end OpenZL.Compress
