import OpenZL.Compress.FinalGraph
import OpenZL.Decompress.FillStreams
import OpenZL.Wire.ChunkRoundTrip

/-!
# The wiring of a chunk survives its description

The encoder numbers streams from the session inputs up, the decoder from the last stream down, and
only distances are transmitted.

Principal results: `placeNodes_mirror`, `assignStored_mirror`, `fillStoredStreams_info`,
`chunkWiring_rebuilt`.
-/

namespace OpenZL.Wire

open OpenZL.Lib OpenZL.Compress OpenZL.Decompress

/-- The decoder registered under the codec's ID has the codec's graph description. -/
def Agrees (registry : Registry) (v : Nat) (cnode : CNode) : Prop :=
  ∃ dt, registry cnode.trInfo v = .ok dt ∧ dt.nbSOs = cnode.getNbOut1s ∧
    dt.nbVOs = cnode.getNbVOs ∧ dt.nbInputs = cnode.getNbInputPorts ∧
    dt.lastInputIsVariable = cnode.lastInputIsVariable

/-- A node of the decoder and the node of the encoder it undoes, among `total` streams: it reads
the outputs of the latter (in order: `DCTX_getNodeInputs` reverses its range) and regenerates its
inputs. -/
structure Mirrors (total : Nat) (rtnode : RTNode) (node : PlacedNode) : Prop where
  trpid : node.info.trpid = rtnode.cnode.trInfo
  inputs : node.inputs.reverse =
    (List.range' rtnode.startOutRtsids rtnode.nbOutStreams).map (total - 1 - ·)
  regens : node.regens = rtnode.inRtsids.map (total - 1 - ·)

/-- What a stream of the encoder becomes in the table of the decoder. -/
def storedContent (s : RTCStream) : Option (List UInt8) :=
  if s.toStore then some s.getRBuffer else none

/-! ## Placing the nodes -/

theorem claimRegens_eq_ok : ∀ {distances : List Nat} {t inputEnd : Nat}
    {producers : List (Option Nat)}, (distances.map (inputEnd + ·)).Nodup →
    (∀ s ∈ distances.map (inputEnd + ·), producers[s]? = some none) →
    ∃ producers', claimRegens t inputEnd distances producers = .ok producers'
  | [], _, _, producers, _, _ => ⟨producers, rfl⟩
  | d :: distances, t, inputEnd, producers, hnodup, hfree => by
    obtain ⟨hnotin, hnodup⟩ := List.nodup_cons.1 hnodup
    have hd := hfree (inputEnd + d) (by simp)
    have hlt := (List.getElem?_eq_some_iff.1 hd).1
    rw [claimRegens]
    simp only [ge_iff_le, Nat.not_le.2 hlt, if_false, hd, ne_eq, not_true_eq_false]
    refine claimRegens_eq_ok hnodup fun s hs => ?_
    have hne : inputEnd + d ≠ s := by
      rintro rfl
      exact hnotin hs
    rw [List.getElem?_set_ne hne]
    exact hfree s (List.mem_cons_of_mem _ hs)

theorem isNbRegensCompatible_of {cnode : CNode} {dt : DTransform} {n : Nat}
    (hin : dt.nbInputs = cnode.getNbInputPorts)
    (hvar : dt.lastInputIsVariable = cnode.lastInputIsVariable)
    (hn : n < 2 ^ 63) (h : cnode.isNbInputsCompatible n = true) :
    dt.isNbRegensCompatible n = true := by
  have hports : 0 < cnode.getNbInputPorts := List.length_pos_iff.2 cnode.inputTypes_ne
  unfold CNode.isNbInputsCompatible at h
  unfold DTransform.isNbRegensCompatible
  rw [hvar, hin]
  split at h
  · simp only [ge_iff_le, decide_eq_true_eq, if_true, *] at h ⊢
    omega
  · simp_all

theorem validateNodeStatic_of {v nbInputs T : Nat} {rtnode : RTNode} {dt : DTransform}
    {info : NodeInfo} (hs : Settled v rtnode) (hT : T < 2 ^ 32) (hlow : nbInputs ≤ T)
    (hstart : nbInputs ≤ rtnode.startOutRtsids)
    (hend : rtnode.startOutRtsids + rtnode.nbOutStreams ≤ T)
    (hregens : info.nbRegens = rtnode.inRtsids.length)
    (hvos : info.nbVOs = rtnode.nbOutStreams - rtnode.cnode.getNbOut1s)
    (hnbVOs : dt.nbVOs = rtnode.cnode.getNbVOs) (hin : dt.nbInputs = rtnode.cnode.getNbInputPorts)
    (hvar : dt.lastInputIsVariable = rtnode.cnode.lastInputIsVariable) :
    validateNodeStatic v nbInputs T dt
      ⟨info, T - (rtnode.startOutRtsids + rtnode.nbOutStreams), rtnode.nbOutStreams⟩ = .ok () := by
  have hlimit := hs.nbInputs_le.trans (runtimeNodeInputLimit_le v)
  have hcompat := isNbRegensCompatible_of hin hvar (by omega) hs.compatible
  have hne : rtnode.inRtsids.length ≠ 0 := fun h0 => hs.inRtsids_ne (List.length_eq_zero_iff.1 h0)
  have hvo : ¬ (dt.nbVOs = 0 ∧ info.nbVOs ≠ 0) := by
    rintro ⟨h0, h1⟩
    rw [hnbVOs] at h0
    rw [hvos, hs.no_VO h0] at h1
    omega
  have hmod : (T - (rtnode.startOutRtsids + rtnode.nbOutStreams) + rtnode.nbOutStreams) % 2 ^ 32 =
      T - rtnode.startOutRtsids := by omega
  have hsize : (T + 2 ^ 64 - nbInputs) % 2 ^ 64 = T - nbInputs := by omega
  unfold validateNodeStatic
  rw [failWhen_of_not _ fun h => hs.accepted.nbOut_pos h.1 h.2, ok_bind,
    failWhen_of_not _ (Nat.not_lt.2 hs.accepted.nbOut_le), ok_bind,
    failWhen_of_not _ (by rw [hregens]; exact hne), ok_bind,
    failWhen_of_not _ (by rw [hregens, hcompat]; simp), ok_bind, failWhen_of_not _ hvo, ok_bind]
  simp only [hmod, hsize]
  rw [failWhen_of_not _ (by omega), ok_bind, failWhen_of_not _ (by omega)]

/-- The record of a node, placed among `total` streams. -/
def mirrorNode (T : Nat) (rtnode : RTNode) (info : NodeInfo) : PlacedNode :=
  ⟨info, T - (rtnode.startOutRtsids + rtnode.nbOutStreams), rtnode.nbOutStreams⟩

theorem regenDistances_map {T : Nat} {rtnode : RTNode} (hT : rtnode.startOutRtsids ≤ T)
    (hlt : ∀ s ∈ rtnode.inRtsids, s < rtnode.startOutRtsids) :
    (rtnode.inputDistances.map (· - 1)).map (T - rtnode.startOutRtsids + ·) =
      rtnode.inRtsids.map (T - 1 - ·) := by
  unfold RTNode.inputDistances
  rw [List.map_map, List.map_map]
  apply List.map_congr_left
  intro s hs
  have := hlt s hs
  simp only [Function.comp_apply]
  omega

theorem mirrorNode_mirrors {v T : Nat} {rtnode : RTNode} {info : NodeInfo} (hs : Settled v rtnode)
    (hT : T < 2 ^ 32) (hend : rtnode.startOutRtsids + rtnode.nbOutStreams ≤ T)
    (hid : info.trpid = rtnode.cnode.trInfo)
    (hdist : info.regenDistances = rtnode.inputDistances.map (· - 1)) :
    Mirrors T rtnode (mirrorNode T rtnode info) := by
  refine ⟨hid, ?_, ?_⟩
  · unfold PlacedNode.inputs mirrorNode
    apply List.ext_getElem
    · simp
    · intro i h1 h2
      simp at h1 h2 ⊢
      omega
  · have hbase : (mirrorNode T rtnode info).regens =
        (rtnode.inputDistances.map (· - 1)).map (T - rtnode.startOutRtsids + ·) := by
      unfold PlacedNode.regens mirrorNode
      rw [hdist]
      apply List.map_congr_left
      intro d hd
      obtain ⟨d', hd', rfl⟩ := List.mem_map.1 hd
      obtain ⟨s, -, rfl⟩ := List.mem_map.1 hd'
      dsimp only
      omega
    rw [hbase, regenDistances_map (by omega) hs.inRtsids_lt]

/-- **The decoder places the nodes of the encoder**, last created first, and claims the streams
they read. -/
theorem placeNodes_mirror {registry : Registry} {v nbInputs T : Nat} {keepDict : Bool}
    (hT : T < 2 ^ 32) : ∀ {rtnodes : List RTNode} {hi t trhStart : Nat}
    {producers : List (Option Nat)}, Stacked nbInputs hi rtnodes → hi ≤ T →
    producers.length = T →
    (∀ n ∈ rtnodes, Settled v n ∧ Agrees registry v n.cnode) →
    (rtnodes.flatMap (·.inRtsids)).Nodup →
    (∀ s ∈ rtnodes.flatMap (·.inRtsids), producers[T - 1 - s]? = some none) →
    ∃ placed producers', placeNodes registry v nbInputs
        (regenNodes keepDict (rtnodes.map RTNode.desc) trhStart
          (rtnodes.flatMap RTNode.inputDistances)) t (T - hi) producers =
          .ok (placed, producers') ∧
      List.Forall₂ (Mirrors T) rtnodes placed ∧
      producers'.length = T ∧
      ∀ i < T, producers'[i]? = some none ↔
        producers[i]? = some none ∧ T - 1 - i ∉ rtnodes.flatMap (·.inRtsids)
  | [], hi, t, trhStart, producers, _, _, hlen, _, _, _ =>
    ⟨[], producers, rfl, List.Forall₂.nil, hlen, by simp⟩
  | n :: rtnodes, hi, t, trhStart, producers, ⟨hhi, hstack⟩, hle, hlen, hnodes, hnodup, hfree => by
    obtain ⟨hs, dt, hdt, hso, hvo, hin, hvar⟩ := hnodes n (by simp)
    have hlow := hstack.le
    have hnbOut := hs.accepted.nbOut1s_le
    rw [List.flatMap_cons] at hnodup hfree
    obtain ⟨hnodup₁, hnodup₂, hdisj⟩ := List.nodup_append.1 hnodup
    have hmem_lt : ∀ s ∈ n.inRtsids, s < T := by
      intro s hmem
      have := hs.inRtsids_lt s hmem
      omega
    have hclaimed := regenDistances_map (T := T) (by omega) hs.inRtsids_lt
    have hinj : (n.inRtsids.map (T - 1 - ·)).Nodup := by
      refine List.Nodup.map_on (fun x hx y hy hxy => ?_) hnodup₁
      have := hmem_lt x hx
      have := hmem_lt y hy
      omega
    have hmem_iff : ∀ i < T, i ∈ n.inRtsids.map (T - 1 - ·) ↔ T - 1 - i ∈ n.inRtsids := by
      intro i hi
      constructor
      · intro hmap
        obtain ⟨s, hmem, rfl⟩ := List.mem_map.1 hmap
        have := hmem_lt s hmem
        rwa [show T - 1 - (T - 1 - s) = s by omega]
      · intro hmem
        exact List.mem_map.2 ⟨_, hmem, by omega⟩
    have hfree₀ : ∀ i ∈ (n.inputDistances.map (· - 1)).map (T - n.startOutRtsids + ·),
        producers[i]? = some none := by
      rw [hclaimed]
      intro i hi
      obtain ⟨s, hmem, rfl⟩ := List.mem_map.1 hi
      exact hfree s (List.mem_append_left _ hmem)
    obtain ⟨producers₁, hclaim⟩ : ∃ producers₁, claimRegens t (T - n.startOutRtsids)
        (n.inputDistances.map (· - 1)) producers = .ok producers₁ :=
      claimRegens_eq_ok (by rw [hclaimed]; exact hinj) hfree₀
    obtain ⟨hlen₁, -, -, hget₁⟩ := claimRegens_ok hclaim
    rw [hclaimed] at hget₁
    -- the streams the other nodes read are still free
    have hfree₁ : ∀ s ∈ rtnodes.flatMap (·.inRtsids), producers₁[T - 1 - s]? = some none := by
      intro s hmem
      obtain ⟨m, hm, hsm⟩ := List.mem_flatMap.1 hmem
      have h1 := (hnodes m (List.mem_cons_of_mem _ hm)).1.inRtsids_lt s hsm
      have h2 := hstack.end_le m hm
      have hnotin : T - 1 - s ∉ n.inRtsids.map (T - 1 - ·) := by
        rw [hmem_iff _ (by omega), show T - 1 - (T - 1 - s) = s by omega]
        exact fun hmem' => hdisj s hmem' s hmem rfl
      rw [hget₁, if_neg hnotin]
      exact hfree s (List.mem_append_right _ hmem)
    obtain ⟨placed, producers', hplace, hmirror, hlen', hiff⟩ :
        ∃ placed producers', placeNodes registry v nbInputs
          (regenNodes keepDict (rtnodes.map RTNode.desc) (trhStart + n.nodeHeader.length)
            (rtnodes.flatMap RTNode.inputDistances)) (t + 1) (T - n.startOutRtsids) producers₁ =
            .ok (placed, producers') ∧
        List.Forall₂ (Mirrors T) rtnodes placed ∧ producers'.length = T ∧
        ∀ i < T, producers'[i]? = some none ↔
          producers₁[i]? = some none ∧ T - 1 - i ∉ rtnodes.flatMap (·.inRtsids) :=
      placeNodes_mirror hT hstack (by omega) (by rw [hlen₁, hlen])
        (fun m hm => hnodes m (List.mem_cons_of_mem _ hm)) hnodup₂ hfree₁
    have htake : (n.inputDistances ++ rtnodes.flatMap RTNode.inputDistances).take
        n.inRtsids.length = n.inputDistances := by
      rw [List.take_left' (by simp [RTNode.inputDistances])]
    have hdrop : (n.inputDistances ++ rtnodes.flatMap RTNode.inputDistances).drop
        n.inRtsids.length = rtnodes.flatMap RTNode.inputDistances := by
      rw [List.drop_left' (by simp [RTNode.inputDistances])]
    have hins : (dt.nbSOs + (n.nbOutStreams - n.cnode.getNbOut1s)) % 2 ^ 64 = n.nbOutStreams := by
      rw [hso]
      omega
    rw [List.map_cons, List.flatMap_cons, regenNodes]
    simp only [RTNode.desc, htake, hdrop]
    rw [placeNodes]
    simp only [hdt, ok_bind, hins, hlen]
    rw [show (T - hi) % 2 ^ 32 = T - (n.startOutRtsids + n.nbOutStreams) by omega,
      show n.nbOutStreams % 2 ^ 32 = n.nbOutStreams by omega,
      validateNodeStatic_of hs hT (by omega) hlow (by omega) rfl rfl hvo hin hvar, ok_bind,
      show T - hi + n.nbOutStreams = T - n.startOutRtsids by omega, hclaim, ok_bind, hplace,
      ok_bind]
    refine ⟨_, _, rfl, List.Forall₂.cons ?_ hmirror, hlen', ?_⟩
    · exact mirrorNode_mirrors hs hT (by omega) rfl rfl
    · intro i hi
      rw [hiff i hi, hget₁ i, List.flatMap_cons, List.mem_append, not_or]
      by_cases hmem : i ∈ n.inRtsids.map (T - 1 - ·)
      · simp [hmem, (hmem_iff i hi).1 hmem]
      · have hnot : T - 1 - i ∉ n.inRtsids := fun h => hmem ((hmem_iff i hi).2 h)
        simp [hmem, hnot]

theorem assignStored_mirror {slots : List RTCStream} {producers : List (Option Nat)}
    (h : List.Forall₂ (fun s p => p = none ↔ s.toStore = true) slots producers)
    (rest : List UInt8) :
    assignStored producers (((slots.filter (·.toStore)).map RTCStream.getRBuffer).map List.length)
      (((slots.filter (·.toStore)).map RTCStream.getRBuffer).flatten ++ rest) =
      .ok (slots.map storedContent, []) := by
  induction h with
  | nil => rfl
  | @cons s p slots producers hhead _ ih =>
    cases hst : s.toStore with
    | true =>
      obtain rfl := hhead.2 hst
      rw [List.filter_cons, if_pos hst, List.map_cons, List.map_cons, List.flatten_cons,
        List.append_assoc, assignStored, List.drop_left, ih, ok_bind, List.take_left]
      simp [storedContent, hst]
      rfl
    | false =>
      cases p with
      | none => exact absurd (hhead.1 rfl) (by simp [hst])
      | some p =>
        rw [List.filter_cons, if_neg (by simp [hst]), assignStored, ih, ok_bind]
        simp [storedContent, hst]
        rfl

/-! ## Stored streams -/

section used

variable {g : RTGraph}

theorem consumed_nodup (hused : ∀ s < g.streams.length, g.UsedOnce s)
    (hlt : ∀ s ∈ g.consumed, s < g.streams.length) : g.consumed.Nodup := by
  rw [List.nodup_iff_count_le_one]
  intro s
  by_cases hs : s ∈ g.consumed
  · rcases hused s (hlt s hs) with ⟨h, -⟩ | ⟨h, -⟩ <;> omega
  · rw [List.count_eq_zero_of_not_mem hs]
    omega

theorem mem_consumed_iff (hused : ∀ s < g.streams.length, g.UsedOnce s) {s : Nat}
    (hs : s < g.streams.length) : s ∈ g.consumed ↔ g.isStored s = false := by
  rcases hused s hs with ⟨hcount, hst⟩ | ⟨hcount, hst⟩
  · simp [hst, List.count_pos_iff.1 (show 0 < g.consumed.count s by omega)]
  · simp [hst, List.count_eq_zero.1 hcount]

theorem map_toStore (g : RTGraph) :
    g.streams.map (·.toStore) = (List.range g.streams.length).map g.isStored := by
  apply List.ext_getElem
  · simp
  · intro i h1 h2
    simp at h1
    simp [RTGraph.isStored, h1]

theorem length_streams (hused : ∀ s < g.streams.length, g.UsedOnce s)
    (hlt : ∀ s ∈ g.consumed, s < g.streams.length) :
    (g.streams.filter (·.toStore)).length + g.consumed.length = g.streams.length := by
  have hperm : g.consumed.Perm
      ((List.range g.streams.length).filter fun s => !g.isStored s) := by
    rw [List.perm_ext_iff_of_nodup (consumed_nodup hused hlt)
      (List.Nodup.filter _ List.nodup_range)]
    intro s
    rw [List.mem_filter, List.mem_range]
    constructor
    · intro hs
      exact ⟨hlt s hs, by simp [(mem_consumed_iff hused (hlt s hs)).1 hs]⟩
    · rintro ⟨hs, hst⟩
      exact (mem_consumed_iff hused hs).2 (by simpa using hst)
  have hstored : (g.streams.filter (·.toStore)).length =
      ((List.range g.streams.length).filter g.isStored).length := by
    have h := congrArg (List.countP id) (map_toStore g)
    rw [List.countP_map, List.countP_map] at h
    rw [← List.countP_eq_length_filter, ← List.countP_eq_length_filter]
    exact h
  have hsplit := List.length_eq_length_filter_add (l := List.range g.streams.length) g.isStored
  rw [hperm.length_eq, hstored]
  rw [List.length_range] at hsplit
  omega

end used

/-! ## The rebuilt wiring -/

/-- The decoder's streams and nodes are the encoder's, in opposite order, and its last streams
are the session inputs `ins`: no node reads them, and they are stored or regenerated. -/
structure Rebuilt (ins : List Data) (g : RTGraph) (cs : ChunkStreams) : Prop where
  data : cs.data = g.streams.reverse.map storedContent
  nodes : List.Forall₂ (Mirrors g.streams.length) g.nodes.reverse cs.nodes
  unread : ∀ k < ins.length, ∀ node ∈ cs.nodes, g.streams.length - 1 - k ∉ node.inputs
  session : ∀ (k : Nat) d, ins[k]? = some d →
    cs.data[g.streams.length - 1 - k]? = some (some d.content) ∨
      ∃ node ∈ cs.nodes, g.streams.length - 1 - k ∈ node.regens

theorem producers_forall₂ {g : RTGraph} {producers : List (Option Nat)}
    (hused : ∀ s < g.streams.length, g.UsedOnce s) (hlen : producers.length = g.streams.length)
    (hiff : ∀ i < g.streams.length, producers[i]? = some none ↔
      g.streams.length - 1 - i ∉ g.consumed) :
    List.Forall₂ (fun s p => p = none ↔ s.toStore = true) g.streams.reverse producers := by
  rw [List.forall₂_iff_get]
  refine ⟨by simp [hlen], fun i h1 h2 => ?_⟩
  have hi : i < g.streams.length := by simpa using h1
  have hst : g.isStored (g.streams.length - 1 - i) = (g.streams.reverse.get ⟨i, h1⟩).toStore := by
    simp [RTGraph.isStored, show g.streams.length - 1 - i < g.streams.length by omega]
  have hp := hiff i hi
  rw [List.getElem?_eq_getElem h2, Option.some.injEq, mem_consumed_iff hused (by omega), hst] at hp
  rw [List.get_eq_getElem, List.get_eq_getElem]
  simpa using hp

theorem Mirrors.mem_inputs {T i : Nat} {rtnode : RTNode} {node : PlacedNode}
    (h : Mirrors T rtnode node) (hi : i ∈ node.inputs) :
    ∃ s, rtnode.startOutRtsids ≤ s ∧ s < rtnode.startOutRtsids + rtnode.nbOutStreams ∧
      i = T - 1 - s := by
  rw [← List.mem_reverse, h.inputs] at hi
  obtain ⟨s, hs, rfl⟩ := List.mem_map.1 hi
  obtain ⟨hle, hlt⟩ := List.mem_range'_1.1 hs
  exact ⟨s, hle, hlt, rfl⟩

theorem forall₂_mem_right {α β : Type} {R : α → β → Prop} {as : List α} {bs : List β}
    (h : List.Forall₂ R as bs) : ∀ b ∈ bs, ∃ a ∈ as, R a b := by
  induction h with
  | nil => simp
  | @cons a b as bs hab _ ih =>
    intro c hc
    rcases List.mem_cons.1 hc with rfl | hc
    · exact ⟨a, by simp, hab⟩
    · obtain ⟨a', ha', hr⟩ := ih c hc
      exact ⟨a', List.mem_cons_of_mem _ ha', hr⟩

theorem forall₂_mem_left {α β : Type} {R : α → β → Prop} {as : List α} {bs : List β}
    (h : List.Forall₂ R as bs) : ∀ a ∈ as, ∃ b ∈ bs, R a b := by
  intro a ha
  exact forall₂_mem_right (R := fun b a => R a b) h.flip a ha

theorem fillStoredStreams_eq_ok {registry : Registry} {v nbOutputs : Nat} {header : ChunkHeader}
    {before ths bufs after : List UInt8} {nodes : List PlacedNode} {producers : List (Option Nat)}
    {data : List (Option (List UInt8))} {T : Nat}
    (hT : header.storedStreamSizes.length + header.nbRegens = T) (hpos : T ≠ 0)
    (hlimit : T ≤ runtimeStreamLimit v) (hths : header.totalTHSize = ths.length)
    (hbufs : header.storedStreamSizes.sum = bufs.length)
    (hplace : placeNodes registry v nbOutputs header.nodes 0 0 (List.replicate T none) =
      .ok (nodes, producers))
    (hassign : assignStored producers header.storedStreamSizes (bufs ++ after) = .ok (data, [])) :
    fillStoredStreams registry v nbOutputs header (before ++ (ths ++ (bufs ++ after)))
      before.length = .ok {
        nodes, producers, data
        thstream := ths
        streamsSize := ths.length + bufs.length } := by
  unfold fillStoredStreams
  have hdrop : (before ++ (ths ++ (bufs ++ after))).drop (before.length + ths.length) =
      bufs ++ after := by
    rw [← List.append_assoc, List.drop_left' (by simp)]
  have hlen : (before ++ (ths ++ (bufs ++ after))).length =
      before.length + (ths.length + (bufs.length + after.length)) := by
    simp only [List.length_append]
  rw [hths, failWhen_of_not _ (by omega), ok_bind, hT]
  simp only
  rw [failWhen_of_not _ (by omega), ok_bind, hplace, ok_bind, hdrop, hassign, ok_bind, hbufs]
  rw [failWhen_of_not _ (by simp), ok_bind, failWhen_of_not _ hpos, ok_bind,
    failWhen_of_not _ (by omega), ok_bind, List.drop_left, List.take_left]
  rfl

section chunk

variable {registry : Registry} {v : Nat} {ins : List Data} {g : RTGraph}

theorem consumed_reverse (g : RTGraph) :
    (g.nodes.reverse.flatMap (·.inRtsids)).Perm g.consumed :=
  (List.reverse_perm g.nodes).flatMap_right _

theorem placeGraph (hlay : Layout v ins g) (hused : ∀ s < g.streams.length, g.UsedOnce s)
    (hT : g.streams.length < 2 ^ 32) (hreg : ∀ node ∈ g.nodes, Agrees registry v node.cnode)
    (keepDict : Bool) :
    ∃ placed producers, placeNodes registry v ins.length
        (regenNodes keepDict (g.nodes.reverse.map RTNode.desc) 0
          (g.nodes.reverse.flatMap RTNode.inputDistances)) 0 0
          (List.replicate g.streams.length none) = .ok (placed, producers) ∧
      List.Forall₂ (Mirrors g.streams.length) g.nodes.reverse placed ∧
      List.Forall₂ (fun s p => p = none ↔ s.toStore = true) g.streams.reverse producers := by
  have hperm := consumed_reverse g
  have hlt := hlay.consumed_lt
  obtain ⟨placed, producers, hplace, hmirror, hlen, hiff⟩ :
      ∃ placed producers, placeNodes registry v ins.length
        (regenNodes keepDict (g.nodes.reverse.map RTNode.desc) 0
          (g.nodes.reverse.flatMap RTNode.inputDistances)) 0 (g.streams.length - g.streams.length)
          (List.replicate g.streams.length none) = .ok (placed, producers) ∧
      List.Forall₂ (Mirrors g.streams.length) g.nodes.reverse placed ∧
      producers.length = g.streams.length ∧
      ∀ i < g.streams.length, producers[i]? = some none ↔
        (List.replicate g.streams.length none)[i]? = some (none : Option Nat) ∧
          g.streams.length - 1 - i ∉ g.nodes.reverse.flatMap (·.inRtsids) := by
    refine placeNodes_mirror hT (hlay.exact hused) (Nat.le_refl _) (by simp) ?_ ?_ ?_
    · intro n hn
      have hn := List.mem_reverse.1 hn
      exact ⟨hlay.settled n hn, hreg n hn⟩
    · exact hperm.nodup_iff.2 (consumed_nodup hused hlt)
    · intro s hs
      have := hlt s (hperm.mem_iff.1 hs)
      rw [List.getElem?_replicate, if_pos (by omega)]
  rw [Nat.sub_self] at hplace
  refine ⟨placed, producers, hplace, hmirror, producers_forall₂ hused hlen ?_⟩
  intro i hi
  rw [hiff i hi, hperm.mem_iff, List.getElem?_replicate, if_pos hi]
  simp

theorem length_info (hlay : Layout v ins g) (hused : ∀ s < g.streams.length, g.UsedOnce s) :
    ((RTGM.listBuffersToStore g).map List.length).length +
      (g.nodes.reverse.flatMap RTNode.inputDistances).length = g.streams.length := by
  have hdist : (g.nodes.reverse.flatMap RTNode.inputDistances).length = g.consumed.length := by
    rw [← (consumed_reverse g).length_eq, List.length_flatMap, List.length_flatMap]
    simp [RTNode.inputDistances]
  rw [hdist, RTGM.listBuffersToStore, List.length_map, List.length_map, List.filter_reverse,
    List.length_reverse]
  exact length_streams hused (hlay.consumed_lt)

theorem rebuilt_of_mirror (hlay : Layout v ins g) (hused : ∀ s < g.streams.length, g.UsedOnce s)
    {cs : ChunkStreams} (hdata : cs.data = g.streams.reverse.map storedContent)
    (hmirror : List.Forall₂ (Mirrors g.streams.length) g.nodes.reverse cs.nodes) :
    Rebuilt ins g cs := by
  have hstack := hlay.exact hused
  have hlow : ins.length ≤ g.streams.length := by
    rw [← hlay.first]
    exact hlay.bound_le 0
  refine ⟨hdata, hmirror, ?_, ?_⟩
  · intro k hk node hnode hin
    obtain ⟨rtnode, hrt, hm⟩ := forall₂_mem_right hmirror node hnode
    obtain ⟨s, hle, hlt, heq⟩ := hm.mem_inputs hin
    have h1 := hstack.lo_le rtnode hrt
    have h2 := hstack.end_le rtnode hrt
    omega
  · intro k d hk
    have hkl := (List.getElem?_eq_some_iff.1 hk).1
    obtain ⟨slot, hslot, hd⟩ := hlay.session k d hk
    by_cases hst : slot.toStore = true
    · left
      have hsome := hlay.stored k slot hslot hst
      have hd : slot.stream = some d := hd.resolve_left fun h0 => by rw [h0] at hsome; cases hsome
      rw [hdata, List.getElem?_map, List.getElem?_reverse (by omega),
        show g.streams.length - 1 - (g.streams.length - 1 - k) = k by omega, hslot]
      simp [storedContent, hst, RTCStream.getRBuffer, hd]
    · right
      have hcons : k ∈ g.consumed := by
        rw [mem_consumed_iff hused (by omega), RTGraph.isStored, hslot]
        simpa using hst
      obtain ⟨rtnode, hrt, hmem⟩ := List.mem_flatMap.1 ((consumed_reverse g).mem_iff.2 hcons)
      obtain ⟨node, hnode, hm⟩ := forall₂_mem_left hmirror rtnode hrt
      refine ⟨node, hnode, ?_⟩
      rw [hm.regens]
      exact List.mem_map.2 ⟨k, hmem, rfl⟩

/-- The decoder fills its stream table from the description and the stored buffers of a graph. -/
theorem fillStoredStreams_info (hlay : Layout v ins g) (hins : ins ≠ [])
    (hused : ∀ s < g.streams.length, g.UsedOnce s) (hfits : FitsFormat v ins.length g)
    (hreg : ∀ node ∈ g.nodes, Agrees registry v node.cnode)
    (fprop properties : FrameProperties) (before after : List UInt8) :
    ∃ cs producers, placeNodes registry v ins.length
        (regenNodes (hasDictLane v fprop) (g.nodes.reverse.map RTNode.desc) 0
          (g.nodes.reverse.flatMap RTNode.inputDistances)) 0 0
          (List.replicate g.streams.length none) = .ok (cs.nodes, producers) ∧
      List.Forall₂ (Mirrors g.streams.length) g.nodes.reverse cs.nodes ∧
      cs.data = g.streams.reverse.map storedContent ∧
      cs.thstream = g.nodes.reverse.flatMap (·.nodeHeader) ∧
      cs.streamsSize = (g.info ins.length).storedBuffs.flatten.length ∧
      fillStoredStreams registry v ins.length
        (decodedChunkHeader v fprop properties (g.info ins.length))
        (before ++ ((g.info ins.length).storedBuffs.flatten ++ after)) before.length = .ok cs := by
  have hlimit := hfits.streams_lt
  have hT := runtimeStreamLimit_le v
  have hlow : ins.length ≤ g.streams.length := by
    rw [← hlay.first]
    exact hlay.bound_le 0
  have hpos : 0 < ins.length := List.length_pos_iff.2 hins
  obtain ⟨placed, producers, hplace, hmirror, hproducers⟩ :=
    placeGraph hlay hused (by omega) hreg (hasDictLane v fprop)
  have hheaders : ((g.nodes.reverse.map RTNode.desc).map (·.trHSize)).sum =
      (g.nodes.reverse.flatMap (·.nodeHeader)).length := by
    rw [List.length_flatMap, List.map_map]
    rfl
  have hfill : fillStoredStreams registry v ins.length
      (decodedChunkHeader v fprop properties (g.info ins.length))
      (before ++ (g.nodes.reverse.flatMap (·.nodeHeader) ++
        ((RTGM.listBuffersToStore g).flatten ++ after))) before.length = .ok {
        nodes := placed
        producers
        data := g.streams.reverse.map storedContent
        thstream := g.nodes.reverse.flatMap (·.nodeHeader)
        streamsSize := (g.nodes.reverse.flatMap (·.nodeHeader)).length +
          (RTGM.listBuffersToStore g).flatten.length } :=
    fillStoredStreams_eq_ok (length_info hlay hused) (by omega) (by omega) hheaders
      (List.length_flatten ..).symm hplace (assignStored_mirror hproducers after)
  have hsrc : (g.info ins.length).storedBuffs.flatten ++ after =
      g.nodes.reverse.flatMap (·.nodeHeader) ++
        ((RTGM.listBuffersToStore g).flatten ++ after) := by
    simp [RTGraph.info]
  exact ⟨_, producers, hplace, hmirror, rfl, rfl, by simp [RTGraph.info], hsrc ▸ hfill⟩

/-- **The decoder rebuilds the wiring of the encoder**, for every graph the engine builds in which
every stream is read once or stored. -/
theorem chunkWiring_rebuilt (hb : Built v ins g) (hused : ∀ s < g.streams.length, g.UsedOnce s)
    (hfits : FitsFormat v ins.length g) (hreg : ∀ node ∈ g.nodes, Agrees registry v node.cnode)
    (fprop properties : FrameProperties) (before after : List UInt8) :
    ∃ gip cs, getFinalGraph v ins.length g = .ok gip ∧
      fillStoredStreams registry v ins.length (decodedChunkHeader v fprop properties gip)
        (before ++ (gip.storedBuffs.flatten ++ after)) before.length = .ok cs ∧
      Rebuilt ins g cs := by
  have hlay := hb.layout
  obtain ⟨cs, _, -, hmirror, hdata, -, -, hfill⟩ :=
    fillStoredStreams_info hlay hb.ins_ne hused hfits hreg fprop properties before after
  refine ⟨g.info ins.length, cs, getFinalGraph_eq hfits ?_, hfill,
    rebuilt_of_mirror hlay hused hdata hmirror⟩
  exact fun node hnode => (hlay.settled node hnode).accepted.nbOut1s_le

end chunk

/-- A codec with an input, an output and variable outputs. -/
def splitNode : CNode :=
  ⟨⟨.standard, 3⟩, [.serial], false, [.serial], [.serial], 8, 27, DICT_INDEX_NONE, by decide⟩

/-- A codec with two inputs and an output. -/
def joinNode : CNode :=
  ⟨⟨.standard, 7⟩, [.serial, .serial], false, [.serial], [], 8, 27, DICT_INDEX_NONE, by decide⟩

def splitCodec : Codec := fun _ =>
  ⟨[(0, some ⟨.serial, [1, 2], true⟩), (1, some ⟨.serial, [3], true⟩)], [9], .ok ()⟩

def joinCodec : Codec := fun _ => ⟨[(0, some ⟨.serial, [4, 4], true⟩)], [], .ok ()⟩

def twoInputs : List Data := [⟨.serial, [1, 2, 3], true⟩, ⟨.serial, [5], true⟩]

/-- The first input is split into streams 2 and 3; stream 3 and the second input are joined into
stream 4; streams 2 and 4 are stored. -/
def splitJoinGraph : RTGraph where
  nodes := [⟨splitNode, [0], 2, 2, [9]⟩, ⟨joinNode, [3, 1], 4, 1, []⟩]
  streams := [⟨none, 0, false, 0⟩, ⟨none, 0, false, 0⟩, ⟨some ⟨.serial, [1, 2], true⟩, 0, true, 0⟩,
    ⟨none, 1, false, 0⟩, ⟨some ⟨.serial, [4, 4], true⟩, 0, true, 0⟩]

theorem splitJoinGraph_built : Built 20 twoInputs splitJoinGraph := by
  -- the graph after the inputs, each node, and the first stored stream
  let g₀ : RTGraph := ⟨[], [⟨some ⟨.serial, [1, 2, 3], true⟩, 0, false, 0⟩,
    ⟨some ⟨.serial, [5], true⟩, 0, false, 0⟩]⟩
  let g₁ : RTGraph := ⟨[⟨splitNode, [0], 2, 2, [9]⟩], [⟨none, 0, false, 0⟩,
    ⟨some ⟨.serial, [5], true⟩, 0, false, 0⟩, ⟨some ⟨.serial, [1, 2], true⟩, 0, false, 0⟩,
    ⟨some ⟨.serial, [3], true⟩, 1, false, 0⟩]⟩
  let g₂ : RTGraph := ⟨splitJoinGraph.nodes, [⟨none, 0, false, 0⟩, ⟨none, 0, false, 0⟩,
    ⟨some ⟨.serial, [1, 2], true⟩, 0, false, 0⟩, ⟨none, 1, false, 0⟩,
    ⟨some ⟨.serial, [4, 4], true⟩, 0, false, 0⟩]⟩
  let g₃ : RTGraph := ⟨splitJoinGraph.nodes, [⟨none, 0, false, 0⟩, ⟨none, 0, false, 0⟩,
    ⟨some ⟨.serial, [1, 2], true⟩, 0, true, 0⟩, ⟨none, 1, false, 0⟩,
    ⟨some ⟨.serial, [4, 4], true⟩, 0, false, 0⟩]⟩
  have h₀ : Built 20 twoInputs g₀ := .inputs (by decide) rfl
  have h₁ : Built 20 twoInputs g₁ := h₀.runCNode (by decide)
    (show runCNode 20 splitCodec splitNode [0] g₀ = some (.ok (0, 2), g₁) by decide +kernel)
  have h₂ : Built 20 twoInputs g₂ := h₁.runCNode (by decide)
    (show runCNode 20 joinCodec joinNode [3, 1] g₁ = some (.ok (1, 1), g₂) by decide +kernel)
  have h₃ : Built 20 twoInputs g₃ := h₂.storeStream ⟨_, _, rfl, rfl⟩
    (show RTGM.storeStream 2 g₂ = some (.ok (), g₃) from rfl)
  exact h₃.storeStream ⟨_, _, rfl, rfl⟩
    (show RTGM.storeStream 4 g₃ = some (.ok (), splitJoinGraph) from rfl)

theorem one_lt_singletonLimit : 1 < 2 ^ 62 := by decide

/-- A registry that knows the two codecs. -/
def splitJoinRegistry : Registry := fun trInfo _ =>
  if trInfo.trid = 3 then .ok ⟨1, 1, 1, false, one_lt_singletonLimit⟩
  else .ok ⟨1, 0, 2, false, one_lt_singletonLimit⟩

theorem chunkWiring_rebuilt_splitJoin : ∃ gip cs, getFinalGraph 20 2 splitJoinGraph = .ok gip ∧
    fillStoredStreams splitJoinRegistry 20 2
      (decodedChunkHeader 20 contentChecksumOnly contentChecksumOnly gip)
      ([7] ++ (gip.storedBuffs.flatten ++ [8])) 1 = .ok cs ∧
    Rebuilt twoInputs splitJoinGraph cs := by
  refine chunkWiring_rebuilt splitJoinGraph_built ?_ ⟨?_, ?_, ?_⟩ ?_ _ _ [7] [8]
  · unfold RTGraph.UsedOnce
    decide
  · decide
  · decide
  · decide
  · intro node hnode
    simp only [splitJoinGraph, List.mem_cons, List.not_mem_nil, or_false] at hnode
    rcases hnode with rfl | rfl
    · exact ⟨_, rfl, rfl, rfl, rfl, rfl⟩
    · exact ⟨_, rfl, rfl, rfl, rfl, rfl⟩

end OpenZL.Wire
