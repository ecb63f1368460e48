import OpenZL.Compress.StartingGraph
import OpenZL.Compress.History
import OpenZL.Decompress.DecompressChunk
import OpenZL.Wire.Wiring

/-!
# The decoder regenerates the inputs

The nodes of a chunk run in the opposite order: each finds in its slots what the outputs of the
encoder's node held, and fills those of its inputs.

Principal results: `runDecoders_mirror`, `Encoded.regenerates`, `runStartingGraph_encoded`.
-/

namespace OpenZL.Wire

open OpenZL.Lib OpenZL.Compress OpenZL.Decompress

section run

variable {α : Type} {codec : PlacedNode → List α → Except ErrorCode (List (Option α))}

/-- A node of the decoder makes the inputs of a node of the encoder from its outputs, when stream
`s` of the encoder holds `value s`. -/
structure Undoes (codec : PlacedNode → List α → Except ErrorCode (List (Option α)))
    (value : Nat → α) (total : Nat) (rtnode : RTNode) (node : PlacedNode) : Prop
    extends Mirrors total rtnode node where
  decoded : codec node ((List.range' rtnode.startOutRtsids rtnode.nbOutStreams).map value) =
    .ok (rtnode.inRtsids.map fun s => some (value s))

/-- The slots once the streams of `read` are still to be regenerated, and those above `hi` have
been freed. -/
def Regenerated (value : Nat → α) (total hi : Nat) (read : List Nat) (slots : Nat → Option α) :
    Prop :=
  ∀ s < hi, slots (total - 1 - s) = if s ∈ read then none else some (value s)

variable {value : Nat → α} {T : Nat}

theorem runDecoder_regenerated {hi : Nat} {read : List Nat} {rtnode : RTNode} {node : PlacedNode}
    {slots : Nat → Option α} (hundoes : Undoes codec value T rtnode node) (hhi : hi ≤ T)
    (hend : rtnode.startOutRtsids + rtnode.nbOutStreams = hi)
    (hlt : ∀ s ∈ rtnode.inRtsids ++ read, s < rtnode.startOutRtsids)
    (hnodup : (rtnode.inRtsids ++ read).Nodup)
    (h : Regenerated value T hi (rtnode.inRtsids ++ read) slots) :
    ∃ slots', runDecoder codec node slots = .ok slots' ∧
      Regenerated value T rtnode.startOutRtsids read slots' := by
  have hinj : ∀ {s t : Nat}, s < T → t < T → T - 1 - s = T - 1 - t → s = t := by
    intro s t hs ht heq
    omega
  obtain ⟨hnodup₁, -, hdisj⟩ := List.nodup_append.1 hnodup
  have hltIn : ∀ s ∈ rtnode.inRtsids, s < rtnode.startOutRtsids := fun s hs =>
    hlt s (List.mem_append_left _ hs)
  have hfull : ∀ s ∈ List.range' rtnode.startOutRtsids rtnode.nbOutStreams,
      slots (T - 1 - s) = some (value s) := by
    intro s hs
    obtain ⟨hle, hlts⟩ := List.mem_range'_1.1 hs
    rw [h s (by omega), if_neg fun hmem => ?_]
    have := hlt s hmem
    omega
  have hfree : ∀ s ∈ rtnode.inRtsids, slots (T - 1 - s) = none := by
    intro s hs
    have := hltIn s hs
    rw [h s (by omega), if_pos (List.mem_append_left _ hs)]
  have hslots : (rtnode.inRtsids.map (T - 1 - ·)).Nodup := by
    refine List.Nodup.map_on (fun s hs t ht heq => ?_) hnodup₁
    have := hltIn s hs
    have := hltIn t ht
    exact hinj (by omega) (by omega) heq
  obtain ⟨slots', hrun, hnew, hold⟩ := runDecoder_eq hundoes.inputs hundoes.regens hslots hfull
    hfree hundoes.decoded
  refine ⟨slots', hrun, fun s hs => ?_⟩
  have hnotin : T - 1 - s ∉ node.inputs := by
    intro hmem
    obtain ⟨t, hle, hltt, heq⟩ := hundoes.mem_inputs hmem
    have := hinj (by omega) (by omega) heq
    omega
  by_cases hin : s ∈ rtnode.inRtsids
  · rw [hnew s hin hnotin, if_neg fun hmem => hdisj s hin s hmem rfl]
  · have hregens : T - 1 - s ∉ node.regens := by
      rw [hundoes.regens]
      intro hmem
      obtain ⟨t, ht, heq⟩ := List.mem_map.1 hmem
      have := hltIn t ht
      exact hin (hinj (by omega) (by omega) heq ▸ ht)
    rw [hold _ hnotin hregens, h s (by omega)]
    simp [hin]

/-- **A run of decoders that undo their nodes** leaves the streams below the first output. -/
theorem runDecoders_mirror {lo : Nat} : ∀ {rtnodes : List RTNode} {nodes : List PlacedNode}
    {hi : Nat} {slots : Nat → Option α}, Stacked lo hi rtnodes → hi ≤ T →
    List.Forall₂ (Undoes codec value T) rtnodes nodes →
    (∀ rtnode ∈ rtnodes, ∀ s ∈ rtnode.inRtsids, s < rtnode.startOutRtsids) →
    (rtnodes.flatMap (·.inRtsids)).Nodup →
    Regenerated value T hi (rtnodes.flatMap (·.inRtsids)) slots →
    ∃ slots', runDecoders codec nodes slots = .ok slots' ∧
      ∀ s < lo, slots' (T - 1 - s) = some (value s)
  | [], [], hi, slots, hstack, _, _, _, _, h => by
    obtain rfl : hi = lo := hstack
    exact ⟨slots, rfl, fun s hs => h s hs⟩
  | rtnode :: rtnodes, node :: nodes, hi, slots, ⟨hend, hstack⟩, hhi, hundoes, hlt, hnodup, h => by
    obtain ⟨hhead, htail⟩ := List.forall₂_cons.1 hundoes
    have hbelow : ∀ s ∈ rtnode.inRtsids ++ rtnodes.flatMap (·.inRtsids),
        s < rtnode.startOutRtsids := by
      intro s hs
      rcases List.mem_append.1 hs with hs | hs
      · exact hlt rtnode List.mem_cons_self s hs
      · obtain ⟨m, hm, hsm⟩ := List.mem_flatMap.1 hs
        have h1 := hlt m (List.mem_cons_of_mem _ hm) s hsm
        have h2 := hstack.end_le m hm
        omega
    obtain ⟨slots₁, hrun, hnext⟩ := runDecoder_regenerated hhead hhi hend hbelow hnodup h
    obtain ⟨slots', hrest, hlow⟩ := runDecoders_mirror hstack (by omega) htail
      (fun m hm => hlt m (List.mem_cons_of_mem _ hm)) (List.nodup_append.1 hnodup).2.1 hnext
    refine ⟨slots', ?_, hlow⟩
    rw [runDecoders, hrun, ← hrest]
    rfl

end run

/-- The slice of the private headers and the dictionary index of a node of the decoder. -/
structure Described (keepDict : Bool) (thstream : List UInt8) (rtnode : RTNode) (info : NodeInfo) :
    Prop where
  header : rbufferSlice thstream info.trhStart info.trhSize = .ok rtnode.nodeHeader
  dictIdx : info.dictIdx = if keepDict then rtnode.cnode.dictIdx else DICT_INDEX_NONE

theorem regenNodes_described (keepDict : Bool) : ∀ (rtnodes : List RTNode) (distances : List Nat)
    (before : List UInt8), List.Forall₂
      (Described keepDict (before ++ rtnodes.flatMap (·.nodeHeader))) rtnodes
      (regenNodes keepDict (rtnodes.map RTNode.desc) before.length distances)
  | [], _, _ => List.Forall₂.nil
  | rtnode :: rtnodes, distances, before => by
    have htail := regenNodes_described keepDict rtnodes (distances.drop rtnode.inRtsids.length)
      (before ++ rtnode.nodeHeader)
    rw [List.append_assoc, List.length_append] at htail
    refine List.Forall₂.cons ⟨?_, rfl⟩ htail
    change rbufferSlice _ before.length rtnode.nodeHeader.length = _
    rw [rbufferSlice, failWhen_of_not _ (by simp), ok_bind, List.drop_left, List.flatMap_cons,
      List.take_left]
    rfl

variable {ρ : Type}

/-- The decoders undo the codecs of an engine: they are registered with the same description, and
regenerate the inputs of a run that has succeeded from its private header and its outputs. -/
structure Inverts (registry : Registry) (decoders : Decoders) (E : Engine ρ) : Prop where
  agrees : ∀ nodeid cnode codec, E.nodes nodeid = some (cnode, codec) →
    Agrees registry E.formatVersion cnode
  regenerates : ∀ nodeid cnode codec, E.nodes nodeid = some (cnode, codec) →
    ∀ localParams inputs, cnode.Takes inputs → (codec localParams inputs).result = .ok () →
      decoders cnode.trInfo cnode.dictIdx (codec localParams inputs).header
        ((codec localParams inputs).contents cnode) = .ok (inputs.map fun d => some d.content)

/-- The dictionary indices of an engine reach the decoder. -/
def DictsSent (keepDict : Bool) (E : Engine ρ) : Prop :=
  keepDict = true ∨ ∀ nodeid cnode codec, E.nodes nodeid = some (cnode, codec) →
    cnode.dictIdx = DICT_INDEX_NONE

/-- A graph that an engine has left of the inputs `ins`: each stream is used once, and the streams
have held what `history` says. -/
structure Encoded (E : Engine ρ) (ins : List Data) (history : List (Option Data)) (g : RTGraph) :
    Prop where
  layout : Layout E.formatVersion ins g
  usedOnce : ∀ s < g.streams.length, g.UsedOnce s
  recorded : Recorded E ins history g

section encoded

variable {E : Engine ρ} {registry : Registry} {decoders : Decoders} {ins : List Data}
  {history : List (Option Data)} {g : RTGraph}

theorem map_heldContent {ids : List Nat} {streams : List (Option Data)}
    (h : ids.map (held history) = streams) :
    ids.map (heldContent history) =
      streams.map fun stream => (stream.map (·.content)).getD [] := by
  rw [← h, List.map_map]
  rfl

theorem Inverts.undoes (h : Inverts registry decoders E) {keepDict : Bool}
    (hdicts : DictsSent keepDict E) (hrec : Recorded E ins history g) {rtnode : RTNode}
    (hnode : rtnode ∈ g.nodes) {thstream : List UInt8} {node : PlacedNode} {T : Nat}
    (hmirrors : Mirrors T rtnode node) (hdesc : Described keepDict thstream rtnode node.info) :
    Undoes (callDecoder decoders thstream) (heldContent history) T rtnode node where
  toMirrors := hmirrors
  decoded := by
    obtain ⟨nodeid, codec, localParams, inputs, hE, henc⟩ := hrec.nodes rtnode hnode
    have hdict : node.info.dictIdx = rtnode.cnode.dictIdx := by
      rw [hdesc.dictIdx]
      rcases hdicts with hkeep | hnone
      · rw [if_pos hkeep]
      · rw [hnone nodeid rtnode.cnode codec hE, ite_self]
    rw [callDecoder, hdesc.header, ok_bind, hmirrors.trpid, hdict, henc.header_eq,
      map_heldContent henc.streams_eq]
    rw [show ((codec localParams inputs).streams rtnode.cnode).map (fun stream =>
        (stream.map (·.content)).getD []) = (codec localParams inputs).contents rtnode.cnode from
      rfl, h.regenerates nodeid rtnode.cnode codec hE localParams inputs henc.takes henc.succeeded]
    have hins := congrArg (List.map some) (map_heldContent henc.inputs_eq)
    rw [List.map_map, List.map_map, List.map_map] at hins
    exact congrArg Except.ok hins.symm

theorem Encoded.stored (h : Encoded E ins history g) :
    Regenerated (heldContent history) g.streams.length g.streams.length
      (g.nodes.reverse.flatMap (·.inRtsids)) fun s =>
        (g.streams.reverse.map storedContent)[s]?.join := by
  intro s hs
  have hmem : s ∈ g.nodes.reverse.flatMap (·.inRtsids) ↔ g.isStored s = false := by
    rw [(consumed_reverse g).mem_iff, mem_consumed_iff h.usedOnce hs]
  obtain ⟨slot, hslot⟩ : ∃ slot, g.streams[s]? = some slot := ⟨_, List.getElem?_eq_getElem hs⟩
  have hstored : g.isStored s = slot.toStore := RTGraph.isStored_eq hslot
  dsimp only
  rw [List.getElem?_map, List.getElem?_reverse (by omega),
    show g.streams.length - 1 - (g.streams.length - 1 - s) = s by omega, hslot]
  cases hst : slot.toStore with
  | false =>
    rw [if_pos (hmem.2 (hstored.trans hst))]
    simp [storedContent, hst]
  | true =>
    rw [if_neg fun h0 => by rw [hmem, hstored, hst] at h0; cases h0]
    obtain ⟨d, hd⟩ := Option.isSome_iff_exists.1 (h.layout.stored s slot hslot hst)
    simp [storedContent, hst, RTCStream.getRBuffer, hd, heldContent,
      h.recorded.kept s slot d hslot hd]

theorem placeNodes_info {v nbOutputs : Nat} : ∀ {nodes : List NodeInfo} {t start : Nat}
    {producers producers' : List (Option Nat)} {placed : List PlacedNode},
    placeNodes registry v nbOutputs nodes t start producers = .ok (placed, producers') →
    placed.map (·.info) = nodes
  | [], _, _, _, _, _, h => by
    obtain ⟨rfl, -⟩ := Prod.mk.inj (Except.ok.inj h)
    rfl
  | node :: nodes, t, start, producers, producers', placed, h => by
    rw [placeNodes] at h
    obtain ⟨_, -, h⟩ := bind_eq_ok.1 h
    obtain ⟨_, -, h⟩ := bind_eq_ok.1 h
    obtain ⟨_, -, h⟩ := bind_eq_ok.1 h
    obtain ⟨⟨others, _⟩, hrec, h⟩ := bind_eq_ok.1 h
    obtain ⟨rfl, -⟩ := Prod.mk.inj (pure_eq_ok.1 h)
    rw [List.map_cons, placeNodes_info hrec]

theorem forall₂_and {α β : Type} {R S : α → β → Prop} {as : List α} {bs : List β}
    (h : List.Forall₂ R as bs) (h' : List.Forall₂ S as bs) :
    List.Forall₂ (fun a b => R a b ∧ S a b) as bs := by
  induction h with
  | nil => exact List.Forall₂.nil
  | cons hab _ ih =>
    obtain ⟨hab', h'⟩ := List.forall₂_cons.1 h'
    exact List.Forall₂.cons ⟨hab, hab'⟩ (ih h')

/-- What the decoder regenerates from a stream table. -/
def Regenerates (decoders : Decoders) (nbOutputs : Nat) (cs : ChunkStreams)
    (outputs : List (List UInt8)) : Prop :=
  ∃ slots, runDecoders (callDecoder decoders cs.thstream) cs.nodes (fun s => cs.data[s]?.join) =
      .ok slots ∧
    addChunksIntoFinalStreams nbOutputs cs.data.length slots = .ok outputs

/-- **The inputs are regenerated** from the description and the stored buffers of a graph. -/
theorem Encoded.regenerates (h : Encoded E ins history g) (hins : ins ≠ [])
    (hinv : Inverts registry decoders E) (hfits : FitsFormat E.formatVersion ins.length g)
    (fprop properties : FrameProperties) (hdicts : DictsSent (hasDictLane E.formatVersion fprop) E)
    (before after : List UInt8) :
    ∃ cs, fillStoredStreams registry E.formatVersion ins.length
        (decodedChunkHeader E.formatVersion fprop properties (g.info ins.length))
        (before ++ ((g.info ins.length).storedBuffs.flatten ++ after)) before.length = .ok cs ∧
      cs.streamsSize = (g.info ins.length).storedBuffs.flatten.length ∧
      Regenerates decoders ins.length cs (ins.map (·.content)) := by
  have hagrees : ∀ node ∈ g.nodes, Agrees registry E.formatVersion node.cnode := by
    intro node hnode
    obtain ⟨nodeid, codec, _, _, hE, -⟩ := h.recorded.nodes node hnode
    exact hinv.agrees nodeid node.cnode codec hE
  obtain ⟨cs, producers, hplace, hmirror, hdata, hth, hsize, hfill⟩ :=
    fillStoredStreams_info h.layout hins h.usedOnce hfits hagrees fprop properties before after
  refine ⟨cs, hfill, hsize, ?_⟩
  rw [Regenerates, hdata, hth]
  have hlow : ins.length ≤ g.streams.length := by
    rw [← h.layout.first]
    exact h.layout.bound_le 0
  have hdesc := regenNodes_described (hasDictLane E.formatVersion fprop) g.nodes.reverse
    (g.nodes.reverse.flatMap RTNode.inputDistances) []
  rw [List.length_nil, List.nil_append, ← placeNodes_info hplace, List.forall₂_map_right_iff]
    at hdesc
  have hundoes : List.Forall₂ (Undoes (callDecoder decoders
      (g.nodes.reverse.flatMap (·.nodeHeader))) (heldContent history) g.streams.length)
      g.nodes.reverse cs.nodes := by
    have hmem := (List.forall₂_and_left (p := (· ∈ g.nodes)) _ _).2
      ⟨fun node hnode => List.mem_reverse.1 hnode, forall₂_and hmirror hdesc⟩
    refine hmem.imp fun rtnode node hrel => ?_
    obtain ⟨hnode, hm, hd⟩ := hrel
    exact hinv.undoes hdicts h.recorded hnode hm hd
  obtain ⟨slots, hrun, hlast⟩ := runDecoders_mirror (h.layout.exact h.usedOnce) (Nat.le_refl _)
    hundoes (fun node hnode => (h.layout.settled node (List.mem_reverse.1 hnode)).inRtsids_lt)
    ((consumed_reverse g).nodup_iff.2 (consumed_nodup h.usedOnce h.layout.consumed_lt)) h.stored
  refine ⟨slots, hrun, ?_⟩
  have hfinal : ∀ (n : Nat) a, (ins.map (·.content))[n]? = some a →
      slots ((g.streams.reverse.map storedContent).length - n - 1) = some a := by
    intro n a hn
    rw [List.getElem?_map] at hn
    obtain ⟨d, hd, rfl⟩ := Option.map_eq_some_iff.1 hn
    have hlt := (List.getElem?_eq_some_iff.1 hd).1
    rw [List.length_map, List.length_reverse, Nat.sub_right_comm, hlast n hlt]
    simp [heldContent, h.recorded.session n d hd]
  have hle : (ins.map (·.content)).length ≤ (g.streams.reverse.map storedContent).length := by
    simpa using hlow
  have hresult := addChunksIntoFinalStreams_eq hle hfinal
  rwa [List.length_map] at hresult

theorem recorded_inputs (E : Engine ρ) (hnodes : g.nodes = [])
    (hlen : g.streams.length = ins.length)
    (hslots : ∀ (s : Nat) slot, g.streams[s]? = some slot → slot.stream = ins[s]?) :
    Recorded E ins (ins.map some) g := by
  have hheld : ∀ {s : Nat} {d : Data}, ins[s]? = some d → held (ins.map some) s = some d := by
    intro s d hd
    rw [held, List.getElem?_map, hd]
    rfl
  constructor
  · rw [List.length_map, hlen]
  · intro s slot d hslot hd
    exact hheld ((hslots s slot hslot).symm.trans hd)
  · exact fun k d hd => hheld hd
  · intro node hnode
    rw [hnodes] at hnode
    cases hnode
  · exact fun s hs => Or.inl (hlen ▸ hs)

/-- **A fine run encodes its inputs.** -/
theorem runStartingGraph_encoded {fuel : Nat} {gid : GraphID} {rgp : Option ρ} {b : Bool}
    {s' : CCtx ρ} (hE : E.Complete)
    (h : runStartingGraph E fuel gid rgp ins (CCtx.init b) = some (.ok (), s'))
    (hfine : ∀ event ∈ s'.events, event.Fine E True)
    (hroom : s'.rtgraph.streams.length < streamCapacity) :
    ins ≠ [] ∧ ∃ history, Encoded E ins history s'.rtgraph := by
  have hins : ins ≠ [] := by
    rcases runStartingGraph_some h with ⟨e, hr, -⟩ | ⟨hne, -⟩
    · cases hr
    · exact hne
  have hfinished := (runStartingGraph_settles h hfine).finished rfl
  have hbase : Recorded E ins (ins.map some) (inputsGraph ins) := by
    refine recorded_inputs E rfl (List.length_map _) fun s slot hslot => ?_
    rw [inputsGraph, List.getElem?_map] at hslot
    obtain ⟨d, hd, rfl⟩ := Option.map_eq_some_iff.1 hslot
    exact hd.symm
  obtain ⟨history, hrecorded⟩ := hfinished.steps.recorded hE ⟨_, hbase⟩ hroom
  refine ⟨hins, history, hfinished.steps.layout (Layout.ofInputs _ ins), fun s hs => ?_, hrecorded⟩
  rcases hrecorded.covered s hs with hlt | ⟨node, hnode, hputs⟩
  · exact hfinished.sound.usedOnce trivial (hfinished.used s (List.mem_range.2 hlt))
  · exact hfinished.sound.usedOnce trivial (hfinished.outs node hnode s hputs)

end encoded

end OpenZL.Wire
