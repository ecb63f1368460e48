import OpenZL.Compress.FlushChunk
import OpenZL.Wire.Wiring

/-!
# The limits of the decoder (`decode_frameheader.c`, `decompress2.c`)

The encoder checks the size of a graph when it describes it and when it writes its header; the
decoder checks what it reads in three functions of its own.

Principal results: `decodeChunkHeader_nodes_written`, `nodeWithinLimits_of`,
`chunk_withinLimits_iff`.
-/

namespace OpenZL.Wire

open OpenZL.Lib OpenZL.Codecs OpenZL.Codecs.Bitpack OpenZL.Shared OpenZL.Compress
open OpenZL.Decompress

/-- What registration guarantees of a codec: a standard ID fits in the bits of the format version,
a custom one is a `uint32_t`, and a dictionary is one of those of a bundle. -/
structure RegisteredCodec (v : Nat) (cnode : CNode) : Prop where
  standard_lt : cnode.trInfo.trt = .standard → cnode.trInfo.trid < 2 ^ StandardTransformID_numBits v
  custom_lt : cnode.trInfo.trt = .custom → cnode.trInfo.trid < 2 ^ 32
  dictIdx_le : cnode.dictIdx = DICT_INDEX_NONE ∨ cnode.dictIdx ≤ MAX_DICTS_PER_BUNDLE

/-- The checks of `DCTX_validateNodeStatic` on the numbers of streams of a node. -/
structure NodeWithinLimits (v : Nat) (dt : DTransform) (node : NodeInfo) : Prop where
  nbIns_pos : v < 9 → dt.nbSOs + node.nbVOs ≠ 0
  nbIns_le : dt.nbSOs + node.nbVOs ≤ transformOutStreamsLimit v
  nbRegens_pos : node.nbRegens ≠ 0
  nbRegens_compatible : dt.isNbRegensCompatible node.nbRegens = true
  no_VO : dt.nbVOs = 0 → node.nbVOs = 0

/-- The written header `out` passes the checks of `decodeChunkHeader_internal`, its streams those of
`fillStoredStreams`, its nodes those of `DCTX_validateNodeStatic`, and it tells the true sizes of
the stored buffers. -/
def WithinLimits (registry : Registry) (v : Nat) (properties : FrameProperties)
    (buffs : List (List UInt8)) (out rest : List UInt8) : Prop :=
  ∃ header, decodeChunkHeader v properties (out ++ rest) = .ok (header, rest) ∧
    header.storedStreamSizes.length + header.nbRegens ≤ runtimeStreamLimit v ∧
    (∀ node ∈ header.nodes, ∃ dt, registry node.trpid v = .ok dt ∧ NodeWithinLimits v dt node) ∧
    header.storedStreamSizes = buffs.map List.length

theorem sendHeaders_ok : ∀ {nodes : List RTNode} {sent out : List UInt8},
    sendHeaders nodes sent = .ok out → ∀ node ∈ nodes,
      node.nodeHeader.length ≤ ENCODER_TRANSFORM_HEADER_SIZE_LIMIT
  | [], _, _, _ => by simp
  | node :: nodes, sent, out, h => by
    obtain ⟨sent', hsent, hrest⟩ := bind_eq_ok.1 h
    unfold appendToVector at hsent
    split at hsent
    · cases hsent
    · intro n hn
      rcases List.mem_cons.1 hn with rfl | hn
      · omega
      · exact sendHeaders_ok hrest n hn

theorem fitsFormat_of_getFinalGraph {v nbInputs : Nat} {g : RTGraph} {gip : GraphInfo}
    (h : getFinalGraph v nbInputs g = .ok gip) : FitsFormat v nbInputs g := by
  unfold getFinalGraph at h
  obtain ⟨_, hnodes, h⟩ := bind_eq_ok.1 h
  obtain ⟨_, hstreams, h⟩ := bind_eq_ok.1 h
  obtain ⟨_, hinputs, -⟩ := bind_eq_ok.1 h
  rw [failWhen_eq_ok] at hnodes hstreams hinputs
  exact ⟨by omega, by omega, by omega⟩

theorem writeChunkHeaderV8orMore_ok {v dstCapacity : Nat} {fprop : FrameProperties}
    {gip : GraphInfo} {out : List UInt8}
    (h : writeChunkHeaderV8orMore v dstCapacity fprop gip = .ok out) :
    ∃ capacity, writeChunkHeader v capacity fprop gip = .ok out := by
  unfold writeChunkHeaderV8orMore at h
  obtain ⟨bound, -, h⟩ := bind_eq_ok.1 h
  split at h
  · exact ⟨dstCapacity, h⟩
  · obtain ⟨header, hheader, h⟩ := bind_eq_ok.1 h
    obtain ⟨-, -, h⟩ := bind_eq_ok.1 h
    obtain rfl := pure_eq_ok.1 h
    exact ⟨bound, hheader⟩

section lanes

variable {v : Nat} {fprop properties : FrameProperties} {gip : GraphInfo}

/-- The same transforms, with distances and stored buffers that are certainly in range. -/
def withDummyStreams (gip : GraphInfo) : GraphInfo where
  nbSessionInputs := gip.nbSessionInputs
  transforms := gip.transforms
  distances := List.replicate gip.nbDistances 1
  storedBuffs := List.replicate 2 []

theorem decodeChunkHeader_nodes_written {dstCapacity : Nat} {out : List UInt8}
    (hv : isFormatVersionSupported v) (hw : writeChunkHeader v dstCapacity fprop gip = .ok out)
    (hwf : WellFormed v fprop (withDummyStreams gip))
    (hbundle : properties.hasBundleID = fprop.hasBundleID) (rest : List UInt8) :
    decodeChunkHeader v properties (out ++ rest) =
      decodeStreamLanes (nodeLanesOf v fprop properties gip.transforms) (gip.nbStoredBuffs - 1)
        (streamLanesBytes v gip ++ rest) := by
  obtain ⟨-, -, -, hone, -⟩ := writeChunkHeader_ok hw
  exact decodeChunkHeader_of_nodeLanes hw
    (@decodeNodeLanes_reads v fprop properties (withDummyStreams gip) hv.1 hwf hbundle hone) rest

theorem decompressDistances_length (distances : List Nat) (nbStored : Nat)
    (hle : distances.length + nbStored ≤ 2 ^ 32) :
    ∃ ds, Reads (decompressRegenStreamIDDistances distances.length nbStored)
      (compressStreamDistances distances distances.length nbStored) ds := by
  have hw : nextPow2 (distances.length + nbStored) ≤ 32 := nextPow2_le hle
  refine ⟨fields (nextPow2 (distances.length + nbStored)) distances.length
    (ofLE (compressStreamDistances distances distances.length nbStored)), fun rest => ?_⟩
  have hlen : (compressStreamDistances distances distances.length nbStored).length =
      bitpackEncodeBound distances.length (nextPow2 (distances.length + nbStored)) :=
    length_bitpackEncode32 hw distances
  unfold decompressRegenStreamIDDistances checkedBitpackDecode32
  rw [if_neg (by omega), if_neg (by rw [List.length_append]; omega), bitpackDecode32_spec hw,
    fields_ofLE_append (by omega), ← hlen, List.drop_left]

theorem mem_buildNodes {dicts : TransformDesc → Nat} {node : NodeInfo} :
    ∀ {ts : List TransformDesc} {trhStart : Nat} {ds : List Nat},
    node ∈ buildNodes (ts.map (·.trInfo.trt.toNat)) (ts.map (·.trInfo.trid)) (ts.map (·.trHSize))
      (ts.map (·.nbVOs)) (ts.map (·.nbTrInputs)) (ts.map dicts) trhStart ds →
    ∃ t ∈ ts, node.trpid = t.trInfo ∧ node.nbVOs = t.nbVOs ∧ node.nbRegens = t.nbTrInputs
  | [], trhStart, ds, h => by
    simp [buildNodes] at h
  | t :: ts, trhStart, ds, h => by
    simp only [List.map_cons, buildNodes] at h
    rcases List.mem_cons.1 h with rfl | h
    · exact ⟨t, by simp, by simp [trtOfFlag_toNat], rfl, rfl⟩
    · obtain ⟨t', ht', hrest⟩ := mem_buildNodes h
      exact ⟨t', List.mem_cons_of_mem _ ht', hrest⟩

/-- The nodes the decoder rebuilds from the lanes of `ts` and from the distances `ds` it reads. -/
def decodedNodes (v : Nat) (fprop : FrameProperties) (ts : List TransformDesc) (ds : List Nat) :
    List NodeInfo :=
  buildNodes (ts.map (·.trInfo.trt.toNat)) (ts.map (·.trInfo.trid)) (ts.map (·.trHSize))
    (ts.map (·.nbVOs)) (ts.map (·.nbTrInputs))
    (ts.map fun t => if hasDictLane v fprop then t.dictIdx else DICT_INDEX_NONE) 0 ds

end lanes

section chunk

variable {registry : Registry} {v : Nat} {ins : List Data} {g : RTGraph}

theorem nbDistances_info (g : RTGraph) (n : Nat) : (g.info n).nbDistances = g.consumed.length := by
  rw [← (consumed_reverse g).length_eq]
  simp [GraphInfo.nbDistances, RTGraph.info, List.length_flatMap, RTNode.inputDistances]

theorem wellFormed_info {n : Nat} (hlay : Layout v ins g)
    (hcodecs : ∀ node ∈ g.nodes, RegisteredCodec v node.cnode)
    (hheaders : ∀ node ∈ g.nodes, node.nodeHeader.length ≤ ENCODER_TRANSFORM_HEADER_SIZE_LIMIT)
    (fprop : FrameProperties) : WellFormed v fprop (withDummyStreams (g.info n)) := by
  have hnode : ∀ t ∈ (withDummyStreams (g.info n)).transforms, ∃ node ∈ g.nodes, t = node.desc := by
    intro t ht
    obtain ⟨node, hnode, rfl⟩ := List.mem_map.1 ht
    exact ⟨node, List.mem_reverse.1 hnode, rfl⟩
  have hlimit : transformOutStreamsLimit v ≤ 100000 := by
    unfold transformOutStreamsLimit
    split <;> [omega; split <;> omega]
  constructor
  · intro t ht
    obtain ⟨node, hmem, rfl⟩ := hnode t ht
    exact (hcodecs node hmem).standard_lt
  · intro t ht
    obtain ⟨node, hmem, rfl⟩ := hnode t ht
    exact (hcodecs node hmem).custom_lt
  · intro t ht
    obtain ⟨node, hmem, rfl⟩ := hnode t ht
    exact (hheaders node hmem).trans_lt (by decide)
  · intro t ht
    obtain ⟨node, hmem, rfl⟩ := hnode t ht
    have hle := (hlay.settled node hmem).accepted.nbOut_le
    change node.nbOutStreams - _ < _
    omega
  · intro t ht
    obtain ⟨node, hmem, rfl⟩ := hnode t ht
    exact List.length_pos_iff.2 (hlay.settled node hmem).inRtsids_ne
  · intro t ht
    obtain ⟨node, hmem, rfl⟩ := hnode t ht
    exact (hlay.settled node hmem).nbInputs_le
  · simp [withDummyStreams, GraphInfo.nbDistances, RTGraph.info, List.length_flatMap,
      RTNode.inputDistances, RTNode.desc, Function.comp_def]
  · intro _ _ t ht
    obtain ⟨node, hmem, rfl⟩ := hnode t ht
    exact (hcodecs node hmem).dictIdx_le
  · intro d hd
    obtain rfl := List.eq_of_mem_replicate hd
    refine ⟨Nat.le_refl 1, ?_⟩
    change 1 ≤ _ + 2 - 1
    omega
  · intro b hb
    obtain rfl : b = [] := by simpa [withDummyStreams] using hb
    decide

theorem decodeStreamLanes_ok {lanes : NodeLanes} {nbStored : Nat} {s s' : List UInt8}
    {header : ChunkHeader} (h : decodeStreamLanes lanes nbStored s = .ok (header, s')) :
    header.nbRegens = lanes.nbRegens.sum ∧
      ∀ size ∈ header.storedStreamSizes, size < UINT32_MAX := by
  unfold decodeStreamLanes at h
  obtain ⟨_, _, -, h⟩ := run_bind_eq_ok.1 h
  obtain ⟨_, _, -, h⟩ := run_bind_eq_ok.1 h
  obtain ⟨sizes, _, hsizes, h⟩ := run_bind_eq_ok.1 h
  obtain ⟨rfl, -⟩ := run_pure_eq_ok.1 h
  refine ⟨rfl, ?_⟩
  unfold decompressStrSizes at hsizes
  obtain ⟨_, _, -, hsizes⟩ := run_bind_eq_ok.1 hsizes
  obtain ⟨_, _, -, hsizes⟩ := run_bind_eq_ok.1 hsizes
  refine forall_of_many (fun s size s' hsize => ?_) hsizes
  unfold popStrSize at hsize
  obtain ⟨value, _, -, hsize⟩ := run_bind_eq_ok.1 hsize
  obtain ⟨_, _, hlt, hsize⟩ := run_bind_eq_ok.1 hsize
  obtain ⟨rfl, -⟩ := run_pure_eq_ok.1 hsize
  have := (run_failIf_eq_ok.1 hlt).1
  omega

/-- The streams that take part in a chunk: those that are stored and those that nodes read, as often
as they are. -/
def nbStreamsDescribed (g : RTGraph) : Nat :=
  (RTGM.listBuffersToStore g).length + g.consumed.length

theorem nodeWithinLimits_of {node : RTNode} (hs : Settled v node) {dt : DTransform}
    (hsos : dt.nbSOs = node.cnode.getNbOut1s) (hvos : dt.nbVOs = node.cnode.getNbVOs)
    (hin : dt.nbInputs = node.cnode.getNbInputPorts)
    (hvar : dt.lastInputIsVariable = node.cnode.lastInputIsVariable) {info : NodeInfo}
    (hnbVOs : info.nbVOs = node.desc.nbVOs) (hregens : info.nbRegens = node.desc.nbTrInputs) :
    NodeWithinLimits v dt info := by
  have hge := hs.accepted.nbOut1s_le
  have hlimit := hs.nbInputs_le.trans (runtimeNodeInputLimit_le v)
  have hregens : info.nbRegens = node.inRtsids.length := hregens
  have hsum : dt.nbSOs + info.nbVOs = node.nbOutStreams := by
    rw [hsos, hnbVOs]
    change node.cnode.getNbOut1s + (node.nbOutStreams - node.cnode.getNbOut1s) = _
    omega
  constructor
  · rw [hsum]
    exact hs.accepted.nbOut_pos
  · rw [hsum]
    exact hs.accepted.nbOut_le
  · rw [hregens]
    exact fun h0 => hs.inRtsids_ne (List.length_eq_zero_iff.1 h0)
  · rw [hregens]
    exact isNbRegensCompatible_of hin hvar (by omega) hs.compatible
  · intro h0
    have hno := hs.no_VO (by rw [← hvos, h0])
    omega

/-- **When a written chunk is within the limits of the decoder**, for every graph the engine builds:
the stored buffers have 32-bit sizes, and the streams the nodes read are not too many. -/
theorem chunk_withinLimits_iff {dstCapacity : Nat} {gip : GraphInfo} {out : List UInt8}
    {fprop properties : FrameProperties} (hv : isFormatVersionSupported v) (hb : Built v ins g)
    (hcodecs : ∀ node ∈ g.nodes, RegisteredCodec v node.cnode ∧ Agrees registry v node.cnode)
    (hgi : describeChunk v ins.length g = .ok gip)
    (hw : writeChunkHeaderV8orMore v dstCapacity fprop gip = .ok out)
    (hbundle : properties.hasBundleID = fprop.hasBundleID) (rest : List UInt8) :
    WithinLimits registry v properties (RTGM.listBuffersToStore g) out rest ↔
      (∀ buff ∈ RTGM.listBuffersToStore g, buff.length < UINT32_MAX) ∧
        nbStreamsDescribed g ≤ runtimeStreamLimit v := by
  have hlay := hb.layout
  obtain ⟨gip', hfinal, h⟩ := bind_eq_ok.1 hgi
  obtain ⟨sent, hsent, h⟩ := bind_eq_ok.1 h
  obtain rfl := pure_eq_ok.1 h
  have hheaders : ∀ node ∈ g.nodes,
      node.nodeHeader.length ≤ ENCODER_TRANSFORM_HEADER_SIZE_LIMIT :=
    fun node hnode => sendHeaders_ok hsent node (List.mem_reverse.2 hnode)
  have hinfo := getFinalGraph_eq (fitsFormat_of_getFinalGraph hfinal)
    fun node hnode => (hlay.settled node hnode).accepted.nbOut1s_le
  obtain rfl := Except.ok.inj (hinfo.symm.trans hfinal)
  obtain ⟨capacity, hw⟩ := writeChunkHeaderV8orMore_ok hw
  have hwf := wellFormed_info (n := ins.length) hlay (fun node hnode => (hcodecs node hnode).1)
    hheaders fprop
  have hdecode := decodeChunkHeader_nodes_written hv hw hwf hbundle rest
  have hregens : (nodeLanesOf v fprop properties (g.info ins.length).transforms).nbRegens.sum =
      g.consumed.length := by
    rw [← nbDistances_info g ins.length]
    have h := hwf.nbDistances_eq
    simp only [withDummyStreams, GraphInfo.nbDistances, List.length_replicate] at h
    exact h.symm
  have hmax : runtimeStreamLimit v ≤ runtimeStreamLimit MAX_FORMAT_VERSION :=
    runtimeStreamLimit_le v
  obtain ⟨-, -, hstored, hone, -⟩ := writeChunkHeader_ok hw
  have hnbStored : (g.info ins.length).nbStoredBuffs - 1 = (RTGM.listBuffersToStore g).length := by
    simp [GraphInfo.nbStoredBuffs, RTGraph.info]
  constructor
  · rintro ⟨header, hok, hlimit, -, hsizes⟩
    rw [hdecode] at hok
    obtain ⟨hnb, hlt⟩ := decodeStreamLanes_ok hok
    rw [hsizes, List.length_map, hnb, hregens] at hlimit
    refine ⟨fun buff hbuff => hlt _ ?_, hlimit⟩
    rw [hsizes]
    exact List.mem_map_of_mem hbuff
  · rintro ⟨hsizes, hlimit⟩
    unfold nbStreamsDescribed at hlimit
    have hdist : ((g.info ins.length).distances.map (· - 1)).length = g.consumed.length := by
      rw [List.length_map]
      exact nbDistances_info g ins.length
    obtain ⟨ds, hds⟩ := decompressDistances_length ((g.info ins.length).distances.map (· - 1))
      (RTGM.listBuffersToStore g).length (by
        have := runtimeStreamLimit_le v
        omega)
    rw [hdist] at hds
    have hstr : Reads (decompressStrSizes (RTGM.listBuffersToStore g).length)
        (compressStrSizes ((RTGM.listBuffersToStore g).map List.length))
        ((RTGM.listBuffersToStore g).map List.length) := by
      rw [← List.length_map (f := List.length)]
      refine decompressStrSizes_reads fun n hn => ?_
      obtain ⟨b, hbuff, rfl⟩ := List.mem_map.1 hn
      exact hsizes b hbuff
    have hread : Reads (decodeStreamLanes
        (nodeLanesOf v fprop properties (g.info ins.length).transforms)
        ((g.info ins.length).nbStoredBuffs - 1)) (streamLanesBytes v (g.info ins.length))
        { properties := decodedProperties v fprop properties
          storedStreamSizes := (RTGM.listBuffersToStore g).map List.length
          nodes := decodedNodes v fprop (g.info ins.length).transforms ds
          nbRegens := g.consumed.length
          totalTHSize := ((g.info ins.length).transforms.map (·.trHSize)).sum } := by
      have htotal : totalNbRegens v (g.info ins.length) = g.consumed.length := by
        have h := totalNbRegens_eq hwf hone
        simp only [withDummyStreams, GraphInfo.nbDistances, List.length_replicate] at h
        exact h.trans (nbDistances_info g ins.length)
      have htake : (g.info ins.length).distances.take g.consumed.length =
          (g.info ins.length).distances :=
        List.take_of_length_le (Nat.le_of_eq (nbDistances_info g ins.length))
      have hmod : (g.info ins.length).storedBuffs.tail.map (·.length % 2 ^ 32) =
          (RTGM.listBuffersToStore g).map List.length :=
        List.map_congr_left fun b hbuff => Nat.mod_eq_of_lt ((hsizes b hbuff).trans (by decide))
      unfold decodeStreamLanes streamLanesBytes
      simp only [hregens, htotal, htake, hmod, hnbStored]
      exact (Reads.failIf (by omega)).bind_nil <| hds.bind <| hstr.bind_pure <| Reads.pure _
    refine ⟨_, hdecode.trans (hread rest), ?_, ?_, rfl⟩
    · rw [List.length_map]
      exact hlimit
    · intro info hinfo
      obtain ⟨t, ht, htrpid, hvos, hnb⟩ := mem_buildNodes hinfo
      obtain ⟨node, hnode, rfl⟩ := List.mem_map.1 ht
      have hnode := List.mem_reverse.1 hnode
      obtain ⟨dt, hdt, hso, hvo, hin, hvar⟩ := (hcodecs node hnode).2
      refine ⟨dt, by rw [htrpid]; exact hdt, ?_⟩
      exact nodeWithinLimits_of (hlay.settled node hnode) hso hvo hin hvar hvos hnb

end chunk

theorem chunk_withinLimits_splitJoin :
    WithinLimits splitJoinRegistry 20 contentChecksumOnly
        (RTGM.listBuffersToStore splitJoinGraph)
        [2, 2, 1, 0, 199, 0, 2, 0, 2, 0, 1, 0, 80, 0, 2, 2] [8] ↔
      (∀ buff ∈ RTGM.listBuffersToStore splitJoinGraph, buff.length < UINT32_MAX) ∧
        nbStreamsDescribed splitJoinGraph ≤ runtimeStreamLimit 20 := by
  refine chunk_withinLimits_iff (by decide) splitJoinGraph_built ?_
    (show describeChunk 20 2 splitJoinGraph = .ok (splitJoinGraph.info 2) by decide)
    (show writeChunkHeaderV8orMore 20 100 contentChecksumOnly (splitJoinGraph.info 2) =
      .ok [2, 2, 1, 0, 199, 0, 2, 0, 2, 0, 1, 0, 80, 0, 2, 2] by decide) rfl [8]
  intro node hnode
  simp only [splitJoinGraph, List.mem_cons, List.not_mem_nil, or_false] at hnode
  rcases hnode with rfl | rfl
  · exact ⟨⟨by decide, by decide, by decide⟩, _, rfl, rfl, rfl, rfl, rfl⟩
  · exact ⟨⟨by decide, by decide, by decide⟩, _, rfl, rfl, rfl, rfl, rfl⟩

/-- A single input, sent to storage as it is. -/
def storedGraph (content : List UInt8) : RTGraph :=
  ⟨[], [⟨some ⟨.serial, content, true⟩, 0, true, 0⟩]⟩

theorem storedGraph_built (v : Nat) (content : List UInt8) :
    Built v [⟨.serial, content, true⟩] (storedGraph content) := by
  have hinput : Built v [⟨.serial, content, true⟩]
      ⟨[], [⟨some ⟨.serial, content, true⟩, 0, false, 0⟩]⟩ := .inputs (by simp) rfl
  exact hinput.storeStream ⟨_, _, rfl, rfl⟩
    (show RTGM.storeStream 0 _ = some (.ok (), storedGraph content) from rfl)

theorem storedGraph_truncated {content : List UInt8} (hpos : 0 < content.length)
    (hlen : content.length % 2 ^ 32 = 0) (registry : Registry) (fprop : FrameProperties) :
    describeChunk 27 1 (storedGraph content) = .ok (nodelessInfo [content]) ∧
      writeChunkHeaderV8orMore 27 100 fprop (nodelessInfo [content]) = .ok [1, 1, 0] ∧
      ¬ WithinLimits registry 27 fprop [content] [1, 1, 0] [] := by
  have hdescribe : describeChunk 27 1 (storedGraph content) = .ok (nodelessInfo [content]) :=
    describeChunk_nodeless rfl rfl
  have hbytes : chunkHeaderBytes 27 fprop (nodelessInfo [content]) = [1, 1, 0] := by
    have h : chunkHeaderBytes 27 fprop (nodelessInfo [content]) =
        [1, 1] ++ (varintEncode (content.length % 2 ^ 32) ++ []) := by
      cases fprop with
      | mk a b c d => cases d <;> rfl
    rw [h, hlen]
    rfl
  have hwrite : writeChunkHeaderV8orMore 27 100 fprop (nodelessInfo [content]) =
      .ok [1, 1, 0] := by
    have hbound : computeFHBound 1 0 2 0 = .ok 44 := by decide
    have hone : [content].length ≤ 1 := Nat.le_refl 1
    change (computeFHBound 1 0 2 0 >>= _) = _
    rw [hbound, ok_bind, if_pos (by decide),
      writeChunkHeader_nodeless hone hbound (by decide), hbytes]
  refine ⟨hdescribe, hwrite, ?_⟩
  intro hlimits
  have hiff : WithinLimits registry 27 fprop (RTGM.listBuffersToStore (storedGraph content))
      [1, 1, 0] [] ↔ _ :=
    chunk_withinLimits_iff (by decide) (storedGraph_built 27 content)
      (by intro node hnode; cases hnode) hdescribe hwrite rfl []
  have hlt := (hiff.1 hlimits).1 content (List.mem_singleton.2 rfl)
  unfold UINT32_MAX at hlt
  omega

/-- Four gibibytes of zeroes, stored: the chunk announces an empty stream. -/
theorem chunk_sizeTruncated :
    Built 27 [⟨.serial, List.replicate (2 ^ 32) 0, true⟩]
        (storedGraph (List.replicate (2 ^ 32) 0)) ∧
      describeChunk 27 1 (storedGraph (List.replicate (2 ^ 32) 0)) =
        .ok (nodelessInfo [List.replicate (2 ^ 32) 0]) ∧
      writeChunkHeaderV8orMore 27 100 contentChecksumOnly
        (nodelessInfo [List.replicate (2 ^ 32) 0]) = .ok [1, 1, 0] ∧
      ¬ WithinLimits splitJoinRegistry 27 contentChecksumOnly [List.replicate (2 ^ 32) 0]
        [1, 1, 0] [] :=
  ⟨storedGraph_built 27 _, storedGraph_truncated (by rw [List.length_replicate]; norm_num)
    (by rw [List.length_replicate, Nat.mod_self]) _ _⟩

end OpenZL.Wire
