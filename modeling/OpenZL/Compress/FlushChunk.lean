import OpenZL.Compress.EncodeFrameHeader
import OpenZL.Compress.FinalGraph
import OpenZL.Shared.VarintLaws

/-!
# Writing a frame, chunk after chunk (`cctx.c`, `compress2.c`)

`CCTX_flushChunk` writes what a graph has left of a chunk: a header, the stored buffers and up to
two checksums.  A chunk that would not shrink, or whose header does not fit, is replaced by the
chunk itself, stored (`CCTX_replaceChunkWithStore`).  The destination is known by its capacity and
by the bytes written so far; the hashes are parameters.

The STORE graph is followed on serial streams only: on the others it starts with a conversion.

Principal results: `writeChunkHeaderV8orMore_nodeless`, `replaceChunkWithStore_serial`.
-/

namespace OpenZL.Compress

open OpenZL.Lib OpenZL.Shared

/-- The applied parameters that decide what is written around the buffers of a chunk, with the
comment of the session and the dictionary bundle of the compressor. -/
structure AppliedParams where
  formatVersion : Nat
  contentChecksum : TernaryParam
  compressedChecksum : TernaryParam
  storeOnExpansion : TernaryParam
  comment : List UInt8
  bundleID : Option UniqueID
  deriving DecidableEq, Repr

/-- The properties written in a chunk header by `CCTX_writeChunkHeader`. -/
def AppliedParams.chunkProperties (params : AppliedParams) : FrameProperties where
  hasContentChecksum := params.contentChecksum ≠ .disable
  hasCompressedChecksum := params.compressedChecksum ≠ .disable
  hasComment := false
  hasBundleID := params.formatVersion ≥ MATERIALIZED_DICT_VERSION_MIN ∧ params.bundleID.isSome

/-- The properties written in the frame header by `writeFrameHeader`. -/
def AppliedParams.frameProperties (params : AppliedParams) : FrameProperties :=
  { params.chunkProperties with hasComment := params.comment.length ≠ 0 }

/-- An input, with its number of elements. -/
structure Input extends Data where
  numElts : Nat
  deriving DecidableEq, Repr

/-- A serial input. -/
def Input.serial (content : List UInt8) : Input where
  type := .serial
  content
  committed := true
  numElts := content.length

/-- The size of an input as `CCTX_flushChunk` counts it, string lengths included. -/
def Input.totalSize (input : Input) : Nat :=
  input.content.length + if input.type = .string then input.numElts * 4 else 0

/-- `appendToVector`, for the vector of sent headers. -/
def appendToVector (vector buffer : List UInt8) : Except ErrorCode (List UInt8) :=
  if vector.length + buffer.length > ENCODER_TRANSFORM_HEADER_SIZE_LIMIT then .error .allocation
  else .ok (vector ++ buffer)

/-- `CCTX_TransformHeaders_send`, for every node in the order of the decoder. -/
def sendHeaders : List RTNode → List UInt8 → Except ErrorCode (List UInt8)
  | [], sent => .ok sent
  | node :: nodes, sent => do
    let sent ← appendToVector sent node.nodeHeader
    sendHeaders nodes sent

/-- `CCTX_getFinalGraph`, with the limit on the headers it sends. -/
def describeChunk (formatVersion nbInputs : Nat) (g : RTGraph) : Except ErrorCode GraphInfo := do
  let gip ← getFinalGraph formatVersion nbInputs g
  let _ ← sendHeaders g.nodes.reverse []
  return gip

/-- `writeChunkHeaderV8orMore`: below the bound the header goes through a workspace. -/
def writeChunkHeaderV8orMore (formatVersion dstCapacity : Nat) (info : FrameProperties)
    (gip : GraphInfo) : Except ErrorCode (List UInt8) := do
  let dstBound ← computeFHBound gip.nbSessionInputs gip.nbTransforms gip.nbStoredBuffs
    gip.nbDistances
  if dstCapacity ≥ dstBound then writeChunkHeader formatVersion dstCapacity info gip
  else
    let header ← writeChunkHeader formatVersion dstBound info gip
    failWhen (dstCapacity < header.length) .dstCapacity_tooSmall
    return header

/-- `writeFrameHeaderV3orMore`: the workspace makes no room for a comment or a bundle. -/
def writeFrameHeaderV3orMore (xxh3 : List UInt8 → Nat) (formatVersion dstCapacity : Nat)
    (fip : EFHFrameInfo) : Except ErrorCode (List UInt8) := do
  let dstBound ← computeFHBound fip.numInputs 0 0 0
  if dstCapacity ≥ dstBound then Compress.writeFrameHeader xxh3 formatVersion dstCapacity fip
  else
    let header ← Compress.writeFrameHeader xxh3 formatVersion dstBound fip
    failWhen (dstCapacity < header.length) .dstCapacity_tooSmall
    return header

/-- `writeFrameHeader` of `compress2.c`. -/
def beginFrame (xxh3 : List UInt8 → Nat) (params : AppliedParams) (dstCapacity : Nat)
    (inputs : List Input) : Except ErrorCode (List UInt8) := do
  failWhen (inputs.length > runtimeInputLimit params.formatVersion) .formatVersion_unsupported
  writeFrameHeaderV3orMore xxh3 params.formatVersion dstCapacity {
    fprop := params.frameProperties
    inputDescs := inputs.map fun input => ⟨input.type, input.content.length, input.numElts⟩
    comment := params.comment
    bundleID := params.bundleID.getD UniqueID.zero }

/-- The STORE graph: a serial stream is sent to `SERIAL_STORE`, whatever its contents. -/
def runStoreGraph (rtsids : List Nat) : RTM Unit :=
  Cmd.forEach (fun rtsid => do
    let stream ← RTGM.getRStream rtsid
    Cmd.require (stream.type = .serial)
    RTGM.storeStream rtsid) rtsids

/-- `CCTX_replaceChunkWithStore`; the headers of the nodes go with the nodes. -/
def replaceChunkWithStore (inputs : List Input) : RTM Unit := do
  Cmd.modify fun _ => ⟨[], []⟩
  Cmd.forEach (fun (input, n) => do
    let rtsid ← RTGM.refInput input.toData
    Cmd.failWhen (rtsid ≠ n) .corruption) inputs.zipIdx
  runStoreGraph (List.range inputs.length)

section chunk

variable (params : AppliedParams) (nbInputs : Nat)

/-- The STORE branch of `CCTX_flushChunk`, with `room` bytes left in the destination. -/
def writeStoreChunk (room : Nat) (inputs : List Input) : RTM (GraphInfo × List UInt8) := do
  replaceChunkWithStore inputs
  let g ← Cmd.get
  let gi ← Cmd.ofExcept (describeChunk params.formatVersion nbInputs g)
  let header ← Cmd.ofExcept
    (writeChunkHeaderV8orMore params.formatVersion room params.chunkProperties gi)
  return (gi, header)

/-- The first half of `CCTX_flushChunk`: the graph that is written, and its header. -/
def chooseChunk (room : Nat) (inputs : List Input) : RTM (GraphInfo × List UInt8) := do
  let g ← Cmd.get
  let gi ← Cmd.ofExcept (describeChunk params.formatVersion nbInputs g)
  match writeChunkHeaderV8orMore params.formatVersion room params.chunkProperties gi with
  | .error e =>
    if gi.nbTransforms > 0 ∧ params.storeOnExpansion ≠ .disable then
      writeStoreChunk params nbInputs room inputs
    else Cmd.fail e
  | .ok header =>
    if gi.nbTransforms > 0 ∧ params.storeOnExpansion ≠ .disable ∧
        header.length + (gi.storedBuffs.map List.length).sum ≥ (inputs.map Input.totalSize).sum then
      writeStoreChunk params nbInputs room inputs
    else return (gi, header)

/-- The loop of `CCTX_flushChunk` over the stored buffers. -/
def copyBuffers (dstCapacity : Nat) : List UInt8 → List (List UInt8) → Except ErrorCode (List UInt8)
  | frame, [] => .ok frame
  | frame, buff :: buffs =>
    if buff.length > dstCapacity - frame.length then .error .dstCapacity_tooSmall
    else copyBuffers dstCapacity (frame ++ buff) buffs

/-- The content checksum of a chunk; `hash` is `STREAM_hashLastCommit_xxh3low32`. -/
def appendContentChecksum (hash : List Input → Nat → Nat) (dstCapacity : Nat)
    (inputs : List Input) (frame : List UInt8) : Except ErrorCode (List UInt8) :=
  if params.contentChecksum = .disable then .ok frame
  else if dstCapacity - frame.length < 4 then .error .dstCapacity_tooSmall
  else if inputs.any (·.committed = false) then .error .GENERIC
  else .ok (frame ++ toLE 4 (hash inputs params.formatVersion))

/-- The checksum of the compressed chunk; of the whole frame before version 21. -/
def appendCompressedChecksum (xxh3 : List UInt8 → Nat) (dstCapacity startFrameSize : Nat)
    (frame : List UInt8) : Except ErrorCode (List UInt8) :=
  if params.compressedChecksum = .disable then .ok frame
  else if dstCapacity - frame.length < 4 then .error .dstCapacity_tooSmall
  else
    let startHashPosition :=
      if params.formatVersion < CHUNK_VERSION_MIN then 0 else startFrameSize
    .ok (frame ++ toLE 4 (xxh3 (frame.drop startHashPosition)))

/-- `CCTX_flushChunk`, from a destination that holds `frame` to one that holds the result. -/
def flushChunk (xxh3 : List UInt8 → Nat) (hash : List Input → Nat → Nat) (dstCapacity : Nat)
    (frame : List UInt8) (inputs : List Input) : RTM (List UInt8) := do
  let (gi, header) ← chooseChunk params nbInputs (dstCapacity - frame.length) inputs
  let withBuffers ← Cmd.ofExcept (copyBuffers dstCapacity (frame ++ header) gi.storedBuffs)
  let withContent ← Cmd.ofExcept (appendContentChecksum params hash dstCapacity inputs withBuffers)
  Cmd.ofExcept (appendCompressedChecksum params xxh3 dstCapacity frame.length withContent)

end chunk

theorem length_varintEncode_le {v k : Nat} (hv : v < 2 ^ (7 * k + 7)) (hk : v < 2 ^ 64) :
    (varintEncode v).length ≤ k + 1 := by
  rw [length_varintEncode hk, varintSize_eq]
  rcases Nat.eq_zero_or_pos v with rfl | hpos
  · simp
  · have hlog : v.log2 < 7 * k + 7 := (Nat.log2_lt (by omega)).2 hv
    omega

theorem runtimeNodeLimit_pos (v : Nat) : 0 < runtimeNodeLimit v := by
  unfold runtimeNodeLimit
  split <;> [omega; split <;> omega]

theorem two_lt_runtimeStreamLimit (v : Nat) : 2 < runtimeStreamLimit v := by
  unfold runtimeStreamLimit
  split <;> [omega; split <;> omega]

theorem computeFHBound_nodeless (nbBuffs : Nat) (h : nbBuffs ≤ 2) :
    ∃ bound, computeFHBound 1 0 nbBuffs 0 = .ok bound := by
  refine ⟨_, if_neg (by decide) |>.trans <| if_neg (by decide) |>.trans <| if_neg ?_⟩
  have : runtimeStreamLimit MAX_FORMAT_VERSION = 110000 := rfl
  omega

/-- The final graph of a chunk without transforms, stored as `buffs`. -/
def nodelessInfo (buffs : List (List UInt8)) : GraphInfo where
  nbSessionInputs := 1
  transforms := []
  distances := []
  storedBuffs := [] :: buffs

theorem length_chunkHeaderBytes_nodeless (v : Nat) (fprop : FrameProperties)
    {buffs : List (List UInt8)} (hlen : buffs.length ≤ 1) :
    (chunkHeaderBytes v fprop (nodelessInfo buffs)).length ≤ 8 := by
  have hcounts : (chunkCounts v 0 (buffs.length + 1)).length = 2 := by
    unfold chunkCounts
    split
    · rfl
    · have hsmall : ∀ n < 2, (varintEncode n).length = 1 := by decide
      rw [List.length_append, hsmall _ (by split <;> omega), hsmall _ (by omega)]
  have hflags : (nodeLanesBytes v fprop []).length ≤ 1 := by
    have hempty : nodeLanesBytes v fprop [] = chunkFlags v fprop := by
      unfold nodeLanesBytes
      have hdict : compressDictIdxs [] = [] := by decide
      have hc0 : compressTrHSize [] = [] := by decide
      have hc1 : compressNbVOs [] = [] := by decide
      have hc2 : compressNumInputs [] = [] := by decide
      have hc3 : compressTrt [] = [] := by decide
      have hc4 : compressTrID [] [] v = [] := rfl
      simp [hdict, hc0, hc1, hc2, hc3, hc4]
    rw [hempty, chunkFlags]
    split <;> simp
  have hstreams : (streamLanesBytes v (nodelessInfo buffs)).length ≤ 5 := by
    have hregens : totalNbRegens v (nodelessInfo buffs) = 0 := by
      unfold totalNbRegens
      split <;> rfl
    have hdist : compressStreamDistances [] 0 buffs.length = [] := by
      have h01 : buffs.length = 0 ∨ buffs.length = 1 := by omega
      rcases h01 with h | h <;> rw [h] <;> decide
    unfold streamLanesBytes
    rw [hregens]
    simp only [nodelessInfo, GraphInfo.nbStoredBuffs, List.take_nil, List.map_nil, List.length_cons,
      Nat.add_sub_cancel, hdist, List.nil_append, List.tail_cons]
    match buffs, hlen with
    | [], _ => simp [compressStrSizes]
    | [b], _ =>
      have hb : b.length % 2 ^ 32 < 2 ^ 32 := Nat.mod_lt _ (by norm_num)
      have hvarint := length_varintEncode_le (k := 4) (hb.trans (by norm_num))
        (hb.trans (by norm_num))
      simpa [compressStrSizes] using hvarint
  rw [chunkHeaderBytes, List.length_append, List.length_append]
  change (chunkCounts v 0 (buffs.length + 1)).length + ((nodeLanesBytes v fprop []).length + _) ≤ 8
  omega

theorem writeChunkHeader_nodeless {v dstCapacity bound : Nat} {fprop : FrameProperties}
    {buffs : List (List UInt8)} (hlen : buffs.length ≤ 1)
    (hbound : computeFHBound 1 0 (buffs.length + 1) 0 = .ok bound) (hcap : bound ≤ dstCapacity) :
    writeChunkHeader v dstCapacity fprop (nodelessInfo buffs) =
      .ok (chunkHeaderBytes v fprop (nodelessInfo buffs)) := by
  have hstreams := two_lt_runtimeStreamLimit v
  refine writeChunkHeader_eq_ok hbound hcap (runtimeNodeLimit_pos v) (Nat.succ_pos _) ?_ ?_
  · change buffs.length + 1 - 1 < _
    omega
  · intro _ t ht
    cases ht

theorem writeChunkHeaderV8orMore_nodeless {v room : Nat} (fprop : FrameProperties)
    {buffs : List (List UInt8)} (hlen : buffs.length ≤ 1) (hroom : 8 ≤ room) :
    ∃ header, writeChunkHeaderV8orMore v room fprop (nodelessInfo buffs) = .ok header ∧
      header.length ≤ 8 := by
  obtain ⟨bound, hbound⟩ := computeFHBound_nodeless (buffs.length + 1) (by omega)
  have hshort := length_chunkHeaderBytes_nodeless v fprop hlen
  refine ⟨_, ?_, hshort⟩
  have hbound' : computeFHBound (nodelessInfo buffs).nbSessionInputs
      (nodelessInfo buffs).nbTransforms (nodelessInfo buffs).nbStoredBuffs
      (nodelessInfo buffs).nbDistances = .ok bound := hbound
  unfold writeChunkHeaderV8orMore
  rw [hbound', ok_bind]
  split
  · rename_i hle
    exact writeChunkHeader_nodeless hlen hbound hle
  · rw [writeChunkHeader_nodeless hlen hbound (Nat.le_refl _), ok_bind,
      failWhen_of_not _ (by omega), ok_bind]
    rfl

/-- The graph that stores one input. -/
def storedInput (input : Input) : RTGraph where
  nodes := []
  streams := [{ stream := some input.toData, outcomeID := 0, toStore := true, protectRank := 0 }]

theorem replaceChunkWithStore_serial (content : List UInt8) (g : RTGraph) :
    replaceChunkWithStore [Input.serial content] g =
      some (.ok (), storedInput (Input.serial content)) := by
  rfl

theorem describeChunk_nodeless {v : Nat} {g : RTGraph} (hnodes : g.nodes = [])
    (hstreams : g.streams.length = 1) :
    describeChunk v 1 g = .ok (nodelessInfo (RTGM.listBuffersToStore g)) := by
  have hn := runtimeNodeLimit_pos v
  have hs := two_lt_runtimeStreamLimit v
  have hi : 1 ≤ runtimeInputLimit v := by
    unfold runtimeInputLimit
    split <;> omega
  have hfits : FitsFormat v 1 g := ⟨by rw [hnodes]; exact hn, by omega, hi⟩
  have hfinal := getFinalGraph_eq hfits (by rw [hnodes]; intro _ h; cases h)
  unfold describeChunk
  rw [hfinal, ok_bind, hnodes]
  simp only [RTGraph.info, nodelessInfo, hnodes]
  rfl

end OpenZL.Compress
