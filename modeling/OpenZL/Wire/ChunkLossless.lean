import Mathlib.Algebra.GroupWithZero.Nat
import OpenZL.Wire.Limits
import OpenZL.Wire.Regeneration

/-!
# A flushed chunk is decoded to its inputs

`CCTX_flushChunk` writes what the engine has left of a chunk, or the chunk itself, stored.

Principal results: `flushChunk_ok`, `setupChunkDecode_flushed`, `LeftBy.flushed`.
-/

namespace OpenZL.Wire

open OpenZL.Lib OpenZL.Shared OpenZL.Compress OpenZL.Decompress

variable {ρ : Type} {inputs : List Input}

/-- The inputs of a chunk, all of them stored. -/
def storedInputs (ins : List Data) : RTGraph :=
  ⟨[], ins.map fun d => { RTCStream.empty with stream := some d, toStore := true }⟩

theorem refInputs_zipIdx_ok : ∀ {inputs : List Input} {k : Nat} {g g' : RTGraph},
    Cmd.forEach (fun ((input, n) : Input × Nat) => (do
      let rtsid ← RTGM.refInput input.toData
      Cmd.failWhen (rtsid ≠ n) .corruption : RTM Unit)) (inputs.zipIdx k) g = some (.ok (), g') →
    g' = ⟨g.nodes, g.streams ++
      inputs.map fun input => { RTCStream.empty with stream := some input.toData }⟩
  | [], k, g, g', h => by
    obtain ⟨-, rfl⟩ := Cmd.run_pure_iff.1 h
    simp
  | input :: inputs, k, g, g', h => by
    obtain ⟨_, t, hhead, hrest⟩ := Cmd.run_bind_ok.1 h
    obtain ⟨rtsid, t', href, hcheck⟩ := Cmd.run_bind_ok.1 hhead
    obtain ⟨-, rfl⟩ := Cmd.run_failWhen_ok.1 hcheck
    obtain ⟨hnodes, hstreams⟩ := refInput_some href
    rw [refInputs_zipIdx_ok hrest, hnodes, (hstreams rtsid rfl).2]
    simp

theorem runStoreGraph_ok : ∀ {rtsids : List Nat} {g g' : RTGraph},
    runStoreGraph rtsids g = some (.ok (), g') → g'.nodes = g.nodes ∧
      ∀ s : Nat, g'.streams[s]? = g.streams[s]?.map fun slot =>
        if s ∈ rtsids then { slot with toStore := true } else slot
  | [], g, g', h => by
    obtain ⟨-, rfl⟩ := Cmd.run_pure_iff.1 h
    simp
  | rtsid :: rtsids, g, g', h => by
    obtain ⟨_, t, hhead, hrest⟩ := Cmd.run_bind_ok.1 h
    obtain ⟨stream, t', hstream, hstore⟩ := Cmd.run_bind_ok.1 hhead
    obtain ⟨slot, _, -, -, -, rfl⟩ := getRStream_some hstream
    obtain ⟨-, hmark⟩ := Cmd.run_require_bind.1 hstore
    obtain ⟨-, rfl⟩ := Prod.mk.inj (Option.some.inj hmark)
    obtain ⟨hnodes, hslots⟩ := runStoreGraph_ok hrest
    refine ⟨hnodes, fun s => ?_⟩
    rw [hslots s]
    rw [List.getElem?_modify]
    cases t'.streams[s]? with
    | none => rfl
    | some slot =>
      by_cases hs : rtsid = s
      · subst hs
        simp
      · simp [hs, Ne.symm hs]

theorem replaceChunkWithStore_ok {g g' : RTGraph}
    (h : replaceChunkWithStore inputs g = some (.ok (), g')) :
    g' = storedInputs (inputs.map (·.toData)) := by
  unfold replaceChunkWithStore at h
  rw [Cmd.run_modify_bind] at h
  obtain ⟨_, t, hrefs, hstore⟩ := Cmd.run_bind_ok.1 h
  obtain rfl := refInputs_zipIdx_ok hrefs
  obtain ⟨hnodes, hslots⟩ := runStoreGraph_ok hstore
  rw [storedInputs, RTGraph.mk.injEq]
  refine ⟨hnodes, List.ext_getElem? fun s => ?_⟩
  rw [hslots s]
  rw [List.nil_append, List.getElem?_map, List.getElem?_map, List.getElem?_map, Option.map_map,
    Option.map_map]
  cases hs : inputs[s]? with
  | none => rfl
  | some input =>
    have hlt := (List.getElem?_eq_some_iff.1 hs).1
    simp [hlt]

theorem storedInputs_encoded (E : Engine ρ) (ins : List Data) :
    Encoded E ins (ins.map some) (storedInputs ins) := by
  have hslot : ∀ (s : Nat) slot, (storedInputs ins).streams[s]? = some slot → ∃ d,
      ins[s]? = some d ∧ slot = { RTCStream.empty with stream := some d, toStore := true } := by
    intro s slot hs
    rw [storedInputs, List.getElem?_map] at hs
    obtain ⟨d, hd, rfl⟩ := Option.map_eq_some_iff.1 hs
    exact ⟨d, hd, rfl⟩
  constructor
  · refine (Layout.ofInputs E.formatVersion ins).of_streams rfl (by simp [storedInputs])
      fun s slot hs => ?_
    obtain ⟨d, hd, rfl⟩ := hslot s slot hs
    refine ⟨{ RTCStream.empty with stream := some d }, ?_, Or.inl rfl, Or.inr ⟨rfl, rfl⟩⟩
    rw [List.getElem?_map, hd]
    rfl
  · intro s hs
    refine Or.inr ⟨rfl, ?_⟩
    obtain ⟨d, -, heq⟩ := hslot s _ (List.getElem?_eq_getElem hs)
    rw [RTGraph.isStored, List.getElem?_eq_getElem hs, heq]
    rfl
  · refine recorded_inputs E rfl (List.length_map _) fun s slot hs => ?_
    obtain ⟨d, hd, rfl⟩ := hslot s slot hs
    exact hd.symm

section bytes

variable (params : AppliedParams)

/-- The content checksum of a chunk. -/
def contentBytes (hash : List Input → Nat → Nat) (inputs : List Input) : List UInt8 :=
  if params.contentChecksum = .disable then [] else toLE 4 (hash inputs params.formatVersion)

/-- The compressed checksum behind `frame`, of a chunk that starts at `start`. -/
def compressedBytes (xxh3 : List UInt8 → Nat) (start : Nat) (frame : List UInt8) : List UInt8 :=
  if params.compressedChecksum = .disable then []
  else toLE 4 (xxh3 (frame.drop (if params.formatVersion < CHUNK_VERSION_MIN then 0 else start)))

/-- `frame` after a chunk with the graph description `gi` and the header `header`. -/
def flushed (xxh3 : List UInt8 → Nat) (hash : List Input → Nat → Nat) (inputs : List Input)
    (frame : List UInt8) (gi : GraphInfo) (header : List UInt8) : List UInt8 :=
  let withContent := frame ++ header ++ gi.storedBuffs.flatten ++ contentBytes params hash inputs
  withContent ++ compressedBytes params xxh3 frame.length withContent

variable {params}

theorem writeStoreChunk_ok {nbInputs room : Nat} {g g' : RTGraph} {gi : GraphInfo}
    {header : List UInt8}
    (h : writeStoreChunk params nbInputs room inputs g = some (.ok (gi, header), g')) :
    describeChunk params.formatVersion nbInputs (storedInputs (inputs.map (·.toData))) = .ok gi ∧
      writeChunkHeaderV8orMore params.formatVersion room params.chunkProperties gi =
        .ok header := by
  unfold writeStoreChunk at h
  obtain ⟨_, t, hstore, h⟩ := Cmd.run_bind_ok.1 h
  obtain rfl := replaceChunkWithStore_ok hstore
  rw [Cmd.run_get_bind] at h
  obtain ⟨gi', hgi, h⟩ := Cmd.run_ofExcept_bind_ok.1 h
  obtain ⟨header', hheader, h⟩ := Cmd.run_ofExcept_bind_ok.1 h
  obtain ⟨heq, -⟩ := Cmd.run_pure_iff.1 h
  obtain ⟨rfl, rfl⟩ := Prod.mk.inj (Except.ok.inj heq)
  exact ⟨hgi, hheader⟩

theorem chooseChunk_ok {nbInputs room : Nat} {g g' : RTGraph} {gi : GraphInfo} {header : List UInt8}
    (h : chooseChunk params nbInputs room inputs g = some (.ok (gi, header), g')) :
    ∃ chosen, (chosen = g ∨ chosen = storedInputs (inputs.map (·.toData))) ∧
      describeChunk params.formatVersion nbInputs chosen = .ok gi ∧
      writeChunkHeaderV8orMore params.formatVersion room params.chunkProperties gi =
        .ok header := by
  unfold chooseChunk at h
  rw [Cmd.run_get_bind] at h
  obtain ⟨gi', hgi, h⟩ := Cmd.run_ofExcept_bind_ok.1 h
  cases hheader : writeChunkHeaderV8orMore params.formatVersion room params.chunkProperties gi' with
  | error e =>
    rw [hheader] at h
    dsimp only at h
    split at h
    · exact ⟨_, Or.inr rfl, writeStoreChunk_ok h⟩
    · cases h
  | ok header' =>
    rw [hheader] at h
    dsimp only at h
    split at h
    · exact ⟨_, Or.inr rfl, writeStoreChunk_ok h⟩
    · obtain ⟨heq, -⟩ := Cmd.run_pure_iff.1 h
      obtain ⟨rfl, rfl⟩ := Prod.mk.inj (Except.ok.inj heq)
      exact ⟨g, Or.inl rfl, hgi, hheader⟩

theorem copyBuffers_ok {dstCapacity : Nat} : ∀ {buffs : List (List UInt8)}
    {frame out : List UInt8}, copyBuffers dstCapacity frame buffs = .ok out →
      out = frame ++ buffs.flatten
  | [], frame, out, h => by
    rw [← Except.ok.inj h, List.flatten_nil, List.append_nil]
  | buff :: buffs, frame, out, h => by
    rw [copyBuffers] at h
    split at h
    · cases h
    · rw [copyBuffers_ok h, List.flatten_cons, List.append_assoc]

/-- **The bytes of a flushed chunk.** -/
theorem flushChunk_ok {xxh3 : List UInt8 → Nat} {hash : List Input → Nat → Nat}
    {nbInputs dstCapacity : Nat} {frame out : List UInt8} {g g' : RTGraph}
    (h : flushChunk params nbInputs xxh3 hash dstCapacity frame inputs g = some (.ok out, g')) :
    ∃ chosen gi header, (chosen = g ∨ chosen = storedInputs (inputs.map (·.toData))) ∧
      describeChunk params.formatVersion nbInputs chosen = .ok gi ∧
      (∃ room, writeChunkHeaderV8orMore params.formatVersion room params.chunkProperties gi =
        .ok header) ∧
      out = flushed params xxh3 hash inputs frame gi header := by
  unfold flushChunk at h
  obtain ⟨⟨gi, header⟩, t, hchoose, h⟩ := Cmd.run_bind_ok.1 h
  obtain ⟨chosen, hchosen, hgi, hheader⟩ := chooseChunk_ok hchoose
  obtain ⟨withBuffers, hcopy, h⟩ := Cmd.run_ofExcept_bind_ok.1 h
  obtain rfl := copyBuffers_ok hcopy
  obtain ⟨withContent, hcontent, h⟩ := Cmd.run_ofExcept_bind_ok.1 h
  obtain ⟨hcompressed, -⟩ := Prod.mk.inj (Option.some.inj h)
  refine ⟨chosen, gi, header, hchosen, hgi, ⟨_, hheader⟩, ?_⟩
  have hcontent' : withContent = frame ++ header ++ gi.storedBuffs.flatten ++
      contentBytes params hash inputs := by
    unfold appendContentChecksum at hcontent
    unfold contentBytes
    split at hcontent
    · rename_i hdisable
      rw [if_pos hdisable, ← Except.ok.inj hcontent, List.append_nil]
    · rename_i hdisable
      split at hcontent
      · cases hcontent
      · split at hcontent
        · cases hcontent
        · rw [if_neg hdisable, Except.ok.inj hcontent]
  unfold appendCompressedChecksum at hcompressed
  unfold flushed compressedBytes
  dsimp only
  rw [← hcontent']
  split at hcompressed
  · rename_i hdisable
    rw [if_pos hdisable, ← Except.ok.inj hcompressed, List.append_nil]
  · rename_i hdisable
    split at hcompressed
    · cases hcompressed
    · rw [if_neg hdisable, ← Except.ok.inj hcompressed]

end bytes

section checksums

variable {xxh3 : List UInt8 → Nat} {v : Nat} {properties : FrameProperties}
  {before rest : List UInt8}

theorem take_toLE_append (n : Nat) (rest : List UInt8) :
    ofLE ((toLE 4 n ++ rest).take 4) = n % 2 ^ 32 := by
  rw [List.take_left' (length_toLE 4 n), ofLE_toLE, pow256]

theorem readContentHash_reads (n : Nat) :
    readContentHash properties
        (before ++ ((if properties.hasContentChecksum then toLE 4 n else []) ++ rest))
        before.length =
      .ok (if properties.hasContentChecksum then n % 2 ^ 32 else 0,
        before.length + (if properties.hasContentChecksum then toLE 4 n else []).length) := by
  unfold readContentHash
  split
  · rw [failWhen_of_not _ (by simp), ok_bind, List.drop_left, take_toLE_append, length_toLE]
    rfl
  · rfl

theorem checkCompressedHash_reads (check : Bool) {start : Nat} (hstart : start ≤ before.length) :
    checkCompressedHash xxh3 check v properties
        (before ++ ((if properties.hasCompressedChecksum then
          toLE 4 (xxh3 (before.drop (if v < CHUNK_VERSION_MIN then 0 else start))) else []) ++ rest))
        start before.length =
      .ok (before.length + (if properties.hasCompressedChecksum then
        toLE 4 (xxh3 (before.drop (if v < CHUNK_VERSION_MIN then 0 else start))) else []).length) := by
  unfold checkCompressedHash
  split
  · have hle : (if v < CHUNK_VERSION_MIN then 0 else start) ≤ before.length := by
      split
      · exact Nat.zero_le _
      · exact hstart
    rw [failWhen_of_not _ (by simp), ok_bind, List.drop_left, take_toLE_append, length_toLE]
    dsimp only
    rw [List.drop_append_of_le_length hle, ← List.length_drop, List.take_left,
      failWhen_of_not _ (by simp)]
    rfl
  · rfl

end checksums

/-- The properties the decoder has read from the frame header are those of its chunks. -/
structure Announces (params : AppliedParams) (properties : FrameProperties) : Prop where
  bundle : properties.hasBundleID = params.chunkProperties.hasBundleID
  content : params.formatVersion ≥ CHUNK_VERSION_MIN →
    properties.hasContentChecksum = params.chunkProperties.hasContentChecksum
  compressed : params.formatVersion ≥ CHUNK_VERSION_MIN →
    properties.hasCompressedChecksum = params.chunkProperties.hasCompressedChecksum

theorem Announces.decoded {params : AppliedParams} {properties : FrameProperties}
    (h : Announces params properties) :
    (decodedProperties params.formatVersion params.chunkProperties properties).hasContentChecksum =
        params.chunkProperties.hasContentChecksum ∧
      (decodedProperties params.formatVersion params.chunkProperties
        properties).hasCompressedChecksum = params.chunkProperties.hasCompressedChecksum := by
  unfold decodedProperties
  split
  · exact ⟨rfl, rfl⟩
  · rename_i hv
    exact ⟨h.content (Nat.le_of_not_lt hv), h.compressed (Nat.le_of_not_lt hv)⟩

section described

variable {E : Engine ρ} {ins : List Data} {history : List (Option Data)} {g : RTGraph}

theorem describeChunk_ok {n : Nat} {gi : GraphInfo} (hlay : Layout E.formatVersion ins g)
    (h : describeChunk E.formatVersion n g = .ok gi) :
    gi = g.info n ∧ FitsFormat E.formatVersion n g ∧
      ∀ node ∈ g.nodes, node.nodeHeader.length ≤ ENCODER_TRANSFORM_HEADER_SIZE_LIMIT := by
  obtain ⟨gi', hfinal, h⟩ := bind_eq_ok.1 h
  obtain ⟨sent, hsent, h⟩ := bind_eq_ok.1 h
  obtain rfl := pure_eq_ok.1 h
  have hfits := fitsFormat_of_getFinalGraph hfinal
  have hinfo := getFinalGraph_eq hfits fun node hnode =>
    (hlay.settled node hnode).accepted.nbOut1s_le
  exact ⟨Except.ok.inj (hfinal.symm.trans hinfo), hfits,
    fun node hnode => sendHeaders_ok hsent node (List.mem_reverse.2 hnode)⟩

/-- The codecs of an engine are registered ones. -/
def Registered (E : Engine ρ) : Prop :=
  ∀ nodeid cnode codec, E.nodes nodeid = some (cnode, codec) →
    RegisteredCodec E.formatVersion cnode

theorem Encoded.wellFormed (h : Encoded E ins history g) (hcodecs : Registered E)
    (hheaders : ∀ node ∈ g.nodes, node.nodeHeader.length ≤ ENCODER_TRANSFORM_HEADER_SIZE_LIMIT)
    (hsizes : ∀ buff ∈ RTGM.listBuffersToStore g, buff.length < UINT32_MAX)
    (fprop : FrameProperties) : WellFormed E.formatVersion fprop (g.info ins.length) := by
  have hdummy := wellFormed_info (n := ins.length) h.layout (fun node hnode => by
    obtain ⟨nodeid, codec, _, _, hE, -⟩ := h.recorded.nodes node hnode
    exact hcodecs nodeid node.cnode codec hE) hheaders fprop
  refine { hdummy with nbDistances_eq := ?_, distances_range := ?_, storedBuffs_lt := hsizes }
  · have hlen := hdummy.nbDistances_eq
    rwa [withDummyStreams, GraphInfo.nbDistances, List.length_replicate] at hlen
  · intro d hd
    obtain ⟨node, hnode, hd⟩ := List.mem_flatMap.1 hd
    obtain ⟨s, hs, rfl⟩ := List.mem_map.1 hd
    have hlt := (h.layout.settled node (List.mem_reverse.1 hnode)).inRtsids_lt s hs
    have hle := h.layout.start_le (List.mem_reverse.1 hnode)
    have hlen := length_info h.layout h.usedOnce
    simp only [GraphInfo.nbDistances, GraphInfo.nbStoredBuffs, RTGraph.info, List.length_cons]
    rw [List.length_map] at hlen
    omega

end described

section chunk

variable {E : Engine ρ} {params : AppliedParams} {dctx : DCtx} {inputs : List Input}
  {history : List (Option Data)} {g : RTGraph} {properties : FrameProperties}

/-- The contents of inputs. -/
def contents (inputs : List Input) : List (List UInt8) := inputs.map (·.content)

/-- The hash of inputs, from a hash of contents. -/
def hashInputs (hashLastCommit : List (List UInt8) → Nat → Nat) (inputs : List Input)
    (formatVersion : Nat) : Nat :=
  hashLastCommit (contents inputs) formatVersion

/-- A decompression context that fits an engine: its format version is supported, its codecs are
registered and complete, and the decoders undo them. -/
structure Compatible (E : Engine ρ) (params : AppliedParams) (dctx : DCtx) : Prop where
  supported : isFormatVersionSupported E.formatVersion
  version : params.formatVersion = E.formatVersion
  complete : E.Complete
  registered : Registered E
  inverts : Inverts dctx.registry dctx.decoders E
  dicts : DictsSent (hasDictLane E.formatVersion params.chunkProperties) E

/-- **A flushed chunk is read back**, whatever follows it. -/
theorem setupChunkDecode_flushed (hcompat : Compatible E params dctx)
    (h : Encoded E (inputs.map (·.toData)) history g) (hins : inputs ≠ [])
    (hsizes : ∀ buff ∈ RTGM.listBuffersToStore g, buff.length < UINT32_MAX)
    (hannounces : Announces params properties) (hnb : dctx.nbOutputs = inputs.length)
    {gi : GraphInfo} {header : List UInt8} {room : Nat}
    (hgi : describeChunk params.formatVersion inputs.length g = .ok gi)
    (hheader : writeChunkHeaderV8orMore params.formatVersion room params.chunkProperties gi =
      .ok header) (xxh3 : List UInt8 → Nat) (frame rest : List UInt8) :
    ∃ setup, setupChunkDecode xxh3 dctx.env params.formatVersion properties
        (flushed params xxh3 (hashInputs dctx.hashLastCommit) inputs frame gi header ++
          rest) frame.length = .ok setup ∧
      frame.length + setup.chunkSize =
        (flushed params xxh3 (hashInputs dctx.hashLastCommit) inputs frame gi header).length ∧
      dctx.decodeChunk params.formatVersion setup = .ok (contents inputs) := by
  have hversion := hcompat.version
  rw [hversion] at hgi hheader
  obtain ⟨rfl, hfits, hheaders⟩ := describeChunk_ok h.layout hgi
  obtain ⟨capacity, hwrite⟩ := writeChunkHeaderV8orMore_ok hheader
  have hnbIns : (inputs.map (·.toData)).length = inputs.length := List.length_map _
  have hwf := h.wellFormed hcompat.registered hheaders hsizes params.chunkProperties
  have hregens := h.regenerates (by simpa using hins) hcompat.inverts (by rwa [hnbIns])
    params.chunkProperties properties hcompat.dicts (frame ++ header)
  rw [hnbIns] at hwf hregens
  have hlimit := hfits.streams_lt
  have hdist := nbDistances_info g inputs.length
  have hle : (g.info inputs.length).nbDistances ≤ runtimeStreamLimit MAX_FORMAT_VERSION := by
    have hlen := length_info h.layout h.usedOnce
    have hmax : runtimeStreamLimit E.formatVersion ≤ runtimeStreamLimit MAX_FORMAT_VERSION :=
      runtimeStreamLimit_le E.formatVersion
    simp only [GraphInfo.nbDistances, RTGraph.info] at hdist ⊢
    rw [hdist] at hlen ⊢
    omega
  obtain ⟨hhasContent, hhasCompressed⟩ := hannounces.decoded
  rw [hversion] at hhasContent hhasCompressed
  set decoded := decodedProperties E.formatVersion params.chunkProperties properties
  set bufs := (g.info inputs.length).storedBuffs.flatten
  -- the checksums, by the flags the decoder has read
  have hcontent : contentBytes params (hashInputs dctx.hashLastCommit) inputs =
      if decoded.hasContentChecksum then
        toLE 4 (dctx.hashLastCommit (contents inputs) E.formatVersion) else [] := by
    rw [hhasContent, contentBytes, hversion]
    by_cases hdisable : params.contentChecksum = .disable
    · simp [AppliedParams.chunkProperties, hdisable]
    · simp [AppliedParams.chunkProperties, hdisable, hashInputs]
  set content := contentBytes params (hashInputs dctx.hashLastCommit) inputs
  have hcompressed : compressedBytes params xxh3 frame.length (frame ++ header ++ bufs ++ content) =
      if decoded.hasCompressedChecksum then toLE 4 (xxh3 ((frame ++ header ++ bufs ++ content).drop
        (if E.formatVersion < CHUNK_VERSION_MIN then 0 else frame.length))) else [] := by
    rw [hhasCompressed, compressedBytes, hversion]
    by_cases hdisable : params.compressedChecksum = .disable
    · simp [AppliedParams.chunkProperties, hdisable]
    · simp [AppliedParams.chunkProperties, hdisable]
  set compressed := compressedBytes params xxh3 frame.length (frame ++ header ++ bufs ++ content)
  have hflushed : flushed params xxh3 (hashInputs dctx.hashLastCommit) inputs frame
      (g.info inputs.length) header = frame ++ header ++ bufs ++ content ++ compressed := rfl
  obtain ⟨cs, hfill, hsize, hregenerates⟩ := hregens (content ++ (compressed ++ rest))
  have hdecode := decodeChunkHeader_written hcompat.supported hwrite hwf hannounces.bundle hle
    (bufs ++ (content ++ (compressed ++ rest)))
  have hread := @readContentHash_reads decoded (frame ++ header ++ bufs) (compressed ++ rest)
    (dctx.hashLastCommit (contents inputs) E.formatVersion)
  rw [← hcontent] at hread
  have hcheck := @checkCompressedHash_reads xxh3 E.formatVersion decoded
    (frame ++ header ++ bufs ++ content) rest dctx.checkCompressedChecksum frame.length
    (by simp [List.append_assoc])
  rw [← hcompressed] at hcheck
  simp only [List.append_assoc] at hfill hread hcheck
  rw [hflushed, hversion]
  simp only [List.append_assoc]
  refine ⟨⟨decodedChunkHeader E.formatVersion params.chunkProperties properties
    (g.info inputs.length), cs, if decoded.hasContentChecksum then
      dctx.hashLastCommit (contents inputs) E.formatVersion % 2 ^ 32 else 0,
    (header ++ bufs ++ content ++ compressed).length⟩, ?_, ?_, ?_⟩
  · unfold setupChunkDecode
    rw [List.drop_left, hdecode, ok_bind]
    dsimp only
    have hconsumed : frame.length + ((frame ++ (header ++ (bufs ++ (content ++
        (compressed ++ rest))))).length - frame.length -
        (bufs ++ (content ++ (compressed ++ rest))).length) = (frame ++ header).length := by
      simp only [List.length_append]
      omega
    have hstreams : (frame ++ header).length + cs.streamsSize =
        (frame ++ (header ++ bufs)).length := by
      rw [hsize, ← List.append_assoc, @List.length_append _ (frame ++ header)]
    rw [hconsumed]
    change (fillStoredStreams dctx.registry E.formatVersion dctx.nbOutputs _ _ _ >>= _) = _
    rw [hnb, hfill, ok_bind, hstreams]
    change (readContentHash decoded _ _ >>= _) = _
    have hpos : (frame ++ (header ++ bufs)).length + content.length =
        (frame ++ (header ++ (bufs ++ content))).length := by
      simp only [List.length_append]
      omega
    rw [hread, ok_bind, hpos]
    change (checkCompressedHash xxh3 dctx.checkCompressedChecksum _ decoded _ _ _ >>= _) = _
    rw [hcheck, ok_bind]
    refine pure_eq_ok.2 ?_
    rw [ChunkSetup.mk.injEq]
    refine ⟨rfl, rfl, rfl, ?_⟩
    simp only [List.length_append]
    omega
  · simp [List.append_assoc]
  · obtain ⟨slots, hrun, hadd⟩ := hregenerates
    rw [List.map_map] at hadd
    unfold DCtx.decodeChunk
    rw [hrun]
    change (addChunksIntoFinalStreams dctx.nbOutputs _ _ >>= _) = _
    rw [hnb, hadd, ok_bind, failWhen_of_not _ fun hne => ?_, ok_bind]
    · rfl
    · obtain ⟨hhas, -, hne⟩ := hne
      exact hne (if_pos hhas).symm

theorem mem_listBuffersToStore_storedInputs {ins : List Data} {buff : List UInt8}
    (h : buff ∈ RTGM.listBuffersToStore (storedInputs ins)) : ∃ d ∈ ins, buff = d.content := by
  obtain ⟨slot, hslot, rfl⟩ := List.mem_map.1 h
  obtain ⟨d, hd, rfl⟩ := List.mem_map.1 (List.mem_reverse.1 (List.mem_of_mem_filter hslot))
  exact ⟨d, hd, rfl⟩

/-- A graph that a fine run of the engine has left of inputs, with sizes that fit in 32 bits. -/
structure LeftBy (E : Engine ρ) (inputs : List Input) (g : RTGraph) : Prop where
  run : ∃ fuel gid rgp b s', runStartingGraph E fuel gid rgp (inputs.map (·.toData))
    (CCtx.init b) = some (.ok (), s') ∧ (∀ event ∈ s'.events, event.Fine E True) ∧ s'.rtgraph = g
  inputs_lt : ∀ input ∈ inputs, input.content.length < UINT32_MAX
  buffers_lt : ∀ buff ∈ RTGM.listBuffersToStore g, buff.length < UINT32_MAX

theorem LeftBy.flushed (hleft : LeftBy E inputs g) (hcompat : Compatible E params dctx)
    (hannounces : Announces params properties) (hnb : dctx.nbOutputs = inputs.length)
    {xxh3 : List UInt8 → Nat} {dstCapacity : Nat} {frame out : List UInt8} {g' : RTGraph}
    (hflush : flushChunk params inputs.length xxh3 (hashInputs dctx.hashLastCommit) dstCapacity
      frame inputs g = some (.ok out, g')) (rest : List UInt8) :
    ∃ setup, setupChunkDecode xxh3 dctx.env params.formatVersion properties (out ++ rest)
        frame.length = .ok setup ∧
      frame.length + setup.chunkSize = out.length ∧
      dctx.decodeChunk params.formatVersion setup = .ok (contents inputs) := by
  obtain ⟨fuel, gid, rgp, b, s', hrun, hfine, rfl⟩ := hleft.run
  obtain ⟨chosen, gi, header, hchosen, hgi, ⟨room, hheader⟩, rfl⟩ := flushChunk_ok hflush
  have hins : inputs ≠ [] := by
    rcases runStartingGraph_some hrun with ⟨e, hr, -⟩ | ⟨hne, -⟩
    · cases hr
    · simpa using hne
  have hread : ∀ history, Encoded E (inputs.map (·.toData)) history chosen →
      (∀ buff ∈ RTGM.listBuffersToStore chosen, buff.length < UINT32_MAX) → _ :=
    fun history henc hsizes => setupChunkDecode_flushed hcompat henc hins hsizes hannounces hnb hgi
      hheader xxh3 frame rest
  rcases hchosen with rfl | rfl
  · have hroom : s'.rtgraph.streams.length < streamCapacity := by
      obtain ⟨_, hfinal, -⟩ := bind_eq_ok.1 hgi
      have hlt := (fitsFormat_of_getFinalGraph hfinal).streams_lt
      have hmax : runtimeStreamLimit params.formatVersion ≤ streamCapacity :=
        runtimeStreamLimit_le params.formatVersion
      omega
    obtain ⟨-, history, henc⟩ := runStartingGraph_encoded hcompat.complete hrun hfine hroom
    exact hread history henc hleft.buffers_lt
  · refine hread _ (storedInputs_encoded E _) fun buff hbuff => ?_
    obtain ⟨d, hd, rfl⟩ := mem_listBuffersToStore_storedInputs hbuff
    obtain ⟨input, hinput, rfl⟩ := List.mem_map.1 hd
    exact hleft.inputs_lt input hinput

end chunk

end OpenZL.Wire
