import OpenZL.Compress.FlushChunk

/-!
# `ZL_compressBound` is sufficient (`zl_compress.h`)

One serial input, cut into chunks, each left by its starting graph as some runtime graph.

Principal results: `flushChunk_fits`, `flushChunks_fit`, `compressBound_suffices`.
-/

namespace OpenZL.Compress

open OpenZL.Lib OpenZL.Shared

def MIN_CHUNK_SIZE : Nat := 32768
def CHUNK_OVERHEAD_MAX : Nat := 16
def FRAME_OVERHEAD_MAX : Nat := 64

/-- `ZL_COMPRESSBOUND`, without wrapping. -/
def compressBoundMacro (s : Nat) : Nat :=
  s + FRAME_OVERHEAD_MAX + (s / MIN_CHUNK_SIZE + 1) * CHUNK_OVERHEAD_MAX

/-- `ZL_compressBound`, on a `size_t`. -/
def compressBound (totalSrcSizeInBytes : Nat) : Nat :=
  compressBoundMacro totalSrcSizeInBytes % 2 ^ 64

/-- A serial input in memory: an object is smaller than `PTRDIFF_MAX`. -/
structure SerialInput where
  content : List UInt8
  isObject : content.length < 2 ^ 63

/-- A chunk, and what its starting graph has left. A graph without nodes has no other stream than
the chunk. -/
structure ChunkRun where
  content : List UInt8
  graph : RTGraph
  nodeless : graph.nodes = [] → ∃ slot, graph.streams = [slot] ∧
    (slot.toStore = true → slot.stream = some (Input.serial content).toData)

theorem Built.nodeless {v : Nat} {d : Data} {g : RTGraph} (h : Built v [d] g)
    (hnodes : g.nodes = []) :
    ∃ slot, g.streams = [slot] ∧ (slot.toStore = true → slot.stream = some d) := by
  have hone : g.streams.length = 1 := by
    rw [← RTGraph.bound_of_le (g := g) (k := 0) (by simp [hnodes]), h.layout.first]
    rfl
  obtain ⟨slot, hslots⟩ := List.length_eq_one_iff.1 hone
  have hslot : g.streams[0]? = some slot := by rw [hslots]; rfl
  obtain ⟨slot', hslot', hheld⟩ := h.layout.session 0 d rfl
  obtain rfl : slot = slot' := Option.some.inj (hslot.symm.trans hslot')
  refine ⟨slot, hslots, fun hstored => hheld.resolve_left fun hnone => ?_⟩
  have hsome := h.layout.stored 0 slot hslot hstored
  rw [hnone] at hsome
  cases hsome

/-- What the engine has built of a chunk. -/
def ChunkRun.ofBuilt {v : Nat} {content : List UInt8} {g : RTGraph}
    (h : Built v [(Input.serial content).toData] g) : ChunkRun :=
  ⟨content, g, h.nodeless⟩

/-- A serial input cut into chunks, all but the last one of `ZL_MIN_CHUNK_SIZE` bytes or more. -/
structure Segmentation (input : List UInt8) where
  runs : List ChunkRun
  flatten_eq : (runs.map (·.content)).flatten = input
  min_size : ∀ run ∈ runs.dropLast, MIN_CHUNK_SIZE ≤ run.content.length

section compress

variable (xxh3 : List UInt8 → Nat) (hash : List Input → Nat → Nat) (params : AppliedParams)
  (dstCapacity : Nat)

/-- The chunks of a frame, flushed one after the other. -/
def flushChunks : List UInt8 → List ChunkRun → RTM (List UInt8)
  | frame, [] => return frame
  | frame, run :: runs => do
    Cmd.modify fun _ => run.graph
    let frame ← flushChunk params 1 xxh3 hash dstCapacity frame [Input.serial run.content]
    flushChunks frame runs

/-- The end of `CCTX_startCompression`: the end-of-frame marker of version 21 and later. -/
def endFrame (frame : List UInt8) : Except ErrorCode (List UInt8) :=
  if params.formatVersion ≥ CHUNK_VERSION_MIN then
    if dstCapacity - frame.length < 1 then .error .dstCapacity_tooSmall
    else .ok (frame ++ [0])
  else .ok frame

/-- `CCTX_compressInputs_withGraphSet_stage2`, for one serial input. -/
def compressSerial (input : List UInt8) (runs : List ChunkRun) : RTM (List UInt8) := do
  let frame ← Cmd.ofExcept (beginFrame xxh3 params dstCapacity [Input.serial input])
  let frame ← flushChunks xxh3 hash params dstCapacity frame runs
  Cmd.ofExcept (endFrame params dstCapacity frame)

end compress

/-! ## Errors -/

/-- An error that tells of a lack of room. -/
def CapacityError (e : ErrorCode) : Prop := e = .dstCapacity_tooSmall ∨ e = .internalBuffer_tooSmall

instance (e : ErrorCode) : Decidable (CapacityError e) := inferInstanceAs (Decidable (_ ∨ _))

/-- Not an error of capacity. -/
def OtherError (e : ErrorCode) : Prop := ¬ CapacityError e

instance (e : ErrorCode) : Decidable (OtherError e) := inferInstanceAs (Decidable (¬ _))

theorem describeNodes_failsOnly (nodes : List RTNode) :
    FailsOnly OtherError (describeNodes nodes) := by
  induction nodes with
  | nil => exact FailsOnly.ok _
  | cons node nodes ih =>
    refine FailsOnly.bind (FailsOnly.failWhen (by decide)) fun _ _ => ?_
    exact FailsOnly.bind ih fun _ _ => FailsOnly.ok _

theorem sendHeaders_failsOnly : ∀ (nodes : List RTNode) (sent : List UInt8),
    FailsOnly OtherError (sendHeaders nodes sent)
  | [], sent => FailsOnly.ok sent
  | node :: nodes, sent => by
    have happend : FailsOnly OtherError (appendToVector sent node.nodeHeader) := by
      unfold appendToVector
      split
      · exact FailsOnly.error (by decide)
      · exact FailsOnly.ok _
    exact FailsOnly.bind happend fun sent' _ => sendHeaders_failsOnly nodes sent'

theorem getFinalGraph_failsOnly (v nbInputs : Nat) (g : RTGraph) :
    FailsOnly OtherError (getFinalGraph v nbInputs g) := by
  refine FailsOnly.bind (FailsOnly.failWhen (by decide)) fun _ _ => ?_
  refine FailsOnly.bind (FailsOnly.failWhen (by decide)) fun _ _ => ?_
  refine FailsOnly.bind (FailsOnly.failWhen (by decide)) fun _ _ => ?_
  exact FailsOnly.bind (describeNodes_failsOnly _) fun _ _ => FailsOnly.ok _

theorem describeChunk_failsOnly (v nbInputs : Nat) (g : RTGraph) :
    FailsOnly OtherError (describeChunk v nbInputs g) := by
  refine FailsOnly.bind (getFinalGraph_failsOnly v nbInputs g) fun _ _ => ?_
  exact FailsOnly.bind (sendHeaders_failsOnly _ _) fun _ _ => FailsOnly.ok _

/-! ## Chunks -/

section chunk

variable (params : AppliedParams) {room : Nat}

/-- The bytes of a chunk before its checksums. -/
def chunkSize (chunk : GraphInfo × List UInt8) : Nat :=
  chunk.2.length + (chunk.1.storedBuffs.map List.length).sum

/-- A result of `chooseChunk` that needs at most `limit` bytes, or an error that is not about
capacity. -/
def ChunkFits (limit : Nat) (r : Except ErrorCode (GraphInfo × List UInt8)) : Prop :=
  (∃ chunk, r = .ok chunk ∧ chunkSize chunk ≤ limit) ∨ ∃ e, r = .error e ∧ OtherError e

theorem writeStoreChunk_fits (content : List UInt8) (g : RTGraph) (hroom : 8 ≤ room) :
    Cmd.Yields (writeStoreChunk params 1 room [Input.serial content]) g fun r _ =>
      ChunkFits (content.length + 8) r := by
  have hgraph := describeChunk_nodeless (v := params.formatVersion)
    (g := storedInput (Input.serial content)) rfl rfl
  have hone : [content].length ≤ 1 := Nat.le_refl 1
  obtain ⟨header, hheader, hshort⟩ := writeChunkHeaderV8orMore_nodeless (v := params.formatVersion)
    params.chunkProperties hone hroom
  refine Cmd.yields_bind ⟨.ok (), _, replaceChunkWithStore_serial content g, nofun, ?_⟩
  rintro ⟨⟩ -
  refine Cmd.yields_get_bind (Cmd.yields_ofExcept_bind ?_ ?_)
  · intro e he
    rw [hgraph] at he
    cases he
  intro gi hgi
  obtain rfl : nodelessInfo [content] = gi := Except.ok.inj (hgraph.symm.trans hgi)
  refine Cmd.yields_ofExcept_bind ?_ ?_
  · intro e he
    rw [hheader] at he
    cases he
  intro h hh
  obtain rfl : header = h := Except.ok.inj (hheader.symm.trans hh)
  refine Cmd.yields_pure (Or.inl ⟨_, rfl, ?_⟩)
  simp only [chunkSize, nodelessInfo, List.map_cons, List.map_nil, List.sum_cons, List.sum_nil,
    List.length_nil]
  omega

theorem ChunkRun.listBuffersToStore (run : ChunkRun) (hnodes : run.graph.nodes = []) :
    run.graph.streams.length = 1 ∧ (RTGM.listBuffersToStore run.graph = [] ∨
      RTGM.listBuffersToStore run.graph = [run.content]) := by
  obtain ⟨slot, hslot, hstored⟩ := run.nodeless hnodes
  refine ⟨by rw [hslot]; rfl, ?_⟩
  unfold RTGM.listBuffersToStore
  cases hst : slot.toStore with
  | false =>
    left
    simp [hslot, hst]
  | true =>
    right
    simp [hslot, hst, RTCStream.getRBuffer, hstored hst, Input.serial]

theorem describeChunk_nbTransforms {v nbInputs : Nat} {g : RTGraph} {gi : GraphInfo}
    (h : describeChunk v nbInputs g = .ok gi) : gi.nbTransforms = g.nodes.length := by
  have hlen : ∀ (nodes : List RTNode) (descs : List TransformDesc),
      describeNodes nodes = .ok descs → descs.length = nodes.length := by
    intro nodes
    induction nodes with
    | nil =>
      intro descs hd
      cases hd
      rfl
    | cons node nodes ih =>
      intro descs hd
      obtain ⟨-, -, hd⟩ := bind_eq_ok.1 hd
      obtain ⟨rest, hrest, hd⟩ := bind_eq_ok.1 hd
      rw [← pure_eq_ok.1 hd, List.length_cons, ih rest hrest, List.length_cons]
  obtain ⟨gi', hfinal, h⟩ := bind_eq_ok.1 h
  obtain ⟨-, -, h⟩ := bind_eq_ok.1 h
  obtain rfl := pure_eq_ok.1 h
  unfold getFinalGraph at hfinal
  obtain ⟨-, -, h⟩ := bind_eq_ok.1 hfinal
  obtain ⟨-, -, h⟩ := bind_eq_ok.1 h
  obtain ⟨-, -, h⟩ := bind_eq_ok.1 h
  obtain ⟨descs, hdescs, h⟩ := bind_eq_ok.1 h
  rw [← pure_eq_ok.1 h]
  exact (hlen _ _ hdescs).trans List.length_reverse

theorem chooseChunk_fits (hstore : params.storeOnExpansion ≠ .disable) (run : ChunkRun)
    (hroom : 8 ≤ room) :
    Cmd.Yields (chooseChunk params 1 room [Input.serial run.content]) run.graph fun r _ =>
      ChunkFits (run.content.length + 8) r := by
  have hsize : (([Input.serial run.content]).map Input.totalSize).sum = run.content.length := by
    simp [Input.totalSize, Input.serial]
  refine Cmd.yields_get_bind (Cmd.yields_ofExcept_bind ?_ ?_)
  · intro e he
    exact Or.inr ⟨e, rfl, describeChunk_failsOnly _ _ _ e he⟩
  intro gi hgi
  have hcount := describeChunk_nbTransforms hgi
  rcases Nat.eq_zero_or_pos gi.nbTransforms with hzero | hpos
  · -- no transforms: the header is short, and cannot be refused
    have hnodes : run.graph.nodes = [] := List.length_eq_zero_iff.1 (by omega)
    obtain ⟨hone, hbuffs⟩ := run.listBuffersToStore hnodes
    obtain rfl := Except.ok.inj ((describeChunk_nodeless hnodes hone).symm.trans hgi)
    have hlen : (RTGM.listBuffersToStore run.graph).length ≤ 1 ∧
        ((RTGM.listBuffersToStore run.graph).map List.length).sum ≤ run.content.length := by
      rcases hbuffs with h | h <;> rw [h] <;> simp
    obtain ⟨header, hheader, hshort⟩ := writeChunkHeaderV8orMore_nodeless
      (v := params.formatVersion) params.chunkProperties hlen.1 hroom
    rw [hheader]
    simp only [hzero, Nat.lt_irrefl, false_and, if_false, gt_iff_lt]
    refine Cmd.yields_pure (Or.inl ⟨_, rfl, ?_⟩)
    simp only [chunkSize, nodelessInfo, List.map_cons, List.sum_cons, List.length_nil]
    omega
  · have hfallback := writeStoreChunk_fits params run.content run.graph hroom
    split
    · rw [if_pos ⟨hpos, hstore⟩]
      exact hfallback
    · rename_i header hheader
      rw [hsize]
      split
      · exact hfallback
      · rename_i hnot
        refine Cmd.yields_pure (Or.inl ⟨_, rfl, ?_⟩)
        have hlt : ¬ header.length + (gi.storedBuffs.map List.length).sum ≥ run.content.length :=
          fun h => hnot ⟨hpos, hstore, h⟩
        simp only [chunkSize]
        omega

end chunk

/-! ## Frames -/

section append

variable (xxh3 : List UInt8 → Nat) (hash : List Input → Nat → Nat) (params : AppliedParams)
  {dstCapacity : Nat}

/-- A frame of at most `limit` bytes, or an error that is not about capacity. -/
def FrameFits (limit : Nat) (r : Except ErrorCode (List UInt8)) : Prop :=
  (∃ frame, r = .ok frame ∧ frame.length ≤ limit) ∨ ∃ e, r = .error e ∧ OtherError e

namespace FrameFits

variable {limit limit' : Nat}

theorem mono {r : Except ErrorCode (List UInt8)} (h : FrameFits limit r) (hle : limit ≤ limit') :
    FrameFits limit' r := by
  rcases h with ⟨frame, hr, hlen⟩ | herr
  · exact Or.inl ⟨frame, hr, hlen.trans hle⟩
  · exact Or.inr herr

theorem yields_bind {m : RTM (List UInt8)} {f : List UInt8 → RTM (List UInt8)} {g : RTGraph}
    (hm : Cmd.Yields m g fun r _ => FrameFits limit r)
    (hf : ∀ frame g', frame.length ≤ limit →
      Cmd.Yields (f frame) g' fun r _ => FrameFits limit' r) :
    Cmd.Yields (m >>= f) g fun r _ => FrameFits limit' r := by
  refine Cmd.yields_bind (Cmd.Yields.mono hm ?_)
  rintro r g' (⟨frame, rfl, hlen⟩ | ⟨e, rfl, he⟩)
  · refine ⟨nofun, ?_⟩
    rintro a ⟨⟩
    exact hf frame g' hlen
  · refine ⟨?_, nofun⟩
    rintro e' ⟨⟩
    exact Or.inr ⟨e, rfl, he⟩

theorem yields_ofExcept {r : Except ErrorCode (List UInt8)} (h : FrameFits limit r) (g : RTGraph) :
    Cmd.Yields (Cmd.ofExcept r) g fun r _ => FrameFits limit r := ⟨r, g, rfl, h⟩

end FrameFits

theorem copyBuffers_fits : ∀ {buffs : List (List UInt8)} {frame : List UInt8},
    frame.length + (buffs.map List.length).sum ≤ dstCapacity →
    FrameFits (frame.length + (buffs.map List.length).sum) (copyBuffers dstCapacity frame buffs)
  | [], frame, _ => Or.inl ⟨frame, rfl, by omega⟩
  | buff :: buffs, frame, h => by
    rw [List.map_cons, List.sum_cons] at h ⊢
    have hlen : (frame ++ buff).length = frame.length + buff.length := List.length_append
    rw [copyBuffers, if_neg (by omega)]
    exact (copyBuffers_fits (by omega)).mono (by omega)

theorem appendContentChecksum_fits (inputs : List Input) (frame : List UInt8)
    (h : frame.length + 4 ≤ dstCapacity) :
    FrameFits (frame.length + 4) (appendContentChecksum params hash dstCapacity inputs frame) := by
  unfold appendContentChecksum
  split
  · exact Or.inl ⟨_, rfl, by omega⟩
  · rw [if_neg (by omega)]
    split
    · exact Or.inr ⟨_, rfl, by decide⟩
    · exact Or.inl ⟨_, rfl, by rw [List.length_append, length_toLE]⟩

theorem appendCompressedChecksum_fits (start : Nat) (frame : List UInt8)
    (h : frame.length + 4 ≤ dstCapacity) :
    FrameFits (frame.length + 4)
      (appendCompressedChecksum params xxh3 dstCapacity start frame) := by
  unfold appendCompressedChecksum
  split
  · exact Or.inl ⟨_, rfl, by omega⟩
  · rw [if_neg (by omega)]
    exact Or.inl ⟨_, rfl, by rw [List.length_append, length_toLE]⟩

/-- **A flushed chunk takes at most sixteen bytes more than its input.** -/
theorem flushChunk_fits (hstore : params.storeOnExpansion ≠ .disable) (run : ChunkRun)
    {frame : List UInt8}
    (hroom : frame.length + run.content.length + CHUNK_OVERHEAD_MAX ≤ dstCapacity) :
    Cmd.Yields (flushChunk params 1 xxh3 hash dstCapacity frame [Input.serial run.content])
      run.graph fun r _ =>
        FrameFits (frame.length + run.content.length + CHUNK_OVERHEAD_MAX) r := by
  unfold CHUNK_OVERHEAD_MAX at hroom ⊢
  refine Cmd.yields_bind (Cmd.Yields.mono (chooseChunk_fits params hstore run (by omega)) ?_)
  rintro r g (⟨⟨gi, header⟩, rfl, hchunk⟩ | ⟨e, rfl, he⟩)
  · refine ⟨nofun, ?_⟩
    rintro a ⟨⟩
    simp only [chunkSize] at hchunk
    have hlen : (frame ++ header).length = frame.length + header.length := List.length_append
    have hcopy := copyBuffers_fits (show (frame ++ header).length +
      (gi.storedBuffs.map List.length).sum ≤ dstCapacity by omega)
    refine FrameFits.yields_bind (FrameFits.yields_ofExcept hcopy g) fun withBuffers g₁ h₁ => ?_
    have hcontent := appendContentChecksum_fits hash params [Input.serial run.content] withBuffers
      (show _ ≤ dstCapacity by omega)
    refine FrameFits.yields_bind (FrameFits.yields_ofExcept hcontent g₁) fun withContent g₂ h₂ => ?_
    have hcompressed := appendCompressedChecksum_fits xxh3 params frame.length withContent
      (show _ ≤ dstCapacity by omega)
    exact FrameFits.yields_ofExcept (hcompressed.mono (by omega)) g₂
  · refine ⟨?_, nofun⟩
    rintro e' ⟨⟩
    exact Or.inr ⟨e, rfl, he⟩

/-- The bytes a list of chunks may take. -/
def chunksBound (runs : List ChunkRun) : Nat :=
  (runs.map fun run => run.content.length + CHUNK_OVERHEAD_MAX).sum

/-- **The chunks of a frame fit in the room they are given together.** -/
theorem flushChunks_fit (hstore : params.storeOnExpansion ≠ .disable) : ∀ (runs : List ChunkRun)
    {frame : List UInt8} (g : RTGraph), frame.length + chunksBound runs ≤ dstCapacity →
    Cmd.Yields (flushChunks xxh3 hash params dstCapacity frame runs) g fun r _ =>
      FrameFits (frame.length + chunksBound runs) r
  | [], frame, g, _ => Cmd.yields_pure (Or.inl ⟨frame, rfl, by omega⟩)
  | run :: runs, frame, g, h => by
    have hcons : chunksBound (run :: runs) =
        run.content.length + CHUNK_OVERHEAD_MAX + chunksBound runs := by
      rw [chunksBound, List.map_cons, List.sum_cons, chunksBound]
    rw [hcons] at h ⊢
    refine Cmd.yields_modify_bind ?_
    refine FrameFits.yields_bind (flushChunk_fits xxh3 hash params hstore run (by omega)) ?_
    intro frame' g' hlen
    refine Cmd.Yields.mono (flushChunks_fit hstore runs g' (by omega)) ?_
    exact fun r _ hr => hr.mono (by omega)

end append

section header

variable {v : Nat} {fip : EFHFrameInfo}

theorem encodeBundleID_fits (v : Nat) (fip : EFHFrameInfo) :
    FrameFits (1 + UNIQUE_ID_SIZE) (encodeBundleID v fip) := by
  unfold encodeBundleID
  split
  · dsimp only
    split
    · exact Or.inr ⟨_, rfl, by decide⟩
    · have hle := fip.bundleID.significantBytes_le
      refine Or.inl ⟨_, rfl, ?_⟩
      rw [List.length_cons, List.length_take]
      omega
  · exact Or.inl ⟨[], rfl, by simp⟩

theorem encodeInputTypes_fits (v : Nat) : FrameFits 1 (encodeInputTypes v [.serial]) := by
  unfold encodeInputTypes
  split
  · exact Or.inl ⟨_, rfl, by decide⟩
  · split
    · exact Or.inl ⟨_, rfl, by decide⟩
    · split
      · exact Or.inr ⟨_, rfl, by decide⟩
      · split
        · exact Or.inl ⟨_, rfl, by decide⟩
        · exact Or.inl ⟨[], rfl, by decide⟩

theorem encodeInputSizes_fits (v avail : Nat) (havail : 10 ≤ avail) (desc : InputDesc)
    (htype : desc.type = .serial) : FrameFits 10 (encodeInputSizes v avail [desc]) := by
  unfold encodeInputSizes
  split
  · unfold encodeInputSizes20
    rw [if_neg (by simp; omega)]
    split
    · exact Or.inr ⟨_, rfl, by decide⟩
    · exact Or.inl ⟨_, rfl, by simp [length_toLE]⟩
  · have hnumbers : sizeNumbers21 [desc] = [(desc.byteSize + 1) % 2 ^ 64] := by
      simp [sizeNumbers21, htype]
    have hlt : (desc.byteSize + 1) % 2 ^ 64 < 2 ^ 64 := Nat.mod_lt _ (by norm_num)
    have hlen := length_varintEncode_le (k := 9) (hlt.trans (by norm_num)) hlt
    rw [hnumbers]
    refine Or.inl ⟨varintEncode ((desc.byteSize + 1) % 2 ^ 64), ?_, hlen⟩
    unfold writeVarints
    rw [if_neg (by omega)]
    simp [writeVarints, Except.map]

theorem writeFrameHeader_fits (xxh3 : List UInt8 → Nat) (v : Nat) {dstCapacity : Nat}
    {fip : EFHFrameInfo} {desc : InputDesc} (hdescs : fip.inputDescs = [desc])
    (htype : desc.type = .serial) (hcomment : fip.comment = [])
    (hflag : fip.fprop.hasComment = false) (hcap : 78 ≤ dstCapacity) :
    FrameFits 50 (writeFrameHeader xxh3 v dstCapacity fip) := by
  have hfh : computeFHBound fip.numInputs 0 0 0 = .ok 45 := by
    rw [EFHFrameInfo.numInputs, hdescs]
    rfl
  have hbound : ∃ bound, frameHeaderBound v fip = .ok bound ∧ bound ≤ 78 := by
    unfold frameHeaderBound
    rw [hfh, hcomment]
    refine ⟨_, rfl, ?_⟩
    simp only [List.length_nil, ne_eq, not_true_eq_false, if_false]
    split <;> decide
  have htypes : fip.types = [.serial] := by
    rw [EFHFrameInfo.types, hdescs, List.map_singleton, htype]
  have hflags : (encodeFrameFlags v fip.fprop).length ≤ 1 := by
    unfold encodeFrameFlags
    split <;> simp
  have hnone : encodeComment v fip = .ok [] := by
    unfold encodeComment
    rw [hflag, if_neg (by simp)]
  obtain ⟨bound, hbound, hle⟩ := hbound
  unfold writeFrameHeader
  rw [hbound, ok_bind, failWhen_of_not _ (by omega), ok_bind]
  rcases encodeBundleID_fits v fip with ⟨bundle, hb, hbl⟩ | ⟨e, hb, he⟩
  swap
  · rw [hb]
    exact Or.inr ⟨e, rfl, he⟩
  rw [hb, ok_bind, htypes]
  rcases encodeInputTypes_fits v with ⟨types, ht, htl⟩ | ⟨e, ht, he⟩
  swap
  · rw [ht]
    exact Or.inr ⟨e, rfl, he⟩
  rw [ht, ok_bind, hdescs]
  have hid : UNIQUE_ID_SIZE = 32 := rfl
  have hstart : (toLE 4 (getMagicNumber v) ++
      (encodeFrameFlags v fip.fprop ++ (bundle ++ types))).length ≤ 39 := by
    simp only [List.length_append, length_toLE]
    omega
  rcases encodeInputSizes_fits v (dstCapacity - (toLE 4 (getMagicNumber v) ++
    (encodeFrameFlags v fip.fprop ++ (bundle ++ types))).length) (by omega) desc htype with
    ⟨sizes, hs, hsl⟩ | ⟨e, hs, he⟩
  swap
  · dsimp only
    rw [hs]
    exact Or.inr ⟨e, rfl, he⟩
  dsimp only
  rw [hs, ok_bind, hnone, ok_bind]
  refine Or.inl ⟨_, rfl, ?_⟩
  have hsum : ∀ out, (headerChecksum xxh3 v fip.fprop out).length ≤ 1 := by
    intro out
    unfold headerChecksum
    split <;> simp
  simp only [List.length_append, length_toLE, List.length_nil] at hstart ⊢
  have := hsum (toLE 4 (getMagicNumber v) ++ (encodeFrameFlags v fip.fprop ++
    (bundle ++ (types ++ (sizes ++ [])))))
  omega

theorem beginFrame_fits (xxh3 : List UInt8 → Nat) {params : AppliedParams} {dstCapacity : Nat}
    (hcomment : params.comment = []) (hcap : 78 ≤ dstCapacity) (input : List UInt8) :
    FrameFits 50 (beginFrame xxh3 params dstCapacity [Input.serial input]) := by
  unfold beginFrame
  by_cases hlimit : [Input.serial input].length > runtimeInputLimit params.formatVersion
  · rw [failWhen_of _ hlimit]
    exact Or.inr ⟨_, rfl, by decide⟩
  · rw [failWhen_of_not _ hlimit, ok_bind]
    unfold writeFrameHeaderV3orMore
    have hfh : computeFHBound 1 0 0 0 = .ok 45 := rfl
    change FrameFits 50 (computeFHBound 1 0 0 0 >>= _)
    rw [hfh, ok_bind, if_pos (by omega)]
    refine writeFrameHeader_fits xxh3 _ rfl rfl hcomment ?_ hcap
    simp [AppliedParams.frameProperties, hcomment]

end header

theorem Segmentation.chunksBound_le {input : List UInt8} (seg : Segmentation input) :
    chunksBound seg.runs ≤
      input.length + (input.length / MIN_CHUNK_SIZE + 1) * CHUNK_OVERHEAD_MAX := by
  have hsum : (seg.runs.map (·.content.length)).sum = input.length := by
    have h := congrArg List.length seg.flatten_eq
    rwa [List.length_flatten, List.map_map] at h
  have hbound : chunksBound seg.runs =
      (seg.runs.map (·.content.length)).sum + seg.runs.length * CHUNK_OVERHEAD_MAX := by
    unfold chunksBound
    rw [List.sum_map_add]
    simp
  have hfull : ∀ runs : List ChunkRun, (∀ run ∈ runs, MIN_CHUNK_SIZE ≤ run.content.length) →
      runs.length * MIN_CHUNK_SIZE ≤ (runs.map (·.content.length)).sum := by
    intro runs hruns
    induction runs with
    | nil => simp
    | cons run runs ih =>
      have hhead := hruns run (by simp)
      have htail := ih fun r hr => hruns r (List.mem_cons_of_mem _ hr)
      rw [List.map_cons, List.sum_cons, List.length_cons, Nat.succ_mul]
      omega
  have hcount : seg.runs.length ≤ input.length / MIN_CHUNK_SIZE + 1 := by
    rcases List.eq_nil_or_concat seg.runs with hnil | ⟨init, last, hruns⟩
    · simp [hnil]
    · have hinit := hfull init (by
        have h := seg.min_size
        rw [hruns] at h
        simpa using h)
      have hle : init.length * MIN_CHUNK_SIZE ≤ input.length := by
        rw [← hsum, hruns]
        simp
        omega
      have hdiv := (Nat.le_div_iff_mul_le (by decide)).2 hle
      rw [hruns]
      simp
      omega
  rw [hbound, hsum]
  have := Nat.mul_le_mul_right CHUNK_OVERHEAD_MAX hcount
  omega

theorem compressBound_eq (input : SerialInput) :
    compressBound input.content.length = compressBoundMacro input.content.length := by
  have h := input.isObject
  refine Nat.mod_eq_of_lt ?_
  unfold compressBoundMacro FRAME_OVERHEAD_MAX MIN_CHUNK_SIZE CHUNK_OVERHEAD_MAX
  omega

/-- **`ZL_compressBound` is sufficient.** -/
theorem compressBound_suffices (xxh3 : List UInt8 → Nat) (hash : List Input → Nat → Nat)
    (params : AppliedParams) (hcomment : params.comment = [])
    (hstore : params.storeOnExpansion ≠ .disable) (input : SerialInput)
    (seg : Segmentation input.content) (g : RTGraph) :
    Cmd.Yields (compressSerial xxh3 hash params (compressBound input.content.length) input.content
      seg.runs) g fun r _ =>
        (∀ frame, r = .ok frame → frame.length ≤ compressBound input.content.length) ∧
        ∀ e, r = .error e → e ≠ .dstCapacity_tooSmall ∧ e ≠ .internalBuffer_tooSmall := by
  have hruns := seg.chunksBound_le
  have hcap : 51 + chunksBound seg.runs ≤ compressBound input.content.length ∧
      78 ≤ compressBound input.content.length := by
    rw [compressBound_eq, compressBoundMacro]
    unfold FRAME_OVERHEAD_MAX MIN_CHUNK_SIZE CHUNK_OVERHEAD_MAX at *
    omega
  have hfits : Cmd.Yields (compressSerial xxh3 hash params (compressBound input.content.length)
      input.content seg.runs) g fun r _ => FrameFits (compressBound input.content.length) r := by
    refine FrameFits.yields_bind (FrameFits.yields_ofExcept
      (beginFrame_fits xxh3 hcomment hcap.2 input.content) g) fun frame g₁ h₁ => ?_
    refine FrameFits.yields_bind (flushChunks_fit xxh3 hash params hstore seg.runs g₁ (by omega)) ?_
    intro frame' g₂ h₂
    refine FrameFits.yields_ofExcept ?_ g₂
    unfold endFrame
    split
    · rw [if_neg (by omega)]
      exact Or.inl ⟨_, rfl, by rw [List.length_append, List.length_singleton]; omega⟩
    · exact Or.inl ⟨_, rfl, by omega⟩
  refine Cmd.Yields.mono hfits ?_
  rintro r - (⟨frame, rfl, hlen⟩ | ⟨e, rfl, he⟩)
  · refine ⟨?_, nofun⟩
    rintro f ⟨⟩
    exact hlen
  · refine ⟨nofun, ?_⟩
    rintro e' ⟨⟩
    exact ⟨fun h => he (Or.inl h), fun h => he (Or.inr h)⟩

/-- A chunk of three bytes that a codec has turned into twenty. -/
def expandedChunk : ChunkRun where
  content := [1, 2, 3]
  graph :=
    { nodes := [{
        cnode := { trInfo := ⟨.custom, 5⟩, inputTypes := [.serial], lastInputIsVariable := false
                   soTypes := [.serial], voTypes := [], minFormatVersion := 8
                   maxFormatVersion := 27, dictIdx := DICT_INDEX_NONE, inputTypes_ne := by simp }
        inRtsids := [0], startOutRtsids := 1, nbOutStreams := 1, nodeHeader := [7] }]
      streams := [⟨none, 0, false, 0⟩, ⟨some ⟨.serial, List.replicate 20 9, true⟩, 0, true, 0⟩] }
  nodeless := by
    intro h
    cases h

/-- The chunk is stored, and the frame has 23 of the 83 bytes. -/
theorem compressBound_suffices_expandedChunk :
    Cmd.Yields (compressSerial List.length (fun _ _ => 0)
      ⟨27, .enable, .enable, .auto, [], none⟩ (compressBound 3) [1, 2, 3] [expandedChunk]) ⟨[], []⟩
      (fun r _ => (∀ frame, r = .ok frame → frame.length ≤ compressBound 3) ∧
        ∀ e, r = .error e → e ≠ .dstCapacity_tooSmall ∧ e ≠ .internalBuffer_tooSmall) ∧
    ∃ g', compressSerial List.length (fun _ _ => 0) ⟨27, .enable, .enable, .auto, [], none⟩
      (compressBound 3) [1, 2, 3] [expandedChunk] ⟨[], []⟩ = some (.ok [219, 165, 177, 215, 3, 1, 4,
        7, 1, 1, 3, 1, 2, 3, 0, 0, 0, 0, 10, 0, 0, 0, 0], g') := by
  refine ⟨compressBound_suffices _ _ _ rfl (by decide) ⟨[1, 2, 3], by decide⟩
    ⟨[expandedChunk], rfl, by simp⟩ _, ?_⟩
  exact ⟨_, rfl⟩

end OpenZL.Compress
