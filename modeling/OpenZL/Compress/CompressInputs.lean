import OpenZL.Compress.CompressBound

/-!
# Compressing inputs (`compress2.c`, `cctx.c`)

A frame is a header, one or several chunks and, from version 21 on, an end marker.

Principal results: `compressInputs_ok`, `compressSerial_eq`.
-/

namespace OpenZL.Compress

open OpenZL.Lib

/-- A chunk: what it takes of each input, and what its starting graph has left. -/
structure FrameChunk where
  inputs : List Input
  graph : RTGraph

section compress

variable (xxh3 : List UInt8 → Nat) (hash : List Input → Nat → Nat) (params : AppliedParams)
  (dstCapacity : Nat)

/-- The calls of `CCTX_flushChunk` of a compression, for the only chunk or for those that a
segmenter has processed. -/
def flushFrameChunks (nbInputs : Nat) : List UInt8 → List FrameChunk → RTM (List UInt8)
  | frame, [] => return frame
  | frame, chunk :: chunks => do
    Cmd.modify fun _ => chunk.graph
    let frame ← flushChunk params nbInputs xxh3 hash dstCapacity frame chunk.inputs
    flushFrameChunks nbInputs frame chunks

/-- `CCTX_compressInputs_withGraphSet_stage2`. -/
def compressInputs (inputs : List Input) (chunks : List FrameChunk) : RTM (List UInt8) := do
  let frame ← Cmd.ofExcept (beginFrame xxh3 params dstCapacity inputs)
  let frame ← flushFrameChunks xxh3 hash params dstCapacity inputs.length frame chunks
  Cmd.ofExcept (endFrame params dstCapacity frame)

end compress

section ok

variable {xxh3 : List UInt8 → Nat} {hash : List Input → Nat → Nat} {params : AppliedParams}
  {dstCapacity : Nat}

/-- The end-of-frame marker, from version 21 on. -/
def endMarker (params : AppliedParams) : List UInt8 :=
  if params.formatVersion ≥ CHUNK_VERSION_MIN then [0] else []

theorem endFrame_ok {frame out : List UInt8} (h : endFrame params dstCapacity frame = .ok out) :
    out = frame ++ endMarker params := by
  unfold endFrame at h
  unfold endMarker
  split at h
  · rename_i hv
    split at h
    · cases h
    · rw [if_pos hv, Except.ok.inj h]
  · rename_i hv
    rw [if_neg hv, List.append_nil, Except.ok.inj h]

/-- **The parts of a frame**: its header, its chunks and its end. -/
theorem compressInputs_ok {inputs : List Input} {chunks : List FrameChunk} {out : List UInt8}
    {g g' : RTGraph}
    (h : compressInputs xxh3 hash params dstCapacity inputs chunks g = some (.ok out, g')) :
    ∃ header frame, beginFrame xxh3 params dstCapacity inputs = .ok header ∧
      flushFrameChunks xxh3 hash params dstCapacity inputs.length header chunks g =
        some (.ok frame, g') ∧
      out = frame ++ endMarker params := by
  obtain ⟨header, hheader, h⟩ := Cmd.run_ofExcept_bind_ok.1 h
  obtain ⟨frame, t, hchunks, h⟩ := Cmd.run_bind_ok.1 h
  obtain ⟨hend, rfl⟩ := Prod.mk.inj (Option.some.inj h)
  exact ⟨header, frame, hheader, hchunks, endFrame_ok hend⟩

theorem flushFrameChunks_cons_ok {nbInputs : Nat} {chunk : FrameChunk} {chunks : List FrameChunk}
    {frame out : List UInt8} {g g' : RTGraph}
    (h : flushFrameChunks xxh3 hash params dstCapacity nbInputs frame (chunk :: chunks) g =
      some (.ok out, g')) :
    ∃ next t, flushChunk params nbInputs xxh3 hash dstCapacity frame chunk.inputs chunk.graph =
        some (.ok next, t) ∧
      flushFrameChunks xxh3 hash params dstCapacity nbInputs next chunks t = some (.ok out, g') := by
  rw [flushFrameChunks, Cmd.run_modify_bind] at h
  exact Cmd.run_bind_ok.1 h

end ok

/-- A run of a serial input, as a chunk. -/
def ChunkRun.toFrameChunk (run : ChunkRun) : FrameChunk :=
  ⟨[Input.serial run.content], run.graph⟩

theorem flushChunks_eq (xxh3 : List UInt8 → Nat) (hash : List Input → Nat → Nat)
    (params : AppliedParams) (dstCapacity : Nat) : ∀ (runs : List ChunkRun) (frame : List UInt8),
    flushChunks xxh3 hash params dstCapacity frame runs =
      flushFrameChunks xxh3 hash params dstCapacity 1 frame (runs.map ChunkRun.toFrameChunk)
  | [], _ => rfl
  | run :: runs, frame => by
    have ih : (fun frame => flushChunks xxh3 hash params dstCapacity frame runs) =
        fun frame => flushFrameChunks xxh3 hash params dstCapacity 1 frame
          (runs.map ChunkRun.toFrameChunk) :=
      funext fun frame => flushChunks_eq xxh3 hash params dstCapacity runs frame
    rw [flushChunks, ih]
    rfl

/-- **A serial input is one input.** -/
theorem compressSerial_eq (xxh3 : List UInt8 → Nat) (hash : List Input → Nat → Nat)
    (params : AppliedParams) (dstCapacity : Nat) (input : List UInt8) (runs : List ChunkRun) :
    compressSerial xxh3 hash params dstCapacity input runs =
      compressInputs xxh3 hash params dstCapacity [Input.serial input]
        (runs.map ChunkRun.toFrameChunk) := by
  unfold compressSerial compressInputs
  simp only [flushChunks_eq]
  rfl

end OpenZL.Compress
