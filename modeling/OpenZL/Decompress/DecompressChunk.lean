import OpenZL.Decompress.Frame

/-!
# Decoding a chunk (`decompress2.c`)

Once the streams of a chunk are in place, the decoders run, the last streams of the table are
appended to the outputs, and the content checksum is compared. The decoders are a parameter; they
are known by the contents of the streams they read and regenerate, whose types and widths are not
followed.

Principal results: `runDecoder_eq`, `addChunksIntoFinalStreams_eq`.
-/

namespace OpenZL.Decompress

open OpenZL.Lib OpenZL.Shared

/-- What the registered decoders do: from a codec, its dictionary index, the private header of the
node and the contents of its inputs, the streams it creates. -/
abbrev Decoders := PublicTransformInfo → Nat → List UInt8 → List (List UInt8) →
  Except ErrorCode (List (Option (List UInt8)))

/-- `ZL_RBuffer_slice`; positions do not wrap. -/
def rbufferSlice (rb : List UInt8) (startPos length : Nat) : Except ErrorCode (List UInt8) := do
  failWhen (startPos + length > rb.length) .corruption
  return (rb.drop startPos).take length

/-- The call of a decoder in `DCTX_runDecoder`, on its slice of the private headers. -/
def callDecoder (decoders : Decoders) (thstream : List UInt8) (node : PlacedNode)
    (inputs : List (List UInt8)) : Except ErrorCode (List (Option (List UInt8))) := do
  let thContent ← rbufferSlice thstream node.info.trhStart node.info.trhSize
  decoders node.info.trpid node.info.dictIdx thContent inputs

/-- The loop of `addChunksIntoFinalStreams`: output `n` gets the `n`-th stream from the last. -/
def finalStreams {α : Type} (nbStreams : Nat) (slots : Nat → Option α) :
    List Nat → Except ErrorCode (List α)
  | [] => .ok []
  | outputN :: rest =>
    match slots (nbStreams - outputN - 1) with
    | none => .error .graph_invalid
    | some chunkOutput => do
      let others ← finalStreams nbStreams slots rest
      return chunkOutput :: others

/-- `addChunksIntoFinalStreams`: what a chunk adds to each output. -/
def addChunksIntoFinalStreams {α : Type} (nbOutputs nbStreams : Nat) (slots : Nat → Option α) :
    Except ErrorCode (List α) := do
  failWhen (nbOutputs > nbStreams) .outputs_tooNumerous
  finalStreams nbStreams slots (List.range nbOutputs)

/-- A failed assertion ends the run like an error. -/
def RunFault.toErrorCode : RunFault → ErrorCode
  | .emptyInput _ => .GENERIC
  | .filledRegen _ => .GENERIC
  | .code e => e

/-- A decompression context: its decoders, its parameters and `STREAM_hashLastCommit_xxh3low32`,
which hashes what was appended last. -/
structure DCtx where
  registry : Registry
  decoders : Decoders
  nbOutputs : Nat
  checkCompressedChecksum : Bool
  checkContentChecksum : Bool
  hashLastCommit : List (List UInt8) → Nat → Nat
  prepare : FrameInfo → Except ErrorCode Unit

/-- The outputs of a decompression, and the frame they come from. -/
structure Outputs where
  formatVersion : Nat
  contents : List (List UInt8)
  deriving DecidableEq, Repr

namespace DCtx

variable (dctx : DCtx)

/-- `ZL_DCtx_decompressChunk` after `setupChunkDecode`: what a chunk adds to the outputs. -/
def decodeChunk (formatVersion : Nat) (setup : ChunkSetup) :
    Except ErrorCode (List (List UInt8)) := do
  let slots ← (runDecoders (callDecoder dctx.decoders setup.streams.thstream) setup.streams.nodes
    fun s => setup.streams.data[s]?.join).mapError RunFault.toErrorCode
  let chunk ← addChunksIntoFinalStreams dctx.nbOutputs setup.streams.data.length slots
  failWhen (setup.header.properties.hasContentChecksum ∧ dctx.checkContentChecksum ∧
    dctx.hashLastCommit chunk formatVersion % 2 ^ 32 ≠ setup.expectedContentHash)
    .contentChecksumWrong
  return chunk

/-- The decoder around the frame walk; each chunk is appended to the outputs. -/
def env : DecoderEnv Outputs where
  registry := dctx.registry
  nbOutputs := dctx.nbOutputs
  checkCompressedChecksum := dctx.checkCompressedChecksum
  prepare := fun zfi => do
    dctx.prepare zfi
    return ⟨zfi.formatVersion, List.replicate dctx.nbOutputs []⟩
  runChunk := fun setup outputs => do
    let chunk ← dctx.decodeChunk outputs.formatVersion setup
    return { outputs with contents := outputs.contents.zipWith (· ++ ·) chunk }
  finish := fun _ _ => .ok ()

end DCtx

section decoder

variable {α : Type} {slots : Nat → Option α} {f : Nat → Nat} {value : Nat → α}

theorem getNodeInputs_eq : ∀ {ids : List Nat} {values : List α},
    ids.map slots = values.map some → getNodeInputs slots ids = .ok values.reverse
  | [], [], _ => rfl
  | s :: ids, a :: values, h => by
    obtain ⟨hhead, htail⟩ := List.cons.inj h
    rw [getNodeInputs, getNodeInputs_eq htail, ok_bind, hhead, List.reverse_cons]

theorem checkRegens_eq : ∀ {ids : List Nat}, (∀ s ∈ ids, slots s = none) →
    checkRegens slots ids = .ok ()
  | [], _ => rfl
  | s :: ids, h => by
    rw [checkRegens, h s List.mem_cons_self, if_neg (by simp)]
    exact checkRegens_eq fun t ht => h t (List.mem_cons_of_mem s ht)

theorem writeRegens_eq : ∀ {ids : List Nat} (slots : Nat → Option α), (ids.map f).Nodup →
    ∃ slots', writeRegens (ids.map f) (ids.map fun s => some (value s)) slots = .ok slots' ∧
      (∀ s ∈ ids, slots' (f s) = some (value s)) ∧ ∀ x ∉ ids.map f, slots' x = slots x
  | [], slots, _ => ⟨slots, rfl, by simp, by simp⟩
  | s :: ids, slots, h => by
    obtain ⟨hnotin, hnodup⟩ := List.nodup_cons.1 h
    obtain ⟨slots', hwrite, hnew, hold⟩ :=
      writeRegens_eq (Function.update slots (f s) (some (value s))) hnodup
    refine ⟨slots', hwrite, fun t ht => ?_, fun x hx => ?_⟩
    · rcases List.mem_cons.1 ht with rfl | ht
      · rw [hold _ hnotin, Function.update_self]
      · exact hnew t ht
    · rw [List.map_cons, List.mem_cons, not_or] at hx
      rw [hold x hx.2, Function.update_of_ne hx.1]

theorem freeInputs_of_not_mem {node : PlacedNode} {x : Nat} (h : x ∉ node.inputs) :
    freeInputs node slots x = slots x := by
  rw [freeInputs, if_neg fun hx => h (PlacedNode.mem_inputs.2 hx)]

/-- **A decoder that finds its inputs and its free slots**: it leaves what it has regenerated, and
the slots of others as they were.  Slot `f s` is that of stream `s`. -/
theorem runDecoder_eq {codec : PlacedNode → List α → Except ErrorCode (List (Option α))}
    {node : PlacedNode} {reads writes : List Nat} (hreads : node.inputs.reverse = reads.map f)
    (hwrites : node.regens = writes.map f) (hnodup : (writes.map f).Nodup)
    (hfull : ∀ s ∈ reads, slots (f s) = some (value s))
    (hfree : ∀ s ∈ writes, slots (f s) = none)
    (hcodec : codec node (reads.map value) = .ok (writes.map fun s => some (value s))) :
    ∃ slots', runDecoder codec node slots = .ok slots' ∧
      (∀ s ∈ writes, f s ∉ node.inputs → slots' (f s) = some (value s)) ∧
      ∀ x ∉ node.inputs, x ∉ node.regens → slots' x = slots x := by
  obtain ⟨slots₁, hwrite, hnew, hold⟩ := @writeRegens_eq α f value _ slots hnodup
  have hins : node.inputs.map slots = ((reads.map value).reverse).map some := by
    rw [← List.reverse_reverse node.inputs, hreads, List.map_reverse, List.map_reverse,
      List.map_map, List.map_map]
    exact congrArg List.reverse (List.map_congr_left hfull)
  have hcheck : checkRegens slots node.regens = .ok () := by
    refine checkRegens_eq fun x hx => ?_
    obtain ⟨s, hs, rfl⟩ := List.mem_map.1 (hwrites ▸ hx)
    exact hfree s hs
  refine ⟨freeInputs node slots₁, ?_, fun s hs hx => ?_, fun x hx hx' => ?_⟩
  · rw [runDecoder, getNodeInputs_eq hins, List.reverse_reverse, ok_bind, hcheck, ok_bind, hcodec,
      hwrites]
    change (writeRegens _ _ _ >>= _) = _
    rw [hwrite]
    rfl
  · rw [freeInputs_of_not_mem hx, hnew s hs]
  · rw [freeInputs_of_not_mem hx, hold x (hwrites ▸ hx')]

end decoder

theorem finalStreams_eq {α : Type} {slots : Nat → Option α} {nbStreams : Nat} :
    ∀ {ids : List Nat} {as : List α}, ids.map (fun n => slots (nbStreams - n - 1)) = as.map some →
      finalStreams nbStreams slots ids = .ok as
  | [], [], _ => rfl
  | n :: ids, a :: as, h => by
    obtain ⟨hhead, htail⟩ := List.cons.inj h
    replace hhead : slots (nbStreams - n - 1) = some a := hhead
    rw [finalStreams, hhead]
    rw [finalStreams_eq htail]
    rfl

theorem addChunksIntoFinalStreams_eq {α : Type} {slots : Nat → Option α} {nbStreams : Nat}
    {outputs : List α} (hle : outputs.length ≤ nbStreams)
    (h : ∀ (n : Nat) a, outputs[n]? = some a → slots (nbStreams - n - 1) = some a) :
    addChunksIntoFinalStreams outputs.length nbStreams slots = .ok outputs := by
  rw [addChunksIntoFinalStreams, failWhen_of_not _ (Nat.not_lt.2 hle), ok_bind]
  refine finalStreams_eq (List.ext_getElem (by simp) fun n h1 h2 => ?_)
  have hn : n < outputs.length := by simpa using h1
  simp [h n outputs[n] (List.getElem?_eq_getElem hn)]

end OpenZL.Decompress
