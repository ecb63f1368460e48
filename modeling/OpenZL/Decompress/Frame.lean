import OpenZL.Decompress.DecodeFrameHeader
import OpenZL.Decompress.FillStreams

/-!
# Walking a frame (`decode_frameheader.c`, `decompress2.c`)

Two loops walk the chunks of a frame: `getCompressedSizeV3orMore_inner`, which only adds sizes up,
and `ZL_DCtx_decompressMultiTBuffer`, which decodes. What the decoder does with a chunk once its
streams are in place is a parameter, `DecoderEnv`. The loops run on a fuel; a chunk takes at least
one byte, so that `src.length` rounds always suffice (`sizeWalk_fuel`).

Principal results: `sizeChunk_of_setup`, `sizeQuery_agrees`.
-/

namespace OpenZL.Decompress

open OpenZL.Lib OpenZL.Shared

/-- The positions at which chunks start, and the end of the frame. -/
structure FrameWalk where
  chunkStarts : List Nat
  frameEnd : Nat
  deriving DecidableEq, Repr

/-- What follows the header of a chunk: private headers, stored streams, checksums. -/
def chunkBodySize (header : ChunkHeader) : Nat :=
  header.totalTHSize + header.storedStreamSizes.sum +
    (if header.properties.hasContentChecksum then 4 else 0) +
    (if header.properties.hasCompressedChecksum then 4 else 0)

/-- The body of the loop of `getCompressedSizeV3orMore_inner`: the end of the chunk that starts
at `frameSize`. -/
def sizeChunk (formatVersion : Nat) (properties : FrameProperties) (src : List UInt8)
    (frameSize : Nat) : Except ErrorCode Nat := do
  let (header, rest) ← decodeChunkHeader formatVersion properties (src.drop frameSize)
  return frameSize + (src.length - frameSize - rest.length) + chunkBodySize header

/-- The loop of `getCompressedSizeV3orMore_inner`; before version 21 there is one chunk and no
marker. -/
def sizeWalk (formatVersion : Nat) (properties : FrameProperties) (src : List UInt8) :
    Nat → Nat → Except ErrorCode FrameWalk
  | 0, _ => .error .srcSize_tooSmall
  | fuel + 1, frameSize =>
    if formatVersion ≥ CHUNK_VERSION_MIN then
      if frameSize ≥ src.length then .error .srcSize_tooSmall
      else if src[frameSize]? = some 0 then .ok ⟨[], frameSize + 1⟩
      else do
        let next ← sizeChunk formatVersion properties src frameSize
        let walk ← sizeWalk formatVersion properties src fuel next
        return ⟨frameSize :: walk.chunkStarts, walk.frameEnd⟩
    else do
      let next ← sizeChunk formatVersion properties src frameSize
      return ⟨[frameSize], next⟩

/-- `getCompressedSizeV3orMore`, with the positions of the chunks. -/
def sizeQuery (xxh3 : List UInt8 → Nat) (src : List UInt8) : Except ErrorCode FrameWalk := do
  let formatVersion ← getFormatVersionFromFrame src
  failWhen (src.length < FRAME_HEADER_SIZE_MIN) .srcSize_tooSmall
  let (zfi, rest) ← decodeFrameHeader xxh3 src
  let walk ← sizeWalk formatVersion zfi.properties src (src.length + 1) (src.length - rest.length)
  failWhen (walk.frameEnd > src.length) .srcSize_tooSmall
  return walk

/-- `ZL_getCompressedSize`. -/
def getCompressedSize (xxh3 : List UInt8 → Nat) (src : List UInt8) : Except ErrorCode Nat := do
  let walk ← sizeQuery xxh3 src
  return walk.frameEnd

/-- What `setupChunkDecode` hands to the rest of the decoder. -/
structure ChunkSetup where
  header : ChunkHeader
  streams : ChunkStreams
  expectedContentHash : Nat
  chunkSize : Nat

/-- The decoder around the frame walk: registry, parameters, what happens to outputs (`prepare`
covers the dictionary bundle and the output buffers, `runChunk` covers `runDecoders`,
`addChunksIntoFinalStreams` and the content checksum, `finish` the final sizes). -/
structure DecoderEnv (σ : Type) where
  registry : Registry
  nbOutputs : Nat
  checkCompressedChecksum : Bool
  prepare : FrameInfo → Except ErrorCode σ
  runChunk : ChunkSetup → σ → Except ErrorCode σ
  finish : FrameInfo → σ → Except ErrorCode Unit

variable {σ : Type} {properties : FrameProperties}

/-- The content checksum of `setupChunkDecode`: its value and where it ends. -/
def readContentHash (properties : FrameProperties) (frame : List UInt8) (consumedSize : Nat) :
    Except ErrorCode (Nat × Nat) :=
  if properties.hasContentChecksum then do
    failWhen (frame.length < consumedSize + 4) .srcSize_tooSmall
    return (ofLE ((frame.drop consumedSize).take 4), consumedSize + 4)
  else .ok (0, consumedSize)

/-- The compressed checksum of `setupChunkDecode`: over the frame before version 21, over the
chunk after; checked only when asked for. -/
def checkCompressedHash (xxh3 : List UInt8 → Nat) (check : Bool) (formatVersion : Nat)
    (properties : FrameProperties) (frame : List UInt8) (alreadyConsumed consumedSize : Nat) :
    Except ErrorCode Nat :=
  if properties.hasCompressedChecksum then do
    failWhen (frame.length < consumedSize + 4) .srcSize_tooSmall
    let startHash := if formatVersion < CHUNK_VERSION_MIN then 0 else alreadyConsumed
    let actualHash := xxh3 ((frame.drop startHash).take (consumedSize - startHash)) % 2 ^ 32
    failWhen (check ∧ actualHash ≠ ofLE ((frame.drop consumedSize).take 4))
      .compressedChecksumWrong
    return consumedSize + 4
  else .ok consumedSize

/-- `setupChunkDecode`. -/
def setupChunkDecode (xxh3 : List UInt8 → Nat) (env : DecoderEnv σ) (formatVersion : Nat)
    (properties : FrameProperties) (frame : List UInt8) (alreadyConsumed : Nat) :
    Except ErrorCode ChunkSetup := do
  let (header, rest) ← decodeChunkHeader formatVersion properties (frame.drop alreadyConsumed)
  let consumedSize := alreadyConsumed + (frame.length - alreadyConsumed - rest.length)
  let streams ← fillStoredStreams env.registry formatVersion env.nbOutputs header frame
    consumedSize
  let (expectedContentHash, consumedSize) ←
    readContentHash header.properties frame (consumedSize + streams.streamsSize)
  let consumedSize ← checkCompressedHash xxh3 env.checkCompressedChecksum formatVersion
    header.properties frame alreadyConsumed consumedSize
  return { header, streams, expectedContentHash, chunkSize := consumedSize - alreadyConsumed }

/-- The main loop of `ZL_DCtx_decompressMultiTBuffer`. -/
def decompressLoop (xxh3 : List UInt8 → Nat) (env : DecoderEnv σ) (formatVersion : Nat)
    (properties : FrameProperties) (frame : List UInt8) :
    Nat → Nat → σ → Except ErrorCode (FrameWalk × σ)
  | 0, _, _ => .error .srcSize_tooSmall
  | fuel + 1, consumed, state =>
    if formatVersion ≥ CHUNK_VERSION_MIN then
      if frame.length < consumed + 1 then .error .srcSize_tooSmall
      else if frame[consumed]? = some 0 then .ok (⟨[], consumed + 1⟩, state)
      else do
        let setup ← setupChunkDecode xxh3 env formatVersion properties frame consumed
        let state ← env.runChunk setup state
        let (walk, state) ← decompressLoop xxh3 env formatVersion properties frame fuel
          (consumed + setup.chunkSize) state
        return (⟨consumed :: walk.chunkStarts, walk.frameEnd⟩, state)
    else do
      let setup ← setupChunkDecode xxh3 env formatVersion properties frame consumed
      let state ← env.runChunk setup state
      return (⟨[consumed], consumed + setup.chunkSize⟩, state)

/-- `ZL_DCtx_decompressMultiTBuffer`: where the chunks were found, how much was consumed and what the
decoder holds then. -/
def decompressTBuffers (xxh3 : List UInt8 → Nat) (env : DecoderEnv σ) (frame : List UInt8) :
    Except ErrorCode (FrameWalk × σ) := do
  let formatVersion ← getFormatVersionFromFrame frame
  failWhen (frame.length < FRAME_HEADER_SIZE_MIN) .srcSize_tooSmall
  let (zfi, rest) ← decodeFrameHeader xxh3 frame
  failWhen (zfi.nbOutputs ≠ env.nbOutputs) .userBuffers_invalidNum
  let state ← env.prepare zfi
  let (walk, state) ← decompressLoop xxh3 env formatVersion zfi.properties frame
    (frame.length + 1) (frame.length - rest.length) state
  failWhen (walk.frameEnd ≠ frame.length) .srcSize_tooLarge
  env.finish zfi state
  return (walk, state)

/-- The same, without what the decoder holds. -/
def decompressMultiTBuffer (xxh3 : List UInt8 → Nat) (env : DecoderEnv σ) (frame : List UInt8) :
    Except ErrorCode FrameWalk := do
  let (walk, _) ← decompressTBuffers xxh3 env frame
  return walk

theorem decodeChunkCounts_consumes {v : Nat} {s s' : List UInt8} {counts : Nat × Nat}
    (h : decodeChunkCounts v s = .ok (counts, s')) : s'.length < s.length := by
  unfold decodeChunkCounts at h
  split at h
  · obtain ⟨b, s₁, hpop, h⟩ := run_bind_eq_ok.1 h
    have hle := (((Local.popByte ErrorCode.srcSize_tooSmall).bind fun _ => Local.pure _).suffix
      h).length_le
    rw [popByte_ok hpop, List.length_cons]
    omega
  · obtain ⟨nbDecoders, s₁, hvarint, h⟩ := run_bind_eq_ok.1 h
    have hlt := (varintDecode_bounds hvarint).2
    split at h
    · have hle := (((Local.failIf (nbDecoders = 0) ErrorCode.corruption).bind fun _ =>
        varintDecode_local.bind fun _ => Local.pure _).suffix h).length_le
      omega
    · have hle := ((varintDecode_local.bind fun _ => Local.pure _).suffix h).length_le
      omega

theorem decodeChunkHeader_consumes {v : Nat} {s s' : List UInt8} {header : ChunkHeader}
    (h : decodeChunkHeader v properties s = .ok (header, s')) :
    s'.length < s.length := by
  obtain ⟨_, s₀, havail, h⟩ := run_bind_eq_ok.1 h
  cases havail
  obtain ⟨_, s₁, hmin, hrun⟩ := run_bind_eq_ok.1 h
  obtain ⟨-, rfl⟩ := run_failIf_eq_ok.1 hmin
  obtain ⟨⟨nbDecoders, nbStoredStreams⟩, s₂, hcounts, h⟩ := run_bind_eq_ok.1 hrun
  have hlt := decodeChunkCounts_consumes hcounts
  have hle := (((Local.failIf (nbDecoders ≥ runtimeNodeLimit v)
    ErrorCode.temporaryLibraryLimitation).bind fun _ =>
      (Local.failIf (nbStoredStreams ≥ runtimeStreamLimit v)
        ErrorCode.temporaryLibraryLimitation).bind fun _ =>
        (decodeNodeLanes_local v properties nbDecoders).bind fun lanes =>
          decodeStreamLanes_local lanes nbStoredStreams).suffix h).length_le
  omega

theorem sizeChunk_ok {v : Nat} {src : List UInt8} {pos next : Nat}
    (h : sizeChunk v properties src pos = .ok next) : pos < next := by
  obtain ⟨⟨header, rest⟩, hheader, h⟩ := bind_eq_ok.1 h
  have hlt := decodeChunkHeader_consumes hheader
  have hnext := pure_eq_ok.1 h
  rw [List.length_drop] at hlt
  omega

theorem sizeWalk_fuel {v : Nat} {src : List UInt8} :
    ∀ {fuel pos : Nat}, src.length ≤ pos + fuel →
      sizeWalk v properties src (fuel + 2) pos = sizeWalk v properties src (fuel + 1) pos
  | 0, pos, hfuel => by
    rw [sizeWalk, sizeWalk]
    split
    · rw [if_pos (by omega), if_pos (by omega)]
    · rfl
  | fuel + 1, pos, hfuel => by
    rw [sizeWalk, sizeWalk]
    split
    · split
      · rfl
      · split
        · rfl
        · cases hnext : sizeChunk v properties src pos with
          | error e => rfl
          | ok next =>
            have hlt := sizeChunk_ok hnext
            rw [ok_bind, ok_bind, sizeWalk_fuel (by omega)]
    · rfl

theorem readContentHash_ok {frame : List UInt8} {pos hash next : Nat}
    (h : readContentHash properties frame pos = .ok (hash, next)) (hpos : pos ≤ frame.length) :
    next = pos + (if properties.hasContentChecksum then 4 else 0) ∧ next ≤ frame.length := by
  unfold readContentHash at h
  split at h
  · rename_i hc
    obtain ⟨_, hlen, h⟩ := bind_eq_ok.1 h
    obtain ⟨-, rfl⟩ := Prod.mk.inj (pure_eq_ok.1 h)
    have hlen := failWhen_eq_ok.1 hlen
    rw [if_pos hc]
    omega
  · rename_i hc
    obtain ⟨-, rfl⟩ := Prod.mk.inj (Except.ok.inj h)
    rw [if_neg hc]
    omega

theorem checkCompressedHash_ok {xxh3 : List UInt8 → Nat} {check : Bool} {v : Nat}
    {frame : List UInt8} {start pos next : Nat}
    (h : checkCompressedHash xxh3 check v properties frame start pos = .ok next)
    (hpos : pos ≤ frame.length) :
    next = pos + (if properties.hasCompressedChecksum then 4 else 0) ∧ next ≤ frame.length := by
  unfold checkCompressedHash at h
  split at h
  · rename_i hc
    obtain ⟨_, hlen, h⟩ := bind_eq_ok.1 h
    obtain ⟨_, -, h⟩ := bind_eq_ok.1 h
    have hlen := failWhen_eq_ok.1 hlen
    have hnext := pure_eq_ok.1 h
    rw [if_pos hc]
    omega
  · rename_i hc
    have hnext := Except.ok.inj h
    rw [if_neg hc]
    omega

theorem sizeChunk_of_setup {xxh3 : List UInt8 → Nat} {env : DecoderEnv σ} {v : Nat}
    {frame : List UInt8} {pos : Nat} {setup : ChunkSetup}
    (h : setupChunkDecode xxh3 env v properties frame pos = .ok setup) (hpos : pos ≤ frame.length)
    (suffix : List UInt8) :
    sizeChunk v properties (frame ++ suffix) pos = .ok (pos + setup.chunkSize) ∧
      pos + setup.chunkSize ≤ frame.length := by
  unfold setupChunkDecode at h
  obtain ⟨⟨header, rest⟩, hheader, h⟩ := bind_eq_ok.1 h
  obtain ⟨streams, hfill, h⟩ := bind_eq_ok.1 h
  obtain ⟨⟨hash, afterContent⟩, hcontent, h⟩ := bind_eq_ok.1 h
  obtain ⟨afterChecksum, hcompressed, h⟩ := bind_eq_ok.1 h
  obtain rfl := pure_eq_ok.1 h
  obtain ⟨-, -, -, hsize, hfit⟩ := fillStoredStreams_ok hfill
  obtain ⟨hcontent', hle⟩ := readContentHash_ok hcontent hfit
  obtain ⟨hcompressed', hle'⟩ := checkCompressedHash_ok hcompressed hle
  have hrest := ((decodeChunkHeader_local v properties).suffix hheader).length_le
  rw [List.length_drop] at hrest
  have hext := (decodeChunkHeader_local v properties).extend hheader suffix
  have hheaderSize : (frame ++ suffix).length - pos - (rest ++ suffix).length =
      frame.length - pos - rest.length := by
    rw [List.length_append, List.length_append]
    omega
  have hbody : chunkBodySize header = header.totalTHSize + header.storedStreamSizes.sum +
      (if header.properties.hasContentChecksum then 4 else 0) +
      (if header.properties.hasCompressedChecksum then 4 else 0) := rfl
  constructor
  · rw [sizeChunk, List.drop_append_of_le_length hpos, hext, ok_bind]
    simp only [hheaderSize]
    refine pure_eq_ok.2 ?_
    omega
  · simp only
    omega

theorem sizeWalk_of_decompress {xxh3 : List UInt8 → Nat} {env : DecoderEnv σ} {v : Nat}
    {frame : List UInt8} (suffix : List UInt8) :
    ∀ {fuel fuel' pos : Nat} {state state' : σ} {walk : FrameWalk},
      fuel ≤ fuel' → pos ≤ frame.length →
      decompressLoop xxh3 env v properties frame fuel pos state = .ok (walk, state') →
      sizeWalk v properties (frame ++ suffix) fuel' pos = .ok walk
  | 0, _, _, _, _, _, _, _, h => by cases h
  | fuel + 1, 0, _, _, _, _, hfuel, _, _ => by omega
  | fuel + 1, fuel' + 1, pos, state, state', walk, hfuel, hpos, h => by
    rw [decompressLoop] at h
    rw [sizeWalk]
    split at h
    · rename_i hv
      rw [if_pos hv]
      split at h
      · cases h
      · rename_i hlen
        have hget : (frame ++ suffix)[pos]? = frame[pos]? :=
          List.getElem?_append_left (by omega)
        rw [if_neg (by rw [List.length_append]; omega), hget]
        split at h
        · rename_i hmarker
          rw [if_pos hmarker]
          obtain ⟨rfl, -⟩ := Prod.mk.inj (Except.ok.inj h)
          rfl
        · rename_i hmarker
          rw [if_neg hmarker]
          obtain ⟨setup, hsetup, h⟩ := bind_eq_ok.1 h
          obtain ⟨state₁, -, h⟩ := bind_eq_ok.1 h
          obtain ⟨⟨walk', state₂⟩, hloop, h⟩ := bind_eq_ok.1 h
          obtain ⟨rfl, -⟩ := Prod.mk.inj (pure_eq_ok.1 h)
          obtain ⟨hchunk, hle⟩ := sizeChunk_of_setup hsetup hpos suffix
          rw [hchunk, ok_bind,
            sizeWalk_of_decompress suffix (Nat.le_of_succ_le_succ hfuel) hle hloop, ok_bind]
          rfl
    · rename_i hv
      rw [if_neg hv]
      obtain ⟨setup, hsetup, h⟩ := bind_eq_ok.1 h
      obtain ⟨state₁, -, h⟩ := bind_eq_ok.1 h
      obtain ⟨rfl, -⟩ := Prod.mk.inj (pure_eq_ok.1 h)
      rw [(sizeChunk_of_setup hsetup hpos suffix).1, ok_bind]
      rfl

/-- **The size query agrees with the decoder**: on a frame that decodes, followed by anything, the
query finds the same chunks, the same end-of-frame marker and the same size. -/
theorem sizeQuery_agrees {xxh3 : List UInt8 → Nat} {env : DecoderEnv σ} {frame : List UInt8}
    {walk : FrameWalk} (h : decompressMultiTBuffer xxh3 env frame = .ok walk)
    (suffix : List UInt8) :
    walk.frameEnd = frame.length ∧ sizeQuery xxh3 (frame ++ suffix) = .ok walk ∧
      getCompressedSize xxh3 (frame ++ suffix) = .ok frame.length := by
  unfold decompressMultiTBuffer at h
  obtain ⟨⟨walk', state'⟩, hrun, hwalk⟩ := bind_eq_ok.1 h
  obtain rfl := pure_eq_ok.1 hwalk
  obtain ⟨v, hv, h⟩ := bind_eq_ok.1 hrun
  obtain ⟨_, hmin, h⟩ := bind_eq_ok.1 h
  obtain ⟨⟨zfi, rest⟩, hheader, h⟩ := bind_eq_ok.1 h
  obtain ⟨_, -, h⟩ := bind_eq_ok.1 h
  obtain ⟨state, -, h⟩ := bind_eq_ok.1 h
  obtain ⟨⟨walk₁, state₁⟩, hloop, h⟩ := bind_eq_ok.1 h
  obtain ⟨_, hend, h⟩ := bind_eq_ok.1 h
  obtain ⟨_, -, h⟩ := bind_eq_ok.1 h
  obtain ⟨rfl, rfl⟩ := Prod.mk.inj (pure_eq_ok.1 h)
  have hmin := failWhen_eq_ok.1 hmin
  have hend : walk₁.frameEnd = frame.length := not_not.1 (failWhen_eq_ok.1 hend)
  have hext := (decodeFrameHeader_local xxh3).extend hheader suffix
  have hheaderSize : (frame ++ suffix).length - (rest ++ suffix).length =
      frame.length - rest.length := by
    rw [List.length_append, List.length_append]
    omega
  have hwalk := sizeWalk_of_decompress suffix
    (show frame.length + 1 ≤ (frame ++ suffix).length + 1 by rw [List.length_append]; omega)
    (Nat.sub_le _ _) hloop
  have hquery : sizeQuery xxh3 (frame ++ suffix) = .ok walk₁ := by
    rw [sizeQuery, getFormatVersionFromFrame_append hv, ok_bind,
      failWhen_of_not _ (by rw [List.length_append]; omega), ok_bind, hext, ok_bind]
    simp only [hheaderSize]
    rw [hwalk, ok_bind, failWhen_of_not _ (by rw [List.length_append]; omega), ok_bind]
    rfl
  refine ⟨hend, hquery, ?_⟩
  rw [getCompressedSize, hquery, ok_bind, ← hend]
  rfl

/-- A decoder without codecs for a single output: a chunk without nodes appends its stored
stream. -/
def storedOnlyEnv : DecoderEnv (List UInt8) where
  registry := fun _ _ => .error .invalidTransform
  nbOutputs := 1
  checkCompressedChecksum := true
  prepare := fun _ => .ok []
  runChunk := fun setup out =>
    match setup.streams.data.getLast? with
    | some (some bytes) => .ok (out ++ bytes)
    | _ => .error .graph_invalid
  finish := fun zfi out => failWhen (zfi.decompressedSizes ≠ [out.length]) .corruption

/-- A frame of version 21 with two chunks that store two bytes and one byte. -/
def twoChunksFrame : List UInt8 :=
  [213, 165, 177, 215, 0, 1, 4, 1, 1, 2, 10, 20, 1, 1, 1, 30, 0]

theorem sizeQuery_agrees_twoChunks :
    decompressMultiTBuffer List.length storedOnlyEnv twoChunksFrame = .ok ⟨[7, 12], 17⟩ ∧
      sizeQuery List.length (twoChunksFrame ++ [5, 5, 5]) = .ok ⟨[7, 12], 17⟩ ∧
      getCompressedSize List.length (twoChunksFrame ++ [5, 5, 5]) = .ok 17 := by
  have h : decompressMultiTBuffer List.length storedOnlyEnv twoChunksFrame =
      .ok ⟨[7, 12], 17⟩ := by decide +kernel
  obtain ⟨-, hquery, hsize⟩ := sizeQuery_agrees h [5, 5, 5]
  exact ⟨h, hquery, hsize⟩

end OpenZL.Decompress
