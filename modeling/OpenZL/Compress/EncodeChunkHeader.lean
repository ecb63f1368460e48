import OpenZL.Codecs.BitpackKernel
import OpenZL.Codecs.DispatchByTag
import OpenZL.Common.WireFormat
import OpenZL.Lib.Result
import OpenZL.Shared.Varint

/-!
# Writing a chunk header (`encode_frameheader.c`)

`writeChunkHeaderV8_internal` transposes the description of a graph into lanes, each with its own
coding.  A lane is modelled by the bytes it appends; the parallel arrays of `GraphInfo` are one
list of records, so that they always have the same length.

Principal result: `writeChunkHeader_ok`.
-/

namespace OpenZL.Compress

open OpenZL.Lib OpenZL.Codecs OpenZL.Codecs.Bitpack OpenZL.Shared

/-- One entry of the per-transform arrays of `GraphInfo`. -/
structure TransformDesc where
  trInfo : PublicTransformInfo
  trHSize : Nat
  nbVOs : Nat
  nbTrInputs : Nat
  dictIdx : Nat
  deriving DecidableEq, Repr

/-- `GraphInfo`: what `CCTX_getFinalGraph` hands to the header encoder. -/
structure GraphInfo where
  nbSessionInputs : Nat
  transforms : List TransformDesc
  distances : List Nat
  storedBuffs : List (List UInt8)
  deriving DecidableEq, Repr

namespace GraphInfo

def nbTransforms (gip : GraphInfo) : Nat := gip.transforms.length
def nbDistances (gip : GraphInfo) : Nat := gip.distances.length
def nbStoredBuffs (gip : GraphInfo) : Nat := gip.storedBuffs.length

end GraphInfo

/-- `compressTrt`: one bit per transform. -/
def compressTrt (flags : List Nat) : List UInt8 := bitpackEncode8 flags 1

/-- `compressTrID`: standard IDs are bitpacked, then custom IDs are varints. -/
def compressTrID (trid ctrFlags : List Nat) (formatVersion : Nat) : List UInt8 :=
  if trid.length = 0 then []
  else
    let niPtr := dispatchByTagEncode trid ctrFlags
    bitpackEncode32 (niPtr 0) (StandardTransformID_numBits formatVersion) ++
      (niPtr 1).flatMap varintEncode

/-- The common shape of the count lanes: a bit tells the values above `base`, which follow as
varints counted from `base + 1`. -/
def compressCounts (base : Nat) (counts : List Nat) : List UInt8 :=
  bitpackEncode32 (counts.map fun n => if n > base then 1 else 0) 1 ++
    (counts.filter (· > base)).flatMap fun n => varintEncode (n - (base + 1))

/-- `compressTrHSize`. -/
def compressTrHSize (trhs : List Nat) : List UInt8 := compressCounts 0 trhs

/-- `compressNbVOs`. -/
def compressNbVOs (nbvos : List Nat) : List UInt8 := compressCounts 0 nbvos

/-- `compressNumInputs`. -/
def compressNumInputs (numInputs : List Nat) : List UInt8 := compressCounts 1 numInputs

/-- `compressDictIdxs`. -/
def compressDictIdxs (dictIdxs : List Nat) : List UInt8 :=
  let values := dictIdxs.filter (· ≠ DICT_INDEX_NONE)
  let flags := bitpackEncode32 (dictIdxs.map fun i => if i ≠ DICT_INDEX_NONE then 1 else 0) 1
  if values.length > 0 then
    let maxVal := values.foldl max 0
    let nbBits := nextPow2 (maxVal + 1)
    flags ++ UInt8.ofNat nbBits :: bitpackEncode32 values nbBits
  else flags

/-- `compressStreamDistances`: the bit width depends on the size of the graph. -/
def compressStreamDistances (distances : List Nat) (nbConsumedStreams nbStoredStreams : Nat) :
    List UInt8 :=
  bitpackEncode32 distances (nextPow2 (nbConsumedStreams + nbStoredStreams))

/-- `compressStrSizes`. -/
def compressStrSizes (strs : List Nat) : List UInt8 := strs.flatMap varintEncode

/-- `computeFHBound`; `nbBuffs - 1` is computed on a `size_t`. -/
def computeFHBound (numInputs nbTransforms nbBuffs nbRegens : Nat) : Except ErrorCode Nat :=
  if numInputs > ENCODER_INPUT_LIMIT then .error .GENERIC
  else if nbTransforms > runtimeNodeLimit MAX_FORMAT_VERSION then .error .GENERIC
  else if nbBuffs > runtimeStreamLimit MAX_FORMAT_VERSION then .error .GENERIC
  else
    let perInputBound := 2 * 10 + 1
    .ok (4 + numInputs * perInputBound + varintSize nbTransforms +
      varintSize ((nbBuffs + 2 ^ 64 - 1) % 2 ^ 64) + nbBuffs * 4 + nbTransforms * 22 +
      nbRegens * 4 + 4 + 4 + (nbTransforms + 7) / 8 + 1 + nbTransforms * 3)

/-- The counts that open the header: bytes before version 9, varints afterwards. -/
def chunkCounts (formatVersion nbCodecs nbBuffs : Nat) : List UInt8 :=
  if formatVersion < 9 then [UInt8.ofNat nbCodecs, UInt8.ofNat (nbBuffs - 1)]
  else
    varintEncode (nbCodecs + if formatVersion ≥ CHUNK_VERSION_MIN then 1 else 0) ++
      varintEncode (nbBuffs - 1)

/-- The checksum flags: in the chunk header from version 4 to version 20. -/
def chunkFlags (formatVersion : Nat) (fprop : FrameProperties) : List UInt8 :=
  if 4 ≤ formatVersion ∧ formatVersion < CHUNK_VERSION_MIN then
    [UInt8.ofNat ((if fprop.hasContentChecksum then 1 else 0) |||
      (if fprop.hasCompressedChecksum then 2 else 0))]
  else []

/-- `totalNbRegens`: before version 16 every transform has a single input. -/
def totalNbRegens (formatVersion : Nat) (gip : GraphInfo) : Nat :=
  if formatVersion ≥ 16 then (gip.transforms.map (·.nbTrInputs % 2 ^ 32)).sum
  else gip.nbTransforms

/-- The lanes of `writeChunkHeaderV8_internal` with one entry per transform, in order. -/
def nodeLanesBytes (formatVersion : Nat) (fprop : FrameProperties) (ts : List TransformDesc) :
    List UInt8 :=
  let trt := ts.map (·.trInfo.trt.toNat)
  chunkFlags formatVersion fprop ++
  (compressTrt trt ++
  (compressTrID (ts.map (·.trInfo.trid)) trt formatVersion ++
  (compressTrHSize (ts.map (·.trHSize % 2 ^ 32)) ++
  (compressNbVOs (ts.map (·.nbVOs % 2 ^ 32)) ++
  ((if formatVersion ≥ 16 then compressNumInputs (ts.map (·.nbTrInputs % 2 ^ 32)) else []) ++
  (if formatVersion ≥ MATERIALIZED_DICT_VERSION_MIN ∧ fprop.hasBundleID then
    compressDictIdxs (ts.map (·.dictIdx)) else []))))))

/-- The lanes of `writeChunkHeaderV8_internal` about streams. -/
def streamLanesBytes (formatVersion : Nat) (gip : GraphInfo) : List UInt8 :=
  compressStreamDistances ((gip.distances.take (totalNbRegens formatVersion gip)).map (· - 1))
    (totalNbRegens formatVersion gip) (gip.nbStoredBuffs - 1) ++
  compressStrSizes (gip.storedBuffs.tail.map (·.length % 2 ^ 32))

/-- What `writeChunkHeaderV8_internal` writes once its checks have passed. -/
def chunkHeaderBytes (formatVersion : Nat) (fprop : FrameProperties) (gip : GraphInfo) :
    List UInt8 :=
  chunkCounts formatVersion gip.nbTransforms gip.nbStoredBuffs ++
    (nodeLanesBytes formatVersion fprop gip.transforms ++ streamLanesBytes formatVersion gip)

/-- `writeChunkHeaderV8_internal`. -/
def writeChunkHeader (formatVersion dstCapacity : Nat) (fprop : FrameProperties)
    (gip : GraphInfo) : Except ErrorCode (List UInt8) := do
  let hsBound ← computeFHBound gip.nbSessionInputs gip.nbTransforms gip.nbStoredBuffs
    gip.nbDistances
  failWhen (dstCapacity < hsBound) .internalBuffer_tooSmall
  failWhen (gip.nbTransforms ≥ runtimeNodeLimit formatVersion) .corruption
  failWhen (gip.nbStoredBuffs = 0) .corruption
  failWhen (gip.nbStoredBuffs - 1 ≥ runtimeStreamLimit formatVersion) .corruption
  failWhen (formatVersion < 16 ∧ gip.transforms.any (·.nbTrInputs ≠ 1)) .node_versionMismatch
  return chunkHeaderBytes formatVersion fprop gip

theorem writeChunkHeader_ok {v dstCapacity : Nat} {fprop : FrameProperties} {gip : GraphInfo}
    {out : List UInt8} (h : writeChunkHeader v dstCapacity fprop gip = .ok out) :
    gip.nbTransforms < runtimeNodeLimit v ∧ 0 < gip.nbStoredBuffs ∧
      gip.nbStoredBuffs - 1 < runtimeStreamLimit v ∧
      (v < 16 → ∀ t ∈ gip.transforms, t.nbTrInputs = 1) ∧
      out = chunkHeaderBytes v fprop gip := by
  unfold writeChunkHeader at h
  obtain ⟨hsBound, -, h⟩ := bind_eq_ok.1 h
  obtain ⟨-, -, h⟩ := bind_eq_ok.1 h
  obtain ⟨_, hnodes, h⟩ := bind_eq_ok.1 h
  obtain ⟨_, hpos, h⟩ := bind_eq_ok.1 h
  obtain ⟨_, hstored, h⟩ := bind_eq_ok.1 h
  obtain ⟨_, hone, h⟩ := bind_eq_ok.1 h
  rw [failWhen_eq_ok] at hnodes hpos hstored hone
  refine ⟨by omega, by omega, by omega, ?_, (pure_eq_ok.1 h).symm⟩
  intro hv t ht
  by_contra hne
  exact hone ⟨hv, List.any_eq_true.2 ⟨t, ht, by simpa using hne⟩⟩

theorem writeChunkHeader_eq_ok {v dstCapacity hsBound : Nat} {fprop : FrameProperties}
    {gip : GraphInfo}
    (hb : computeFHBound gip.nbSessionInputs gip.nbTransforms gip.nbStoredBuffs gip.nbDistances =
      .ok hsBound)
    (hcap : hsBound ≤ dstCapacity) (hnodes : gip.nbTransforms < runtimeNodeLimit v)
    (hpos : 0 < gip.nbStoredBuffs) (hstored : gip.nbStoredBuffs - 1 < runtimeStreamLimit v)
    (hone : v < 16 → ∀ t ∈ gip.transforms, t.nbTrInputs = 1) :
    writeChunkHeader v dstCapacity fprop gip = .ok (chunkHeaderBytes v fprop gip) := by
  have hone' : ¬ (v < 16 ∧ gip.transforms.any (·.nbTrInputs ≠ 1) = true) := by
    rintro ⟨hv, hany⟩
    obtain ⟨t, ht, hne⟩ := List.any_eq_true.1 hany
    exact absurd (hone hv t ht) (by simpa using hne)
  unfold writeChunkHeader
  rw [hb, ok_bind, failWhen_of_not _ (by omega), ok_bind, failWhen_of_not _ (by omega), ok_bind,
    failWhen_of_not _ (by omega), ok_bind, failWhen_of_not _ (by omega), ok_bind,
    failWhen_of_not _ hone', ok_bind]
  rfl

end OpenZL.Compress
