import OpenZL.Codecs.BitFields
import OpenZL.Codecs.PivcoTree
import OpenZL.Lib.OddPart
import OpenZL.Lib.Result
import OpenZL.Shared.Varint

/-!
# The partition codec

`common_partition.c`, the kernels of the encoder and of the decoder, and the codec header: the range
of the values is cut into partitions, and a value becomes the partition it is in and its offset
there. A failed assertion, an access outside of a buffer and a read of what was not written are
undefined.
-/

namespace OpenZL.Codecs.Partition

open OpenZL.Lib OpenZL.Codecs.Bitpack.InMemory OpenZL.Codecs.Pivco

/-- The errors of the codec. -/
inductive PartitionError
  | GENERIC
  | corruption
  | nodeInvalidInput
  | internalBufferTooSmall
  | srcSizeTooSmall
  deriving DecidableEq, Repr

/-- How a coder may stop. -/
abbrev Stop := Lib.Stop PartitionError

/-- `ZL_PARTITION_MAX_PARTITIONS` -/
def maxPartitions : Nat := 256

/-- `ZL_PartitionParams` -/
structure PartitionParams where
  startValue : Nat
  partitionSizes : List Nat
  deriving DecidableEq, Repr

namespace PartitionParams

/-- The field `numPartitions`. -/
def numPartitions (params : PartitionParams) : Nat := params.partitionSizes.length

/-- The loop of `ZL_PartitionParams_validate`. -/
def validateLoop : List Nat → Nat → Bool
  | [], _ => true
  | size :: sizes, sum =>
      if size = 0 then false
      else if 2 ^ 64 ≤ sum + size ∧ ¬(sizes = [] ∧ (sum + size) % 2 ^ 64 = 0) then false
      else validateLoop sizes ((sum + size) % 2 ^ 64)

/-- `ZL_PartitionParams_validate` -/
def validate (params : PartitionParams) : Bool :=
  if params.numPartitions = 0 then false
  else if params.numPartitions > maxPartitions then false
  else if params.numPartitions = 1 ∧ params.startValue = 0 then false
  else validateLoop params.partitionSizes params.startValue

/-- `ZL_PartitionParams_areAllSizesPow2` -/
def areAllSizesPow2 (params : PartitionParams) : Bool := params.partitionSizes.all isPow2

/-- `ZL_PartitionParams_computeBits` -/
def computeBits (params : PartitionParams) : List Nat :=
  params.partitionSizes.map fun size => nextPow2 size % 2 ^ 8

/-- The loop of `ZL_PartitionParams_computeBasesU64`. -/
def basesFrom : Nat → List Nat → List Nat
  | _, [] => []
  | base, size :: sizes => base :: basesFrom ((base + size) % 2 ^ 64) sizes

/-- `ZL_PartitionParams_computeBasesU64` -/
def computeBasesU64 (params : PartitionParams) : List Nat :=
  basesFrom params.startValue params.partitionSizes

/-- The local `maxValue` of the encoders. -/
def maxValue (params : PartitionParams) : Nat :=
  (params.computeBasesU64.getLastD 0 + (params.partitionSizes.getLastD 0 - 1)) % 2 ^ 64

/-- `ZL_PartitionParams_getLargestPartitionSize` -/
def getLargestPartitionSize (params : PartitionParams) : Nat := params.partitionSizes.foldl max 0

/-- `ZL_ctz64`, 64 for zero. -/
def ctz64 (x : Nat) : Nat := ctz 64 x

/-- `ZL_PartitionParams_getNumTrailingZeros` -/
def getNumTrailingZeros (params : PartitionParams) : Option Nat :=
  if params.validate then
    let numTrailingZeros := params.partitionSizes.foldl (fun zeros size => min zeros (ctz64 size))
      (if params.startValue = 0 then 64 else ctz64 params.startValue)
    if numTrailingZeros < 64 then some numTrailingZeros else none
  else none

end PartitionParams

/-- `ZL_PartitionParamsPreset` -/
inductive Preset
  | quantizeOffsets
  | quantizeLengths
  | varbyte16
  | custom
  deriving DecidableEq, Repr

/-- The number of an enumerator. -/
def Preset.toNat : Preset → Nat
  | .quantizeOffsets => 0
  | .quantizeLengths => 1
  | .varbyte16 => 2
  | .custom => 3

/-- `quantizeOffsetsParams` -/
def quantizeOffsetsParams : PartitionParams where
  startValue := 1
  partitionSizes :=
    [0x1, 0x2, 0x4, 0x8, 0x10, 0x20, 0x40, 0x80, 0x100, 0x200, 0x400, 0x800, 0x1000, 0x2000,
      0x4000, 0x8000, 0x10000, 0x20000, 0x40000, 0x80000, 0x100000, 0x200000, 0x400000, 0x800000,
      0x1000000, 0x2000000, 0x4000000, 0x8000000, 0x10000000, 0x20000000, 0x40000000, 0x80000000]

/-- `quantizeLengthsParams` -/
def quantizeLengthsParams : PartitionParams where
  startValue := 0
  partitionSizes :=
    [0x1, 0x1, 0x1, 0x1, 0x1, 0x1, 0x1, 0x1, 0x1, 0x1, 0x1, 0x1, 0x1, 0x1, 0x1, 0x1, 0x10, 0x20,
      0x40, 0x80, 0x100, 0x200, 0x400, 0x800, 0x1000, 0x2000, 0x4000, 0x8000, 0x10000, 0x20000,
      0x40000, 0x80000, 0x100000, 0x200000, 0x400000, 0x800000, 0x1000000, 0x2000000, 0x4000000,
      0x8000000, 0x10000000, 0x20000000, 0x40000000, 0x80000000]

/-- `varbyte16Params` -/
def varbyte16Params : PartitionParams where
  startValue := 0
  partitionSizes :=
    [0x2, 0x2, 0x4, 0x8, 0x10, 0x20, 0x40, 0x80, 0x100, 0x200, 0x400, 0x800, 0x1000, 0x2000,
      0x4000, 0x8000]

/-- `presetTable` -/
def presetTable : List PartitionParams :=
  [quantizeOffsetsParams, quantizeLengthsParams, varbyte16Params]

/-- `ZL_PartitionParams_getPreset` -/
def getPreset (preset : Nat) : Option PartitionParams := presetTable[preset]?

/-- The loop of `ZL_findBucket`. -/
def findBucketLoop (value : Nat) (partitions : List Nat) (numBuckets : Nat) :
    Nat → Nat → Nat → Nat
  | 0, lo, _ => lo
  | fuel + 1, lo, hi =>
      if lo < hi then
        let mid := lo + (hi - lo) / 2
        if mid + 1 < numBuckets ∧ partitions.getD (mid + 1) 0 ≤ value then
          findBucketLoop value partitions numBuckets fuel (mid + 1) hi
        else findBucketLoop value partitions numBuckets fuel lo mid
      else lo

/-- `ZL_findBucket` -/
def findBucket (value : Nat) (partitions : List Nat) (numBuckets maxValue : Nat) : Nat :=
  if value < partitions.getD 0 0 ∨ value > maxValue then numBuckets
  else findBucketLoop value partitions numBuckets numBuckets 0 numBuckets

/-- The loop of `ZL_PartitionEncode_buildPartitionLUT`, on the part that is written. -/
def buildPartitionLUTLoop (lutShift lutSize : Nat) : List Nat → Nat → List Nat → List Nat
  | [], _, lut => lut
  | size :: sizes, i, lut =>
      if lut.length ≥ lutSize then lut
      else
        let stop := min lutSize (lut.length + size >>> lutShift)
        buildPartitionLUTLoop lutShift lutSize sizes (i + 1)
          (lut ++ List.replicate (stop - lut.length) (i % 2 ^ 8))

/-- `ZL_PartitionEncode_buildPartitionLUT` -/
def buildPartitionLUT (params : PartitionParams) (lutShift lutSize : Nat) : List Nat :=
  let lut := buildPartitionLUTLoop lutShift lutSize params.partitionSizes 0
    (List.replicate (min lutSize (params.startValue >>> lutShift)) 0)
  lut ++ List.replicate (lutSize - lut.length) 0

/-- `PB_LINEAR_THRESHOLD_LOG` -/
def PB_LINEAR_THRESHOLD_LOG : Nat := 16

/-- `PB_LINEAR_THRESHOLD` -/
def PB_LINEAR_THRESHOLD : Nat := 2 ^ PB_LINEAR_THRESHOLD_LOG

/-- `PB_U32_LOG_BUCKETS` -/
def PB_U32_LOG_BUCKETS : Nat := 32 - PB_LINEAR_THRESHOLD_LOG

/-- `ZL_PartitionEncode_u32Partition` -/
def u32Partition (partitionLUT logPartitions : List Nat) (lutShift value : Nat) : Option Nat :=
  if value < PB_LINEAR_THRESHOLD then partitionLUT[value >>> lutShift]?
  else logPartitions[value.log2 - PB_LINEAR_THRESHOLD_LOG]?

/-- `ZL_PartitionEncode_u32BoundarySupported` -/
def u32BoundarySupported (value prevPow2Boundary : Nat) : Bool :=
  if value ≤ PB_LINEAR_THRESHOLD then true
  else decide (value ≤ 2 ^ 32) && isPow2 value && decide (value > prevPow2Boundary)

/-- The loop of `ZL_PartitionEncodeU32_canUseHybridLUT`, and what follows it. -/
def canUseHybridLUTLoop : List Nat → Nat → Nat → Bool
  | [], boundary, _ => decide (boundary ≤ 2 ^ 32)
  | size :: sizes, boundary, prevPow2Boundary =>
      if 2 ^ 64 - 1 - boundary < size then false
      else
        let prevPow2Boundary :=
          if boundary > PB_LINEAR_THRESHOLD then boundary else prevPow2Boundary
        let boundary := boundary + size
        if sizes ≠ [] ∧ u32BoundarySupported boundary prevPow2Boundary = false then false
        else canUseHybridLUTLoop sizes boundary prevPow2Boundary

/-- `ZL_PartitionEncodeU32_canUseHybridLUT` -/
def canUseHybridLUT (params : PartitionParams) : Bool :=
  if u32BoundarySupported params.startValue 0 = false then false
  else canUseHybridLUTLoop params.partitionSizes params.startValue 0

/-- The end of the encoders: the buckets and the bytes of the offsets. -/
def finishEncode (bitstream : BitCStreamFF) (buckets : List Nat) :
    Except Stop (List Nat × List UInt8) :=
  match bitstream.finish with
  | none => .error (.error .internalBufferTooSmall)
  | some (size, dst) => .ok (buckets, dst.take size)

/-- The loop of `ZL_partitionEncode_generic`. -/
def encodeGenericLoop (params : PartitionParams) :
    List Nat → BitCStreamFF → List Nat → Except Stop (BitCStreamFF × List Nat)
  | [], bitstream, buckets => .ok (bitstream, buckets)
  | value :: src, bitstream, buckets =>
      let partition :=
        findBucket value params.computeBasesU64 params.numPartitions params.maxValue
      if partition ≥ params.numPartitions then .error (.error .GENERIC)
      else do
        let base ← defined params.computeBasesU64[partition]?
        let nbBits ← defined params.computeBits[partition]?
        if base ≤ value ∧ value ≤ params.maxValue then do
          let bitstream ← defined (writeSplit bitstream (value - base) nbBits)
          encodeGenericLoop params src bitstream (buckets ++ [partition % 2 ^ 8])
        else .error .undefined

/-- `ZL_partitionEncode_generic` -/
def partitionEncode_generic (bitsDst : List UInt8) (src : List Nat) (params : PartitionParams) :
    Except Stop (List Nat × List UInt8) := do
  let (bitstream, buckets) ←
    encodeGenericLoop params src (BitCStreamFF.init bitsDst bitsDst.length) []
  finishEncode bitstream buckets

/-- `base` of `ZL_PartitionLUTx2`, for lanes of `lane` bits. -/
def LUTx2_base (lane : Nat) (baseLUT : List Nat) (partitionBits idx : Nat) : Nat :=
  (baseLUT.getD (idx &&& (2 ^ partitionBits - 1)) 0 % 2 ^ 32) |||
    ((baseLUT.getD (idx >>> partitionBits) 0 % 2 ^ 32) <<< lane) % 2 ^ (2 * lane)

/-- `mask` of `ZL_PartitionLUTx2`. -/
def LUTx2_mask (lane : Nat) (bitsLUT : List Nat) (partitionBits idx : Nat) : Nat :=
  (1 <<< bitsLUT.getD (idx &&& (2 ^ partitionBits - 1)) 0 - 1) |||
    ((1 <<< bitsLUT.getD (idx >>> partitionBits) 0 - 1) <<< lane) % 2 ^ (2 * lane)

/-- `bits` of `ZL_PartitionLUTx2`. -/
def LUTx2_bits (bitsLUT : List Nat) (partitionBits idx : Nat) : Nat :=
  (bitsLUT.getD (idx &&& (2 ^ partitionBits - 1)) 0 +
    bitsLUT.getD (idx >>> partitionBits) 0) % 2 ^ 8

/-- The loops over the last elements, one at a time; `lookup` gives the partition of a value. -/
def encodeTail (lookup : Nat → Option Nat) (bases bits : List Nat) :
    List Nat → BitCStreamFF → List Nat → Option (BitCStreamFF × List Nat)
  | [], off, partitions => some (off, partitions)
  | value :: src, off, partitions => do
      let p ← lookup value
      let off ← writeFlush off ((value + 2 ^ 64 - bases.getD p 0) % 2 ^ 64) (bits.getD p 0)
      encodeTail lookup bases bits src off (partitions ++ [p % 2 ^ 8])

/-- The loop of `ZL_partitionEncodeU16` over four elements, with the one behind it. -/
def encodeU16Loop (lookup : Nat → Option Nat) (bases bits : List Nat) (bucketBits : Nat) :
    List Nat → BitCStreamFF → List Nat → Option (BitCStreamFF × List Nat)
  | v0 :: v1 :: v2 :: v3 :: src, off, partitions => do
      let p0 ← lookup v0
      let p1 ← lookup v1
      let p2 ← lookup v2
      let p3 ← lookup v3
      let p01 := p0 ||| p1 <<< bucketBits
      let p23 := p2 ||| p3 <<< bucketBits
      let base := LUTx2_base 16 bases bucketBits p01 ||| LUTx2_base 16 bases bucketBits p23 <<< 32
      let mask := LUTx2_mask 16 bits bucketBits p01 ||| LUTx2_mask 16 bits bucketBits p23 <<< 32
      let nbBits := LUTx2_bits bits bucketBits p01 + LUTx2_bits bits bucketBits p23
      let data := Nat.ofDigits (2 ^ 16) [v0, v1, v2, v3]
      let off ← writeFlush off (pext ((data + 2 ^ 64 - base) % 2 ^ 64) mask) nbBits
      encodeU16Loop lookup bases bits bucketBits src off
        (partitions ++ [p0 % 2 ^ 8, p1 % 2 ^ 8, p2 % 2 ^ 8, p3 % 2 ^ 8])
  | src, off, partitions => encodeTail lookup bases bits src off partitions

/-- The check that the values are in the partitions, for elements below `bound`. -/
def inputsCovered (params : PartitionParams) (bound : Nat) (src : List Nat) : Bool :=
  if params.startValue > 0 ∨ params.maxValue < bound - 1 then
    src.all fun v => decide (params.startValue ≤ v) && decide (v ≤ params.maxValue)
  else true

/-- `ZL_partitionEncodeU16` -/
def partitionEncodeU16 (bitsDst : List UInt8) (src : List Nat) (params : PartitionParams) :
    Except Stop (List Nat × List UInt8) := do
  let lutShift ← defined params.getNumTrailingZeros
  let partitionLUT := buildPartitionLUT params lutShift (65536 >>> lutShift)
  if inputsCovered params (2 ^ 16) src = false then .error (.error .nodeInvalidInput)
  else do
    let (off, partitions) ← defined (encodeU16Loop (fun v => partitionLUT[v >>> lutShift]?)
      params.computeBasesU64 params.computeBits (nextPow2 params.numPartitions) src
      (BitCStreamFF.init bitsDst bitsDst.length) [])
    finishEncode off partitions

/-- The loop of `ZL_partitionEncodeU32` over two elements, with the one behind it. -/
def encodeU32Loop (lookup : Nat → Option Nat) (bases bits : List Nat) (bucketBits : Nat) :
    List Nat → BitCStreamFF → List Nat → Option (BitCStreamFF × List Nat)
  | v0 :: v1 :: src, off, partitions => do
      let p0 ← lookup v0
      let p1 ← lookup v1
      let p01 := p0 ||| p1 <<< bucketBits
      let base := LUTx2_base 32 bases bucketBits p01
      let mask := LUTx2_mask 32 bits bucketBits p01
      let data := Nat.ofDigits (2 ^ 32) [v0, v1]
      let off ← writeFlush off (pext ((data + 2 ^ 64 - base) % 2 ^ 64) mask)
        (LUTx2_bits bits bucketBits p01)
      encodeU32Loop lookup bases bits bucketBits src off
        (partitions ++ [p0 % 2 ^ 8, p1 % 2 ^ 8])
  | src, off, partitions => encodeTail lookup bases bits src off partitions

/-- The local `logPartitions` of `ZL_partitionEncodeU32`. -/
def logPartitions (params : PartitionParams) : List Nat :=
  (List.range PB_U32_LOG_BUCKETS).map fun i =>
    let partition := findBucket (2 ^ (PB_LINEAR_THRESHOLD_LOG + i)) params.computeBasesU64
      params.numPartitions params.maxValue
    if partition < params.numPartitions then partition % 2 ^ 8 else 0

/-- `ZL_partitionEncodeU32` -/
def partitionEncodeU32 (bitsDst : List UInt8) (src : List Nat) (params : PartitionParams) :
    Except Stop (List Nat × List UInt8) := do
  let lutShift ← defined params.getNumTrailingZeros
  let partitionLUT := buildPartitionLUT params lutShift (max 1 (PB_LINEAR_THRESHOLD >>> lutShift))
  if inputsCovered params (2 ^ 32) src = false then .error (.error .nodeInvalidInput)
  else do
    let (off, partitions) ← defined (encodeU32Loop
      (u32Partition partitionLUT (logPartitions params) lutShift)
      params.computeBasesU64 params.computeBits (nextPow2 params.numPartitions) src
      (BitCStreamFF.init bitsDst bitsDst.length) [])
    finishEncode off partitions

/-- `ZL_PARTITION_MAX_PARTITION_SIZE_FOR_UNROLL4` -/
def MAX_PARTITION_SIZE_FOR_UNROLL4 : Nat := 2 ^ 14

/-- `ZL_PARTITION_MAX_PARTITION_SIZE_FOR_UNROLL2` -/
def MAX_PARTITION_SIZE_FOR_UNROLL2 : Nat := 2 ^ 28

/-- `ZL_partitionEncode` -/
def partitionEncode (bitsDst : List UInt8) (src : List Nat) (eltWidth : Nat)
    (params : PartitionParams) : Except Stop (List Nat × List UInt8) :=
  if params.validate then
    if eltWidth = 2 ∧ params.getLargestPartitionSize ≤ MAX_PARTITION_SIZE_FOR_UNROLL4 then
      partitionEncodeU16 bitsDst src params
    else if eltWidth = 4 ∧ params.getLargestPartitionSize ≤ MAX_PARTITION_SIZE_FOR_UNROLL2 ∧
        canUseHybridLUT params then
      partitionEncodeU32 bitsDst src params
    else partitionEncode_generic bitsDst src params
  else .error .undefined

/-- `bitsCapacity` of `EI_partitionWithParams`, the room that it makes for the offsets. -/
def bitsCapacity (params : PartitionParams) (numElts : Nat) : Nat :=
  (params.computeBits.foldl max 0 * numElts + 7) / 8

/-- The loop of `ZL_partitionDecode`. -/
def partitionDecodeLoop (eltWidth : Nat) (bases bits : List Nat) :
    List Nat → BitDStreamFF → Option (List Nat × BitDStreamFF)
  | [], bitstream => some ([], bitstream)
  | bucket :: buckets, bitstream => do
      let nbBits ← bits[bucket]?
      let (offset, bitstream) ← readSplit bitstream nbBits
      let base ← bases[bucket]?
      let bitstream ← bitstream.reload
      let (dst, bitstream) ← partitionDecodeLoop eltWidth bases bits buckets bitstream
      some ((base + offset) % 2 ^ 64 % 2 ^ (8 * eltWidth) :: dst, bitstream)

/-- `ZL_partitionDecode` -/
def partitionDecode (eltWidth : Nat) (buckets : List Nat) (offsets : List UInt8)
    (params : PartitionParams) : Except Stop (List Nat) :=
  if params.validate then do
    let bitstream ← defined (BitDStreamFF.init offsets offsets.length)
    let (dst, bitstream) ← defined
      (partitionDecodeLoop eltWidth params.computeBasesU64 params.computeBits buckets bitstream)
    match bitstream.finish with
    | none => .error (.error .srcSizeTooSmall)
    | some _ => .ok dst
  else .error .undefined

/-- `ZL_PARTITION_HEADER_IS_PRESET_BIT` -/
def HEADER_IS_PRESET_BIT : Nat := 0x4

/-- `ZL_PARTITION_HEADER_IS_FIRST_VALUE_ZERO_BIT` -/
def HEADER_IS_FIRST_VALUE_ZERO_BIT : Nat := 0x8

/-- `ZL_PARTITION_HEADER_IS_POW2_BIT` -/
def HEADER_IS_POW2_BIT : Nat := 0x20

/-- The loop that writes the logarithms of the sizes, and the write of the sentinel behind it. -/
def writeLog2Sizes (numBits : Nat) : List Nat → BitCStreamFF → Option BitCStreamFF
  | [], bitstream =>
      if bitstream.nbBits + 1 ≤ 63 then some (bitstream.write 1 1) else none
  | b :: bits, bitstream => do
      let bitstream ← writeFlush bitstream b numBits
      writeLog2Sizes numBits bits bitstream

/-- `ZL_PartitionParams_sendHeader`; `fill` is what the scratch space holds. -/
def sendHeader (fill : Nat → UInt8) (params : PartitionParams) (bits : List Nat) (preset : Preset)
    (eltWidth : Nat) : Except Stop (List UInt8) :=
  let flags := nextPow2 eltWidth % 2 ^ 8
  if preset ≠ .custom then
    .ok [UInt8.ofNat (flags ||| HEADER_IS_PRESET_BIT ||| preset.toNat <<< 3)]
  else
    let flags :=
      if params.startValue = 0 then flags ||| HEADER_IS_FIRST_VALUE_ZERO_BIT else flags
    let first := if params.startValue ≠ 0 then Shared.varintEncode params.startValue else []
    if params.areAllSizesPow2 then
      let numBits := max (nextPow2 (bits.foldl max 0 + 1)) 3
      if numBits ≤ 6 then
        let flags := flags ||| HEADER_IS_POW2_BIT ||| (numBits - 3) <<< 6
        let headerSizeBound := 1 + 10 + (numBits * params.numPartitions + 1 + 7) / 8
        let room := headerSizeBound - (1 + first.length)
        do
          let bitstream ← defined (writeLog2Sizes numBits bits
            (BitCStreamFF.init ((List.range room).map fill) room))
          match bitstream.finish with
          | none => .error (.error .internalBufferTooSmall)
          | some (bitSize, dst) => .ok (UInt8.ofNat flags :: (first ++ dst.take bitSize))
      else .error .undefined
    else .ok (UInt8.ofNat flags :: (first ++ params.partitionSizes.flatMap Shared.varintEncode))

/-- The loop that reads the logarithms of the sizes. -/
def readLog2Sizes (numBits : Nat) : Nat → BitDStreamFF → Option (List Nat × BitDStreamFF)
  | 0, bitstream => some ([], bitstream)
  | n + 1, bitstream => do
      let log2Size := bitstream.peek numBits
      let bitstream ← (bitstream.skip numBits).reload
      let (sizes, bitstream) ← readLog2Sizes numBits n bitstream
      some (1 <<< log2Size :: sizes, bitstream)

/-- The sizes as logarithms, behind the start value. -/
def parseLog2Sizes (flags : Nat) (hdr : List UInt8) : Except Stop (List Nat) :=
  let numBits := flags >>> 6 + 3
  match hdr.getLast? with
  | none => .error (.error .corruption)
  | some last =>
      if last = 0 then .error (.error .corruption)
      else
        let unusedBits := 8 - last.toNat.log2
        let totalBits := 8 * hdr.length - unusedBits
        if totalBits % numBits ≠ 0 then .error (.error .corruption)
        else if totalBits / numBits > maxPartitions then .error (.error .corruption)
        else do
          let bitstream ← defined (BitDStreamFF.init hdr hdr.length)
          let (sizes, bitstream) ← defined (readLog2Sizes numBits (totalBits / numBits) bitstream)
          match bitstream.finish with
          | none => .error (.error .GENERIC)
          | some _ => .ok sizes

/-- `ZL_varintDecode`, in the terms of this codec. -/
def varintDecode (hdr : List UInt8) : Except Stop (Nat × List UInt8) :=
  match Shared.varintDecode hdr with
  | .error _ => .error (.error .GENERIC)
  | .ok r => .ok r

/-- The loop that reads the sizes as numbers; `n` have been read. -/
def parseSizes : Nat → Nat → List UInt8 → Except Stop (List Nat)
  | 0, _, _ => .error .undefined
  | fuel + 1, n, hdr =>
      if hdr = [] then .ok []
      else if n ≥ maxPartitions then .error (.error .corruption)
      else do
        let (size, hdr) ← varintDecode hdr
        let sizes ← parseSizes fuel (n + 1) hdr
        .ok (size :: sizes)

/-- `ZL_PartitionParams_parseHeader`: the parameters and the width. -/
def parseHeader (header : List UInt8) : Except Stop (PartitionParams × Nat) :=
  match header with
  | [] => .error (.error .corruption)
  | flags :: hdr =>
      let flags := flags.toNat
      let width := 1 <<< (flags &&& 0x3)
      if flags &&& HEADER_IS_PRESET_BIT ≠ 0 then
        match getPreset (flags >>> 3) with
        | none => .error (.error .corruption)
        | some presetParams => .ok (presetParams, width)
      else do
        let (startValue, hdr) ←
          (if flags &&& HEADER_IS_FIRST_VALUE_ZERO_BIT ≠ 0 then .ok (0, hdr)
          else varintDecode hdr : Except Stop (Nat × List UInt8))
        let sizes ←
          if flags &&& HEADER_IS_POW2_BIT ≠ 0 then parseLog2Sizes flags hdr
          else parseSizes (maxPartitions + 1) 0 hdr
        let params : PartitionParams := ⟨startValue, sizes⟩
        if params.validate then .ok (params, width) else .error (.error .corruption)

end OpenZL.Codecs.Partition
