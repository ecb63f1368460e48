import OpenZL.Common.Basic
import OpenZL.Lib.Result
import OpenZL.Shared.NumericOperations

/-!
# The bit-split codec: model

Every element is cut into parts of given bit widths, lowest bits first; the parts of one position
are a numeric stream of the smallest width that holds them.
-/

namespace OpenZL.Codecs.BitSplit

open OpenZL.Lib OpenZL.Shared

/-- `ZL_bitSplit_outputEltWidth` -/
def outputEltWidth (bitWidth : Nat) : Nat :=
  if bitWidth ≤ 8 then 1 else if bitWidth ≤ 16 then 2 else if bitWidth ≤ 32 then 4 else 8

/-- The local `mask` of a part. -/
def maskOf (width : Nat) : Nat := if width ≥ 64 then 2 ^ 64 - 1 else (1 <<< width) - 1

/-- A store of an element of `eltWidth` bytes. -/
def store (eltWidth : Nat) (value : Nat) : Nat := value % 2 ^ (8 * eltWidth)

/-- `ZL_bitSplit_paramsAreValid`: the sum of the widths if they are valid. -/
def paramsAreValid (bitWidths : List UInt8) (inputEltWidthBits : Nat) : Option Nat :=
  let sum := (bitWidths.map UInt8.toNat).sum
  if bitWidths.any (· = 0) then none else if sum > inputEltWidthBits then none else some sum

/-- `ZL_bitSplit_topBitsAreZero`, `checkTopBitsZero` -/
def topBitsAreZero (src : List Nat) (srcEltWidth sumWidths : Nat) : Bool :=
  if src.length = 0 then true
  else if sumWidths ≥ srcEltWidth * 8 then true
  else
    let mask := 2 ^ 64 - 1 - ((1 <<< sumWidths) - 1)
    src.all fun value => value &&& mask = 0

/-- `bitSplit_bf16` -/
def bitSplit_bf16 (src : List Nat) : List (List Nat) :=
  [src.map fun value => store 1 (value &&& 0x7F),
    src.map fun value => store 1 ((value >>> 7) &&& 0xFF),
    src.map fun value => store 1 ((value >>> 15) &&& 0x01)]

/-- `bitSplit_fp16` -/
def bitSplit_fp16 (src : List Nat) : List (List Nat) :=
  [src.map fun value => store 2 (value &&& 0x3FF),
    src.map fun value => store 1 ((value >>> 10) &&& 0x1F),
    src.map fun value => store 1 ((value >>> 15) &&& 0x1)]

/-- `bitSplit_fp32` -/
def bitSplit_fp32 (src : List Nat) : List (List Nat) :=
  [src.map fun value => store 4 (value &&& 0x7FFFFF),
    src.map fun value => store 1 ((value >>> 23) &&& 0xFF),
    src.map fun value => store 1 ((value >>> 31) &&& 0x1)]

/-- `bitSplit_fp64` -/
def bitSplit_fp64 (src : List Nat) : List (List Nat) :=
  [src.map fun value => store 8 (value &&& 0xFFFFFFFFFFFFF),
    src.map fun value => store 2 ((value >>> 52) &&& 0x7FF),
    src.map fun value => store 1 ((value >>> 63) &&& 0x1)]

/-- `encodeElements`, part after part: the widths are those of the destinations and of the parts. -/
def encodeElements (src : List Nat) : List (Nat × Nat) → Nat → List (List Nat)
  | [], _ => []
  | (dstEltWidth, width) :: parts, bitPos =>
      (src.map fun value => store dstEltWidth ((value >>> bitPos) &&& maskOf width)) ::
        encodeElements src parts (bitPos + width)

/-- `isEncodeBf16Pattern` and its kind on both sides: an element width, and the parts' widths. -/
def isBf16Pattern (eltWidth : Nat) (parts : List (Nat × Nat)) : Bool :=
  eltWidth = 2 ∧ parts = [(1, 7), (1, 8), (1, 1)]

/-- `isEncodeFp16Pattern`, `isFp16Pattern` -/
def isFp16Pattern (eltWidth : Nat) (parts : List (Nat × Nat)) : Bool :=
  eltWidth = 2 ∧ parts = [(2, 10), (1, 5), (1, 1)]

/-- `isEncodeFp32Pattern`, `isFp32Pattern` -/
def isFp32Pattern (eltWidth : Nat) (parts : List (Nat × Nat)) : Bool :=
  eltWidth = 4 ∧ parts = [(4, 23), (1, 8), (1, 1)]

/-- `isEncodeFp64Pattern`, `isFp64Pattern` -/
def isFp64Pattern (eltWidth : Nat) (parts : List (Nat × Nat)) : Bool :=
  eltWidth = 8 ∧ parts = [(8, 52), (2, 11), (1, 1)]

/-- `ZL_bitSplitEncode`: what is written to each destination. -/
def bitSplitEncode (src : List Nat) (srcEltWidth : Nat) (parts : List (Nat × Nat)) :
    List (List Nat) :=
  if src.length = 0 then parts.map fun _ => []
  else if isBf16Pattern srcEltWidth parts then bitSplit_bf16 src
  else if isFp16Pattern srcEltWidth parts then bitSplit_fp16 src
  else if isFp32Pattern srcEltWidth parts then bitSplit_fp32 src
  else if isFp64Pattern srcEltWidth parts then bitSplit_fp64 src
  else encodeElements src parts 0

/-- `srcPtrs[i][e]` -/
def partAt (srcs : List (List Nat)) (i e : Nat) : Nat := (srcs.getD i []).getD e 0

/-- `decodeBf16` -/
def decodeBf16 (nbElts : Nat) (srcs : List (List Nat)) : List Nat :=
  (List.range nbElts).map fun e =>
    let value := store 2 (partAt srcs 0 e)
    let value := store 2 (value ||| partAt srcs 1 e <<< 7)
    store 2 (value ||| partAt srcs 2 e <<< 15)

/-- `decodeFp16` -/
def decodeFp16 (nbElts : Nat) (srcs : List (List Nat)) : List Nat :=
  (List.range nbElts).map fun e =>
    let value := store 2 (partAt srcs 0 e)
    let value := store 2 (value ||| partAt srcs 1 e <<< 10)
    store 2 (value ||| partAt srcs 2 e <<< 15)

/-- `decodeFp32` -/
def decodeFp32 (nbElts : Nat) (srcs : List (List Nat)) : List Nat :=
  (List.range nbElts).map fun e =>
    let value := store 4 (partAt srcs 0 e)
    let value := store 4 (value ||| partAt srcs 1 e <<< 23)
    store 4 (value ||| partAt srcs 2 e <<< 31)

/-- `decodeFp64` -/
def decodeFp64 (nbElts : Nat) (srcs : List (List Nat)) : List Nat :=
  (List.range nbElts).map fun e =>
    let value := store 8 (partAt srcs 0 e)
    let value := store 8 (value ||| partAt srcs 1 e <<< 52)
    store 8 (value ||| partAt srcs 2 e <<< 63)

/-- The inner loop of `decodeElements`: each part with its width. -/
def decodeElement : List (Nat × Nat) → Nat → Nat → Nat
  | [], _, value => value
  | (part, width) :: parts, bitPos, value =>
      decodeElement parts (bitPos + width) (value ||| store 8 (part <<< bitPos))

/-- `decodeElements` -/
def decodeElements (dstEltWidth nbElts : Nat) (srcs : List (List Nat)) (parts : List (Nat × Nat)) :
    List Nat :=
  (List.range nbElts).map fun e =>
    store dstEltWidth (decodeElement ((srcs.map fun src => src.getD e 0).zip (parts.map Prod.snd)) 0 0)

/-- `ZL_bitSplitDecode` -/
def bitSplitDecode (dstEltWidth nbElts : Nat) (srcs : List (List Nat)) (parts : List (Nat × Nat)) :
    List Nat :=
  if nbElts = 0 then []
  else if isBf16Pattern dstEltWidth parts then decodeBf16 nbElts srcs
  else if isFp16Pattern dstEltWidth parts then decodeFp16 nbElts srcs
  else if isFp32Pattern dstEltWidth parts then decodeFp32 nbElts srcs
  else if isFp64Pattern dstEltWidth parts then decodeFp64 nbElts srcs
  else decodeElements dstEltWidth nbElts srcs parts

/-- The widths that the kernels take: of the streams, and of the parts. -/
def partsOf (bitWidths : List UInt8) : List (Nat × Nat) :=
  bitWidths.map fun width => (outputEltWidth width.toNat, width.toNat)

/-- `EI_bitSplit_withWidths`: the codec header, and the streams with their element widths. -/
def EI_bitSplit_withWidths (input : NumericStream) (bitWidths : List UInt8) :
    Except ErrorCode (List UInt8 × List (Nat × List Nat)) := do
  failWhen (bitWidths.length = 0) .nodeParameter_invalid
  failWhen (bitWidths.length > 64) .nodeParameter_invalid
  let inputEltWidthBits := input.eltWidth * 8
  match paramsAreValid bitWidths inputEltWidthBits with
  | none => .error .nodeParameter_invalid
  | some sumWidths =>
      failWhen (sumWidths < inputEltWidthBits ∧
        ¬topBitsAreZero input.elts input.eltWidth sumWidths) .corruption
      let widths :=
        -- Full coverage: omit last width (computed by decoder)
        if sumWidths = inputEltWidthBits then bitWidths.take (bitWidths.length - 1) else bitWidths
      let outputWidths := bitWidths.map fun width => outputEltWidth width.toNat
      .ok (UInt8.ofNat input.eltWidth :: widths,
        outputWidths.zip (bitSplitEncode input.elts input.eltWidth (partsOf bitWidths)))

/-- The first part of `DI_bitSplit`: the element width and the bit widths that the header and the
number of streams tell. -/
def parseHeader (header : List UInt8) (nbVariableSrcs : Nat) :
    Except ErrorCode (Nat × List UInt8) :=
  match header with
  | [] => .error .corruption
  | eltWidth :: storedWidths => do
      let outputEltWidth := eltWidth.toNat
      failWhen (¬outputEltWidth ∈ [1, 2, 4, 8]) .corruption
      failWhen (storedWidths.any (· = 0)) .corruption
      let sumStoredWidths := (storedWidths.map UInt8.toNat).sum
      let outputEltWidthBits := outputEltWidth * 8
      failWhen (sumStoredWidths > outputEltWidthBits) .corruption
      let lastWidth := outputEltWidthBits - sumStoredWidths
      let bitWidths ←
        if nbVariableSrcs = storedWidths.length then .ok storedWidths
        else if nbVariableSrcs = storedWidths.length + 1 then
          if lastWidth = 0 then .error .corruption
          else .ok (storedWidths ++ [UInt8.ofNat lastWidth])
        else .error .corruption
      failWhen (bitWidths.length = 0) .corruption
      .ok (outputEltWidth, bitWidths)

/-- The loop of `DI_bitSplit` over the streams. -/
def checkStreams (nbElts : Nat) : List UInt8 → List (Nat × List Nat) → Except ErrorCode Unit
  | width :: bitWidths, (eltWidth, elts) :: srcs => do
      failWhen (elts.length ≠ nbElts) .corruption
      failWhen (width.toNat > eltWidth * 8) .corruption
      failWhen (eltWidth ≠ outputEltWidth width.toNat) .corruption
      checkStreams nbElts bitWidths srcs
  | _, _ => .ok ()

/-- `DI_bitSplit`: the element width and the elements. -/
def DI_bitSplit (header : List UInt8) (variableSrcs : List (Nat × List Nat)) :
    Except ErrorCode (Nat × List Nat) := do
  let (outputEltWidth, bitWidths) ← parseHeader header variableSrcs.length
  let nbElts := ((variableSrcs.map Prod.snd).headD []).length
  checkStreams nbElts bitWidths variableSrcs
  .ok (outputEltWidth,
    bitSplitDecode outputEltWidth nbElts (variableSrcs.map Prod.snd) (partsOf bitWidths))

end OpenZL.Codecs.BitSplit
