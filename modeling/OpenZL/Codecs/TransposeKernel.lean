import OpenZL.Codecs.WildCopy
import OpenZL.Lib.Filling
import OpenZL.Lib.Shuffles

/-!
# Byte transposition (`encode_transpose_kernel.c`, `decode_transpose_kernel.c`)

The bytes of elements of some width go to one stream for each rank, and back: in portable loops, and
for the widths 2, 3, 4 and 8 in blocks of vector registers. A load or a store outside of a buffer is
undefined (`none`).
-/

namespace OpenZL.Codecs.Transpose

open OpenZL.Lib OpenZL.Lib.Shuffles OpenZL.Codecs.Copy

/-- A store to one of the buffers. -/
def storeAt (dst : List (List UInt8)) (r pos : Nat) (bytes : List UInt8) :
    Option (List (List UInt8)) := do
  let buf ← dst[r]?
  let buf ← Buffer.store buf pos bytes
  some (dst.set r buf)

/-- A load from one of the buffers. -/
def loadAt (src : List (List UInt8)) (r pos n : Nat) : Option (List UInt8) := do
  let buf ← src[r]?
  Buffer.load buf pos n

/-- `ZS_splitTransposeEncode_impl` -/
def encodeImpl (dst : List (List UInt8)) (src : List UInt8) (nbElts eltWidth : Nat) :
    Option (List (List UInt8)) :=
  (List.range nbElts).foldlM (fun dst elt =>
    (List.range eltWidth).foldlM (fun dst pos => do
      let byte ← Buffer.load src (elt * eltWidth + pos) 1
      storeAt dst pos elt byte) dst) dst

/-- `ZS_splitTransposeDecode_impl` -/
def decodeImpl (dst : List UInt8) (src : List (List UInt8)) (nbElts eltWidth : Nat) :
    Option (List UInt8) :=
  (List.range nbElts).foldlM (fun dst elt =>
    (List.range eltWidth).foldlM (fun dst pos => do
      let byte ← loadAt src pos elt 1
      Buffer.store dst (elt * eltWidth + pos) byte) dst) dst

section Blocks

variable {α : Type} [Lane α]

/-- `_mm_set_epi8` and `_mm256_set_epi32`: the highest lane comes first. -/
def setEpi (lanes : List Nat) : List Nat := lanes.reverse

/-- `AVX2_TRANSPOSE_SPLIT2_BLEND_MASK` -/
def AVX2_TRANSPOSE_SPLIT2_BLEND_MASK : Nat := 170

/-- The round of `ZS_splitTransposeEncode_2_avx2`: the buffers with the registers stored there. -/
def encodeBlock2 (ymm : List (List α)) : List (Nat × List α) :=
  let oddPermuteMask := setEpi [7, 5, 3, 1, 6, 4, 2, 0]
  let evenPermuteMask := setEpi [6, 4, 2, 0, 7, 5, 3, 1]
  let oddEvenShuffleMask :=
    broadcast (setEpi [15, 13, 11, 9, 14, 12, 10, 8, 7, 5, 3, 1, 6, 4, 2, 0])
  let evenOddShuffleMask :=
    broadcast (setEpi [14, 12, 10, 8, 15, 13, 11, 9, 6, 4, 2, 0, 7, 5, 3, 1])
  let ymm0 := [shuffle256 (ymm.getD 0 []) oddEvenShuffleMask,
    shuffle256 (ymm.getD 1 []) evenOddShuffleMask]
  let blend (i j : Nat) :=
    blendEpi32 (ymm0.getD i []) (ymm0.getD j []) AVX2_TRANSPOSE_SPLIT2_BLEND_MASK
  [(0, permutevar8x32 (blend 0 1) oddPermuteMask), (1, permutevar8x32 (blend 1 0) evenPermuteMask)]

/-- `getTSplit4Group4Masks` -/
def group4Masks : List (List Nat) :=
  [broadcast (setEpi [15, 11, 7, 3, 14, 10, 6, 2, 13, 9, 5, 1, 12, 8, 4, 0]),
    broadcast (setEpi [14, 10, 6, 2, 13, 9, 5, 1, 12, 8, 4, 0, 15, 11, 7, 3]),
    broadcast (setEpi [13, 9, 5, 1, 12, 8, 4, 0, 15, 11, 7, 3, 14, 10, 6, 2]),
    broadcast (setEpi [12, 8, 4, 0, 15, 11, 7, 3, 14, 10, 6, 2, 13, 9, 5, 1])]

/-- `getTSplit4Perm32Masks`, the same as the `permute32Masks` of
`ZS_splitTransposeEncode_8_avx2`. -/
def perm32Masks : List (List Nat) :=
  [setEpi [7, 3, 6, 2, 5, 1, 4, 0], setEpi [5, 1, 4, 0, 7, 3, 6, 2],
    setEpi [4, 0, 7, 3, 6, 2, 5, 1], setEpi [6, 2, 5, 1, 4, 0, 7, 3]]

/-- The registers `0`, ..., `n - 1`, each through an operation that depends on its number. -/
def eachReg (n : Nat) (op : Nat → List α → List α) (ymm : List (List α)) : List (List α) :=
  (List.range n).map fun i => op i (ymm.getD i [])

/-- Registers that are blends of two, by their numbers. -/
def blends (op : List α → List α → List α) (ymm : List (List α)) (pairs : List (Nat × Nat)) :
    List (List α) :=
  pairs.map fun p => op (ymm.getD p.1 []) (ymm.getD p.2 [])

/-- The round of `ZS_splitTransposeEncode_4_avx2`. -/
def encodeBlock4 (ymm : List (List α)) : List (Nat × List α) :=
  -- groups of 4
  let ymm0 := eachReg 4 (fun i v => shuffle256 v (group4Masks.getD i [])) ymm
  -- groups of 8
  let ymm1 := blends (blendEpi32 · · 0xAA) ymm0 [(0, 1), (2, 3), (3, 0), (1, 2)]
  -- groups of 16
  let ymm0 := blends (blendEpi32 · · 0xCC) ymm1 [(0, 1), (1, 0), (2, 3), (3, 2)]
  let ymm0 := eachReg 4 (fun i v => permutevar8x32 v (perm32Masks.getD i [])) ymm0
  [(0, ymm0.getD 0 []), (2, ymm0.getD 1 []), (1, ymm0.getD 2 []), (3, ymm0.getD 3 [])]

/-- The masks of `ZS_splitTransposeEncode_3_avx2`. -/
def encodeMask3 (r v : Nat) : List Nat :=
  (List.range 16).map fun j => if (3 * j + r) / 16 = v then (3 * j + r) % 16 else 0x80

/-- The registers that are joined from three. -/
def joinThree (mask : Nat → List Nat) (xmm : List (List α)) : List α :=
  orSi (orSi (shuffle128 (xmm.getD 0 []) (mask 0)) (shuffle128 (xmm.getD 1 []) (mask 1)))
    (shuffle128 (xmm.getD 2 []) (mask 2))

/-- The round of `ZS_splitTransposeEncode_3_avx2`. -/
def encodeBlock3 (xmm : List (List α)) : List (Nat × List α) :=
  (List.range 3).map fun r => (r, joinThree (encodeMask3 r) xmm)

/-- The `group2Masks` of `ZS_splitTransposeEncode_8_avx2`. -/
def group2Masks : List (List Nat) :=
  [broadcast (setEpi [15, 7, 14, 6, 13, 5, 12, 4, 11, 3, 10, 2, 9, 1, 8, 0]),
    broadcast (setEpi [14, 6, 13, 5, 12, 4, 11, 3, 10, 2, 9, 1, 8, 0, 15, 7]),
    broadcast (setEpi [13, 5, 12, 4, 11, 3, 10, 2, 9, 1, 8, 0, 15, 7, 14, 6]),
    broadcast (setEpi [12, 4, 11, 3, 10, 2, 9, 1, 8, 0, 15, 7, 14, 6, 13, 5]),
    broadcast (setEpi [11, 3, 10, 2, 9, 1, 8, 0, 15, 7, 14, 6, 13, 5, 12, 4]),
    broadcast (setEpi [10, 2, 9, 1, 8, 0, 15, 7, 14, 6, 13, 5, 12, 4, 11, 3]),
    broadcast (setEpi [9, 1, 8, 0, 15, 7, 14, 6, 13, 5, 12, 4, 11, 3, 10, 2]),
    broadcast (setEpi [8, 0, 15, 7, 14, 6, 13, 5, 12, 4, 11, 3, 10, 2, 9, 1])]

/-- The `evenShuffleMasks` of `ZS_splitTransposeEncode_8_avx2`. -/
def evenShuffleMasks : List (List Nat) :=
  [broadcast (setEpi [1, 0, 15, 14, 13, 12, 11, 10, 9, 8, 7, 6, 5, 4, 3, 2]),
    broadcast (setEpi [9, 8, 7, 6, 5, 4, 3, 2, 1, 0, 15, 14, 13, 12, 11, 10]),
    broadcast (setEpi [5, 4, 3, 2, 1, 0, 15, 14, 13, 12, 11, 10, 9, 8, 7, 6]),
    broadcast (setEpi [13, 12, 11, 10, 9, 8, 7, 6, 5, 4, 3, 2, 1, 0, 15, 14])]

/-- `getTSplit8Group4Mask` -/
def group4Mask : List Nat :=
  broadcast (setEpi [255, 255, 0, 0, 255, 255, 0, 0, 255, 255, 0, 0, 255, 255, 0, 0])

/-- The `group32Mask` of `ZS_splitTransposeEncode_8_avx2`. -/
def group32Mask : List Nat :=
  broadcast (setEpi [15, 14, 11, 10, 13, 12, 9, 8, 7, 6, 3, 2, 5, 4, 1, 0])

/-- The round of `ZS_splitTransposeEncode_8_avx2`. -/
def encodeBlock8 (ymm : List (List α)) : List (Nat × List α) :=
  -- groups of 2
  let ymm0 := eachReg 8 (fun i v => shuffle256 v (group2Masks.getD i [])) ymm
  -- groups of 4
  let ymm1 := blends (blendvEpi8 · · group4Mask) ymm0
    [(0, 1), (2, 3), (4, 5), (6, 7), (7, 0), (1, 2), (3, 4), (5, 6)]
  -- groups of 8
  let ymm0 := blends (blendEpi32 · · 0xAA) ymm1
    [(0, 1), (2, 3), (3, 0), (1, 2), (4, 5), (6, 7), (7, 4), (5, 6)]
  -- groups of 16
  let ymm1 := blends (blendEpi32 · · 0xCC) ymm0
    [(0, 1), (1, 0), (2, 3), (3, 2), (4, 5), (5, 4), (6, 7), (7, 6)]
  -- even rows into groups that can be permuted
  let ymm1 := eachReg 8
    (fun i v => if i < 4 then v else shuffle256 v (evenShuffleMasks.getD (i - 4) [])) ymm1
  -- groups of 4 into their lanes
  let ymm1 := eachReg 8
    (fun i v => permutevar8x32 v (perm32Masks.getD (if i < 4 then i else 0) [])) ymm1
  let ymm1 := eachReg 8 (fun _ v => shuffle256 v group32Mask) ymm1
  [(0, ymm1.getD 0 []), (4, ymm1.getD 1 []), (2, ymm1.getD 2 []), (6, ymm1.getD 3 []),
    (1, ymm1.getD 4 []), (5, ymm1.getD 5 []), (3, ymm1.getD 6 []), (7, ymm1.getD 7 [])]

/-- The masks of `ZS_splitTransposeDecode_3_avx2`. -/
def decodeMask3 (v r : Nat) : List Nat :=
  (List.range 16).map fun j => if (16 * v + j) % 3 = r then (16 * v + j) / 3 else 0x80

/-- The round of `ZS_splitTransposeDecode_3_avx2`: the places behind the first byte of the round,
with the registers stored there. -/
def decodeBlock3 (xmm : List (List α)) : List (Nat × List α) :=
  (List.range 3).map fun v => (16 * v, joinThree (decodeMask3 v) xmm)

/-- `getPermuteMask` -/
def permuteMask : List Nat := [0, 4, 1, 5, 2, 6, 3, 7]

/-- The round of `ZS_splitTransposeDecode_8_avx2`. -/
def decodeBlock8 (ymm : List (List α)) : List (Nat × List α) :=
  let pairs := [(0, 1), (2, 3), (4, 5), (6, 7)]
  -- numbers of 2 bytes
  let ymm1 := blends (unpacklo 1) ymm pairs ++ blends (unpackhi 1) ymm pairs
  -- numbers of 4 bytes
  let ymm0 := blends (unpacklo 2) ymm1 pairs ++ blends (unpackhi 2) ymm1 pairs
  let ymm0 := eachReg 8 (fun _ v => permutevar8x32 v permuteMask) ymm0
  -- even registers with the next one shifted up, odd ones with the one before shifted down
  let ymm1 := blends (fun v w => blendEpi32 v (slliEpi64 w 4) 170) ymm0 pairs ++
    blends (fun v w => blendEpi32 (srliEpi64 v 4) w 170) ymm0 pairs
  [(8 * 0, ymm1.getD 0 []), (8 * 4, ymm1.getD 2 []), (8 * 8, ymm1.getD 1 []),
    (8 * 12, ymm1.getD 3 []), (8 * 16, ymm1.getD 4 []), (8 * 20, ymm1.getD 6 []),
    (8 * 24, ymm1.getD 5 []), (8 * 28, ymm1.getD 7 [])]

end Blocks

/-- The elements before the first whole block counted from the end. -/
def scalarElts (nbElts kEltsPerIter : Nat) : Nat := nbElts - nbElts / kEltsPerIter * kEltsPerIter

/-- The loads of one round, register after register. -/
def loadRegs (src : List UInt8) (pos size : Nat) : Nat → Option (List (List UInt8))
  | 0 => some []
  | n + 1 => do
      let reg ← Buffer.load src pos size
      let regs ← loadRegs src (pos + size) size n
      some (reg :: regs)

/-- The loads of one round, a register from each buffer. -/
def loadEach (src : List (List UInt8)) (pos size : Nat) : Nat → Nat → Option (List (List UInt8))
  | _, 0 => some []
  | r, n + 1 => do
      let reg ← loadAt src r pos size
      let regs ← loadEach src pos size (r + 1) n
      some (reg :: regs)

/-- The first elements of an encoder in blocks. -/
def encodeFirst (dst : List (List UInt8)) (src : List UInt8) (first eltWidth : Nat) :
    Option (List (List UInt8)) :=
  if first ≠ 0 then encodeImpl dst src first eltWidth else some dst

/-- The first elements of a decoder in blocks. -/
def decodeFirst (dst : List UInt8) (src : List (List UInt8)) (first eltWidth : Nat) :
    Option (List UInt8) :=
  if first ≠ 0 then decodeImpl dst src first eltWidth else some dst

/-- An encoder in blocks: the first elements one by one, then `kEltsPerIter` at a time, which are as
many registers as an element has bytes. -/
def encodeBlocks (block : List (List UInt8) → List (Nat × List UInt8))
    (eltWidth kEltsPerIter : Nat) (dst : List (List UInt8)) (src : List UInt8) (nbElts : Nat) :
    Option (List (List UInt8)) := do
  let first := scalarElts nbElts kEltsPerIter
  let dst ← encodeFirst dst src first eltWidth
  blockLoop (fun elt dst => do
    let regs ← loadRegs src (elt * eltWidth) kEltsPerIter eltWidth
    (block regs).foldlM (fun dst p => storeAt dst p.1 elt p.2) dst)
    nbElts kEltsPerIter (nbElts + 1) first dst

/-- A decoder in blocks. -/
def decodeBlocks (block : List (List UInt8) → List (Nat × List UInt8))
    (eltWidth kEltsPerIter : Nat) (dst : List UInt8) (src : List (List UInt8)) (nbElts : Nat) :
    Option (List UInt8) := do
  let first := scalarElts nbElts kEltsPerIter
  let dst ← decodeFirst dst src first eltWidth
  blockLoop (fun elt dst => do
    let regs ← loadEach src elt kEltsPerIter 0 eltWidth
    (block regs).foldlM (fun dst p => Buffer.store dst (eltWidth * elt + p.1) p.2) dst)
    nbElts kEltsPerIter (nbElts + 1) first dst

/-- `ZS_splitTransposeEncode_2_avx2` -/
def splitTransposeEncode2Avx2 := encodeBlocks encodeBlock2 2 32

/-- `ZS_splitTransposeEncode_3_avx2`, whose loop counts its rounds. -/
def splitTransposeEncode3Avx2 := encodeBlocks encodeBlock3 3 16

/-- `ZS_splitTransposeEncode_4_avx2` -/
def splitTransposeEncode4Avx2 := encodeBlocks encodeBlock4 4 32

/-- `ZS_splitTransposeEncode_8_avx2` -/
def splitTransposeEncode8Avx2 := encodeBlocks encodeBlock8 8 32

/-- `ZS_splitTransposeDecode_2_avx2` and `ZS_splitTransposeDecode_4_avx2`: loops that the compiler
vectorizes. -/
def splitTransposeDecodeLoop (eltWidth : Nat) (dst : List UInt8) (src : List (List UInt8))
    (nbElts : Nat) : Option (List UInt8) :=
  (List.range nbElts).foldlM (fun dst elt =>
    (List.range eltWidth).foldlM (fun dst pos => do
      let byte ← loadAt src pos elt 1
      Buffer.store dst (eltWidth * elt + pos) byte) dst) dst

/-- `ZS_splitTransposeDecode_3_avx2` -/
def splitTransposeDecode3Avx2 := decodeBlocks decodeBlock3 3 16

/-- `ZS_splitTransposeDecode_8_avx2` -/
def splitTransposeDecode8Avx2 := decodeBlocks decodeBlock8 8 32

/-- `ZS_splitTransposeEncode` -/
def splitTransposeEncode (avx2 : Bool) (dst : List (List UInt8)) (src : List UInt8)
    (nbElts eltWidth : Nat) : Option (List (List UInt8)) :=
  if eltWidth = 1 then do
    let bytes ← Buffer.load src 0 nbElts
    storeAt dst 0 0 bytes
  else if avx2 ∧ eltWidth = 2 then splitTransposeEncode2Avx2 dst src nbElts
  else if avx2 ∧ eltWidth = 3 then splitTransposeEncode3Avx2 dst src nbElts
  else if avx2 ∧ eltWidth = 4 then splitTransposeEncode4Avx2 dst src nbElts
  else if avx2 ∧ eltWidth = 8 then splitTransposeEncode8Avx2 dst src nbElts
  else encodeImpl dst src nbElts eltWidth

/-- `ZS_splitTransposeDecode` -/
def splitTransposeDecode (avx2 : Bool) (dst : List UInt8) (src : List (List UInt8))
    (nbElts eltWidth : Nat) : Option (List UInt8) :=
  if eltWidth = 1 then do
    let bytes ← loadAt src 0 0 nbElts
    Buffer.store dst 0 bytes
  else if avx2 ∧ eltWidth = 2 then splitTransposeDecodeLoop 2 dst src nbElts
  else if avx2 ∧ eltWidth = 3 then splitTransposeDecode3Avx2 dst src nbElts
  else if avx2 ∧ eltWidth = 4 then splitTransposeDecodeLoop 4 dst src nbElts
  else if avx2 ∧ eltWidth = 8 then splitTransposeDecode8Avx2 dst src nbElts
  else decodeImpl dst src nbElts eltWidth

end OpenZL.Codecs.Transpose
