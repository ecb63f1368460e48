import OpenZL.Lib.Buffer
import OpenZL.Lib.LittleEndian

/-!
# Splitting a numeric list by range

`EI_split_byrange` of `codecs/splitN/encode_split_byrange_binding.c` looks for the positions at
which the range of the values changes. `none` is an access outside of its buffer, a difference of
sizes below zero, or a failed assertion.
-/

namespace OpenZL.Codecs.SplitByRange

open OpenZL.Lib

/-- A store to one cell. -/
def setAt {α : Type} (cells : List α) (i : Nat) (v : α) : Option (List α) :=
  if i < cells.length then some (cells.set i v) else none

/-- A difference of sizes that does not wrap. -/
def diff (a b : Nat) : Option Nat := if b ≤ a then some (a - b) else none

/-- `CONFIRMATION_WINDOW`. -/
def CONFIRMATION_WINDOW : Nat := 7

/-- `GAP_FACTOR`. -/
def GAP_FACTOR : UInt64 := 2

/-- `STATIONARITY_NUM`. -/
def STATIONARITY_NUM : UInt64 := 13

/-- `STATIONARITY_DEN`. -/
def STATIONARITY_DEN : UInt64 := 10

/-- `BLOCK_DIVISOR`. -/
def BLOCK_DIVISOR : Nat := 2

/-- `readElt`: the element at an index, whatever its width. -/
def readElt (src : List UInt8) (eltWidth idx : Nat) : Option UInt64 :=
  if eltWidth = 1 ∨ eltWidth = 2 ∨ eltWidth = 4 ∨ eltWidth = 8 then
    if (idx + 1) * eltWidth ≤ src.length then
      some (UInt64.ofNat (ofLE (Buffer.read src (idx * eltWidth) eltWidth)))
    else none
  else none

/-- `blockMin` and `blockMax`, or the suffix buffers: two arrays that are filled together. -/
structure MinMax where
  min : List UInt64
  max : List UInt64

/-- The arrays have room for `n` cells each. -/
structure MinMax.Holds (arrays : MinMax) (n : Nat) : Prop where
  min : arrays.min.length = n
  max : arrays.max.length = n

/-- A store to both arrays. -/
def MinMax.set (arrays : MinMax) (i : Nat) (lo hi : UInt64) : Option MinMax := do
  let min ← setAt arrays.min i lo
  let max ← setAt arrays.max i hi
  some ⟨min, max⟩

/-- The smallest and the largest element from `start` to `stop`. -/
def blockRange (src : List UInt8) (eltWidth start stop : Nat) : Option (UInt64 × UInt64) := do
  let first ← readElt src eltWidth start
  (List.range' (start + 1) (stop - (start + 1))).foldlM (fun r i => do
    let v ← readElt src eltWidth i
    some (if v < r.1 then v else r.1, if v > r.2 then v else r.2)) (first, first)

/-- `computeBlockStats`. -/
def computeBlockStats (src : List UInt8) (eltWidth nbElts blockSize nbBlocks : Nat)
    (blocks : MinMax) : Option MinMax :=
  (List.range nbBlocks).foldlM (fun blocks b => do
    let start := b * blockSize
    let stop := if start + blockSize > nbElts then nbElts else start + blockSize
    let r ← blockRange src eltWidth start stop
    blocks.set b r.1 r.2) blocks

/-- The range of a window of blocks, and the largest range of a block in it. -/
structure Window where
  min : UInt64
  max : UInt64
  maxBR : UInt64

/-- The range of the blocks from `first` to `last`, for either side of a split. -/
def window (blocks : MinMax) (first last : Nat) : Option Window := do
  let min ← blocks.min[first]?
  let max ← blocks.max[first]?
  (List.range' (first + 1) (last - first)).foldlM (fun w i => do
    let lo ← blocks.min[i]?
    let hi ← blocks.max[i]?
    some {
      min := if lo < w.min then lo else w.min
      max := if hi > w.max then hi else w.max
      maxBR := if hi - lo > w.maxBR then hi - lo else w.maxBR }) ⟨min, max, max - min⟩

/-- "windowRange / maxBlockRange <= 1.3". -/
def Window.stationary (w : Window) : Bool :=
  w.maxBR = 0 ∨ (w.max - w.min ≤ UInt64.ofNat (2 ^ 64 - 1) / STATIONARITY_DEN ∧
    (w.max - w.min) * STATIONARITY_DEN ≤ STATIONARITY_NUM * w.maxBR)

/-- The ranges of the windows do not overlap. -/
def nonOverlap (left right : Window) : Bool := left.max < right.min ∨ right.max < left.min

/-- The separation of the windows is meaningful. -/
def significant (left right : Window) (transAmp : UInt64) : Bool :=
  let typAmp := if left.maxBR > right.maxBR then left.maxBR else right.maxBR
  let gap := if left.max < right.min then right.min - left.max else left.min - right.max
  typAmp = 0 ∨ gap > GAP_FACTOR * typAmp ∨ transAmp > GAP_FACTOR * typAmp ∨
    (left.stationary ∧ right.stationary)

/-- The variables of the loop of `findConfirmedSplitBlocks`. -/
structure Search where
  b : Nat
  leftBound : Nat
  nbSplits : Nat
  splitBlocks : List Nat

/-- One candidate: a split is recorded behind block `b`, or not. -/
def candidate (blocks : MinMax) (M minLSize : Nat) (s : Search) : Option Search := do
  let lStart := if s.b + 1 ≥ M ∧ s.b + 1 - M ≥ s.leftBound then s.b + 1 - M else s.leftBound
  let lSize ← diff (s.b + 1) lStart
  if lSize < minLSize then some { s with b := s.b + 1 }
  else do
    let left ← window blocks lStart s.b
    -- the transition block is skipped
    let right ← window blocks (s.b + 2) (s.b + M + 1)
    if nonOverlap left right then do
      let lo ← blocks.min[s.b + 1]?
      let hi ← blocks.max[s.b + 1]?
      if significant left right (hi - lo) then do
        let splitBlocks ← setAt s.splitBlocks s.nbSplits s.b
        some ⟨s.b + 2, s.b + 2, s.nbSplits + 1, splitBlocks⟩
      else some { s with b := s.b + 1 }
    else some { s with b := s.b + 1 }

/-- The loop of `findConfirmedSplitBlocks`. -/
def searchLoop (blocks : MinMax) (nbBlocks M maxSplits : Nat) : Nat → Search → Option Search
  | 0, _ => none
  | fuel + 1, s =>
      if s.b + M + 1 < nbBlocks ∧ s.nbSplits < maxSplits then do
        let s ← candidate blocks M (if M ≥ 2 then 2 else 1) s
        searchLoop blocks nbBlocks M maxSplits fuel s
      else some s

/-- `findConfirmedSplitBlocks`: how many splits, and the blocks before them. -/
def findConfirmedSplitBlocks (blocks : MinMax) (nbBlocks M : Nat) (splitBlocks : List Nat)
    (maxSplits : Nat) : Option (Nat × List Nat) :=
  if M < 1 ∨ nbBlocks < 2 * M + 1 then some (0, splitBlocks)
  else do
    let s ← searchLoop blocks nbBlocks M maxSplits (nbBlocks + 1) ⟨M - 1, 0, 0, splitBlocks⟩
    some (s.nbSplits, s.splitBlocks)

/-- "Backward pass": the suffixes in front of the `i`-th. -/
def suffixPass (src : List UInt8) (eltWidth transStart : Nat) : Nat → MinMax → Option MinMax
  | 0, suff => some suff
  | i + 1, suff => do
      let v ← readElt src eltWidth (transStart + i)
      let lo ← suff.min[i + 1]?
      let hi ← suff.max[i + 1]?
      let suff ← suff.set i (if v < lo then v else lo) (if v > hi then v else hi)
      suffixPass src eltWidth transStart i suff

/-- "Merge suffix with right context". -/
def mergeContext (blocks : MinMax) (transEndBlk segEndBlk transLen : Nat) (suff : MinMax) :
    Option MinMax :=
  if transEndBlk < segEndBlk then do
    let context ← window blocks transEndBlk (segEndBlk - 1)
    (List.range transLen).foldlM (fun suff i => do
      let lo ← suff.min[i]?
      let hi ← suff.max[i]?
      suff.set i (if context.min < lo then context.min else lo)
        (if context.max > hi then context.max else hi)) suff
  else some suff

/-- The variables of the forward pass. -/
structure Prefix where
  min : UInt64
  max : UInt64
  bestPos : Nat
  bestGap : UInt64

/-- The gap between what is before a position and what is from it on. -/
def gapAt (suff : MinMax) (ti : Nat) (p : Prefix) : Option UInt64 := do
  let lo ← suff.min[ti]?
  let hi ← suff.max[ti]?
  some (if p.max < lo then lo - p.max else if hi < p.min then p.min - hi else 0)

/-- A position of the forward pass: only the transition zone is looked at for gaps. -/
def checkGap (suff : MinMax) (transStart pos : Nat) (p : Prefix) : Option Prefix :=
  if pos ≥ transStart then do
    let gap ← gapAt suff (pos - transStart) p
    some (if gap > p.bestGap then { p with bestGap := gap, bestPos := pos } else p)
  else some p

/-- "Forward pass". -/
def forwardPass (src : List UInt8) (eltWidth transStart scanStart scanEnd default : Nat)
    (suff : MinMax) : Option Nat := do
  let first ← readElt src eltWidth scanStart
  let p ← (List.range' (scanStart + 1) (scanEnd - (scanStart + 1))).foldlM (fun p pos => do
    let p ← checkGap suff transStart pos p
    let v ← readElt src eltWidth pos
    some { p with
      min := if v < p.min then v else p.min
      max := if v > p.max then v else p.max }) ⟨first, first, default, 0⟩
  some p.bestPos

/-- `refineSplitBoundary`: the position of a split, and the suffix buffers afterwards. -/
def refineSplitBoundary (src : List UInt8) (eltWidth nbElts blockSize splitBlock segStartElt
    segEndBlk : Nat) (blocks suff : MinMax) : Option (Nat × MinMax) :=
  let zone := if splitBlock > 0 then (splitBlock - 1) * blockSize else 0
  let transStart := if zone < segStartElt then segStartElt else zone
  let transEnd := (splitBlock + 3) * blockSize
  let scanEnd := if transEnd < nbElts then transEnd else nbElts
  let scanStart := if segStartElt < transStart then segStartElt else transStart
  if scanEnd ≤ scanStart + 1 then some ((splitBlock + 1) * blockSize, suff)
  else do
    let transLen ← diff scanEnd transStart
    let lastIdx ← diff transLen 1
    let last ← readElt src eltWidth (transStart + transLen - 1)
    let suff ← suff.set lastIdx last last
    let suff ← suffixPass src eltWidth transStart lastIdx suff
    let suff ← mergeContext blocks ((scanEnd + blockSize - 1) / blockSize) segEndBlk transLen suff
    let pos ← forwardPass src eltWidth transStart scanStart scanEnd ((splitBlock + 1) * blockSize)
      suff
    some (pos, suff)

/-- `blockSize`: how many elements a block has. -/
def blockSizeOf (minSegSize : Nat) : Nat :=
  if minSegSize / BLOCK_DIVISOR > 0 then minSegSize / BLOCK_DIVISOR else 1

/-- `nbBlocks`. -/
def nbBlocksOf (nbElts blockSize : Nat) : Nat := (nbElts + blockSize - 1) / blockSize

/-- `maxZone`: the room for suffixes. -/
def maxZoneOf (blockSize : Nat) : Nat := 4 * blockSize + 1

/-- `Meff`: how many blocks a window has. -/
def windowSize (nbBlocks : Nat) : Nat :=
  let M_raw := if nbBlocks ≥ 3 then (nbBlocks - 1) / 2 else 0
  let M := if M_raw < CONFIRMATION_WINDOW then M_raw else CONFIRMATION_WINDOW
  if M ≥ 2 ∧ nbBlocks ≥ 2 * M + 1 then M else 1

/-- Where the suffix context of a split ends: with the block before the next split. -/
def segmentEndBlock (splitBlocks : List Nat) (nbSplits nbBlocks s : Nat) : Option Nat :=
  if s + 1 < nbSplits then do
    let next ← splitBlocks[s + 1]?
    some (if next + 1 > nbBlocks then nbBlocks else next + 1)
  else some nbBlocks

/-- The variables of the last phase. -/
structure Cut where
  pos : Nat
  nbSegments : Nat
  segmentSizes : List Nat
  suff : MinMax

/-- The end of a segment, where there is still room for the size. -/
def Cut.close (c : Cut) (maxSegments splitPos : Nat) : Option Cut := do
  let size ← diff splitPos c.pos
  if c.nbSegments < maxSegments then do
    let segmentSizes ← setAt c.segmentSizes c.nbSegments size
    some { c with
      pos := splitPos, nbSegments := c.nbSegments + 1, segmentSizes := segmentSizes }
  else some { c with pos := splitPos, nbSegments := c.nbSegments + 1 }

/-- One split of the last phase: it is moved, and taken unless a segment would be too short. -/
def cutAt (src : List UInt8) (eltWidth nbElts minSegSize blockSize nbBlocks maxSegments : Nat)
    (blocks : MinMax) (splitBlocks : List Nat) (nbSplits : Nat) (c : Cut) (s : Nat) :
    Option Cut := do
  let sb ← splitBlocks[s]?
  let segEndBlk ← segmentEndBlock splitBlocks nbSplits nbBlocks s
  let r ← refineSplitBoundary src eltWidth nbElts blockSize sb c.pos segEndBlk blocks c.suff
  let splitPos := if r.1 < c.pos + minSegSize then c.pos + minSegSize else r.1
  let last ← diff nbElts minSegSize
  let c := { c with suff := r.2 }
  if splitPos > last then some c
  else if splitPos ≤ c.pos then some c
  else c.close maxSegments splitPos

/-- The scratch space: `blockMin`, `blockMax`, `suffBuf`, `suffBufMax`, `splitBlocks` and
`segmentSizes` one after the other. -/
structure Scratch where
  blocks : MinMax
  suff : MinMax
  splitBlocks : List Nat
  segmentSizes : List Nat

/-- The scratch space as `EI_split_byrange` lays it out. -/
structure Scratch.LaidOut (scratch : Scratch) (nbBlocks maxZone : Nat) : Prop where
  blocks : scratch.blocks.Holds nbBlocks
  suff : scratch.suff.Holds maxZone
  splitBlocks : scratch.splitBlocks.length = nbBlocks
  segmentSizes : scratch.segmentSizes.length = nbBlocks + 1

/-- `detectBoundaries_internal`: the sizes of the segments, and how many there are. -/
def detectBoundaries (src : List UInt8) (eltWidth nbElts minSegSize : Nat) (scratch : Scratch)
    (maxSegments : Nat) : Option (List Nat × Nat) :=
  let blockSize := blockSizeOf minSegSize
  let nbBlocks := nbBlocksOf nbElts blockSize
  if nbBlocks < 3 then do
    let segmentSizes ← setAt scratch.segmentSizes 0 nbElts
    some (segmentSizes, 1)
  else do
    let blocks ← computeBlockStats src eltWidth nbElts blockSize nbBlocks scratch.blocks
    let maxSplits ← diff maxSegments 1
    let found ← findConfirmedSplitBlocks blocks nbBlocks (windowSize nbBlocks) scratch.splitBlocks
      maxSplits
    if found.1 = 0 then do
      let segmentSizes ← setAt scratch.segmentSizes 0 nbElts
      some (segmentSizes, 1)
    else do
      let c ← (List.range found.1).foldlM
        (cutAt src eltWidth nbElts minSegSize blockSize nbBlocks maxSegments blocks found.2
          found.1) ⟨0, 0, scratch.segmentSizes, scratch.suff⟩
      let c ← c.close maxSegments nbElts
      some (c.segmentSizes, c.nbSegments)

/-- A segment: the elements of the input that an output refers to. -/
structure Segment where
  start : Nat
  size : Nat
  deriving DecidableEq, Repr

/-- The loop of `EI_split_byrange` over the sizes, and the assertion behind it. -/
def emit (segmentSizes : List Nat) (nbElts : Nat) : Nat → Nat → Nat → Option (List Segment)
  | 0, _, pos => if pos = nbElts then some [] else none
  | left + 1, n, pos => do
      let segSize ← segmentSizes[n]?
      let rest ← emit segmentSizes nbElts left (n + 1) (pos + segSize)
      some (⟨pos, segSize⟩ :: rest)

/-- `EI_split_byrange`: the outputs it creates. -/
def splitByRange (src : List UInt8) (eltWidth nbElts minSegSize : Nat) (scratch : Scratch) :
    Option (List Segment) :=
  if nbElts = 0 then some []
  else if nbElts < 2 * minSegSize then some [⟨0, nbElts⟩]
  else do
    let nbBlocks := nbBlocksOf nbElts (blockSizeOf minSegSize)
    let r ← detectBoundaries src eltWidth nbElts minSegSize scratch (nbBlocks + 1)
    emit r.1 nbElts r.2 0 0

end OpenZL.Codecs.SplitByRange
