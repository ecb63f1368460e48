import Mathlib.Algebra.GroupWithZero.Nat
import OpenZL.Lib.Buffer

/-!
# PivCo-Huffman tree

`common_pivco_kernel.c` and its header: the checks of a weights array, and the tree that both sides
build from it. The assertions that guard the storage of the builder, and those of `splitRank`, are
checks here: `none` is a failed assertion.
-/

namespace OpenZL.Codecs.Pivco

open OpenZL.Lib

/-- `ZL_PIVCO_MAX_SYMBOLS` -/
def maxSymbols : Nat := 256

/-- `ZL_PIVCO_MAX_TABLE_LOG` -/
def maxTableLog : Nat := 12

/-- `ZL_PIVCO_MAX_WEIGHT` -/
def maxWeight : Nat := maxTableLog + 1

/-- `ZL_isPow2` -/
def isPow2 (val : Nat) : Bool := val &&& (val - 1) == 0

/-- `ZL_PivCoHuffman_computeTableLog`; `none` is -1. -/
def computeTableLog (weights : List UInt8) : Option Nat :=
  if weights.length = 0 ∨ weights.length > maxSymbols then none
  else
    let invalid := weights.any fun w => w.toNat > maxTableLog
    let sum := weights.foldl (fun sum w => (sum + (1 <<< (w.toNat &&& 31)) >>> 1) % 2 ^ 32) 0
    if invalid then none
    else if sum = 0 ∨ isPow2 sum = false then none
    else
      -- `ZL_highbit32`
      let tableLog := sum.log2
      if tableLog > maxTableLog then none else some tableLog

/-- `_mm_sub_epi8(count, inc)`: the lane of a weight is counted, in 8 bits. -/
def countLane (count : List Nat) (w : UInt8) : List Nat :=
  count.modify w.toNat fun n => (n + 1) % 2 ^ 8

/-- `ZL_PivCoHuffman_countWeights` with SSSE3. -/
def countWeightsSimd (weights : List UInt8) : List Nat :=
  let count := weights.foldl countLane (List.replicate 16 0)
  let everyCountIsZero := count.all (· = 0)
  if weights.length = 256 ∧ everyCountIsZero then
    (List.replicate 16 0).set (weights.headD 0).toNat 256
  else count

/-- The loop of the four histograms. -/
def countFour : List UInt8 → List Nat × List Nat × List Nat × List Nat →
    List Nat × List Nat × List Nat × List Nat
  | w₀ :: w₁ :: w₂ :: w₃ :: rest, (c₀, c₁, c₂, c₃) =>
      countFour rest (countLane c₀ w₀, countLane c₁ w₁, countLane c₂ w₂, countLane c₃ w₃)
  | _, counts => counts

/-- `ZL_PivCoHuffman_countWeights` without SSSE3. -/
def countWeightsScalar (weights : List UInt8) : List Nat :=
  let start := List.replicate 16 0
  let front := weights.length % 4
  let c₀ := (weights.take front).foldl countLane start
  let (c₀, c₁, c₂, c₃) := countFour (weights.drop front) (c₀, start, start, start)
  (List.range 16).map fun i => c₀.getD i 0 + c₁.getD i 0 + c₂.getD i 0 + c₃.getD i 0

/-- `ZL_PivCoHuffman_countWeights` -/
def countWeights (ssse3 : Bool) (weights : List UInt8) : List Nat :=
  if ssse3 then countWeightsSimd weights else countWeightsScalar weights

/-- `PIVCO_LEAF_STORAGE_SIZE` -/
def leafStorageSize : Nat := maxSymbols + maxWeight * (maxWeight + 1) / 2

/-- `PIVCO_SYMBOL_STORAGE_SIZE` -/
def symbolStorageSize : Nat := 2 * maxSymbols

/-- `ZL_PivCoLeaf` -/
structure PivCoLeaf where
  symbolOffset : Nat
  numSymbols : Nat
  deriving DecidableEq, Repr

/-- `ZL_PivCoBuilder` -/
structure PivCoBuilder where
  leaves : List PivCoLeaf
  symbolStorage : List UInt8
  weightCounts : List Nat
  weightOffsets : List Nat
  nextSymbol : Nat

/-- `appendSymbols`, with the symbols that the caller puts there. -/
def appendSymbols (builder : PivCoBuilder) (symbols : List UInt8) : Option PivCoBuilder :=
  if builder.nextSymbol + symbols.length ≤ symbolStorageSize then
    some { builder with
      symbolStorage := Buffer.write builder.symbolStorage builder.nextSymbol symbols
      nextSymbol := builder.nextSymbol + symbols.length }
  else none

/-- `appendLeaf`, with the leaf that the caller fills in. -/
def appendLeaf (builder : PivCoBuilder) (weight : Nat) (leaf : PivCoLeaf) : Option PivCoBuilder :=
  if weight ≤ maxWeight then
    let pos := builder.weightOffsets.getD weight 0 + builder.weightCounts.getD weight 0
    if pos < builder.weightOffsets.getD (weight + 1) 0 ∧ pos < leafStorageSize then
      some { builder with
        leaves := builder.leaves.set pos leaf
        weightCounts := builder.weightCounts.modify weight (· + 1) }
    else none
  else none

/-- The symbol of a single-symbol leaf. -/
def childSymbol (builder : PivCoBuilder) (index : Nat) : Option UInt8 :=
  let child := builder.leaves.getD index ⟨0, 0⟩
  if child.numSymbols = 1 then some (builder.symbolStorage.getD child.symbolOffset 0) else none

/-- The `while` loop of `optimizeLeaves`: blocks are peeled off the end of a bucket. -/
def peelLeaves (weight : Nat) : Nat → PivCoBuilder → Option PivCoBuilder
  | 0, builder => if builder.weightCounts.getD weight 0 > 2 then none else some builder
  | fuel + 1, builder =>
      let numWeights := builder.weightCounts.getD weight 0
      if numWeights > 2 then do
        let flatBits := numWeights.log2
        let flatNum := 2 ^ flatBits
        let flatOff := numWeights - flatNum
        let flatWeight := weight + flatBits
        let symbols ← (List.range flatNum).mapM fun i =>
          childSymbol builder (builder.weightOffsets.getD weight 0 + flatOff + i)
        let builder ← appendLeaf builder flatWeight ⟨builder.nextSymbol, flatNum⟩
        let builder ← appendSymbols builder symbols
        peelLeaves weight fuel
          { builder with
            weightCounts := builder.weightCounts.modify weight (· - flatNum) }
      else some builder

/-- `optimizeLeaves`, for the weights from `weight` down to 1. -/
def optimizeLeaves : Nat → PivCoBuilder → Option PivCoBuilder
  | 0, builder => some builder
  | weight + 1, builder => do
      let builder ← peelLeaves (weight + 1) (builder.weightCounts.getD (weight + 1) 0) builder
      optimizeLeaves weight builder

/-- The offsets of the buckets: each reserves as many slots for flat leaves as its weight. -/
def layOut (weightCounts : List Nat) : Nat → List Nat
  | 0 => [0]
  | 1 => [0, 0]
  | weight + 1 =>
      let offsets := layOut weightCounts weight
      offsets ++ [offsets.getD weight 0 + weightCounts.getD weight 0 + weight]

/-- The loop that seeds a leaf for each present symbol, with the next free slots. -/
def seedLeaves : List UInt8 → Nat → List Nat → PivCoBuilder → Option PivCoBuilder
  | [], _, _, builder => some builder
  | weight :: weights, symbol, weightPos, builder =>
      if weight = 0 then seedLeaves weights (symbol + 1) weightPos builder
      else do
        let pos := weightPos.getD weight.toNat 0
        let leaf := ⟨builder.nextSymbol, 1⟩
        let builder ← appendSymbols builder [UInt8.ofNat symbol]
        if pos < leafStorageSize then
          seedLeaves weights (symbol + 1) (weightPos.modify weight.toNat (· + 1))
            { builder with leaves := builder.leaves.set pos leaf }
        else none

/-- `ZL_PivCoHuffmanTree` -/
structure PivCoHuffmanTree where
  symbolToRank : List Nat
  rankToSymbol : List UInt8
  rankToFlatDepth : List Nat
  rankToCodeword : List Nat
  numLevels : Nat
  numRanks : Nat
  tableLog : Nat
  deriving DecidableEq

/-- The symbols of a leaf, from `flatIdx` on. -/
def assignSymbols (level flatBits codeword rank : Nat) :
    List UInt8 → Nat → PivCoHuffmanTree → PivCoHuffmanTree
  | [], _, tree => tree
  | symbol :: symbols, flatIdx, tree =>
      let symbolRank := rank + flatIdx
      let totalBits := level + flatBits
      let bits := codeword <<< flatBits + flatIdx
      let symbolCodeword := if totalBits = 0 then 0 else bits <<< (16 - totalBits) % 2 ^ 16
      assignSymbols level flatBits codeword rank symbols (flatIdx + 1)
        { tree with
          symbolToRank := tree.symbolToRank.set symbol.toNat (symbolRank % 2 ^ 8)
          rankToSymbol := tree.rankToSymbol.set symbolRank symbol
          rankToFlatDepth := tree.rankToFlatDepth.set symbolRank flatBits
          rankToCodeword := tree.rankToCodeword.set symbolRank symbolCodeword }

/-- The leaves of one level, with the running codeword and rank. -/
def assignLevel (level : Nat) (builder : PivCoBuilder) :
    List PivCoLeaf → Nat → Nat → PivCoHuffmanTree → Option (Nat × Nat × PivCoHuffmanTree)
  | [], codeword, rank, tree => some (codeword, rank, tree)
  | leaf :: leaves, codeword, rank, tree =>
      -- `leafFlatDepth`
      let flatBits := leaf.numSymbols.log2
      if level + flatBits ≤ 16 ∧ rank + leaf.numSymbols ≤ maxSymbols then
        assignLevel level builder leaves (codeword + 1) (rank + leaf.numSymbols)
          (assignSymbols level flatBits codeword rank
            (Buffer.read builder.symbolStorage leaf.symbolOffset leaf.numSymbols) 0 tree)
      else none

/-- The leaves of a bucket. -/
def bucketLeaves (builder : PivCoBuilder) (weight : Nat) : List PivCoLeaf :=
  Buffer.read builder.leaves (builder.weightOffsets.getD weight 0)
    (builder.weightCounts.getD weight 0)

/-- `assignRanksAndCodewords`, for `n` levels from `level` on. -/
def assignRanksAndCodewords (builder : PivCoBuilder) :
    Nat → Nat → Nat → Nat → PivCoHuffmanTree → Option PivCoHuffmanTree
  | 0, _, codeword, rank, tree =>
      -- a complete code leaves the counter at the number of codewords of the deepest level
      if codeword = 1 <<< (tree.numLevels - 1) ∧ rank ≤ maxSymbols then
        some { tree with numRanks := rank }
      else none
  | n + 1, level, codeword, rank, tree => do
      let weight := tree.tableLog + 1 - level
      let (codeword, rank, tree) ←
        assignLevel level builder (bucketLeaves builder weight) codeword rank tree
      let codeword := if level + 1 < tree.numLevels then codeword <<< 1 else codeword
      assignRanksAndCodewords builder n (level + 1) codeword rank tree

/-- The smallest weight whose bucket is not empty. -/
def minWeight (weightCounts : List Nat) : Nat → Nat → Nat
  | 0, weight => weight
  | fuel + 1, weight =>
      if weightCounts.getD weight 0 = 0 then minWeight weightCounts fuel (weight + 1) else weight

/-- `ZL_PivCoHuffmanTree_build`, up to `optimizeLeaves`. -/
def buildLeaves (ssse3 : Bool) (weights : List UInt8) (tableLog : Nat) : Option PivCoBuilder := do
  let weightCounts := countWeights ssse3 weights
  let weightOffsets := layOut weightCounts (maxWeight + 1)
  let builder ← seedLeaves weights 0 weightOffsets
    { leaves := List.replicate leafStorageSize ⟨0, 0⟩
      symbolStorage := List.replicate symbolStorageSize 0
      weightCounts := weightCounts
      weightOffsets := weightOffsets
      nextSymbol := 0 }
  optimizeLeaves tableLog builder

/-- `ZL_PivCoHuffmanTree_build` -/
def build (ssse3 : Bool) (weights : List UInt8) (tableLog : Nat) : Option PivCoHuffmanTree := do
  let builder ← buildLeaves ssse3 weights tableLog
  let minWeight := minWeight builder.weightCounts 16 1
  if minWeight ≤ tableLog + 1 then
    let numLevels := tableLog + 2 - minWeight
    assignRanksAndCodewords builder numLevels 0 0 0
      { symbolToRank := List.replicate maxSymbols 0
        rankToSymbol := List.replicate maxSymbols 0
        rankToFlatDepth := List.replicate maxSymbols 0
        rankToCodeword := List.replicate maxSymbols 0
        numLevels := numLevels
        numRanks := 0
        tableLog := tableLog }
  else none

/-- `ZL_PivCoHuffmanTree_rangeIsLeaf` -/
def rangeIsLeaf (tree : PivCoHuffmanTree) (firstRank rankEnd : Nat) : Bool :=
  1 <<< tree.rankToFlatDepth.getD firstRank 0 = rankEnd - firstRank

/-- `ZL_PivCoHuffmanTree_leafFlatDepth` -/
def leafFlatDepth (tree : PivCoHuffmanTree) (firstRank : Nat) : Nat :=
  tree.rankToFlatDepth.getD firstRank 0

/-- `ZL_PivCoHuffmanTree_rangeIsConstantLeaf` -/
def rangeIsConstantLeaf (tree : PivCoHuffmanTree) (firstRank rankEnd : Nat) : Bool :=
  rangeIsLeaf tree firstRank rankEnd && leafFlatDepth tree firstRank == 0

/-- The scan of `ZL_PivCoHuffmanTree_splitRank`. -/
def scanRank (tree : PivCoHuffmanTree) (mask rankEnd : Nat) : Nat → Nat → Option Nat
  | 0, _ => none
  | fuel + 1, splitRank =>
      if tree.rankToCodeword.getD splitRank 0 &&& mask = 0 then
        if splitRank < rankEnd then scanRank tree mask rankEnd fuel (splitRank + 1) else none
      else if splitRank < rankEnd then some splitRank else none

/-- `ZL_PivCoHuffmanTree_splitRank` -/
def splitRank (tree : PivCoHuffmanTree) (level firstRank rankEnd : Nat) : Option Nat :=
  let mask := 0x8000 >>> level
  if level < tree.numLevels ∧ firstRank + 1 < rankEnd ∧ rankEnd ≤ tree.numRanks ∧
      tree.rankToCodeword.getD firstRank 0 &&& mask = 0 then
    scanRank tree mask rankEnd maxSymbols (firstRank + 1)
  else none

end OpenZL.Codecs.Pivco
