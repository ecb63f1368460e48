import OpenZL.Common.Table
import OpenZL.Lib.BinaryHeap
import OpenZL.Shared.Varint

/-!
# The merge_sorted codec

`encode_merge_sorted_kernel.c`, `encode_merge_sorted_binding.c` and their decoders: a list that is
the concatenation of strictly increasing runs becomes the values of the runs, merged without
repetition, and for each value the set of the runs it is in. A failed assertion and a write past the
end of a stream are `none`.
-/

namespace OpenZL.Codecs.MergeSorted

open OpenZL.Common OpenZL.Lib OpenZL.Shared

/-- `ZL_ARRAY_SIZE(pq->heap)` -/
def HEAP_SIZE : Nat := 64

/-- The policy of `PQSet`: a set of numbers. -/
def pqPolicy (hashFn : Nat → UInt64) : Table.Policy Nat Nat := ⟨id, hashFn, (· == ·), 8⟩

/-- `PriorityQueue`; the cells of the heap in use. -/
structure PriorityQueue where
  heap : List Nat
  set : Table.GenericTable Nat

/-- `Detail_PQ_parent` -/
def parentOf (idx : Nat) : Nat := (idx - 1) / 2

/-- `Detail_PQ_left` -/
def leftOf (idx : Nat) : Nat := 2 * idx + 1

/-- `Detail_PQ_right` -/
def rightOf (idx : Nat) : Nat := 2 * idx + 2

/-- A cell of the heap. -/
def cell (heap : List Nat) (idx : Nat) : Nat := heap.getD idx 0

/-- `Detail_PQ_swap` -/
def swap (heap : List Nat) (x y : Nat) : List Nat :=
  (heap.set x (cell heap y)).set y (cell heap x)

/-- `Detail_PQ_heapifyUp` -/
def heapifyUp (heap : List Nat) (idx : Nat) : List Nat :=
  if idx ≠ 0 ∧ cell heap (parentOf idx) > cell heap idx then
    heapifyUp (swap heap (parentOf idx) idx) (parentOf idx)
  else heap
termination_by idx
decreasing_by
  rw [parentOf]
  omega

/-- The least of a cell and its children. -/
def least (heap : List Nat) (idx : Nat) : Nat :=
  let min := idx
  let min :=
    if leftOf idx < heap.length ∧ cell heap (leftOf idx) < cell heap min then leftOf idx else min
  if rightOf idx < heap.length ∧ cell heap (rightOf idx) < cell heap min then rightOf idx else min

theorem least_cases (heap : List Nat) (idx : Nat) :
    least heap idx = idx ∨
      (least heap idx = leftOf idx ∧ leftOf idx < heap.length) ∨
      least heap idx = rightOf idx ∧ rightOf idx < heap.length := by
  rw [least]
  generalize hmin : (if leftOf idx < heap.length ∧ cell heap (leftOf idx) < cell heap idx then
    leftOf idx else idx) = min
  split
  · rename_i h
    exact Or.inr (Or.inr ⟨rfl, h.1⟩)
  · rw [← hmin]
    split
    · rename_i h
      exact Or.inr (Or.inl ⟨rfl, h.1⟩)
    · exact Or.inl rfl

theorem length_swap (heap : List Nat) (x y : Nat) : (swap heap x y).length = heap.length := by
  rw [swap, List.length_set, List.length_set]

/-- `Detail_PQ_heapifyDown` -/
def heapifyDown (heap : List Nat) (idx : Nat) : List Nat :=
  if least heap idx ≠ idx then
    heapifyDown (swap heap (least heap idx) idx) (least heap idx)
  else heap
termination_by heap.length - idx
decreasing_by
  rename_i hne
  rw [length_swap]
  have hcases := least_cases heap idx
  rw [leftOf, rightOf] at hcases
  omega

variable (hashFn : Nat → UInt64) (a : Table.Allocator Nat)

/-- `PQ_insert` -/
def pqInsert (pq : PriorityQueue) (val : Nat) : Option PriorityQueue :=
  if pq.heap.length < HEAP_SIZE ∧ pq.set.tableSize < HEAP_SIZE then do
    let (ins, set) ← Table.insertVal (pqPolicy hashFn) a pq.set val
    if ins.badAlloc then none
    else if ins.inserted then
      return ⟨heapifyUp (pq.heap ++ [val]) pq.heap.length, set⟩
    else return { pq with set := set }
  else none

/-- `PQ_popMin` -/
def pqPopMin (pq : PriorityQueue) : Option (Nat × PriorityQueue) :=
  if pq.heap.length > 0 then do
    let min := cell pq.heap 0
    let (erased, set) ← Table.eraseVal (pqPolicy hashFn) pq.set min
    if erased then
      let size := pq.heap.length - 1
      if size > 0 then
        let heap := (pq.heap.set 0 (cell pq.heap size)).take size
        return (min, ⟨heapifyDown heap 0, set⟩)
      else return (min, ⟨[], set⟩)
    else none
  else none

/-- `PQ_init`: whether there was memory, and the queue. -/
def pqInit (nbSrcs : Nat) : Option (Bool × PriorityQueue) :=
  if nbSrcs ≤ HEAP_SIZE then do
    let (ok, set) ← Table.reserve (pqPolicy hashFn) a (Table.create (nbSrcs + 1)) nbSrcs true
    return (ok, ⟨[], set⟩)
  else none

/-- The first value of each run goes to the queue. -/
def insertHeads : List (List Nat) → PriorityQueue → Option PriorityQueue
  | [], pq => some pq
  | [] :: srcs, pq => insertHeads srcs pq
  | (val :: _) :: srcs, pq => do insertHeads srcs (← pqInsert hashFn a pq val)

/-- The inner loop of `ZS2_MergeSorted_merge`, from the run `i` on: the bitset, and what is left of
the runs. -/
def scanSrcs (min : Nat) : List (List Nat) → Nat → Nat → PriorityQueue →
    Option (Nat × List (List Nat) × PriorityQueue)
  | [], _, bitset, pq => some (bitset, [], pq)
  | [] :: srcs, i, bitset, pq => do
      let (bitset, srcs, pq) ← scanSrcs min srcs (i + 1) bitset pq
      return (bitset, [] :: srcs, pq)
  | (val :: src) :: srcs, i, bitset, pq =>
      if val < min then none
      else if val = min then
        match src with
        | [] => do
            let (bitset, srcs, pq) ← scanSrcs min srcs (i + 1) (bitset ||| 1 <<< i) pq
            return (bitset, [] :: srcs, pq)
        | next :: src =>
            if next > min then do
              let pq ← pqInsert hashFn a pq next
              let (bitset, srcs, pq) ← scanSrcs min srcs (i + 1) (bitset ||| 1 <<< i) pq
              return (bitset, (next :: src) :: srcs, pq)
            else none
      else do
        let (bitset, srcs, pq) ← scanSrcs min srcs (i + 1) bitset pq
        return (bitset, (val :: src) :: srcs, pq)

/-- The outer loop, with `room` values left in the streams: each merged value with its bitset. -/
def mergeLoop (kBitsetWidth : Nat) :
    Nat → Option Nat → List (List Nat) → PriorityQueue → Option (List (Nat × Nat))
  | room, last, srcs, pq =>
      if pq.heap.length = 0 then some []
      else
        match room with
        | 0 => none
        | room + 1 => do
            let (min, pq) ← pqPopMin hashFn pq
            let (bitset, srcs, pq) ← scanSrcs hashFn a min srcs 0 0 pq
            if last.all (· < min) then
              let rows ← mergeLoop kBitsetWidth room (some min) srcs pq
              return (bitset % 2 ^ (8 * kBitsetWidth), min) :: rows
            else none

/-- `ZS2_MergeSorted_merge`, into streams of `nbElts` values. -/
def merge (nbElts : Nat) (srcs : List (List Nat)) (kBitsetWidth : Nat) :
    Option (Except ErrorCode (List (Nat × Nat))) :=
  if kBitsetWidth ≤ 8 ∧ srcs.length ≤ kBitsetWidth * 8 then do
    let (ok, pq) ← pqInit hashFn a srcs.length
    if ok then
      let pq ← insertHeads hashFn a srcs pq
      let rows ← mergeLoop hashFn a kBitsetWidth nbElts none srcs pq
      return .ok rows
    else return .error .allocation
  else none

/-- `kMaxNbSrcs` -/
def MAX_NB_SRCS : Nat := 64

/-- The loop of `getSortedRuns`: the runs that are complete, the run it is in and the value before
the next. -/
def getSortedRunsFrom : List Nat → List (List Nat) → List Nat → Nat →
    Except ErrorCode (List (List Nat))
  | [], srcs, src, _ => .ok (srcs ++ [src])
  | val :: rest, srcs, src, prev =>
      if val ≤ prev then
        if srcs.length + 1 ≥ MAX_NB_SRCS then .error .node_invalid_input
        else getSortedRunsFrom rest (srcs ++ [src]) [val] val
      else getSortedRunsFrom rest srcs (src ++ [val]) val

/-- `getSortedRuns` -/
def getSortedRuns : List Nat → Except ErrorCode (List (List Nat))
  | [] => .ok []
  | val :: rest => getSortedRunsFrom rest [] [val] val

/-- `writeHeader` -/
def writeHeader (srcs : List (List Nat)) : List UInt8 :=
  srcs.flatMap fun src => varintEncode src.length

/-- What the encoder produces. -/
structure Encoded where
  header : List UInt8
  bitsetWidth : Nat
  bitsets : List Nat
  merged : List Nat
  deriving DecidableEq, Repr

/-- `EI_mergeSorted` -/
def mergeSorted (eltWidth : Nat) (values : List Nat) : Option (Except ErrorCode Encoded) :=
  if eltWidth ≠ 4 then some (.error .node_invalid_input)
  else
    match getSortedRuns values with
    | .error e => some (.error e)
    | .ok srcs => do
        let bitsetWidthLog := if srcs.length = 0 then 1 else nextPow2 ((srcs.length + 7) / 8)
        let bitsetWidth := 1 <<< bitsetWidthLog
        let rows ←
          if srcs.length > 0 then
            if bitsetWidth = 1 ∨ bitsetWidth = 2 ∨ bitsetWidth = 4 ∨ bitsetWidth = 8 then
              merge hashFn a values.length srcs bitsetWidth
            else none
          else some (.ok [])
        return rows.map fun rows =>
          ⟨writeHeader srcs, bitsetWidth, rows.map Prod.fst, rows.map Prod.snd⟩

/-- A destination: its memory, and how much of it is written. -/
structure Dst where
  cells : List Nat
  pos : Nat
  deriving DecidableEq, Repr

/-- The inner loop of `ZL_MergeSorted_split`, from the destination `b` on. -/
def splitValue (bitset val : Nat) : List Dst → Nat → List Dst
  | [], _ => []
  | dst :: dsts, b =>
      (if dst.pos ≠ dst.cells.length then
        ⟨dst.cells.set dst.pos val, if bitset &&& 1 <<< b ≠ 0 then dst.pos + 1 else dst.pos⟩
      else dst) :: splitValue bitset val dsts (b + 1)

/-- `ZL_MergeSorted_split`: the destinations, where all of them are complete. -/
def split (dsts : List Dst) (rows : List (Nat × Nat)) (kBitsetWidth : Nat) :
    Option (Option (List Dst)) :=
  if kBitsetWidth ≤ 8 ∧ dsts.length ≤ kBitsetWidth * 8 then
    let dsts := rows.foldl (fun dsts row => splitValue row.1 row.2 dsts 0) dsts
    some (if dsts.all fun dst => dst.pos == dst.cells.length then some dsts else none)
  else none

/-- The sizes in the header, and their sum so far. -/
def readSizes : Nat → List UInt8 → Nat → Except ErrorCode (List Nat × Nat)
  | 0, _, dstSize => .ok ([], dstSize)
  | fuel + 1, header, dstSize =>
      match header with
      | [] => .ok ([], dstSize)
      | _ :: _ => do
          let (size, rest) ← varintDecode header
          if dstSize + size ≥ 2 ^ 64 then .error .corruption
          else
            let (sizes, dstSize) ← readSizes fuel rest (dstSize + size)
            return (size :: sizes, dstSize)

/-- The destinations of these sizes, one after the other in memory. -/
def dstsOf : List Nat → List Nat → List Dst
  | [], _ => []
  | size :: sizes, cells => ⟨cells.take size, 0⟩ :: dstsOf sizes (cells.drop size)

/-- `fillDstPtrsFromHeader`; `memory` is what new memory holds. -/
def fillDstPtrsFromHeader (memory : Nat → Nat) (header : List UInt8) (bitsetWidth nbElts : Nat) :
    Except ErrorCode (List Dst) :=
  if bitsetWidth * 8 * nbElts ≥ 2 ^ 64 then .error .corruption
  else do
    let (sizes, dstSize) ← readSizes header.length header 0
    if dstSize > bitsetWidth * 8 * nbElts then .error .corruption
    else if sizes.length > MAX_NB_SRCS then .error .corruption
    else if sizes.length > bitsetWidth * 8 then .error .corruption
    else return dstsOf sizes ((List.range dstSize).map memory)

/-- `DI_mergeSorted` -/
def decodeMergeSorted (memory : Nat → Nat) (header : List UInt8) (bitsetWidth : Nat)
    (bitsets : List Nat) (mergedWidth : Nat) (merged : List Nat) :
    Option (Except ErrorCode (List Nat)) :=
  if merged.length ≠ bitsets.length then some (.error .corruption)
  else if mergedWidth ≠ 4 then some (.error .corruption)
  else
    match fillDstPtrsFromHeader memory header bitsetWidth bitsets.length with
    | .error e => some (.error e)
    | .ok dsts =>
        if bitsetWidth = 1 ∨ bitsetWidth = 2 ∨ bitsetWidth = 4 ∨ bitsetWidth = 8 then do
          match ← split dsts (bitsets.zip merged) bitsetWidth with
          | some dsts => return .ok (dsts.flatMap Dst.cells)
          | none => return .error .corruption
        else some (.error .corruption)

end OpenZL.Codecs.MergeSorted
