import OpenZL.Common.Basic
import OpenZL.Lib.LinkedCells

/-!
# The generic hash table (`detail/table.h`)

Separate chaining with the first entry of each bucket inside the table. A read or a write out of
bounds, and a chain that does not end, leave an operation undefined (`none`).
-/

namespace OpenZL.Common.Table

open OpenZL.Lib

variable {κ E : Type}

/-- `GenericTable_Policy`.  An entry starts with its key. -/
structure Policy (κ E : Type) where
  key : E → κ
  hashFn : κ → UInt64
  eqFn : κ → κ → Bool
  kBucketSize : Nat

abbrev Bucket (E : Type) := Cell E

/-- `ZL_TABLE_NEXT_BUCKET_EMPTY` -/
def NEXT_BUCKET_EMPTY : Nat := 2 ^ 32 - 1

/-- `ZL_TABLE_NEXT_CHAIN_EMPTY` -/
def NEXT_CHAIN_EMPTY : Nat := 2 ^ 32 - 2

/-- `ZL_TABLE_MAX_CAPACITY` -/
def MAX_CAPACITY : Nat := 2 ^ 30 - 1

/-- What the memory functions do: whether their `i`-th call succeeds, and what the memory it adds
holds. -/
structure Allocator (E : Type) where
  grants : Nat → Bool
  residue : Nat → Nat → Bucket E

/-- `GenericTable`, with the number of calls for memory made so far. -/
structure GenericTable (E : Type) where
  table : List (Bucket E)
  chain : List (Bucket E)
  tableMask : Nat
  tableSize : Nat
  tableCapacity : Nat
  chainSize : Nat
  chainCapacity : Nat
  chainFreeList : Nat
  maxCapacity : Nat
  allocations : Nat
  deriving DecidableEq, Repr

/-- `GenericTable_create` -/
def create (maxCapacity : Nat) : GenericTable E where
  table := []
  chain := []
  tableMask := 0
  tableSize := 0
  tableCapacity := 0
  chainSize := 0
  chainCapacity := 0
  chainFreeList := NEXT_CHAIN_EMPTY
  maxCapacity := min maxCapacity MAX_CAPACITY
  allocations := 0

/-- A pointer to a bucket of the table or of the chain. -/
inductive Place where
  | inline (index : Nat)
  | chained (index : Nat)
  deriving DecidableEq, Repr

/-- Read through a pointer. -/
def GenericTable.bucketAt (t : GenericTable E) : Place → Option (Bucket E)
  | .inline i => t.table[i]?
  | .chained i => t.chain[i]?

/-- Write through a pointer. -/
def GenericTable.write (t : GenericTable E) (place : Place) (b : Bucket E) :
    Option (GenericTable E) :=
  match place with
  | .inline i => if i < t.table.length then some { t with table := t.table.set i b } else none
  | .chained i => if i < t.chain.length then some { t with chain := t.chain.set i b } else none

/-- `GenericTable_getTableBucket` -/
def getTableBucket (p : Policy κ E) (t : GenericTable E) (key : κ) : Nat :=
  (p.hashFn key).toNat &&& t.tableMask

/-- `GenericTable_getTableSize`: the number of buckets. -/
def getTableSize (t : GenericTable E) : Nat := if t.tableMask = 0 then 0 else t.tableMask + 1

/-- `GenericTable_Iter` -/
structure Iter where
  bucket : Option Place
  index : Nat
  deriving DecidableEq, Repr

/-- The loop of `GenericTable_Iter_skipToNonEmptyBucket`. -/
def skipToNonEmptyBucket (t : GenericTable E) : Nat → Nat → Place → Option Iter
  | 0, _, _ => none
  | fuel + 1, index, place => do
    let b ← t.bucketAt place
    if b.next ≠ NEXT_BUCKET_EMPTY then return ⟨some place, index⟩
    if index = t.tableMask then return ⟨none, index⟩
    skipToNonEmptyBucket t fuel (index + 1) (.inline (index + 1))

/-- `GenericTable_iter` -/
def iter (t : GenericTable E) : Option Iter :=
  if t.table = [] then some ⟨none, 0⟩
  else skipToNonEmptyBucket t t.table.length 0 (.inline 0)

/-- `GenericTable_Iter_next`: the entry the iterator stands at, and the iterator moved on. -/
def iterNext (t : GenericTable E) (it : Iter) : Option (Option E × Iter) :=
  match it.bucket with
  | none => some (none, it)
  | some place => do
    let b ← t.bucketAt place
    if b.next ≠ NEXT_CHAIN_EMPTY then
      return (some b.entry, { it with bucket := some (.chained b.next) })
    if it.index = t.tableMask then return (some b.entry, { it with bucket := none })
    let it' ← skipToNonEmptyBucket t t.table.length (it.index + 1) (.inline (it.index + 1))
    return (some b.entry, it')

/-- Call `GenericTable_Iter_next` until it returns `NULL`. -/
def iterateFrom (t : GenericTable E) : Nat → Iter → Option (List E)
  | 0, _ => none
  | fuel + 1, it => do
    let (entry, it') ← iterNext t it
    match entry with
    | none => return []
    | some e => return e :: (← iterateFrom t fuel it')

def iterate (t : GenericTable E) : Option (List E) := do
  iterateFrom t (t.tableSize + 1) (← iter t)

/-- The loop of `GenericTable_find`. -/
def findFrom (p : Policy κ E) (t : GenericTable E) (key : κ) : Nat → Place → Option (Option Place)
  | 0, _ => none
  | fuel + 1, place => do
    let b ← t.bucketAt place
    if p.eqFn key (p.key b.entry) then return some place
    if b.next = NEXT_CHAIN_EMPTY then return none
    findFrom p t key fuel (.chained b.next)

/-- `GenericTable_find` -/
def find (p : Policy κ E) (t : GenericTable E) (key : κ) : Option (Option Place) :=
  if t.table = [] then some none
  else do
    let place := Place.inline (getTableBucket p t key)
    let b ← t.bucketAt place
    if b.next = NEXT_BUCKET_EMPTY then return none
    findFrom p t key (t.chainSize + 1) place

/-- `GenericTable_nextCapacity` -/
def nextCapacity (capacity maxCapacity : Nat) (pow2 : Bool) : Nat :=
  let newCapacity :=
    if capacity = 0 then 4
    else if 512 ≤ capacity ∧ pow2 = false then capacity * 5 % 2 ^ 32 / 4
    else capacity * 2 % 2 ^ 32
  if newCapacity < capacity ∨ maxCapacity < newCapacity then maxCapacity else newCapacity

/-- `GenericTable_reallocMem` to `size` buckets: the buckets there were, then what the memory
holds. -/
def reallocMem (a : Allocator E) (t : GenericTable E) (buckets : List (Bucket E)) (size : Nat) :
    Option (List (Bucket E)) × GenericTable E :=
  (if a.grants t.allocations then
      some ((List.range size).map fun i => buckets[i]?.getD (a.residue t.allocations i))
    else none,
   { t with allocations := t.allocations + 1 })

/-- `ZL_overflowMulST` does not report an overflow. -/
def fitsMemory (p : Policy κ E) (size : Nat) : Prop := p.kBucketSize * size < 2 ^ 64

instance (p : Policy κ E) (size : Nat) : Decidable (fitsMemory p size) :=
  inferInstanceAs (Decidable (_ < _))

/-- `GenericTable_growChain` -/
def growChain (p : Policy κ E) (a : Allocator E) (t : GenericTable E) (minCapacity : Nat) :
    Bool × GenericTable E :=
  let newChainCapacity := max (nextCapacity t.chainCapacity t.maxCapacity false) minCapacity
  if newChainCapacity ≤ t.chainCapacity then (true, t)
  else if ¬ fitsMemory p newChainCapacity then (false, t)
  else
    match reallocMem a t t.chain newChainCapacity with
    | (none, t) => (false, t)
    | (some chain, t) => (true, { t with chain := chain, chainCapacity := newChainCapacity })

/-- `GenericTable_reserveChainIndex`: a slot of the chain, `NEXT_CHAIN_EMPTY` when there is no
memory for one. -/
def reserveChainIndex (p : Policy κ E) (a : Allocator E) (t : GenericTable E) :
    Option (Nat × GenericTable E) :=
  if t.chainFreeList ≠ NEXT_CHAIN_EMPTY then do
    let b ← t.bucketAt (.chained t.chainFreeList)
    return (t.chainFreeList, { t with chainFreeList := b.next })
  else
    let (grown, t) := if t.chainCapacity ≤ t.chainSize then growChain p a t 0 else (true, t)
    if grown then some (t.chainSize, { t with chainSize := t.chainSize + 1 })
    else some (NEXT_CHAIN_EMPTY, t)

/-- `GenericTable_clear` -/
def clear (t : GenericTable E) : GenericTable E :=
  { t with
    table := t.table.mapIdx fun i b =>
      if i < getTableSize t then { b with next := NEXT_BUCKET_EMPTY } else b
    tableSize := 0
    chainSize := 0
    chainFreeList := NEXT_CHAIN_EMPTY }

/-- The body of the inner loop of `GenericTable_rehash`: move the bucket at `chainIndex` to its new
position. -/
def moveBucket (p : Policy κ E) (newTableMask chainIndex : Nat) (t : GenericTable E) :
    Option (GenericTable E) := do
  let bucket ← t.bucketAt (.chained chainIndex)
  let newTableIdx := (p.hashFn (p.key bucket.entry)).toNat &&& newTableMask
  let newBucket ← t.bucketAt (.inline newTableIdx)
  if newBucket.next = NEXT_BUCKET_EMPTY then
    let t ← t.write (.inline newTableIdx) ⟨bucket.entry, NEXT_CHAIN_EMPTY⟩
    let t ← t.write (.chained chainIndex) ⟨bucket.entry, t.chainFreeList⟩
    return { t with chainFreeList := chainIndex }
  else
    let t ← t.write (.chained chainIndex) ⟨bucket.entry, newBucket.next⟩
    t.write (.inline newTableIdx) ⟨newBucket.entry, chainIndex⟩

/-- The inner loop of `GenericTable_rehash`; `next` is the slot after `chainIndex`. -/
def relink (p : Policy κ E) (newTableMask : Nat) :
    Nat → Nat → Nat → GenericTable E → Option (GenericTable E)
  | 0, _, _, _ => none
  | fuel + 1, chainIndex, next, t => do
    let t ← moveBucket p newTableMask chainIndex t
    if next = NEXT_CHAIN_EMPTY then return t
    let bucket ← t.bucketAt (.chained next)
    relink p newTableMask fuel next bucket.next t

/-- The body of the outer loop of `GenericTable_rehash`. -/
def rehashBucket (p : Policy κ E) (a : Allocator E) (newTableMask tableIdx : Nat)
    (t : GenericTable E) : Option (GenericTable E) := do
  let inlineBucket ← t.bucketAt (.inline tableIdx)
  if inlineBucket.next = NEXT_BUCKET_EMPTY then return t
  let (chainIndex, t) ← reserveChainIndex p a t
  let t ← t.write (.chained chainIndex) inlineBucket
  let t ← t.write (.inline tableIdx) { inlineBucket with next := NEXT_BUCKET_EMPTY }
  relink p newTableMask (t.chainSize + 1) chainIndex inlineBucket.next t

/-- `GenericTable_rehash`: `table` is already the new memory, its mask still the old one. -/
def rehash (p : Policy κ E) (a : Allocator E) (newTableMask : Nat) (t : GenericTable E) :
    Option (GenericTable E) :=
  let tableSize := getTableSize t
  (List.range tableSize).foldlM (fun t i => rehashBucket p a newTableMask i t)
    { t with
      table := t.table.mapIdx fun i b =>
        if tableSize ≤ i then { b with next := NEXT_BUCKET_EMPTY } else b }

/-- `GenericTable_reserve` from where the chain has room for one more bucket. -/
def growTable (p : Policy κ E) (a : Allocator E) (t : GenericTable E) (capacity : Nat)
    (guaranteeNoAllocations : Bool) : Option (Bool × GenericTable E) :=
  let newCapacity := max capacity (nextCapacity t.tableCapacity t.maxCapacity true)
  let newTableSize := 2 * 2 ^ nextPow2 newCapacity % 2 ^ 32
  if ¬ fitsMemory p newTableSize then some (false, t)
  else
    match reallocMem a t t.table newTableSize with
    | (none, t) => some (false, t)
    | (some newTable, t) => do
      let t ← rehash p a (newTableSize - 1) { t with table := newTable }
      let t := { t with tableMask := newTableSize - 1, tableCapacity := newCapacity }
      if guaranteeNoAllocations then return growChain p a t capacity else return (true, t)

/-- `GenericTable_reserve` -/
def reserve (p : Policy κ E) (a : Allocator E) (t : GenericTable E) (capacity : Nat)
    (guaranteeNoAllocations : Bool) : Option (Bool × GenericTable E) :=
  if capacity ≤ t.tableCapacity then some (true, t)
  else if t.maxCapacity < capacity then some (false, t)
  else
    let (room, t) :=
      if t.chainFreeList = NEXT_CHAIN_EMPTY ∧ t.chainCapacity ≤ t.chainSize then
        growChain p a t 0
      else (true, t)
    if room then growTable p a t capacity guaranteeNoAllocations else some (false, t)

/-- `GenericTable_Insert` -/
structure Insert where
  ptr : Option Place
  inserted : Bool
  badAlloc : Bool
  deriving DecidableEq, Repr

/-- The end of the loop of `GenericTable_insert`: the entry is not there, and `place` is the last
bucket of its chain. -/
def appendBucket (p : Policy κ E) (a : Allocator E) (entry : E) (place : Place)
    (bucket : Bucket E) (t : GenericTable E) : Option (Insert × GenericTable E) := do
  let (newChainIndex, t) ← reserveChainIndex p a t
  if newChainIndex = NEXT_CHAIN_EMPTY then return (⟨none, false, true⟩, t)
  let t ← t.write place { bucket with next := newChainIndex }
  let t ← t.write (.chained newChainIndex) ⟨entry, NEXT_CHAIN_EMPTY⟩
  return (⟨some (.chained newChainIndex), true, false⟩, { t with tableSize := t.tableSize + 1 })

/-- The loop of `GenericTable_insert`. -/
def insertFrom (p : Policy κ E) (a : Allocator E) (entry : E) :
    Nat → Place → GenericTable E → Option (Insert × GenericTable E)
  | 0, _, _ => none
  | fuel + 1, place, t => do
    let bucket ← t.bucketAt place
    if p.eqFn (p.key entry) (p.key bucket.entry) then return (⟨some place, false, false⟩, t)
    if bucket.next ≠ NEXT_CHAIN_EMPTY then insertFrom p a entry fuel (.chained bucket.next) t
    else appendBucket p a entry place bucket t

/-- `GenericTable_insert` once there is room in the table. -/
def insertHashed (p : Policy κ E) (a : Allocator E) (t : GenericTable E) (entry : E) :
    Option (Insert × GenericTable E) := do
  let place := Place.inline (getTableBucket p t (p.key entry))
  let bucket ← t.bucketAt place
  if bucket.next = NEXT_BUCKET_EMPTY then
    let t ← t.write place ⟨entry, NEXT_CHAIN_EMPTY⟩
    return (⟨some place, true, false⟩, { t with tableSize := t.tableSize + 1 })
  else insertFrom p a entry (t.chainSize + 1) place t

/-- `GenericTable_insert` -/
def insert (p : Policy κ E) (a : Allocator E) (t : GenericTable E) (entry : E) :
    Option (Insert × GenericTable E) :=
  if t.tableSize = t.tableCapacity then do
    let (reserved, t) ← reserve p a t (t.tableSize + 1) false
    if reserved then insertHashed p a t entry else return (⟨none, false, true⟩, t)
  else insertHashed p a t entry

/-- `Table_insertVal`: the entry is passed by value. -/
def insertVal (p : Policy κ E) (a : Allocator E) (t : GenericTable E) (entry : E) :
    Option (Insert × GenericTable E) := insert p a t entry

/-- The loop of `GenericTable_erase`: `place` is the bucket before the one looked at. -/
def eraseFrom (p : Policy κ E) (key : κ) :
    Nat → Place → GenericTable E → Option (Bool × GenericTable E)
  | 0, _, _ => none
  | fuel + 1, place, t => do
    let prev ← t.bucketAt place
    if prev.next = NEXT_CHAIN_EMPTY then return (false, t)
    let bucket ← t.bucketAt (.chained prev.next)
    if p.eqFn key (p.key bucket.entry) then
      let t ← t.write (.chained prev.next) { bucket with next := t.chainFreeList }
      let t ← t.write place { prev with next := bucket.next }
      return (true, { t with chainFreeList := prev.next, tableSize := t.tableSize - 1 })
    else eraseFrom p key fuel (.chained prev.next) t

/-- `GenericTable_erase` -/
def erase (p : Policy κ E) (t : GenericTable E) (key : κ) : Option (Bool × GenericTable E) :=
  if t.table = [] then some (false, t)
  else do
    let place := Place.inline (getTableBucket p t key)
    let bucket ← t.bucketAt place
    if bucket.next = NEXT_BUCKET_EMPTY then return (false, t)
    if p.eqFn key (p.key bucket.entry) then
      if bucket.next = NEXT_CHAIN_EMPTY then
        let t ← t.write place { bucket with next := NEXT_BUCKET_EMPTY }
        return (true, { t with tableSize := t.tableSize - 1 })
      else
        let nextBucket ← t.bucketAt (.chained bucket.next)
        let t ← t.write place nextBucket
        let t ← t.write (.chained bucket.next) { nextBucket with next := t.chainFreeList }
        return (true, { t with chainFreeList := bucket.next, tableSize := t.tableSize - 1 })
    else eraseFrom p key (t.chainSize + 1) place t

/-- `Table_eraseVal`: the key is passed by value. -/
def eraseVal (p : Policy κ E) (t : GenericTable E) (key : κ) : Option (Bool × GenericTable E) :=
  erase p t key

end OpenZL.Common.Table
