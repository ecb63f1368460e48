import Mathlib.Algebra.Group.Int.Defs
import Mathlib.Algebra.GroupWithZero.Nat
import OpenZL.Codecs.WildCopy
import OpenZL.Common.TableUpdate
import OpenZL.Lib.Dictionary
import OpenZL.Lib.Result

/-!
# The tokenize codec

`encode_tokenize_binding.c`, the kernels it calls, and their decoders: a list becomes the list of
its distinct elements, the alphabet, and the index of each element in it. The hash functions, the
memory of the maps and `pdqsort` are parameters; streams and scratch space are always there, and
scratch space and outputs hold anything before they are written. A failed assertion, a null pointer
that is followed and an access outside of a buffer are undefined.
-/

namespace OpenZL.Codecs.Tokenize

open OpenZL.Common OpenZL.Lib OpenZL.Codecs.Copy

/-- The errors of the codec. -/
inductive TokenizeError
  | graphInvalid
  | allocation
  | temporaryLibraryLimitation
  | logicError
  | corruption
  deriving DecidableEq, Repr

/-- How a coder may stop. -/
abbrev Stop := Lib.Stop TokenizeError

/-- An alphabet, and the indices with their width. -/
structure Tokens (κ : Type) where
  alphabet : List κ
  indices : List Nat
  idxWidth : Nat
  deriving DecidableEq, Repr

/-- What a store of `width` bytes keeps of a number. -/
def stored (width value : Nat) : Nat := value % 2 ^ (8 * width)

section Map

variable {κ : Type}

/-- The policy of a map from tokens to indices. -/
def mapPolicy (hashFn : κ → UInt64) (eqFn : κ → κ → Bool) (kBucketSize : Nat) :
    Table.Policy κ (κ × Nat) :=
  ⟨Prod.fst, hashFn, eqFn, kBucketSize⟩

variable (p : Table.Policy κ (κ × Nat)) (a : Table.Allocator (κ × Nat))

/-- `Map_containsVal` -/
def containsVal (t : Table.GenericTable (κ × Nat)) (key : κ) : Option Bool := do
  let place ← Table.find p t key
  some place.isSome

/-- `Map_findVal(..)->val` -/
def findVal (t : Table.GenericTable (κ × Nat)) (key : κ) : Option Nat := do
  let place ← Table.find p t key
  let place ← place
  let entry ← t.entryAt place
  some entry.2

/-- `Map_findMutVal(..)->val = val` -/
def setVal (t : Table.GenericTable (κ × Nat)) (key : κ) (val : Nat) :
    Option (Table.GenericTable (κ × Nat)) := do
  let place ← Table.find p t key
  let place ← place
  let entry ← t.entryAt place
  Table.setEntry t place (entry.1, val)

/-- The locals of the loops that build an alphabet; `fieldSizesSum` is that of the strings. -/
structure Build (κ : Type) where
  map : Table.GenericTable (κ × Nat)
  nextIdx : Nat
  badAlloc : Bool
  fieldSizesSum : Nat

/-- The body of these loops. -/
def buildStep (size : κ → Nat) (b : Build κ) (token : κ) : Option (Build κ) := do
  if ← containsVal p b.map token then some b
  else do
    let (insert, map) ← Table.insertVal p a b.map (token, b.nextIdx)
    if insert.badAlloc ∨ insert.inserted then
      some
        { map := map
          nextIdx := b.nextIdx + 1
          badAlloc := b.badAlloc || insert.badAlloc
          fieldSizesSum := b.fieldSizesSum + size token }
    else none

/-- The loops that build an alphabet. -/
def buildAlphabet (size : κ → Nat) (map : Table.GenericTable (κ × Nat)) (tokens : List κ) :
    Option (Build κ) :=
  tokens.foldlM (buildStep p a size) ⟨map, 0, false, 0⟩

/-- The loops over all entries of a map, which write each key at its index. -/
def writeKeys (entries : List (κ × Nat)) (keys : List (Option κ)) : Option (List (Option κ)) :=
  entries.foldlM (fun keys entry =>
    if entry.2 < keys.length then some (keys.set entry.2 (some entry.1)) else none) keys

/-- A buffer that was written whole. -/
def filled (keys : List (Option κ)) : Option (List κ) := keys.mapM id

/-- The keys of a map, in the order of their indices. -/
def keysOf (map : Table.GenericTable (κ × Nat)) : Option (List κ) := do
  let entries ← Table.iterate map
  let keys ← writeKeys entries (List.replicate map.tableSize none)
  filled keys

/-- The loops that give the keys of a map the indices they have after sorting. -/
def syncKeys : List κ → Nat → Table.GenericTable (κ × Nat) →
    Option (Table.GenericTable (κ × Nat))
  | [], _, map => some map
  | key :: keys, i, map => do
      let map ← setVal p map key i
      syncKeys keys (i + 1) map

/-- The loops that write the indices of tokens. -/
def writeIndices (map : Table.GenericTable (κ × Nat)) (idxWidth : Nat) (tokens : List κ) :
    Option (List Nat) :=
  tokens.mapM fun token => do
    let index ← findVal p map token
    some (stored idxWidth index)

end Map

/-- `Map8` -/
def map8 (hashFn : Nat → UInt64) : Table.Policy Nat (Nat × Nat) := mapPolicy hashFn (· == ·) 24

/-- `tokenizeImpl` behind the index width: `writeIndicesImpl`. -/
def writeIndicesImpl (hashFn : Nat → UInt64) (map : Table.GenericTable (Nat × Nat))
    (alphabet input : List Nat) (idxWidth : Nat) : Except Stop (Tokens Nat) := do
  let indices ← defined (writeIndices (map8 hashFn) map idxWidth input)
  .ok ⟨alphabet, indices, idxWidth⟩

/-- `tokenizeImpl`; `pdqsort` sorts numbers of a width. -/
def tokenizeImpl (hashFn : Nat → UInt64) (a : Table.Allocator (Nat × Nat))
    (pdqsort : Nat → List Nat → List Nat) (eltWidth : Nat) (input : List Nat)
    (tokToIdx : Table.GenericTable (Nat × Nat)) (sort : Bool) : Except Stop (Tokens Nat) := do
  let (reserved, map) ←
    defined (Table.reserve (map8 hashFn) a tokToIdx (min 256 (input.length % 2 ^ 32)) false)
  if reserved = false then .error (.error .allocation)
  else do
    let b ← defined (buildAlphabet (map8 hashFn) a (fun _ => 0) map input)
    if b.badAlloc then .error (.error .allocation)
    else do
      let keys ← defined (keysOf b.map)
      let alphabet := keys.map (stored eltWidth)
      let alphabetSize := b.map.tableSize
      let alphabet := if sort then pdqsort eltWidth alphabet else alphabet
      let map ← defined (if sort then syncKeys (map8 hashFn) alphabet 0 b.map else some b.map)
      if alphabetSize > 2 ^ 32 - 1 then .error (.error .temporaryLibraryLimitation)
      else if alphabetSize ≤ 2 ^ 8 then writeIndicesImpl hashFn map alphabet input 1
      else if eltWidth > 1 ∧ alphabetSize ≤ 2 ^ 16 then
        writeIndicesImpl hashFn map alphabet input 2
      else if eltWidth > 2 then writeIndicesImpl hashFn map alphabet input 4
      else .error (.error .logicError)

/-- `detectPresents`: 1 for each number that is present, for numbers below `cardinalityMax`. -/
def detectPresents (cardinalityMax : Nat) (srcSymbols : List Nat) : List Nat :=
  srcSymbols.foldl (fun present symbol => present.set symbol 1) (List.replicate cardinalityMax 0)

/-- `TOK2_numSort_cardinality` of what is present. -/
def numSort_cardinality (present : List Nat) : Nat := present.foldl (· + ·) 0

/-- The body of the loop of `writeAlphabet`: the numbers that are present get an index. -/
def writeSymbol (alphabetCapacity : Nat) (s : List Nat × List Nat) (ai : Nat) :
    Option (List Nat × List Nat) :=
  if s.1.getD ai 0 ≠ 0 then
    if s.2.length < alphabetCapacity then some (s.1.set ai (s.2.length % 2 ^ 8), s.2 ++ [ai])
    else none
  else some s

/-- `writeAlphabet`: the indices of the numbers that are present, and the alphabet. -/
def writeAlphabet (cardinalityMax alphabetCapacity : Nat) (present : List Nat) :
    Option (List Nat × List Nat) := do
  let (indexes, alphabet) ←
    (List.range cardinalityMax).foldlM (writeSymbol alphabetCapacity) (present, [])
  if alphabet.length ≤ 256 then some (indexes, alphabet) else none

/-- `writeIndexes` -/
def writeIndexes (srcSymbols indexes : List Nat) : List Nat :=
  srcSymbols.map fun symbol => indexes.getD symbol 0

/-- `TOK2_CARDINALITY_MAX` -/
def TOK2_CARDINALITY_MAX : Nat := 2 ^ 16

/-- `TOK2_numSort_encode_into1` -/
def numSort_encode_into1 (alphabetCapacity : Nat) (srcSymbols present : List Nat) :
    Option (Tokens Nat) := do
  let (indexes, alphabet) ← writeAlphabet TOK2_CARDINALITY_MAX alphabetCapacity present
  some ⟨alphabet, writeIndexes srcSymbols indexes, 1⟩

/-- The loop of `tokenize1` without sorting: `alphabetReverseMap`, the alphabet and the indices. -/
def tokenize1Step (s : List Int × List Nat × List Nat) (elt : Nat) :
    List Int × List Nat × List Nat :=
  let (alphabetReverseMap, alphabet, indices) := s
  if alphabetReverseMap.getD elt 0 = -1 then
    (alphabetReverseMap.set elt alphabet.length, alphabet ++ [elt],
      indices ++ [alphabet.length % 2 ^ 8])
  else
    (alphabetReverseMap, alphabet,
      indices ++ [((alphabetReverseMap.getD elt 0) % 2 ^ 8).toNat])

/-- `tokenize1`; its loops with sorting are those of `writeAlphabet` and `writeIndexes`. -/
def tokenize1 (input : List Nat) (sort : Bool) : Except Stop (Tokens Nat) :=
  if sort then do
    let (indexes, alphabet) ← defined (writeAlphabet 256 256 (detectPresents 256 input))
    .ok ⟨alphabet, writeIndexes input indexes, 1⟩
  else
    let (_, alphabet, indices) := input.foldl tokenize1Step (List.replicate 256 (-1), [], [])
    if alphabet.length ≤ 256 then .ok ⟨alphabet, indices, 1⟩ else .error .undefined

/-- `tokenize2_shell` -/
def tokenize2_shell (hashFn : Nat → UInt64) (a : Table.Allocator (Nat × Nat))
    (pdqsort : Nat → List Nat → List Nat) (isStruct : Bool) (input : List Nat)
    (tokToIdx : Table.GenericTable (Nat × Nat)) (sort : Bool) : Except Stop (Tokens Nat) :=
  if sort = false ∨ isStruct then tokenizeImpl hashFn a pdqsort 2 input tokToIdx sort
  else if input.length < 5000 then tokenizeImpl hashFn a pdqsort 2 input tokToIdx sort
  else
    let workspace := detectPresents TOK2_CARDINALITY_MAX input
    let alphabetSize := numSort_cardinality workspace
    if alphabetSize > 256 then tokenizeImpl hashFn a pdqsort 2 input tokToIdx sort
    else defined (numSort_encode_into1 alphabetSize input workspace)

/-- `EI_tokenizeImpl`, with `tokenize`: for numbers, or for structs of `eltWidth` bytes. -/
def EI_tokenizeImpl (hashFn : Nat → UInt64) (a : Table.Allocator (Nat × Nat))
    (pdqsort : Nat → List Nat → List Nat) (isStruct : Bool) (eltWidth : Nat) (input : List Nat)
    (sort : Bool) : Except Stop (Tokens Nat) :=
  if isStruct ∧ sort then .error (.error .graphInvalid)
  else
    let alphabet := Table.create ((input.length % 2 ^ 32 + 1) % 2 ^ 32)
    if eltWidth = 1 then tokenize1 input sort
    else if eltWidth = 2 then tokenize2_shell hashFn a pdqsort isStruct input alphabet sort
    else if eltWidth = 4 then tokenizeImpl hashFn a pdqsort 4 input alphabet sort
    else if eltWidth = 8 then tokenizeImpl hashFn a pdqsort 8 input alphabet sort
    else .error (.error .temporaryLibraryLimitation)

/-- The widths of indices that the decoders read. -/
def validIdxWidth (idxWidth : Nat) : Bool :=
  idxWidth == 1 || idxWidth == 2 || idxWidth == 4 || idxWidth == 8

/-- `ZS_tokenizeDecode`, with the check of `DI_tokenize`. -/
def tokenizeDecode (tokens : Tokens Nat) : Except Stop (List Nat) :=
  if tokens.alphabet.length = 0 then
    if tokens.indices.length = 0 then .ok [] else .error (.error .corruption)
  else if validIdxWidth tokens.idxWidth then
    -- an index out of bounds stands for the first symbol
    defined (tokens.indices.mapM fun index =>
      tokens.alphabet[if index ≥ tokens.alphabet.length then 0 else index]?)
  else .error .undefined

/-- `memcmp`: the sign of the first difference of `n` bytes. -/
def memcmp : List UInt8 → List UInt8 → Nat → Int
  | x :: xs, y :: ys, n + 1 => if x = y then memcmp xs ys n else if x < y then -1 else 1
  | _, _, _ => 0

/-- `MapVSF_eq` -/
def MapVSF_eq (lhs rhs : List UInt8) : Bool :=
  if lhs.length ≠ rhs.length then false else memcmp lhs rhs lhs.length == 0

/-- `vsfComparator` -/
def vsfComparator (lhs rhs : List UInt8) : Int :=
  if lhs.length = rhs.length then memcmp lhs rhs lhs.length
  else
    let maxCmpLen := if lhs.length < rhs.length then lhs.length else rhs.length
    let cmpRes := memcmp lhs rhs maxCmpLen
    if cmpRes = 0 then (if lhs.length < rhs.length then -1 else 1) else cmpRes

/-- `MapVSF`; a key is the bytes it points to. -/
def mapVSF (hashFn : List UInt8 → UInt64) : Table.Policy (List UInt8) (List UInt8 × Nat) :=
  mapPolicy hashFn MapVSF_eq 32

/-- The fields that a source and their sizes describe. -/
def fieldsOf : List UInt8 → List Nat → List (List UInt8)
  | _, [] => []
  | src, size :: fieldSizes => src.take size :: fieldsOf (src.drop size) fieldSizes

/-- `getMinIdxSpace` -/
def getMinIdxSpace (alphabetSize : Nat) : Nat :=
  if alphabetSize ≤ 2 ^ 8 then 1 else if alphabetSize ≤ 2 ^ 16 then 2 else 4

/-- `writeVSFAlphabet`: the keys one behind the other. -/
def writeVSFAlphabet : List (List UInt8) → List UInt8 → Nat → Option (List UInt8)
  | [], alphabet, _ => some alphabet
  | key :: keys, alphabet, nextElt => do
      let alphabet ← Buffer.store alphabet nextElt key
      writeVSFAlphabet keys alphabet (nextElt + key.length)

/-- The output of the string encoder. -/
structure VSFTokens where
  alphabet : List UInt8
  alphabetFieldSizes : List Nat
  indices : List Nat
  idxWidth : Nat
  deriving DecidableEq, Repr

/-- `ZS_tokenizeVSFEncode`, into `alphabet`. -/
def tokenizeVSFEncode (hashFn : List UInt8 → UInt64)
    (pdqsortVsf : List (List UInt8) → List (List UInt8)) (alphabet : List UInt8)
    (fields : List (List UInt8)) (tokToIdx : Table.GenericTable (List UInt8 × Nat))
    (idxWidth : Nat) (sort : Bool) : Except Stop VSFTokens :=
  if tokToIdx.tableSize > 2 ^ 32 - 1 then .error (.error .temporaryLibraryLimitation)
  else if idxWidth = 0 then .error (.error .logicError)
  else do
    let keys ← defined (keysOf tokToIdx)
    let keys := if sort then pdqsortVsf keys else keys
    let map ← defined (if sort then syncKeys (mapVSF hashFn) keys 0 tokToIdx else some tokToIdx)
    let alphabet ← defined (writeVSFAlphabet keys alphabet 0)
    let indices ← defined (writeIndices (mapVSF hashFn) map idxWidth fields)
    .ok ⟨alphabet, keys.map fun key => key.length % 2 ^ 32, indices, idxWidth⟩

/-- `EI_tokenizeVSFImpl`, with `ZS_buildTokenizeVsfAlphabet`; `fill` is what the stream of the
alphabet holds before it is written. -/
def EI_tokenizeVSFImpl (hashFn : List UInt8 → UInt64) (a : Table.Allocator (List UInt8 × Nat))
    (pdqsortVsf : List (List UInt8) → List (List UInt8)) (fill : Nat → UInt8) (src : List UInt8)
    (fieldSizes : List Nat) (sort : Bool) : Except Stop VSFTokens := do
  let fields := fieldsOf src fieldSizes
  let tokToIdx := Table.create ((fieldSizes.length % 2 ^ 32 + 1) % 2 ^ 32)
  let (reserved, map) ←
    defined (Table.reserve (mapVSF hashFn) a tokToIdx (min 256 fieldSizes.length) false)
  if reserved = false then .error (.error .allocation)
  else do
    let b ← defined (buildAlphabet (mapVSF hashFn) a List.length map fields)
    if b.badAlloc then .error (.error .allocation)
    else
      tokenizeVSFEncode hashFn pdqsortVsf ((List.range b.fieldSizesSum).map fill) fields b.map
        (getMinIdxSpace b.map.tableSize) sort

/-- The loop that finds `wildcopySafeIndexLimit`: from the last element down. -/
def wildcopySafeIndexLimit (eltWidth : Nat → Nat) : Nat → Nat → Nat
  | 0, _ => 0
  | limit + 1, tailSum =>
      if tailSum + eltWidth (limit + 1) > ZS_WILDCOPY_OVERLENGTH then limit + 1
      else wildcopySafeIndexLimit eltWidth limit (tailSum + eltWidth (limit + 1))

/-- The copy of an element, a wild one or `memcpy`. -/
def copyToken (wild : Bool) (alphabetBuffer out : List UInt8) (nextDstElt start eltWidth : Nat) :
    Option (List UInt8) :=
  if wild then
    if nextDstElt + eltWidth + ZS_WILDCOPY_OVERLENGTH ≤ out.length then
      wildcopy out nextDstElt (some alphabetBuffer) start eltWidth
    else none
  else memcpy out nextDstElt (some alphabetBuffer) start eltWidth

/-- The loops of `ZS_tokenizeVSFDecode` over elements, by their starts and sizes in the alphabet. -/
def copyTokens (wild : Bool) (alphabetBuffer : List UInt8) :
    List (Nat × Nat) → List UInt8 → Nat → Option (List UInt8 × Nat)
  | [], out, nextDstElt => some (out, nextDstElt)
  | (start, eltWidth) :: elts, out, nextDstElt => do
      let out ← copyToken wild alphabetBuffer out nextDstElt start eltWidth
      copyTokens wild alphabetBuffer elts out (nextDstElt + eltWidth)

/-- `alphabetStarts` -/
def alphabetStarts : List Nat → Nat → List Nat
  | [], _ => []
  | size :: sizes, start => start :: alphabetStarts sizes (start + size)

/-- `ZS_tokenizeVSFDecode` into `out`; `workspace` is the scratch space behind `alphabetStarts`. -/
def tokenizeVSFDecode (tokens : VSFTokens) (out workspace : List UInt8) :
    Option (List UInt8 × List Nat) := do
  let alphabetBuffer ← Buffer.store workspace 0 tokens.alphabet
  let starts := alphabetStarts tokens.alphabetFieldSizes 0
  let elts ← tokens.indices.mapM fun idx => do
    let start ← starts[idx]?
    let eltWidth ← tokens.alphabetFieldSizes[idx]?
    some (start, eltWidth)
  let limit := wildcopySafeIndexLimit (fun i => (elts.getD i (0, 0)).2) (elts.length - 1) 0
  let (out, nextDstElt) ← copyTokens true alphabetBuffer (elts.take limit) out 0
  let (out, _) ← copyTokens false alphabetBuffer (elts.drop limit) out nextDstElt
  some (out, elts.map Prod.snd)

/-- `ZS_tokenizeComputeVSFContentSize` -/
def computeVSFContentSize (tokens : VSFTokens) : Nat :=
  tokens.indices.foldl
    (fun totalSize idx => (totalSize + tokens.alphabetFieldSizes.getD idx 0) % 2 ^ 64) 0

/-- `DI_tokenizeVSF`: the content and the sizes of the fields; `fill` and `scratch` are what the
output and the scratch space hold. -/
def DI_tokenizeVSF (fill scratch : Nat → UInt8) (tokens : VSFTokens) :
    Except Stop (List UInt8 × List Nat) :=
  if validIdxWidth tokens.idxWidth then
    if tokens.indices.all (· < tokens.alphabetFieldSizes.length) then
      if tokens.indices.length < tokens.alphabetFieldSizes.length then
        .error (.error .corruption)
      else
        defined (tokenizeVSFDecode tokens ((List.range (computeVSFContentSize tokens)).map fill)
          ((List.range (tokens.alphabet.length + ZS_WILDCOPY_OVERLENGTH)).map scratch))
    else .error (.error .corruption)
  else .error .undefined

end OpenZL.Codecs.Tokenize
