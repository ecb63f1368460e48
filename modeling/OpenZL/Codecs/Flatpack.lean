import OpenZL.Codecs.BitpackKernel
import OpenZL.Lib.VectorLanes

/-!
# Flatpack

A string is stored as the alphabet of its bytes and the index of each byte there, in fields of as
many bits as the alphabet needs; one bit above the last field tells where they end. A function
returns `none` where the source would read or write outside of a buffer, or an assertion behind a
loop fails.
-/

namespace OpenZL.Codecs.Flatpack

open OpenZL.Lib
open OpenZL.Codecs.Bitpack (readLE64)

/-- `ZS_FlatPackSize` -/
structure FlatPackSize where
  size : Nat
  deriving DecidableEq, Repr

/-- `ZS_FlatPack_kError` -/
def kError : FlatPackSize := ⟨257⟩

/-- `ZS_FlatPack_nbBits` -/
def nbBits (alphabetSize : Nat) : Nat :=
  if alphabetSize ≤ 1 then alphabetSize else 1 + (alphabetSize - 1).log2

/-- `ZS_FlatPack_packedSize` -/
def packedSize (alphabetSize srcSize : Nat) : Nat :=
  if srcSize = 0 then 0 else 1 + nbBits alphabetSize * srcSize / 8

/-- `ZL_clz32` -/
def clz32 (x : Nat) : Nat := 31 - x.log2

/-- `ZS_FlatPack_nbElts` -/
def nbElts (alphabetSize : Nat) (packed : List UInt8) : Nat :=
  if packed.length = 0 ∨ alphabetSize = 0 then 0
  else
    let lastByte := (packed.getLastD 0).toNat ||| 1
    let paddingBits := clz32 (lastByte <<< 24) + 1
    (8 * packed.length - paddingBits) / nbBits alphabetSize

/-- The loop over the symbols of `ZS_flatpackEncode`: `symbolMap` so far, and the alphabet. -/
def buildAlphabet (present : UInt8 → Bool) (alphabetCapacity : Nat) :
    List UInt8 → (UInt8 → UInt8) → List UInt8 → Except FlatPackSize ((UInt8 → UInt8) × List UInt8)
  | [], symbolMap, alphabet => .ok (symbolMap, alphabet)
  | s :: symbols, symbolMap, alphabet =>
      if present s then
        if alphabet.length ≥ alphabetCapacity then .error kError
        else
          buildAlphabet present alphabetCapacity symbols
            (Function.update symbolMap s (UInt8.ofNat alphabet.length)) (alphabet ++ [s])
      else buildAlphabet present alphabetCapacity symbols symbolMap alphabet

/-- The loop of `ZS_FlatPack_pack_generic`, and the byte behind it. -/
def packLoop (symbolMap : UInt8 → UInt8) (nbBits : Nat) : List UInt8 → Nat → Nat → List UInt8
  | [], bits, state => [UInt8.ofNat (state ||| 1 <<< bits)]
  | s :: src, bits, state =>
      let state := state ||| (symbolMap s).toNat <<< bits
      let bits := bits + nbBits
      if bits ≥ 8 then
        UInt8.ofNat state :: packLoop symbolMap nbBits src (bits - 8) (state >>> 8)
      else packLoop symbolMap nbBits src bits state

/-- `ZS_FlatPack_pack_generic`, with its assertion about the size. -/
def packGeneric (symbolMap : UInt8 → UInt8) (nbBits packedSize : Nat) (src : List UInt8) :
    Option (List UInt8) :=
  let packed := packLoop symbolMap nbBits src 0 0
  if packed.length = packedSize then some packed else none

/-- `ZS_FlatPack_pack_bmi2`: what each store of eight bytes leaves behind the `nbBits` bytes of a
round is overwritten by the rounds that follow. -/
def packBmi2 (symbolMap : UInt8 → UInt8) (nbBits packedSize : Nat) (src : List UInt8) :
    Option (List UInt8) :=
  if packedSize > 8 then
    if _h : src.length < 8 then none
    else
      let symbols := (src.take 8).map symbolMap
      let bits := pext (readLE64 symbols) (byteMask nbBits)
      (packBmi2 symbolMap nbBits (packedSize - nbBits) (src.drop 8)).map
        (Buffer.write (toLE 8 bits) nbBits)
  else packGeneric symbolMap nbBits packedSize src
termination_by src.length
decreasing_by
  rw [List.length_drop]
  omega

/-- `ZS_FlatPack_pack`: `hasBmi2` is `ZL_HAS_BMI2`. -/
def pack (hasBmi2 : Bool) (symbolMap : UInt8 → UInt8) (nbBits packedSize : Nat)
    (src : List UInt8) : Option (List UInt8) :=
  if hasBmi2 then packBmi2 symbolMap nbBits packedSize src
  else packGeneric symbolMap nbBits packedSize src

/-- The 256 symbols in order. -/
def allSymbols : List UInt8 := (List.range 256).map UInt8.ofNat

/-- `ZS_flatpackEncode`: the alphabet and the packed bytes.  The size that is returned is that of
the alphabet. -/
def flatpackEncode (hasBmi2 : Bool) (alphabetCapacity packedCapacity : Nat) (src : List UInt8) :
    Option (Except FlatPackSize (List UInt8 × List UInt8)) :=
  if src.length = 0 then some (.ok ([], []))
  else
    match buildAlphabet (src.contains ·) alphabetCapacity allSymbols
      (fun s => if src.contains s then 1 else 0) [] with
    | .error e => some (.error e)
    | .ok (symbolMap, alphabet) =>
        let packedSize := packedSize alphabet.length src.length
        if packedSize > packedCapacity then some (.error kError)
        else
          (pack hasBmi2 symbolMap (nbBits alphabet.length) packedSize src).map
            fun packed => .ok (alphabet, packed)

/-- One byte more in the state, if there is one. -/
def refill (packed : List UInt8) (bits state : Nat) : Option (List UInt8 × Nat × Nat) :=
  match packed with
  | [] => none
  | b :: packed => some (packed, bits + 8, state ||| b.toNat <<< bits)

/-- The checks at the end of `ZS_flatpackDecodeEnd`. -/
def checkEnd (packed : List UInt8) (bits state : Nat) : Except FlatPackSize (List UInt8) :=
  if packed ≠ [] then .error kError
  else if state ≠ 1 ∨ bits > 8 then .error kError
  else .ok []

/-- `ZS_flatpackDecodeEnd`, with the elements that are left: the bytes that it writes. -/
def decodeLoop (alphabet : List UInt8) (nbBits : Nat) :
    Nat → List UInt8 → Nat → Nat → Except FlatPackSize (List UInt8)
  | 0, packed, bits, state =>
      match refill packed bits state with
      | none => checkEnd packed bits state
      | some (packed, bits, state) => checkEnd packed bits state
  | n + 1, packed, bits, state =>
      match if bits < nbBits then refill packed bits state else some (packed, bits, state) with
      | none => .error kError
      | some (packed, bits, state) =>
          let idx := state &&& (1 <<< nbBits) - 1
          if idx ≥ alphabet.length then .error kError
          else do
            let dst ← decodeLoop alphabet nbBits n packed (bits - nbBits) (state >>> nbBits)
            .ok (alphabet.getD idx 0 :: dst)

/-- `ZS_flatpackDecodeEnd` -/
def decodeEnd (alphabet : List UInt8) (nbBits n : Nat) (packed : List UInt8) :
    Except FlatPackSize (List UInt8) :=
  decodeLoop alphabet nbBits n packed 0 0

/-! ## Lookups

Each maps a register of sixteen indices to their symbols. -/

/-- `_mm_andnot_si128` -/
def andnotSi (a b : List UInt8) : List UInt8 := List.zipWith (fun x y => ~~~x &&& y) a b

/-- `ZS_blend0`: `_mm_blendv_epi8` -/
def blend0 (b s0 s1 : List UInt8) : List UInt8 :=
  List.zipWith (fun b s => if b.toNat.testBit 7 then s.2 else s.1) b (s0.zip s1)

/-- `ZS_blend1` -/
def blend1 (b s0 s1 : List UInt8) : List UInt8 := Shuffles.orSi (andnotSi b s0) (Simd.andSi b s1)

/-- `ZS_loadAlphabet16` -/
def loadAlphabet16 (alphabet : List UInt8) (offset : Nat) : List UInt8 :=
  if offset ≥ alphabet.length then List.replicate 16 0
  else if alphabet.length - offset ≥ 16 then Simd.loadu alphabet offset 16
  else Buffer.write (List.replicate 16 0) 0 (alphabet.drop offset)

/-- The lookup of `ZS_flatpackDecode16`. -/
def lookup16 (alphabet indices : List UInt8) : List UInt8 :=
  Simd.pshufb (loadAlphabet16 alphabet 0) indices

/-- The lookup of `ZS_flatpackDecode32`. -/
def lookup32 (alphabet indices : List UInt8) : List UInt8 :=
  let blend := Simd.cmpgtEpi8 indices (Simd.set1Epi8 16 15)
  let symbols0 := Simd.pshufb (loadAlphabet16 alphabet 0) indices
  let symbols1 := Simd.pshufb (loadAlphabet16 alphabet 16) indices
  blend1 blend symbols0 symbols1

/-- The lookup of `ZS_flatpackDecode48`. -/
def lookup48 (alphabet indices : List UInt8) : List UInt8 :=
  let b0 := Simd.cmpgtEpi8 indices (Simd.set1Epi8 16 15)
  let b1 := Simd.cmpgtEpi8 indices (Simd.set1Epi8 16 31)
  let symbols0 := Simd.pshufb (loadAlphabet16 alphabet 0) indices
  let symbols1 := Simd.pshufb (loadAlphabet16 alphabet 16) indices
  let symbols2 := Simd.pshufb (loadAlphabet16 alphabet 32) indices
  let symbols3 := blend1 b0 symbols0 symbols1
  blend1 b1 symbols3 symbols2

/-- The lookup of `ZS_flatpackDecode64`. -/
def lookup64 (alphabet indices : List UInt8) : List UInt8 :=
  let b0 := Simd.cmpgtEpi8 indices (Simd.set1Epi8 16 15)
  let b1 := Simd.cmpgtEpi8 indices (Simd.set1Epi8 16 31)
  let b2 := Simd.cmpgtEpi8 indices (Simd.set1Epi8 16 47)
  let symbols0 := Simd.pshufb (loadAlphabet16 alphabet 0) indices
  let symbols1 := Simd.pshufb (loadAlphabet16 alphabet 16) indices
  let symbols2 := Simd.pshufb (loadAlphabet16 alphabet 32) indices
  let symbols3 := Simd.pshufb (loadAlphabet16 alphabet 48) indices
  let symbols4 := blend1 b0 symbols0 symbols1
  let symbols5 := blend0 b2 symbols2 symbols3
  blend1 b1 symbols4 symbols5

/-- The lookup of `ZS_flatpackDecode128`. -/
def lookup128 (alphabet indices : List UInt8) : List UInt8 :=
  let b0 := Simd.cmpgtEpi8 indices (Simd.set1Epi8 16 15)
  let b1 := Simd.cmpgtEpi8 indices (Simd.set1Epi8 16 31)
  let b2 := Simd.cmpgtEpi8 indices (Simd.set1Epi8 16 47)
  let b3 := Simd.cmpgtEpi8 indices (Simd.set1Epi8 16 63)
  let b4 := Simd.cmpgtEpi8 indices (Simd.set1Epi8 16 79)
  let b5 := Simd.cmpgtEpi8 indices (Simd.set1Epi8 16 95)
  let b6 := Simd.cmpgtEpi8 indices (Simd.set1Epi8 16 111)
  let symbols0 := Simd.pshufb (loadAlphabet16 alphabet 0) indices
  let symbols1 := Simd.pshufb (loadAlphabet16 alphabet 16) indices
  let symbols2 := Simd.pshufb (loadAlphabet16 alphabet 32) indices
  let symbols3 := Simd.pshufb (loadAlphabet16 alphabet 48) indices
  let symbols4 := Simd.pshufb (loadAlphabet16 alphabet 64) indices
  let symbols5 := Simd.pshufb (loadAlphabet16 alphabet 80) indices
  let symbols6 := Simd.pshufb (loadAlphabet16 alphabet 96) indices
  let symbols7 := Simd.pshufb (loadAlphabet16 alphabet 112) indices
  let symbols8 := blend1 b0 symbols0 symbols1
  let symbols9 := blend0 b2 symbols2 symbols3
  let symbols10 := blend1 b4 symbols4 symbols5
  let symbols11 := blend0 b6 symbols6 symbols7
  let symbols12 := blend1 b1 symbols8 symbols9
  let symbols13 := blend1 b5 symbols10 symbols11
  blend1 b3 symbols12 symbols13

/-- The loop of a fast decoder: a round writes `nbSymbols` symbols, as long as more than `limit`
bytes are left.  The bytes it writes, the bytes and the elements that are left; a round writes at
least one symbol. -/
def fastLoop (limit nbSymbols bytesPerLoop : Nat) (round : List UInt8 → List UInt8)
    (packed : List UInt8) (n : Nat) : Option (List UInt8 × List UInt8 × Nat) :=
  if packed.length > limit then
    if _h : n < nbSymbols ∨ nbSymbols = 0 then none
    else do
      let (dst, rest, n) ← fastLoop limit nbSymbols bytesPerLoop round
        (packed.drop bytesPerLoop) (n - nbSymbols)
      some (round packed ++ dst, rest, n)
  else some ([], packed, n)
termination_by n

/-- A fast decoder: its loop, and the plain decoder for the rest. -/
def fastDecode (limit nbSymbols bytesPerLoop : Nat) (round : List UInt8 → List UInt8)
    (alphabet : List UInt8) (nbBits n : Nat) (packed : List UInt8) :
    Option (Except FlatPackSize (List UInt8)) := do
  let (dst, rest, n) ← fastLoop limit nbSymbols bytesPerLoop round packed n
  some ((decodeEnd alphabet nbBits n rest).map (dst ++ ·))

/-- The indices of a round of sixteen symbols. -/
def indices16 (nbBits : Nat) (packed : List UInt8) : List UInt8 :=
  toLE 8 (pdep (readLE64 packed) (byteMask nbBits)) ++
    toLE 8 (pdep (readLE64 (packed.drop nbBits)) (byteMask nbBits))

/-- The fast decoders of sixteen symbols. -/
def decodeVector (lookup : List UInt8 → List UInt8 → List UInt8) (alphabet : List UInt8)
    (nbBits n : Nat) (packed : List UInt8) : Option (Except FlatPackSize (List UInt8)) :=
  fastDecode 16 16 (2 * nbBits) (fun packed => lookup alphabet (indices16 nbBits packed))
    alphabet nbBits n packed

/-- `ZS_flatpackDecode16` -/
def decode16 := decodeVector lookup16

/-- `ZS_flatpackDecode32` -/
def decode32 := decodeVector lookup32

/-- `ZS_flatpackDecode48` -/
def decode48 := decodeVector lookup48

/-- `ZS_flatpackDecode64` -/
def decode64 := decodeVector lookup64

/-- `ZS_flatpackDecode128` -/
def decode128 := decodeVector lookup128

/-- The symbols of a round of `ZS_flatpackDecodeGeneric`. -/
def round8 (alphabet : List UInt8) (nbBits : Nat) (packed : List UInt8) : List UInt8 :=
  let safeAlphabet := alphabet ++ List.replicate (256 - alphabet.length) 0
  let bytes := pdep (readLE64 packed) (byteMask nbBits)
  (List.range 8).map fun i => safeAlphabet.getD (bytes >>> (8 * i) &&& 0xFF) 0

/-- `ZS_flatpackDecodeGeneric` -/
def decodeGeneric (alphabet : List UInt8) (nbBits n : Nat) (packed : List UInt8) :
    Option (Except FlatPackSize (List UInt8)) :=
  fastDecode 8 8 nbBits (round8 alphabet nbBits) alphabet nbBits n packed

/-- `ZS_flatpackDecode`: the bytes that are written.  `hasNeededExts` is
`ZS_FLAT_HAS_NEEDED_EXTS`; the size that is returned is that of the alphabet. -/
def flatpackDecode (hasNeededExts : Bool) (dstCapacity : Nat) (alphabet packed : List UInt8) :
    Option (Except FlatPackSize (List UInt8)) :=
  if packed.length = 0 ∨ alphabet.length = 0 then some (.ok [])
  else
    let nbBits := nbBits alphabet.length
    let nbElts := nbElts alphabet.length packed
    if dstCapacity < nbElts then some (.error kError)
    else if hasNeededExts then
      if alphabet.length ≤ 16 then decode16 alphabet nbBits nbElts packed
      else if alphabet.length ≤ 32 then decode32 alphabet nbBits nbElts packed
      else if alphabet.length ≤ 48 then decode48 alphabet nbBits nbElts packed
      else if alphabet.length ≤ 64 then decode64 alphabet nbBits nbElts packed
      else if alphabet.length ≤ 128 then decode128 alphabet nbBits nbElts packed
      else decodeGeneric alphabet nbBits nbElts packed
    else some (decodeEnd alphabet nbBits nbElts packed)

end OpenZL.Codecs.Flatpack
