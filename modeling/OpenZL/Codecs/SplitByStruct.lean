import Mathlib.Algebra.GroupWithZero.Nat
import OpenZL.Codecs.TransposeKernel

/-!
# Splitting structures (`encode_splitByStruct_kernel.c`, `decode_splitByStruct_kernel.c`)

An array of structures is cut into one stream for each field, and put together again.

A load or a store outside of a buffer is undefined (`none`), and so is an index outside of the table
of safe rounds.
-/

namespace OpenZL.Codecs.SplitByStruct

open OpenZL.Lib OpenZL.Codecs.Copy OpenZL.Codecs.Transpose

/-- `nbSafeRounds_precalc` -/
def nbSafeRoundsPrecalc : List Nat := [8, 4, 3, 2, 2, 2, 2, 1]

/-- The smallest of the sizes. -/
def smallestSize (sizes : List Nat) : Nat :=
  sizes.foldl (fun smallest size => if size < smallest then size else smallest) (2 ^ 64 - 1)

/-- The largest of the sizes. -/
def largestSize (sizes : List Nat) : Nat :=
  sizes.foldl (fun largest size => if size > largest then size else largest) 0

/-- The rounds at the end that copy no more than a field. -/
def nbSafeRounds (smallest : Nat) : Option Nat :=
  if smallest = 0 then none else nbSafeRoundsPrecalc[smallest - 1]?

/-- The pointers of the encoder: each buffer with its next place, and the next byte of the
source. -/
structure Cursor where
  dst : List (List UInt8)
  dstPos : List Nat
  srcPos : Nat

/-- One copy of the encoder. -/
def copyMember (src : List UInt8) (copySize : Nat → Nat) (structMemberSizes : List Nat)
    (c : Cursor) (bufid : Nat) : Option Cursor := do
  let sms := structMemberSizes.getD bufid 0
  let pos := c.dstPos.getD bufid 0
  let bytes ← Buffer.load src c.srcPos (copySize sms)
  let dst ← storeAt c.dst bufid pos bytes
  some ⟨dst, c.dstPos.set bufid (pos + sms), c.srcPos + sms⟩

/-- The loops of the encoder over the members of some structures. -/
def copyStructs (src : List UInt8) (copySize : Nat → Nat) (structMemberSizes : List Nat)
    (nbStructs : Nat) (c : Cursor) : Option Cursor :=
  (List.range nbStructs).foldlM (fun c _ =>
    (List.range structMemberSizes.length).foldlM (copyMember src copySize structMemberSizes) c) c

/-- `ZS_dafss_anysms` -/
def dafssAnysms (src : List UInt8) (structMemberSizes : List Nat) (nbStructs : Nat) (c : Cursor) :
    Option Cursor :=
  copyStructs src (fun sms => sms) structMemberSizes nbStructs c

/-- `ZS_dafss_nosmsgt8` -/
def dafssNosmsgt8 (src : List UInt8) (structMemberSizes : List Nat) (nbStructs : Nat)
    (c : Cursor) : Option Cursor := do
  let nbSafeRounds ← nbSafeRounds (smallestSize structMemberSizes)
  let c ← copyStructs src (fun _ => 8) structMemberSizes (nbStructs - nbSafeRounds) c
  dafssAnysms src structMemberSizes
    (if nbStructs < nbSafeRounds then nbStructs else nbSafeRounds) c

/-- `ZS_dispatchArrayFixedSizeStruct` -/
def dispatchArrayFixedSizeStruct (dst : List (List UInt8)) (src : List UInt8)
    (structMemberSizes : List Nat) : Option (List (List UInt8)) :=
  if src.length = 0 then some dst
  else if structMemberSizes.length = 1 then do
    let bytes ← Buffer.load src 0 src.length
    storeAt dst 0 0 bytes
  else
    let structSize := structMemberSizes.sum
    let nbStructs := src.length / structSize
    let start : Cursor := ⟨dst, structMemberSizes.map fun _ => 0, 0⟩
    if structSize = 0 then none
    else if structMemberSizes.all (· ≤ 8) then
      (dafssNosmsgt8 src structMemberSizes nbStructs start).map Cursor.dst
    else (dafssAnysms src structMemberSizes nbStructs start).map Cursor.dst

/-- One copy of the decoder, with `wPos`. -/
def rejoinField (srcs : List (List UInt8)) (copySize : Nat → Nat) (fieldSizes : List Nat)
    (structNb : Nat) (s : List UInt8 × Nat) (f : Nat) : Option (List UInt8 × Nat) := do
  let fs := fieldSizes.getD f 0
  let bytes ← loadAt srcs f (structNb * fs) (copySize fs)
  let dst ← Buffer.store s.1 s.2 bytes
  some (dst, s.2 + fs)

/-- The loops of the decoder over the fields of some structures. -/
def rejoinStructs (srcs : List (List UInt8)) (copySize : Nat → Nat) (fieldSizes : List Nat)
    (first nbStructs : Nat) (s : List UInt8 × Nat) : Option (List UInt8 × Nat) :=
  (List.range nbStructs).foldlM (fun s i =>
    (List.range fieldSizes.length).foldlM (rejoinField srcs copySize fieldSizes (first + i)) s) s

/-- `rejoin_max8` -/
def rejoinMax8 (dst : List UInt8) (srcs : List (List UInt8)) (fieldSizes : List Nat)
    (nbElts : Nat) : Option (List UInt8 × Nat) :=
  if nbElts = 0 then some (dst, 0)
  else do
    let nbSafeRounds ← nbSafeRounds (smallestSize fieldSizes)
    let wide := nbElts - nbSafeRounds
    let s ← rejoinStructs srcs (fun _ => 8) fieldSizes 0 wide (dst, 0)
    let s ← rejoinStructs srcs (fun fs => fs) fieldSizes wide (nbElts - wide) s
    some (s.1, fieldSizes.sum * nbElts)

/-- `copyField`, from and to a place in each buffer: the cases of its switch copy alike. -/
def copyField (dst : List UInt8) (base stride : Nat) (srcs : List (List UInt8)) (f srcBase : Nat)
    (fieldSize nbElts : Nat) : Option (List UInt8) :=
  (List.range nbElts).foldlM (fun dst e => do
    let bytes ← loadAt srcs f (srcBase + e * fieldSize) fieldSize
    Buffer.store dst (base + e * stride) bytes) dst

/-- A block of `rejoin_byField`: field after field, with the offset of the field. -/
def rejoinBlock (srcs : List (List UInt8)) (fieldSizes : List Nat) (structSize start n : Nat)
    (dst : List UInt8) : Option (List UInt8 × Nat) :=
  (List.range fieldSizes.length).foldlM (fun s f => do
    let fs := fieldSizes.getD f 0
    let dst ← copyField s.1 (start * structSize + s.2) structSize srcs f (start * fs) fs n
    some (dst, s.2 + fs)) (dst, 0)

/-- The structures of a block of `rejoin_byField`. -/
def blockEltsOf (structSize : Nat) : Nat :=
  if structSize < 16384 then 16384 / structSize else 1

/-- `rejoin_byField` -/
def rejoinByField (dst : List UInt8) (srcs : List (List UInt8)) (fieldSizes : List Nat)
    (structSize nbElts : Nat) : Option (List UInt8) :=
  if structSize = 0 then some dst
  else
    let blockElts := blockEltsOf structSize
    blockLoop (fun start dst =>
      let n := if nbElts - start < blockElts then nbElts - start else blockElts
      (rejoinBlock srcs fieldSizes structSize start n dst).map Prod.fst)
      nbElts blockElts (nbElts + 1) 0 dst

/-- `ZS_dispatchArrayFixedSizeStruct_decode`: what it writes and the size it returns. -/
def dispatchArrayFixedSizeStructDecode (dst : List UInt8) (srcs : List (List UInt8))
    (fieldSizes : List Nat) (nbElts : Nat) : Option (List UInt8 × Nat) :=
  if nbElts = 0 then some (dst, 0)
  else
    let structSize := fieldSizes.sum
    if largestSize fieldSizes ≤ 8 ∧ smallestSize fieldSizes ≥ 1 then
      rejoinMax8 dst srcs fieldSizes nbElts
    else do
      let dst ← rejoinByField dst srcs fieldSizes structSize nbElts
      some (dst, structSize * nbElts)

/-- The test for the transpose of `EI_splitByStruct` and `DI_splitByStruct`. -/
def byteFields (fieldSizes : List Nat) : Bool :=
  fieldSizes.all (· == 1) &&
    (fieldSizes.length == 2 || fieldSizes.length == 4 || fieldSizes.length == 8)

/-- The kernel that `EI_splitByStruct` calls. -/
def splitByStruct (avx2 : Bool) (dst : List (List UInt8)) (src : List UInt8)
    (fieldSizes : List Nat) : Option (List (List UInt8)) :=
  if byteFields fieldSizes then
    splitTransposeEncode avx2 dst src (src.length / fieldSizes.sum) fieldSizes.length
  else dispatchArrayFixedSizeStruct dst src fieldSizes

/-- The kernel that `DI_splitByStruct` calls. -/
def rejoinByStruct (avx2 : Bool) (dst : List UInt8) (srcs : List (List UInt8))
    (fieldSizes : List Nat) (nbElts : Nat) : Option (List UInt8) :=
  if byteFields fieldSizes then splitTransposeDecode avx2 dst srcs nbElts fieldSizes.length
  else (dispatchArrayFixedSizeStructDecode dst srcs fieldSizes nbElts).map Prod.fst

end OpenZL.Codecs.SplitByStruct
