import OpenZL.Lib.Decimal
import OpenZL.Lib.VectorLanes

/-!
# The parse_int codec

`encode_parse_int_kernel.c` and `decode_parse_int_kernel.c`: strings that are the decimal form of a
signed 64-bit integer become integers, and integers become strings.

A `false` of the parsers is `none` inside the outer option. A read or a write out of bounds and a
failed assertion are `none` outside.
-/

namespace OpenZL.Codecs.ParseInt

open OpenZL.Lib OpenZL.Lib.Simd

/-- `ZL_PARSE_INT_MAX_STRING_LENGTH` -/
def MAX_STRING_LENGTH : Nat := 21

/-- A byte as a `char`. -/
def char (b : UInt8) : Int := if b.toNat < 128 then b.toNat else (b.toNat : Int) - 256

/-- The cast from `uint64_t` to `int64_t`. -/
def toInt64 (n : Nat) : Int := if n < 2 ^ 63 then n else (n : Int) - 2 ^ 64

/-- What the two parsers do before and after the digits; `magnitude` is what is between. -/
def parseInt64With (magnitude : List UInt8 → Option (Option Nat)) (str : List UInt8) :
    Option (Option Int) :=
  match str with
  | [] => some none
  | first :: rest =>
      let negative := first == 45
      let str := if negative then rest else first :: rest
      match str with
      | [] => some none
      | digit :: _ =>
          if str.length > 20 then some none
          else if digit = 48 then
            if str.length ≠ 1 ∨ negative then some none else some (some 0)
          else do
            match ← magnitude str with
            | none => return none
            | some uresult =>
                if negative then
                  let value := toInt64 ((2 ^ 64 - uresult) % 2 ^ 64)
                  return if value > 0 then none else some value
                else
                  let value := toInt64 uresult
                  return if value < 0 then none else some value

/-- The loop of `ZL_parseInt64_fallback`. -/
def fallbackFrom : List UInt8 → Nat → Option Nat
  | [], uresult => some uresult
  | c :: str, uresult =>
      if char c < 48 ∨ char c > 57 then none
      else
        let overflow := uresult * 10 ≥ 2 ^ 64
        let uresult := uresult * 10 % 2 ^ 64
        let digit := (char c - 48).toNat
        if overflow ∨ uresult + digit ≥ 2 ^ 64 then none
        else fallbackFrom str ((uresult + digit) % 2 ^ 64)

/-- `ZL_parseInt64_fallback` -/
def parseInt64_fallback (str : List UInt8) : Option (Option Int) :=
  parseInt64With (fun str => some (fallbackFrom str 0)) str

/-- `overflowAccumulate`: the result, where neither operation overflows. -/
def overflowAccumulate (result add : Nat) : Option Nat :=
  if result > (2 ^ 64 - 1) / 10000 then none
  else
    let result := result * 10000 % 2 ^ 64
    let next := (result + add) % 2 ^ 64
    if next < result then none else some next

/-- `kLookup` -/
def kLookup : List (List Nat) :=
  [[0, 1000, 2000, 3000, 4000, 5000, 6000, 7000, 8000, 9000],
   [0, 100, 200, 300, 400, 500, 600, 700, 800, 900],
   [0, 10, 20, 30, 40, 50, 60, 70, 80, 90],
   [0, 1, 2, 3, 4, 5, 6, 7, 8, 9]]

/-- `kNonZeroMask` -/
def kNonZeroMask (len : Nat) : List UInt8 :=
  List.replicate (32 - len) 0 ++ List.replicate len 0xff

/-- The sum of four digits; the inner loop of the AVX2 parser. -/
def sumOf (a b c d : UInt8) : Nat :=
  (kLookup.getD 0 []).getD a.toNat 0 + (kLookup.getD 1 []).getD b.toNat 0 +
    (kLookup.getD 2 []).getD c.toNat 0 + (kLookup.getD 3 []).getD d.toNat 0

/-- Its outer loop. Only the last sum is checked for overflow. -/
def accumulate : List UInt8 → Nat → Option (Option Nat)
  | a :: b :: c :: d :: src, uresult =>
      if a.toNat < 10 ∧ b.toNat < 10 ∧ c.toNat < 10 ∧ d.toNat < 10 then
        if src = [] then some (overflowAccumulate uresult (sumOf a b c d))
        else accumulate src ((uresult * 10000 + sumOf a b c d) % 2 ^ 64)
      else none
  | _, _ => none

/-- `_mm256_sub_epi8` -/
def subEpi8 (a b : List UInt8) : List UInt8 := List.zipWith (· - ·) a b

/-- The digits of the AVX2 parser, in the last `len` of the 32 bytes of `v`. -/
def avxDigits (v : List UInt8) (len : Nat) : Option (Option Nat) :=
  let m := kNonZeroMask len
  let invalid := cmpgtEpi8 v (set1Epi8 32 57)
  let invalid := Shuffles.orSi invalid (cmpgtEpi8 (set1Epi8 32 48) v)
  let invalid := andSi invalid m
  if movemaskEpi8 invalid ≠ 0 then some none
  else
    let v := subEpi8 v (set1Epi8 32 48)
    let data := andSi v m
    if (data.take (32 - len)).all (· == 0) then accumulate (data.drop (32 - 20)) 0 else none

/-- `ZL_parseInt64Unsafe_AVX`, with the bytes that are readable before the string. -/
def parseInt64Unsafe_AVX (before str : List UInt8) : Option (Option Int) :=
  let readable := before ++ str
  parseInt64With
    (fun digits =>
      if readable.length < 32 then none
      else avxDigits (readable.drop (readable.length - 32)) digits.length)
    str

/-- `ZL_parseInt64Unsafe` -/
def parseInt64Unsafe (hasAVX2 : Bool) (before str : List UInt8) : Option (Option Int) :=
  if hasAVX2 then parseInt64Unsafe_AVX before str else parseInt64_fallback str

/-- `checkNumStringEquality` -/
def checkNumStringEquality (str : List UInt8) (num : Int) : Bool :=
  str == (Decimal.ofInt num ++ [0]).take str.length

/-- The second loop of `ZL_parseInt`, with the bytes read so far. -/
def parseIntFast (hasAVX2 : Bool) : List Nat → List UInt8 → List UInt8 →
    Option (Option (List Int))
  | [], _, _ => some (some [])
  | size :: sizes, before, data => do
      match ← parseInt64Unsafe hasAVX2 before (data.take size) with
      | none => return none
      | some value =>
          if checkNumStringEquality (data.take size) value then
            match ← parseIntFast hasAVX2 sizes (before ++ data.take size) (data.drop size) with
            | none => return none
            | some nums => return some (value :: nums)
          else none

/-- `ZL_parseInt`: its first loop, until 32 bytes are read, then the second. -/
def parseIntFrom (hasAVX2 : Bool) : List Nat → List UInt8 → List UInt8 →
    Option (Option (List Int))
  | [], _, _ => some (some [])
  | size :: sizes, before, data =>
      if before.length < 32 then do
        match ← parseInt64_fallback (data.take size) with
        | none => return none
        | some value =>
            if checkNumStringEquality (data.take size) value then
              match ← parseIntFrom hasAVX2 sizes (before ++ data.take size) (data.drop size) with
              | none => return none
              | some nums => return some (value :: nums)
            else none
      else parseIntFast hasAVX2 (size :: sizes) before data

/-- `ZL_parseInt` -/
def parseInt (hasAVX2 : Bool) (data : List UInt8) (sizes : List Nat) :
    Option (Option (List Int)) := parseIntFrom hasAVX2 sizes [] data

/-- `tenPower` -/
def tenPower : List Nat :=
  [10 ^ 19, 10 ^ 18, 10 ^ 18, 10 ^ 18, 10 ^ 18, 10 ^ 17, 10 ^ 17, 10 ^ 17, 10 ^ 16, 10 ^ 16,
   10 ^ 16, 10 ^ 15, 10 ^ 15, 10 ^ 15, 10 ^ 15, 10 ^ 14, 10 ^ 14, 10 ^ 14, 10 ^ 13, 10 ^ 13,
   10 ^ 13, 10 ^ 12, 10 ^ 12, 10 ^ 12, 10 ^ 12, 10 ^ 11, 10 ^ 11, 10 ^ 11, 10 ^ 10, 10 ^ 10,
   10 ^ 10, 10 ^ 9, 10 ^ 9, 10 ^ 9, 10 ^ 9, 10 ^ 8, 10 ^ 8, 10 ^ 8, 10 ^ 7, 10 ^ 7, 10 ^ 7,
   10 ^ 6, 10 ^ 6, 10 ^ 6, 10 ^ 6, 10 ^ 5, 10 ^ 5, 10 ^ 5, 10 ^ 4, 10 ^ 4, 10 ^ 4, 10 ^ 3,
   10 ^ 3, 10 ^ 3, 10 ^ 3, 10 ^ 2, 10 ^ 2, 10 ^ 2, 10, 10, 10, 1, 1, 0]

/-- `u64BaseTenDigits` -/
def u64BaseTenDigits (x : Nat) : Nat :=
  let clz := 63 - (x ||| 1).log2
  let approx := ((64 - clz) * 1233) >>> 12
  approx + if x ≥ tenPower.getD clz 0 then 1 else 0

/-- The absolute value of an `int64_t`, as a `uint64_t`. -/
def absValue (value : Int) : Nat :=
  if value < 0 then ((2 ^ 64 - 1 - (value % 2 ^ 64).toNat) + 1) % 2 ^ 64 else value.toNat

/-- `numberStringLength` -/
def numberStringLength (value : Int) : Nat :=
  u64BaseTenDigits (absValue value) + if value < 0 then 1 else 0

/-- `copy4FromTable` to `off` bytes before `out`; `characterTable` holds the four digits of each
number. -/
def copy4FromTable (dst : List UInt8) (out off x : Nat) : Option (List UInt8) :=
  if x < 10000 ∧ off ≤ out ∧ out - off + 4 ≤ dst.length then
    some (Buffer.write dst (out - off) (Decimal.pad 4 x))
  else none

/-- `u64numberToStringBackwardsUnsafe` -/
def u64numberToStringBackwards (x : Nat) (dst : List UInt8) (out len : Nat) :
    Option (List UInt8) :=
  if len ≤ 4 then copy4FromTable dst out 4 x
  else do
    let bottom := x % 100000000
    let bottomtop := bottom / 10000
    let bottombottom := bottom % 10000
    let dst ← copy4FromTable dst out 8 bottomtop
    let dst ← copy4FromTable dst out 4 bottombottom
    if len ≥ 8 then
      let top := x / 100000000
      let toptop := top / 10000
      let toptoptop := toptop / 10000
      let toptopbottom := toptop % 10000
      let topbottom := top % 10000
      let dst ← copy4FromTable dst out 20 toptoptop
      let dst ← copy4FromTable dst out 16 toptopbottom
      copy4FromTable dst out 12 topbottom
    else return dst

/-- `numberToStringBackwardsUnsafe` -/
def numberToStringBackwards (value : Int) (dst : List UInt8) (out len : Nat) :
    Option (List UInt8) := do
  let neg := if value < 0 then 1 else 0
  let dst ← u64numberToStringBackwards (absValue value) dst out (len - neg)
  -- the sign, or a byte that a field before this one repairs
  if len + 1 ≤ out + neg then return Buffer.write dst (out + neg - len - 1) [45] else none

/-- `ZL_DecodeParseInt_fillFieldSizes`: the sizes and their sum. -/
def fillFieldSizes (nums : List Int) : List Nat × Nat :=
  let fieldSizes := nums.map numberStringLength
  (fieldSizes, fieldSizes.sum)

/-- The first loop of `ZL_DecodeParseInt_fillContent`: the fields it leaves, and the place where
they end. -/
def writeBackwards (nums : List Int) (fieldSizes : List Nat) :
    Nat → Nat → List UInt8 → Option (Nat × List UInt8)
  | backwardsIndex, currDst, dst =>
      if currDst ≥ MAX_STRING_LENGTH then
        match backwardsIndex with
        | 0 => none
        | i + 1 => do
            let fieldSize ← fieldSizes[i]?
            let num ← nums[i]?
            if 0 < currDst ∧ fieldSize ≤ currDst ∧ fieldSize ≤ MAX_STRING_LENGTH then
              let dst ← numberToStringBackwards num dst currDst fieldSize
              writeBackwards nums fieldSizes i (currDst - fieldSize) dst
            else none
      else some (backwardsIndex, dst)

/-- Its second loop, from the place `currDst` on; the scratch space holds what it held. -/
def writeForwards : List (Int × Nat) → List UInt8 → Nat → List UInt8 → Option (List UInt8)
  | [], _, _, dst => some dst
  | (num, fieldSize) :: fields, scratchSpace, currDst, dst =>
      if fieldSize ≤ MAX_STRING_LENGTH ∧ currDst + fieldSize ≤ dst.length then do
        let scratchSpace ←
          numberToStringBackwards num scratchSpace MAX_STRING_LENGTH fieldSize
        writeForwards fields scratchSpace (currDst + fieldSize)
          (Buffer.write dst currDst (scratchSpace.drop (MAX_STRING_LENGTH - fieldSize)))
      else none

/-- `ZL_DecodeParseInt_fillContent`, over the old contents of the destination and of the scratch
space. -/
def fillContent (dst scratchSpace : List UInt8) (nums : List Int) (fieldSizes : List Nat) :
    Option (List UInt8) := do
  let (backwardsIndex, dst) ← writeBackwards nums fieldSizes nums.length dst.length dst
  writeForwards ((nums.zip fieldSizes).take backwardsIndex) scratchSpace 0 dst

end OpenZL.Codecs.ParseInt
