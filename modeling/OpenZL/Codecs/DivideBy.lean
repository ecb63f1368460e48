import Mathlib.Data.BitVec
import OpenZL.Lib.OddPart
import OpenZL.Shared.Varint

/-!
# The divide-by codec: model

The encoder divides every integer by a divisor of all of them, the greatest one unless the node's
parameter gives another, and sends the divisor in the codec header.
-/

namespace OpenZL.Codecs.DivideBy

open OpenZL.Lib OpenZL.Shared

/-- The widths that a numeric stream has. -/
inductive IntWidth : Nat → Type
  | u8 : IntWidth 8
  | u16 : IntWidth 16
  | u32 : IntWidth 32
  | u64 : IntWidth 64
  deriving DecidableEq, Repr

/-- The variables of the loop of `ZL_getMultiplicativeInverse`. -/
structure InverseState (w : Nat) where
  x : BitVec w
  y : BitVec w
  sb : BitVec w
  ts : BitVec w
  tl : BitVec w

/-- The body of the loop. -/
def InverseState.step {w : Nat} (s : InverseState w) : InverseState w :=
  let q := s.y / s.x
  let y := s.y - s.x * q
  -- Swap x and y as well as tl and ts
  let y := y ^^^ s.x
  let x := s.x ^^^ y
  let y := y ^^^ x
  let ts := s.ts + s.tl * q
  let tl := s.tl ^^^ ts
  let ts := ts ^^^ tl
  let tl := tl ^^^ ts
  { x := x, y := y, sb := s.sb ^^^ 1, ts := ts, tl := tl }

theorem xor_swap {w : Nat} (a b : BitVec w) :
    b ^^^ (a ^^^ b) = a ∧ a ^^^ b ^^^ a = b := by
  constructor
  · rw [BitVec.xor_comm a b, ← BitVec.xor_assoc, BitVec.xor_self, BitVec.zero_xor]
  · rw [BitVec.xor_comm a b, BitVec.xor_assoc, BitVec.xor_self, BitVec.xor_zero]

theorem sub_mul_div {w : Nat} (y x : BitVec w) : y - x * (y / x) = y % x := by
  rw [sub_eq_iff_eq_add]
  apply BitVec.eq_of_toNat_eq
  rw [BitVec.toNat_add, BitVec.toNat_mul, BitVec.toNat_umod, BitVec.toNat_udiv, Nat.add_mod_mod,
    Nat.mod_add_div, Nat.mod_eq_of_lt y.isLt]

theorem InverseState.step_eq {w : Nat} (s : InverseState w) :
    s.step = { x := s.y % s.x, y := s.x, sb := s.sb ^^^ 1, ts := s.tl,
               tl := s.ts + s.tl * (s.y / s.x) } := by
  obtain ⟨htl, hts⟩ := xor_swap s.tl (s.ts + s.tl * (s.y / s.x))
  obtain ⟨hx, hy⟩ := xor_swap (s.y % s.x) s.x
  simp only [step, sub_mul_div, htl, hts, hx, hy]

/-- The loop of `ZL_getMultiplicativeInverse`. -/
def inverseLoop {w : Nat} (s : InverseState w) : InverseState w :=
  if s.x = 0 then s else inverseLoop s.step
termination_by s.x.toNat
decreasing_by
  rename_i h
  rw [InverseState.step_eq, BitVec.toNat_umod]
  exact Nat.mod_lt _ (Nat.pos_of_ne_zero fun hzero => h (BitVec.eq_of_toNat_eq hzero))

/-- `ZL_getMultiplicativeInverse8`, `…32` and `…64`, which differ in their words: the shift and the
inverse. The divisor is not zero. -/
def getMultiplicativeInverse (w : Nat) (divisor : BitVec w) : Nat × BitVec w :=
  let shift := ctz w divisor.toNat
  let divisor := divisor >>> shift
  if divisor = 1 then (shift, 1)
  else
    let q := BitVec.allOnes w / divisor
    let s := inverseLoop
      { x := BitVec.allOnes w - divisor * q + 1, y := divisor, sb := 1, ts := 1, tl := q }
    if s.sb = 0 then (shift, (0 - s.ts + BitVec.intMax w + 1) + BitVec.intMax w + 1)
    else (shift, s.ts)

/-- `ZL_getMultiplicativeInverse8` -/
def getMultiplicativeInverse8 (divisor : BitVec 8) : Nat × BitVec 8 :=
  getMultiplicativeInverse 8 divisor

/-- `ZL_getMultiplicativeInverse32` -/
def getMultiplicativeInverse32 (divisor : BitVec 32) : Nat × BitVec 32 :=
  getMultiplicativeInverse 32 divisor

/-- `ZL_getMultiplicativeInverse64` -/
def getMultiplicativeInverse64 (divisor : BitVec 64) : Nat × BitVec 64 :=
  getMultiplicativeInverse 64 divisor

/-- `t >> ZL_ctz64(t)` -/
def shiftOutZeros (t : BitVec 64) : BitVec 64 := t >>> ctz 64 t.toNat

theorem toNat_shiftOutZeros (t : BitVec 64) : (shiftOutZeros t).toNat = oddPart 64 t.toNat := by
  rw [shiftOutZeros, BitVec.toNat_ushiftRight, oddPart]

theorem toNat_shiftOutZeros_le (t : BitVec 64) : (shiftOutZeros t).toNat ≤ t.toNat := by
  rw [toNat_shiftOutZeros]
  exact oddPart_le 64 _

theorem toNat_ne_zero {w : Nat} {t : BitVec w} (h : t ≠ 0) : t.toNat ≠ 0 :=
  fun hzero => h (BitVec.eq_of_toNat_eq hzero)

theorem shiftOutZeros_ne_zero {t : BitVec 64} (h : t ≠ 0) : shiftOutZeros t ≠ 0 := by
  intro hzero
  have hpos := oddPart_pos (toNat_ne_zero h) t.isLt
  rw [← toNat_shiftOutZeros, hzero] at hpos
  exact absurd hpos (Nat.lt_irrefl 0)

/-- The loop of `ZL_gcdImpl`; `a` and `b` stay non-zero. -/
def gcdLoop (a b : BitVec 64) (ha : a ≠ 0) (hb : b ≠ 0) : BitVec 64 :=
  if h : a = b then a
  else if a < b then
    let t := b - a
    gcdLoop a (shiftOutZeros t) ha (shiftOutZeros_ne_zero (sub_ne_zero.2 (Ne.symm h)))
  else
    let t := a - b
    gcdLoop b (shiftOutZeros t) hb (shiftOutZeros_ne_zero (sub_ne_zero.2 h))
termination_by a.toNat + b.toNat
decreasing_by
  · rename_i hlt
    have hle := toNat_shiftOutZeros_le (b - a)
    rw [BitVec.toNat_sub_of_le (BitVec.le_of_lt hlt)] at hle
    have := toNat_ne_zero ha
    have := toNat_ne_zero hb
    omega
  · rename_i hlt
    have hle := toNat_shiftOutZeros_le (a - b)
    rw [BitVec.toNat_sub_of_le (BitVec.not_lt.1 hlt)] at hle
    have := toNat_ne_zero ha
    have := toNat_ne_zero hb
    omega

/-- `ZL_gcdImpl` -/
def gcdImpl (a b : BitVec 64) : BitVec 64 :=
  let (a, b) := if a < b then (b, a) else (a, b)
  if hb : b = 0 then a
  else
    let a := a % b
    -- Early return for b=GCD(a,b) which is expected to be common
    if ha : a = 0 then b
    else
      let az := ctz 64 a.toNat
      let bz := ctz 64 b.toNat
      let shift := if az < bz then az else bz
      gcdLoop (shiftOutZeros a) (shiftOutZeros b) (shiftOutZeros_ne_zero ha)
        (shiftOutZeros_ne_zero hb) <<< shift

/-- `ZL_firstIndexNotDivisibleBy8` -/
def firstIndexNotDivisibleBy8 (src : List (BitVec 8)) (divisor : BitVec 64) : Nat :=
  let overflow : BitVec 8 := (255 / divisor).setWidth 8
  let (shift, inverse) := getMultiplicativeInverse8 (divisor.setWidth 8)
  src.findIdx fun val =>
    -- the product is an `int`
    let div : BitVec 8 := BitVec.ofNat 8 ((val.toNat * inverse.toNat) >>> shift)
    let dup := div * divisor.setWidth 8
    dup ≠ val ∨ overflow < div

/-- `ZL_firstIndexNotDivisibleBy16` -/
def firstIndexNotDivisibleBy16 (src : List (BitVec 16)) (divisor : BitVec 64) : Nat :=
  let overflow : BitVec 16 := (65535 / divisor).setWidth 16
  let (shift, inverse) := getMultiplicativeInverse32 (divisor.setWidth 32)
  src.findIdx fun val =>
    let div : BitVec 32 := (((val.setWidth 32 * inverse) >>> shift).setWidth 16).setWidth 32
    let dup : BitVec 16 := (div * divisor.setWidth 32).setWidth 16
    dup ≠ val ∨ overflow.setWidth 32 < div

/-- `ZL_firstIndexNotDivisibleBy32` -/
def firstIndexNotDivisibleBy32 (src : List (BitVec 32)) (divisor : BitVec 64) : Nat :=
  let overflow : BitVec 32 := (4294967295 / divisor).setWidth 32
  let (shift, inverse) := getMultiplicativeInverse32 (divisor.setWidth 32)
  src.findIdx fun val =>
    let div := (val * inverse) >>> shift
    let dup := div * divisor.setWidth 32
    dup ≠ val ∨ overflow < div

/-- `ZL_firstIndexNotDivisibleBy64` -/
def firstIndexNotDivisibleBy64 (src : List (BitVec 64)) (divisor : BitVec 64) : Nat :=
  let overflow := BitVec.allOnes 64 / divisor
  let (shift, inverse) := getMultiplicativeInverse64 divisor
  src.findIdx fun val =>
    let div := (val * inverse) >>> shift
    let dup := div * divisor
    dup ≠ val ∨ overflow < div

/-- The function of the width. -/
def firstIndexNotDivisibleBy {w : Nat} : IntWidth w → List (BitVec w) → BitVec 64 → Nat
  | .u8 => firstIndexNotDivisibleBy8
  | .u16 => firstIndexNotDivisibleBy16
  | .u32 => firstIndexNotDivisibleBy32
  | .u64 => firstIndexNotDivisibleBy64

/-- The second loop of `ZL_gcdVec`; `src` is the array from `i` on. -/
def gcdVecLoop {w : Nat} (intWidth : IntWidth w) (gcd : BitVec 64) (src : List (BitVec w)) :
    BitVec 64 :=
  match _h : src.drop (firstIndexNotDivisibleBy intWidth src gcd) with
  | [] => gcd
  | val :: rest => gcdVecLoop intWidth (gcdImpl (val.setWidth 64) gcd) rest
termination_by src.length
decreasing_by
  have hlen := congrArg List.length _h
  rw [List.length_drop, List.length_cons] at hlen
  omega

/-- `ZL_gcdVec` -/
def gcdVec {w : Nat} (intWidth : IntWidth w) (src : List (BitVec w)) : BitVec 64 :=
  if src.length ≤ 1 then 1
  else
    match src.dropWhile (· = 0) with
    | [] => 1 -- All values are 0
    | val :: rest => gcdVecLoop intWidth (val.setWidth 64) rest

/-- `ZS_divideByEncode8` -/
def divideByEncode8 (src : List (BitVec 8)) (divisor : BitVec 8) : List (BitVec 8) :=
  let (shift, inverse) := getMultiplicativeInverse8 divisor
  src.map fun val => BitVec.ofNat 8 ((val.toNat * inverse.toNat) >>> shift)

/-- `ZS_divideByEncode16` -/
def divideByEncode16 (src : List (BitVec 16)) (divisor : BitVec 16) : List (BitVec 16) :=
  let (shift, inverse) := getMultiplicativeInverse32 (divisor.setWidth 32)
  src.map fun val => ((val.setWidth 32 * inverse) >>> shift).setWidth 16

/-- `ZS_divideByEncode32` -/
def divideByEncode32 (src : List (BitVec 32)) (divisor : BitVec 32) : List (BitVec 32) :=
  let (shift, inverse) := getMultiplicativeInverse32 divisor
  src.map fun val => (val * inverse) >>> shift

/-- `ZS_divideByEncode64` -/
def divideByEncode64 (src : List (BitVec 64)) (divisor : BitVec 64) : List (BitVec 64) :=
  let (shift, inverse) := getMultiplicativeInverse64 divisor
  src.map fun val => (val * inverse) >>> shift

/-- `ZS_divideByEncode` -/
def divideByEncode {w : Nat} (intWidth : IntWidth w) (src : List (BitVec w))
    (divisor : BitVec 64) : List (BitVec w) :=
  match w, intWidth with
  | _, .u8 => divideByEncode8 src (divisor.setWidth 8)
  | _, .u16 => divideByEncode16 src (divisor.setWidth 16)
  | _, .u32 => divideByEncode32 src (divisor.setWidth 32)
  | _, .u64 => divideByEncode64 src divisor

/-- `getDivisor` -/
def getDivisor {w : Nat} (intWidth : IntWidth w) (divisor : BitVec 64) (src : List (BitVec w)) :
    Except ErrorCode (BitVec 64) :=
  if divisor = 0 then .ok (gcdVec intWidth src)
  else if divisor.toNat > 2 ^ w - 1 then .error .node_invalid_input
  else if firstIndexNotDivisibleBy intWidth src divisor ≠ src.length then .error .node_invalid_input
  else .ok divisor

/-- The local parameter `ZL_DIVIDE_BY_PID`: its size, and the eight bytes that it refers to. -/
structure DivideByParam where
  paramSize : Nat
  value : BitVec 64

/-- The local `divParam`. -/
def divParamOf : Option DivideByParam → Except ErrorCode (BitVec 64)
  | none => .ok 0
  | some div => if div.paramSize ≠ 8 then .error .graphParameter_invalid else .ok div.value

/-- `EI_divide_by_int`: the codec header and the quotients. -/
def EI_divide_by_int {w : Nat} (intWidth : IntWidth w) (div : Option DivideByParam)
    (src : List (BitVec w)) : Except ErrorCode (List UInt8 × List (BitVec w)) := do
  let divParam ← divParamOf div
  let divisorValue ← getDivisor intWidth divParam src
  .ok (varintEncode divisorValue.toNat, divideByEncode intWidth src divisorValue)

/-- `NUMOP_findMaxU8`, `NUMOP_findMaxU16`, `NUMOP_findMaxArr32` and `NUMOP_findMaxU64`. -/
def findMax {w : Nat} (array : List (BitVec w)) : BitVec w :=
  array.foldl (fun max val => if max < val then val else max) 0

/-- `ZS_divideByDecode8`, `…16`, `…32` and `…64`, to which `ZS_divideByDecode` passes on. -/
def divideByDecode {w : Nat} (src : List (BitVec w)) (multiplier : BitVec 64) : List (BitVec w) :=
  src.map fun val => val * multiplier.setWidth w

/-- `DI_divide_by_int` -/
def DI_divide_by_int {w : Nat} (header : List UInt8) (quotients : List (BitVec w)) :
    Except ErrorCode (List (BitVec w)) :=
  if header.length = 0 then .error .corruption
  else do
    let (divisor, _) ← varintDecode header
    if divisor = 0 then .error .node_invalid_input
    else if divisor > 2 ^ w - 1 then .error .node_invalid_input
    else if (findMax quotients).toNat > (2 ^ w - 1) / divisor then .error .node_invalid_input
    else .ok (divideByDecode quotients (BitVec.ofNat 64 divisor))

end OpenZL.Codecs.DivideBy
