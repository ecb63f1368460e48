import OpenZL.Codecs.MuxLengths
import OpenZL.Lib.VectorLanes

/-!
# Muxed lengths in vector registers

`ZL_muxLengthsEncode` and `ZL_muxLengthsDecode`, with their paths for elements of two bytes: eight
pairs of lengths at a time with AVX2, four muxed bytes at a time with SSSE3.

Principal result: `muxLengthsDecode2_eq`.
-/

namespace OpenZL.Codecs.MuxLengths

open OpenZL.Lib OpenZL.Lib.Simd

/-- A row of `ZL_kCompressU16LUT`, as `build_compress_u16_shuffle_lut` builds it. -/
def compressU16LUT (byte : Nat) : List UInt8 :=
  let shuffle := (List.range 8).flatMap fun i =>
    if byte &&& 1 <<< i ≠ 0 then [UInt8.ofNat (2 * i), UInt8.ofNat (2 * i + 1)] else []
  shuffle ++ List.replicate (16 - shuffle.length) 0x80

/-- The loop of `build_expand_u16_shuffle_lut` over the bits of a byte. -/
def expandRow (byte : Nat) : List Nat → Nat → List UInt8
  | [], _ => []
  | i :: is, pos =>
      if byte &&& 1 <<< i ≠ 0 then
        UInt8.ofNat (2 * pos) :: UInt8.ofNat (2 * pos + 1) :: expandRow byte is (pos + 1)
      else 0x80 :: 0x80 :: expandRow byte is pos

/-- A row of `ZL_kExpandU16LUT`. -/
def expandU16LUT (byte : Nat) : List UInt8 := expandRow byte (List.range 8) 0

/-- `kTokenExtract`, in each half of the register. -/
def kTokenExtract : List UInt8 :=
  let half := [0, 2, 4, 6, 8, 10, 12, 14, 0x80, 0x80, 0x80, 0x80, 0x80, 0x80, 0x80, 0x80]
  half ++ half

/-- `kMuxGather`, in each half of the register. -/
def kMuxGather : List UInt8 :=
  let half := [0, 4, 8, 12, 0x80, 0x80, 0x80, 0x80, 0x80, 0x80, 0x80, 0x80, 0x80, 0x80, 0x80, 0x80]
  half ++ half

/-- What one round of `ZL_muxLengthsEncode_2` computes. -/
structure MuxRound where
  muxed : List UInt8
  loPacked : List UInt8
  loCount : Nat
  hiPacked : List UInt8
  hiCount : Nat

/-- The registers of one round of `ZL_muxLengthsEncode_2`. -/
def muxRound (splitPoint matchLengthBias : Nat) (llRaw mlRaw : List UInt8) : MuxRound :=
  let maskVec := ofLanes 4 (List.replicate 8 (llMask splitPoint ||| mlMask splitPoint <<< 16))
  let biasVec := ofLanes 4 (List.replicate 8 (matchLengthBias <<< 16))
  let vals := unpackloEpi16 llRaw mlRaw ++ unpackhiEpi16 llRaw mlRaw
  let vals := subEpi16 vals biasVec
  -- min(x, m) = x - subs(x, m)
  let tokenVec := subEpi16 vals (subsEpu16 vals maskVec)
  let shifted := srlEpi32 tokenVec (16 - splitPoint)
  let muxed := pshufb256 (Shuffles.orSi tokenVec shifted) kMuxGather
  let extraVec := subEpi16 vals maskVec
  let eqPacked := pshufb256 (cmpeqEpi16 tokenVec maskVec) kTokenExtract
  let combinedMask := movemaskEpi8 eqPacked
  let loMask := combinedMask &&& 0xff
  let hiMask := (combinedMask >>> 16) &&& 0xff
  { muxed := muxed.take 4 ++ (muxed.drop 16).take 4
    loPacked := pshufb (extraVec.take 16) (compressU16LUT loMask)
    loCount := popcount loMask
    hiPacked := pshufb (extraVec.drop 16) (compressU16LUT hiMask)
    hiCount := popcount hiMask }

/-- The output buffers of the encoder, with what is written of them. -/
structure MuxOut where
  muxedOut : List UInt8
  i : Nat
  longOut : List Nat
  count : Nat

/-- Bytes stored at `muxedOut + i`. -/
def MuxOut.putMuxed (out : MuxOut) (muxed : List UInt8) : Option MuxOut :=
  if out.i + muxed.length ≤ out.muxedOut.length then
    some { out with
      muxedOut := Buffer.write out.muxedOut out.i muxed
      i := out.i + muxed.length }
  else none

/-- Elements stored at `longOut + count`, `count` of which are kept. -/
def MuxOut.putLong (out : MuxOut) (long : List Nat) (count : Nat) : Option MuxOut :=
  if out.count + long.length ≤ out.longOut.length then
    some { out with
      longOut := Buffer.write out.longOut out.count long
      count := out.count + count }
  else none

/-- The rounds of eight pairs of `ZL_muxLengthsEncode_2`, then its scalar tail. -/
def muxRounds (splitPoint matchLengthBias : Nat) :
    Nat → List Nat → List Nat → MuxOut → Option MuxOut
  | n + 1, lls, mls, out => do
      let r := muxRound splitPoint matchLengthBias
        (ofLanes 2 (lls.take 8)) (ofLanes 2 (mls.take 8))
      let out ← out.putMuxed r.muxed
      let out ← out.putLong (lanes 2 8 r.loPacked) r.loCount
      let out ← out.putLong (lanes 2 8 r.hiPacked) r.hiCount
      muxRounds splitPoint matchLengthBias n (lls.drop 8) (mls.drop 8) out
  | 0, ll :: lls, ml :: mls, out => do
      let r := muxOne 2 splitPoint ll (unbias 16 ml matchLengthBias)
      let out ← out.putLong r.2 r.2.length
      let out ← out.putMuxed [r.1]
      muxRounds splitPoint matchLengthBias 0 lls mls out
  | 0, _, _, out => some out

/-- `ZL_muxLengthsEncode_2` -/
def muxLengthsEncode2 (splitPoint matchLengthBias : Nat) (muxedOut : List UInt8)
    (longOut : List Nat) (lls mls : List Nat) : Option MuxOut :=
  muxRounds splitPoint matchLengthBias (lls.length / 8) lls mls ⟨muxedOut, 0, longOut, 0⟩

/-- `ZL_muxLengthsEncode`, with or without AVX2; `none` is a store out of bounds. -/
def muxLengthsEncode (avx2 : Bool) (muxedOut : List UInt8) (longOut : List Nat) (lls mls : List Nat)
    (eltWidth splitPoint matchLengthBias : Nat) : Option MuxOut :=
  if avx2 ∧ eltWidth = 2 then
    muxLengthsEncode2 splitPoint matchLengthBias muxedOut longOut lls mls
  else
    let (muxed, long) := muxLengthsEncodeImpl eltWidth splitPoint matchLengthBias lls mls
    do
      let out ← MuxOut.putMuxed ⟨muxedOut, 0, longOut, 0⟩ muxed
      out.putLong long long.length

def kInterleaveShuffle : List UInt8 :=
  [0x00, 0x08, 0x01, 0x09, 0x02, 0x0a, 0x03, 0x0b,
    0x80, 0x80, 0x80, 0x80, 0x80, 0x80, 0x80, 0x80]

def kSpreadShuffle : List UInt8 :=
  [0x00, 0x80, 0x01, 0x80, 0x02, 0x80, 0x03, 0x80,
    0x04, 0x80, 0x05, 0x80, 0x06, 0x80, 0x07, 0x80]

def kBitMask (splitPoint : Nat) : List UInt8 :=
  ofLanes 2 (List.replicate 8 (llMask splitPoint ||| mlMask splitPoint <<< 8))

def kMLBiasOffset (matchLengthBias : Nat) : List UInt8 :=
  ofLanes 2 [0, matchLengthBias, 0, matchLengthBias, 0, matchLengthBias, 0, matchLengthBias]

def kExtractLL : List UInt8 :=
  [0x00, 0x01, 0x04, 0x05, 0x08, 0x09, 0x0c, 0x0d,
    0x80, 0x80, 0x80, 0x80, 0x80, 0x80, 0x80, 0x80]

def kExtractML : List UInt8 :=
  [0x02, 0x03, 0x06, 0x07, 0x0a, 0x0b, 0x0e, 0x0f,
    0x80, 0x80, 0x80, 0x80, 0x80, 0x80, 0x80, 0x80]

/-- The long values still to be read: of `longLengths`, or of their copy in `longTail`. -/
structure LongSrc where
  longSrc : List Nat
  longPos : Nat
  numLong : Nat
  isTail : Bool

/-- The switch to `longTail` where a full load would go past the end. -/
def LongSrc.settle (src : LongSrc) : LongSrc :=
  if src.longPos + 8 > src.numLong ∧ src.isTail = false then
    let remaining := src.numLong - src.longPos
    { longSrc := (src.longSrc.drop src.longPos).take remaining ++ List.replicate (16 - remaining) 0
      longPos := 0
      numLong := remaining
      isTail := true }
  else src

/-- The bytes `[LL0, ML0, LL1, ML1, ...]` of four muxed bytes. -/
def demuxBytes (splitPoint : Nat) (mux4 : List UInt8) : List UInt8 :=
  let mux4 := ofLE mux4
  andSi (pshufb (toLE 8 mux4 ++ toLE 8 (mux4 >>> splitPoint)) kInterleaveShuffle)
    (kBitMask splitPoint)

/-- One round of `ZL_muxLengthsDecode_2`: four muxed bytes. The outer `none` is a load out of
bounds. -/
def demuxRound (splitPoint matchLengthBias : Nat) (mux4 : List UInt8) (src : LongSrc) :
    Option (Except MuxLengthsError (List Nat × List Nat × LongSrc)) :=
  let lengthsV := demuxBytes splitPoint mux4
  let needsExtra := movemaskEpi8 (cmpeqEpi8 lengthsV (kBitMask splitPoint)) &&& 0xff
  let numNeeded := popcount needsExtra
  if src.longPos + numNeeded > src.numLong then some (.error .longLengthsExhausted)
  else
    let lengthsV := addEpi16 (pshufb lengthsV kSpreadShuffle) (kMLBiasOffset matchLengthBias)
    let src := src.settle
    if src.longSrc.length < src.longPos + 8 then none
    else
      let extraLengthsV := ofLanes 2 ((src.longSrc.drop src.longPos).take 8)
      let lengthsV := addEpi16 lengthsV (pshufb extraLengthsV (expandU16LUT needsExtra))
      some (.ok (lanes 2 4 ((pshufb lengthsV kExtractLL).take 8),
        lanes 2 4 ((pshufb lengthsV kExtractML).take 8),
        { src with longPos := src.longPos + numNeeded }))

/-- The rounds of four bytes of `ZL_muxLengthsDecode_2`, then its scalar tail. -/
def demuxRounds (splitPoint matchLengthBias : Nat) :
    List UInt8 → LongSrc → Option (Except MuxLengthsError (List Nat × List Nat × LongSrc))
  | m₀ :: m₁ :: m₂ :: m₃ :: muxed, src =>
      match demuxRound splitPoint matchLengthBias [m₀, m₁, m₂, m₃] src with
      | none => none
      | some (.error e) => some (.error e)
      | some (.ok (lls, mls, src)) =>
          (demuxRounds splitPoint matchLengthBias muxed src).map fun r => do
            let (lls', mls', src) ← r
            .ok (lls ++ lls', mls ++ mls', src)
  | muxed, src => some do
      let (lls, mls, longPos) ←
        demuxLoop 2 splitPoint matchLengthBias src.longSrc src.numLong muxed src.longPos
      .ok (lls, mls, { src with longPos := longPos })

/-- `ZL_muxLengthsDecode_2` -/
def muxLengthsDecode2 (splitPoint matchLengthBias : Nat) (muxed : List UInt8) (long : List Nat) :
    Option (Except MuxLengthsError (List Nat × List Nat)) :=
  (demuxRounds splitPoint matchLengthBias muxed ⟨long, 0, long.length, false⟩).map fun r => do
    let (lls, mls, src) ← r
    checkConsumed src.numLong (lls, mls, src.longPos)

/-- `ZL_muxLengthsDecode`, with or without SSSE3; `none` is a load out of bounds. -/
def muxLengthsDecode (ssse3 : Bool) (muxed : List UInt8) (long : List Nat)
    (eltWidth splitPoint matchLengthBias : Nat) :
    Option (Except MuxLengthsError (List Nat × List Nat)) :=
  if ssse3 ∧ eltWidth = 2 then muxLengthsDecode2 splitPoint matchLengthBias muxed long
  else some (muxLengthsDecodeImpl eltWidth splitPoint matchLengthBias muxed long)

/-! ## Tables -/

theorem tables_eight : ∀ b₀ b₁ b₂ b₃ b₄ b₅ b₆ b₇ : Bool,
    let bs := [b₀, b₁, b₂, b₃, b₄, b₅, b₆, b₇]
    expandU16LUT (ofBits bs) = (expandSelect 0 bs).flatMap laneIndex ∧
      compressU16LUT (ofBits bs) = (compressSelect bs).flatMap laneIndex ∧
        popcount (ofBits bs) = bs.count true := by
  decide +kernel

theorem length_eight {α : Type} {xs : List α} (h : xs.length = 8) :
    ∃ x₀ x₁ x₂ x₃ x₄ x₅ x₆ x₇, xs = [x₀, x₁, x₂, x₃, x₄, x₅, x₆, x₇] := by
  match xs, h with
  | [x₀, x₁, x₂, x₃, x₄, x₅, x₆, x₇], _ => exact ⟨_, _, _, _, _, _, _, _, rfl⟩

theorem ll_byte {splitPoint X m : Nat} (hsp : splitPoint ≤ 8) (hX : X % 256 = m) :
    UInt8.ofNat X &&& UInt8.ofNat (llMask splitPoint ||| mlMask splitPoint <<< 8) =
      UInt8.ofNat (m &&& llMask splitPoint) := by
  have hpow := Nat.pow_dvd_pow 2 hsp
  have hlt : llMask splitPoint < 2 ^ 8 := by
    have := (masks_le hsp).1
    omega
  rw [or_shiftLeft hlt]
  apply UInt8.toNat_inj.1
  rw [UInt8.toNat_and, UInt8.toNat_ofNat', UInt8.toNat_ofNat', UInt8.toNat_ofNat',
    Nat.add_mul_mod_self_left, Nat.mod_eq_of_lt hlt, llMask_eq, Nat.and_two_pow_sub_one_eq_mod,
    Nat.and_two_pow_sub_one_eq_mod, ← hX, Nat.mod_mod_of_dvd _ hpow]
  have hle : X % 2 ^ splitPoint < 2 ^ splitPoint := Nat.mod_lt _ (Nat.two_pow_pos _)
  exact (Nat.mod_eq_of_lt (hle.trans_le (Nat.pow_le_pow_right (by decide) hsp))).symm

theorem ml_byte {splitPoint X m : Nat} (hsp : splitPoint ≤ 8) (hX : X % 256 = m) :
    UInt8.ofNat (X >>> splitPoint) &&&
        UInt8.ofNat ((llMask splitPoint ||| mlMask splitPoint <<< 8) / 256) =
      UInt8.ofNat (m >>> splitPoint) := by
  obtain ⟨hll, hml⟩ := masks_le hsp
  have hmask : (llMask splitPoint + 2 ^ 8 * mlMask splitPoint) / 256 = mlMask splitPoint := by omega
  have hpow : 256 = 2 ^ splitPoint * 2 ^ (8 - splitPoint) := by
    rw [← Nat.pow_add, Nat.add_sub_cancel' hsp]
  have hm : m < 256 := by omega
  rw [or_shiftLeft (by omega), hmask]
  apply UInt8.toNat_inj.1
  rw [UInt8.toNat_and, UInt8.toNat_ofNat', UInt8.toNat_ofNat', UInt8.toNat_ofNat',
    Nat.mod_eq_of_lt (by omega : mlMask splitPoint < 2 ^ 8), mlMask_eq,
    Nat.and_two_pow_sub_one_eq_mod, Nat.mod_mod_of_dvd _ (Nat.pow_dvd_pow 2 (Nat.sub_le 8 _)),
    Nat.mod_eq_of_lt ((Nat.shiftRight_le _ _).trans_lt hm), Nat.shiftRight_eq_div_pow,
    Nat.shiftRight_eq_div_pow, ← Nat.mod_mul_right_div_self, ← hpow, hX]

theorem demuxBytes_eq {splitPoint : Nat} (hsp : splitPoint ≤ 8) (m₀ m₁ m₂ m₃ : UInt8) :
    demuxBytes splitPoint [m₀, m₁, m₂, m₃] =
      [m₀, m₁, m₂, m₃].flatMap (fun m =>
        [UInt8.ofNat (m.toNat &&& llMask splitPoint), UInt8.ofNat (m.toNat >>> splitPoint)]) ++
        List.replicate 8 0 := by
  have h₀ := m₀.toNat_lt
  have h₁ := m₁.toNat_lt
  have h₂ := m₂.toNat_lt
  have h₃ := m₃.toNat_lt
  have hle : ofLE [m₀, m₁, m₂, m₃] =
      m₀.toNat + 256 * (m₁.toNat + 256 * (m₂.toNat + 256 * m₃.toNat)) := by
    simp [ofLE, Nat.ofDigits_cons]
  unfold demuxBytes
  generalize ofLE [m₀, m₁, m₂, m₃] = X at hle ⊢
  have hand : ∀ V, andSi (pshufb (toLE 8 X ++ toLE 8 (X >>> splitPoint)) kInterleaveShuffle)
      (ofLanes 2 (List.replicate 8 V)) =
      [UInt8.ofNat X &&& UInt8.ofNat V, UInt8.ofNat (X >>> splitPoint) &&& UInt8.ofNat (V / 256),
        UInt8.ofNat (X / 256) &&& UInt8.ofNat V,
        UInt8.ofNat (X >>> splitPoint / 256) &&& UInt8.ofNat (V / 256),
        UInt8.ofNat (X / 256 / 256) &&& UInt8.ofNat V,
        UInt8.ofNat (X >>> splitPoint / 256 / 256) &&& UInt8.ofNat (V / 256),
        UInt8.ofNat (X / 256 / 256 / 256) &&& UInt8.ofNat V,
        UInt8.ofNat (X >>> splitPoint / 256 / 256 / 256) &&& UInt8.ofNat (V / 256),
        0, 0, 0, 0, 0, 0, 0, 0] := by
    intro V
    simp [andSi, pshufb_eq, kInterleaveShuffle, toLE, ofLanes]
  have hshift : ∀ Y, Y >>> splitPoint / 256 = (Y / 256) >>> splitPoint := by
    intro Y
    rw [Nat.shiftRight_eq_div_pow, Nat.shiftRight_eq_div_pow, Nat.div_div_eq_div_mul,
      Nat.div_div_eq_div_mul, Nat.mul_comm]
  rw [kBitMask, hand, hshift, hshift, hshift,
    ll_byte hsp (by omega : X % 256 = m₀.toNat), ml_byte hsp (by omega : X % 256 = m₀.toNat),
    ll_byte hsp (by omega : X / 256 % 256 = m₁.toNat),
    ml_byte hsp (by omega : X / 256 % 256 = m₁.toNat),
    ll_byte hsp (by omega : X / 256 / 256 % 256 = m₂.toNat),
    ml_byte hsp (by omega : X / 256 / 256 % 256 = m₂.toNat),
    ll_byte hsp (by omega : X / 256 / 256 / 256 % 256 = m₃.toNat),
    ml_byte hsp (by omega : X / 256 / 256 / 256 % 256 = m₃.toNat)]
  rfl

theorem picked_succ (x : Nat) (long : List Nat) (bs : List Bool) (r : Nat) :
    (expandSelect (r + 1) bs).map (picked (x :: long)) = (expandSelect r bs).map (picked long) := by
  induction bs generalizing r with
  | nil => rfl
  | cons b bs ih =>
    cases b with
    | false => rw [expandSelect, expandSelect, List.map_cons, List.map_cons, ih]; rfl
    | true => rw [expandSelect, expandSelect, List.map_cons, List.map_cons, ih]; rfl

theorem readFields_eq (fs : List (Nat × Bool)) (long : List Nat) :
    readFields fs long = if long.length < (fs.map Prod.snd).count true then none
      else some (List.zipWith (· + ·) (fs.map Prod.fst)
        ((expandSelect 0 (fs.map Prod.snd)).map (picked long)),
          long.drop ((fs.map Prod.snd).count true)) := by
  induction fs generalizing long with
  | nil => rfl
  | cons f fs ih =>
    obtain ⟨v, b⟩ := f
    cases b with
    | false =>
      rw [readFields, ih, List.map_cons, List.map_cons, List.count_cons_of_ne Bool.false_ne_true]
      split <;> rfl
    | true =>
      rw [List.map_cons, List.map_cons, List.count_cons_self]
      cases long with
      | nil => rfl
      | cons x long =>
        rw [readFields, ih, expandSelect, List.map_cons, picked_succ, List.length_cons]
        simp only [Nat.add_lt_add_iff_right]
        split <;> rfl

/-! ## One round -/

/-- Where the long values are, and that a full load stays inside its buffer. -/
structure LongSrc.Ready (src : LongSrc) : Prop where
  num_le : src.numLong ≤ src.longSrc.length
  pos_le : src.longPos ≤ src.numLong
  tail : src.isTail = true → src.numLong ≤ 8 ∧ src.longSrc.length = 16
  lt : ∀ v ∈ src.longSrc, v < 2 ^ 16

/-- The long values that are left. -/
def LongSrc.rest (src : LongSrc) : List Nat := remaining src.longSrc src.longPos src.numLong

theorem LongSrc.Ready.settle {src : LongSrc} (h : src.Ready) :
    src.settle.Ready ∧ src.settle.rest = src.rest ∧
      src.settle.longPos + 8 ≤ src.settle.longSrc.length := by
  obtain ⟨hnum, hpos, htail, hlt⟩ := h
  unfold LongSrc.settle
  split
  · rename_i hswitch
    have hlen : ((src.longSrc.drop src.longPos).take (src.numLong - src.longPos)).length =
        src.numLong - src.longPos := by
      rw [List.length_take, List.length_drop]
      omega
    refine ⟨⟨?_, Nat.zero_le _, fun _ => ⟨?_, ?_⟩, fun v hv => ?_⟩, ?_, ?_⟩
    · dsimp only
      rw [List.length_append, hlen]
      omega
    · dsimp only
      omega
    · dsimp only
      rw [List.length_append, hlen, List.length_replicate]
      omega
    · rcases List.mem_append.1 hv with hv | hv
      · exact hlt v (List.mem_of_mem_drop (List.mem_of_mem_take hv))
      · rw [(List.mem_replicate.1 hv).2]
        exact Nat.two_pow_pos 16
    · rw [LongSrc.rest, LongSrc.rest, remaining, remaining, List.take_left' hlen, List.drop_zero,
        List.drop_take]
    · dsimp only
      rw [List.length_append, hlen, List.length_replicate]
      omega
  · rename_i hstay
    refine ⟨⟨hnum, hpos, htail, hlt⟩, rfl, ?_⟩
    cases htailed : src.isTail with
    | true =>
      obtain ⟨hsmall, hlen⟩ := htail htailed
      omega
    | false =>
      simp only [htailed, and_true] at hstay
      omega

theorem picked_load {src : LongSrc} {r : Nat} (h : src.longPos + r < src.numLong) (hr : r < 8) :
    picked ((src.longSrc.drop src.longPos).take 8) (some r) = picked src.rest (some r) := by
  rw [picked, picked, LongSrc.rest, remaining, List.getD_eq_getElem?_getD,
    List.getD_eq_getElem?_getD, List.getElem?_take_of_lt hr, List.getElem?_drop,
    List.getElem?_drop, List.getElem?_take_of_lt h]

theorem ofNat_inj_of_lt {x y : Nat} (hx : x < 256) (hy : y < 256) :
    UInt8.ofNat x = UInt8.ofNat y ↔ x = y := by
  rw [← UInt8.toNat_inj, UInt8.toNat_ofNat', UInt8.toNat_ofNat', Nat.mod_eq_of_lt hx,
    Nat.mod_eq_of_lt hy]

theorem kBitMask_eq {splitPoint : Nat} (hsp : splitPoint ≤ 8) :
    kBitMask splitPoint = (List.replicate 8
      [UInt8.ofNat (llMask splitPoint), UInt8.ofNat (mlMask splitPoint)]).flatten := by
  obtain ⟨hll, hml⟩ := masks_le hsp
  have hlane : toLE 2 (llMask splitPoint ||| mlMask splitPoint <<< 8) =
      [UInt8.ofNat (llMask splitPoint), UInt8.ofNat (mlMask splitPoint)] := by
    rw [or_shiftLeft (by omega), toLE, toLE, toLE]
    congr 1
    · apply UInt8.toNat_inj.1
      rw [UInt8.toNat_ofNat', UInt8.toNat_ofNat']
      omega
    · congr 2
      omega
  rw [kBitMask, ofLanes, List.flatMap_replicate, hlane]

/-- The masks of the eight fields of four bytes. -/
def fieldMasks (splitPoint : Nat) : List Nat :=
  [llMask splitPoint, mlMask splitPoint, llMask splitPoint, mlMask splitPoint,
    llMask splitPoint, mlMask splitPoint, llMask splitPoint, mlMask splitPoint]

/-- The biases of the eight fields of four bytes. -/
def fieldBiases (matchLengthBias : Nat) : List Nat :=
  [0, matchLengthBias, 0, matchLengthBias, 0, matchLengthBias, 0, matchLengthBias]

theorem movemask_low (bs zs : List Bool) (hlen : bs.length = 8) :
    movemaskEpi8 (bs.map flagByte ++ zs.map flagByte) &&& 0xff = ofBits bs := by
  have hlt := ofBits_lt bs
  rw [hlen] at hlt
  rw [← List.map_append, movemaskEpi8_flags, ofBits_append, hlen, show 0xff = 2 ^ 8 - 1 from rfl,
    Nat.and_two_pow_sub_one_eq_mod, Nat.add_mul_mod_self_left, Nat.mod_eq_of_lt hlt]

theorem lanes_low {a b c d : Nat} (ha : a < 2 ^ 16) (hb : b < 2 ^ 16) (hc : c < 2 ^ 16)
    (hd : d < 2 ^ 16) : lanes 2 4 ((ofLanes 2 [a, b, c, d, 0, 0, 0, 0]).take 8) = [a, b, c, d] := by
  have htake : (ofLanes 2 [a, b, c, d, 0, 0, 0, 0]).take 8 = ofLanes 2 [a, b, c, d] := rfl
  have hlt : ∀ x ∈ [a, b, c, d], x < 2 ^ (8 * 2) := by
    simp only [List.mem_cons, List.not_mem_nil, or_false]
    omega
  rw [htake]
  exact lanes_ofLanes hlt

section Round

variable {splitPoint matchLengthBias : Nat} {xs : List Nat}

theorem needsExtra_eq (hsp : splitPoint ≤ 8) (hlen : xs.length = 8) (hlt : ∀ x ∈ xs, x < 256) :
    movemaskEpi8 (cmpeqEpi8 (xs.map UInt8.ofNat ++ List.replicate 8 0) (kBitMask splitPoint)) &&&
        0xff =
      ofBits (List.zipWith (fun x m => decide (x = m)) xs (fieldMasks splitPoint)) := by
  obtain ⟨x₀, x₁, x₂, x₃, x₄, x₅, x₆, x₇, rfl⟩ := length_eight hlen
  obtain ⟨hll, hml⟩ := masks_le hsp
  simp only [List.mem_cons, List.not_mem_nil, or_false, forall_eq_or_imp, forall_eq] at hlt
  obtain ⟨h₀, h₁, h₂, h₃, h₄, h₅, h₆, h₇⟩ := hlt
  have hcmp : ∀ x y : UInt8, (if x = y then (0xff : UInt8) else 0) = flagByte (decide (x = y)) := by
    intro x y
    rw [flagByte]
    simp only [decide_eq_true_eq]
  rw [kBitMask_eq hsp]
  simp only [List.map_cons, List.map_nil, List.replicate, List.cons_append, List.nil_append,
    List.flatten_cons, List.flatten_nil, List.append_nil, cmpeqEpi8, List.zipWith_cons_cons,
    List.zipWith_nil_left, hcmp, ofNat_inj_of_lt h₀ (by omega : llMask splitPoint < 256),
    ofNat_inj_of_lt h₁ (by omega : mlMask splitPoint < 256),
    ofNat_inj_of_lt h₂ (by omega : llMask splitPoint < 256),
    ofNat_inj_of_lt h₃ (by omega : mlMask splitPoint < 256),
    ofNat_inj_of_lt h₄ (by omega : llMask splitPoint < 256),
    ofNat_inj_of_lt h₅ (by omega : mlMask splitPoint < 256),
    ofNat_inj_of_lt h₆ (by omega : llMask splitPoint < 256),
    ofNat_inj_of_lt h₇ (by omega : mlMask splitPoint < 256), fieldMasks]
  exact movemask_low [_, _, _, _, _, _, _, _] [_, _, _, _, _, _, _, _] rfl

theorem spread_eq (hbias : matchLengthBias ≤ 15) (hlen : xs.length = 8)
    (hlt : ∀ x ∈ xs, x < 256) :
    addEpi16 (pshufb (xs.map UInt8.ofNat ++ List.replicate 8 0) kSpreadShuffle)
        (kMLBiasOffset matchLengthBias) =
      ofLanes 2 (List.zipWith (fun x y => (x + y) % 2 ^ 16) xs (fieldBiases matchLengthBias)) := by
  have hspread : pshufb (xs.map UInt8.ofNat ++ List.replicate 8 0) kSpreadShuffle =
      ofLanes 2 xs := by
    obtain ⟨x₀, x₁, x₂, x₃, x₄, x₅, x₆, x₇, rfl⟩ := length_eight hlen
    simp only [List.mem_cons, List.not_mem_nil, or_false, forall_eq_or_imp, forall_eq] at hlt
    obtain ⟨h₀, h₁, h₂, h₃, h₄, h₅, h₆, h₇⟩ := hlt
    simp [pshufb_eq, kSpreadShuffle, ofLanes, toLE, Nat.div_eq_of_lt h₀, Nat.div_eq_of_lt h₁,
      Nat.div_eq_of_lt h₂, Nat.div_eq_of_lt h₃, Nat.div_eq_of_lt h₄, Nat.div_eq_of_lt h₅,
      Nat.div_eq_of_lt h₆, Nat.div_eq_of_lt h₇]
  have hxs : ∀ x ∈ xs, x < 2 ^ (8 * 2) := fun x hx => (hlt x hx).trans (by decide)
  have hys : ∀ y ∈ fieldBiases matchLengthBias, y < 2 ^ (8 * 2) := by
    intro y hy
    simp only [fieldBiases, List.mem_cons, List.not_mem_nil, or_false] at hy
    omega
  rw [hspread]
  exact lanewise_ofLanes (by decide) _ hxs hys

theorem extract_eq {ws : List Nat} (hlen : ws.length = 8) (hlt : ∀ w ∈ ws, w < 2 ^ 16) :
    lanes 2 4 ((pshufb (ofLanes 2 ws) kExtractLL).take 8) = evens ws ∧
      lanes 2 4 ((pshufb (ofLanes 2 ws) kExtractML).take 8) = odds ws := by
  have hll : kExtractLL =
      [some 0, some 2, some 4, some 6, none, none, none, none].flatMap laneIndex := rfl
  have hml : kExtractML =
      [some 1, some 3, some 5, some 7, none, none, none, none].flatMap laneIndex := rfl
  rw [hll, hml, pshufb_lanes hlen (by simp), pshufb_lanes hlen (by simp)]
  obtain ⟨w₀, w₁, w₂, w₃, w₄, w₅, w₆, w₇, rfl⟩ := length_eight hlen
  simp only [List.mem_cons, List.not_mem_nil, or_false, forall_eq_or_imp, forall_eq] at hlt
  obtain ⟨h₀, h₁, h₂, h₃, h₄, h₅, h₆, h₇⟩ := hlt
  exact ⟨lanes_low h₀ h₂ h₄ h₆, lanes_low h₁ h₃ h₅ h₇⟩

end Round

/-- What a run over some fields comes to, with the long values that are left. -/
def Demuxed (fs : List (Nat × Bool)) (src : LongSrc)
    (r : Option (Except MuxLengthsError (List Nat × List Nat × LongSrc))) : Prop :=
  readFields fs src.rest = none ∧ r = some (.error .longLengthsExhausted) ∨
    ∃ vs src', readFields fs src.rest = some (vs, src'.rest) ∧ src'.Ready ∧
      r = some (.ok ((evens vs).map (· % 2 ^ 16), (odds vs).map (· % 2 ^ 16), src'))

section Demux

variable {splitPoint matchLengthBias : Nat} {src : LongSrc}

theorem flags_values (m₀ m₁ m₂ m₃ : UInt8) :
    let xs := [m₀, m₁, m₂, m₃].flatMap fun m =>
      [m.toNat &&& llMask splitPoint, m.toNat >>> splitPoint]
    let fs := [m₀, m₁, m₂, m₃].flatMap (fieldsOf splitPoint matchLengthBias)
    fs.map Prod.snd = List.zipWith (fun x m => decide (x = m)) xs (fieldMasks splitPoint) ∧
      fs.map Prod.fst = List.zipWith (· + ·) (fieldBiases matchLengthBias) xs := by
  simp [fieldsOf, fieldMasks, fieldBiases]

theorem picked_lt (h : src.Ready) (o : Option Nat) : picked src.rest o < 2 ^ 16 := by
  cases o with
  | none => exact Nat.two_pow_pos 16
  | some r =>
    rw [picked, List.getD_eq_getElem?_getD]
    cases hr : src.rest[r]? with
    | none => exact Nat.two_pow_pos 16
    | some v =>
      have hmem : v ∈ src.rest := List.mem_of_getElem? hr
      exact h.lt v (List.mem_of_mem_take (List.mem_of_mem_drop hmem))

theorem zipWith_mod_lt (xs ys : List Nat) :
    ∀ w ∈ List.zipWith (fun x y => (x + y) % 2 ^ 16) xs ys, w < 2 ^ 16 := by
  intro w hw
  rw [← List.map_uncurry_zip_eq_zipWith] at hw
  obtain ⟨p, -, rfl⟩ := List.mem_map.1 hw
  exact Nat.mod_lt _ (Nat.two_pow_pos 16)

theorem demuxRound_spec (hsp : splitPoint ≤ 8) (hbias : matchLengthBias ≤ 15) (h : src.Ready)
    (m₀ m₁ m₂ m₃ : UInt8) :
    Demuxed ([m₀, m₁, m₂, m₃].flatMap (fieldsOf splitPoint matchLengthBias)) src
      (demuxRound splitPoint matchLengthBias [m₀, m₁, m₂, m₃] src) := by
  obtain ⟨hflags, hvalues⟩ := @flags_values splitPoint matchLengthBias m₀ m₁ m₂ m₃
  generalize [m₀, m₁, m₂, m₃].flatMap (fieldsOf splitPoint matchLengthBias) = fs at *
  have hbytes := demuxBytes_eq hsp m₀ m₁ m₂ m₃
  have hmap : ([m₀, m₁, m₂, m₃].flatMap fun m =>
      [UInt8.ofNat (m.toNat &&& llMask splitPoint), UInt8.ofNat (m.toNat >>> splitPoint)]) =
      ([m₀, m₁, m₂, m₃].flatMap fun m =>
        [m.toNat &&& llMask splitPoint, m.toNat >>> splitPoint]).map UInt8.ofNat := rfl
  have hxs : ([m₀, m₁, m₂, m₃].flatMap fun m =>
      [m.toNat &&& llMask splitPoint, m.toNat >>> splitPoint]).length = 8 := rfl
  have hlt : ∀ x ∈ ([m₀, m₁, m₂, m₃].flatMap fun m =>
      [m.toNat &&& llMask splitPoint, m.toNat >>> splitPoint]), x < 256 := by
    intro x hx
    obtain ⟨m, -, hm⟩ := List.mem_flatMap.1 hx
    have hbyte := m.toNat_lt
    rcases List.mem_cons.1 hm with rfl | hm
    · exact Nat.and_le_left.trans_lt hbyte
    · rw [List.mem_singleton.1 hm]
      exact (Nat.shiftRight_le _ _).trans_lt hbyte
  rw [hmap] at hbytes
  generalize ([m₀, m₁, m₂, m₃].flatMap fun m =>
    [m.toNat &&& llMask splitPoint, m.toNat >>> splitPoint]) = xs at *
  have hbs : (fs.map Prod.snd).length = 8 := by
    rw [hflags, List.length_zipWith, hxs]
    rfl
  have hneeds := needsExtra_eq hsp hxs hlt
  rw [← hflags] at hneeds
  have htables : expandU16LUT (ofBits (fs.map Prod.snd)) =
        (expandSelect 0 (fs.map Prod.snd)).flatMap laneIndex ∧
      popcount (ofBits (fs.map Prod.snd)) = (fs.map Prod.snd).count true := by
    obtain ⟨b₀, b₁, b₂, b₃, b₄, b₅, b₆, b₇, hb⟩ := length_eight hbs
    rw [hb]
    exact ⟨(tables_eight _ _ _ _ _ _ _ _).1, (tables_eight _ _ _ _ _ _ _ _).2.2⟩
  have hrest : src.rest.length = src.numLong - src.longPos := length_remaining h.num_le _
  have hpos := h.pos_le
  unfold demuxRound
  dsimp only
  rw [hbytes, hneeds, htables.1, htables.2, spread_eq hbias hxs hlt, Demuxed, readFields_eq]
  by_cases hshort : src.longPos + (fs.map Prod.snd).count true > src.numLong
  · rw [if_pos hshort, if_pos (by omega)]
    exact .inl ⟨rfl, rfl⟩
  · obtain ⟨hready, hsettle, hroom⟩ := h.settle
    rw [if_neg hshort, if_neg (by omega), if_neg (by omega)]
    have hcount : (fs.map Prod.snd).count true ≤ 8 := hbs ▸ List.count_le_length
    have hload : ((src.settle.longSrc.drop src.settle.longPos).take 8).length = 8 := by
      rw [List.length_take, List.length_drop]
      omega
    have hsettled : src.settle.numLong - src.settle.longPos = src.numLong - src.longPos := by
      rw [← length_remaining hready.num_le, ← hrest, ← hsettle, LongSrc.rest]
    have hpicks : (expandSelect 0 (fs.map Prod.snd)).map
          (picked ((src.settle.longSrc.drop src.settle.longPos).take 8)) =
        (expandSelect 0 (fs.map Prod.snd)).map (picked src.rest) := by
      refine List.map_congr_left fun o ho => ?_
      cases o with
      | none => rfl
      | some r =>
        have hr := lt_of_mem_expandSelect ho
        rw [picked_load (by omega) (by omega), hsettle]
    have hpicked : ∀ p ∈ (expandSelect 0 (fs.map Prod.snd)).map (picked src.rest), p < 2 ^ 16 := by
      intro p hp
      obtain ⟨o, -, rfl⟩ := List.mem_map.1 hp
      exact picked_lt h o
    have hplen : ((expandSelect 0 (fs.map Prod.snd)).map (picked src.rest)).length = 8 := by
      rw [List.length_map, length_expandSelect, hbs]
    have hadd : addEpi16 (ofLanes 2 (List.zipWith (fun x y => (x + y) % 2 ^ 16) xs
          (fieldBiases matchLengthBias)))
        (pshufb (ofLanes 2 ((src.settle.longSrc.drop src.settle.longPos).take 8))
          ((expandSelect 0 (fs.map Prod.snd)).flatMap laneIndex)) =
        ofLanes 2 (List.zipWith (fun x y => (x + y) % 2 ^ 16)
          (List.zipWith (fun x y => (x + y) % 2 ^ 16) xs (fieldBiases matchLengthBias))
          ((expandSelect 0 (fs.map Prod.snd)).map (picked src.rest))) := by
      rw [pshufb_lanes hload (fun r hr => by have := lt_of_mem_expandSelect hr; omega), hpicks]
      exact lanewise_ofLanes (by decide) _ (zipWith_mod_lt _ _) hpicked
    rw [hadd]
    generalize (expandSelect 0 (fs.map Prod.snd)).map (picked src.rest) = ps at *
    have hwlen : (List.zipWith (fun x y => (x + y) % 2 ^ 16)
        (List.zipWith (fun x y => (x + y) % 2 ^ 16) xs (fieldBiases matchLengthBias)) ps).length
          = 8 := by
      simp [hxs, hplen, fieldBiases]
    obtain ⟨hevens, hodds⟩ := extract_eq hwlen (zipWith_mod_lt _ _)
    rw [hevens, hodds, hvalues]
    refine .inr ⟨List.zipWith (· + ·) (List.zipWith (· + ·) (fieldBiases matchLengthBias) xs) ps,
      { src.settle with
      longPos := src.settle.longPos + (fs.map Prod.snd).count true }, ?_, ?_, ?_⟩
    · rw [← hsettle, LongSrc.rest, LongSrc.rest, remaining, remaining, List.drop_drop]
    · have hpos' := hready.pos_le
      exact ⟨hready.num_le, by dsimp only; omega, hready.tail, hready.lt⟩
    · obtain ⟨x₀, x₁, x₂, x₃, x₄, x₅, x₆, x₇, rfl⟩ := length_eight hxs
      obtain ⟨p₀, p₁, p₂, p₃, p₄, p₅, p₆, p₇, rfl⟩ := length_eight hplen
      simp [fieldBiases, evens, odds, Nat.add_comm]

/-! ## All rounds -/

theorem demuxTail_spec (h : src.Ready) (muxed : List UInt8) :
    Demuxed (muxed.flatMap (fieldsOf splitPoint matchLengthBias)) src (some do
      let (lls, mls, longPos) ←
        demuxLoop 2 splitPoint matchLengthBias src.longSrc src.numLong muxed src.longPos
      .ok (lls, mls, { src with longPos := longPos })) := by
  rw [demuxLoop_eq (by decide) h.num_le muxed h.pos_le, Demuxed, LongSrc.rest]
  rcases hread : readFields (muxed.flatMap (fieldsOf splitPoint matchLengthBias))
    (remaining src.longSrc src.longPos src.numLong) with - | ⟨vs, rest⟩
  · exact .inl ⟨rfl, rfl⟩
  · have hle : rest.length ≤ _ := readFields_le _ hread
    rw [length_remaining h.num_le] at hle
    have hrest : rest = remaining src.longSrc (src.numLong - rest.length) src.numLong := by
      rw [readFields_eq] at hread
      split at hread
      · cases hread
      · rename_i hmany
        obtain ⟨-, rfl⟩ := Prod.mk.inj (Option.some.inj hread)
        rw [length_remaining h.num_le] at hmany
        rw [List.length_drop, length_remaining h.num_le, remaining, remaining, List.drop_drop]
        congr 1
        have hpos := h.pos_le
        omega
    refine .inr ⟨vs, { src with longPos := src.numLong - rest.length }, ?_, ?_, rfl⟩
    · rw [LongSrc.rest, ← hrest]
    · exact ⟨h.num_le, Nat.sub_le _ _, h.tail, h.lt⟩

theorem Demuxed.append {fs gs : List (Nat × Bool)} {vs : List Nat} {src' : LongSrc}
    {r : Option (Except MuxLengthsError (List Nat × List Nat × LongSrc))} (hlen : fs.length = 8)
    (hread : readFields fs src.rest = some (vs, src'.rest)) (h : Demuxed gs src' r) :
    Demuxed (fs ++ gs) src (r.map fun r => do
      let (lls', mls', src) ← r
      .ok ((evens vs).map (· % 2 ^ 16) ++ lls', (odds vs).map (· % 2 ^ 16) ++ mls', src)) := by
  have hvs : vs.length = 8 := by
    rw [readFields_eq] at hread
    split at hread
    · cases hread
    · obtain ⟨rfl, -⟩ := Prod.mk.inj (Option.some.inj hread)
      simp [hlen]
  obtain ⟨v₀, v₁, v₂, v₃, v₄, v₅, v₆, v₇, rfl⟩ := length_eight hvs
  rw [Demuxed, readFields_append, hread, Option.bind_some]
  rcases h with ⟨hnone, rfl⟩ | ⟨us, src'', hsome, hready, rfl⟩
  · rw [hnone]
    exact .inl ⟨rfl, rfl⟩
  · rw [hsome]
    exact .inr ⟨_, src'', rfl, hready, rfl⟩

theorem demuxRounds_spec (hsp : splitPoint ≤ 8) (hbias : matchLengthBias ≤ 15) :
    ∀ (muxed : List UInt8) {src : LongSrc}, src.Ready →
      Demuxed (muxed.flatMap (fieldsOf splitPoint matchLengthBias)) src
        (demuxRounds splitPoint matchLengthBias muxed src)
  | m₀ :: m₁ :: m₂ :: m₃ :: muxed, src, h => by
      have hsplit : (m₀ :: m₁ :: m₂ :: m₃ :: muxed).flatMap
          (fieldsOf splitPoint matchLengthBias) =
          [m₀, m₁, m₂, m₃].flatMap (fieldsOf splitPoint matchLengthBias) ++
            muxed.flatMap (fieldsOf splitPoint matchLengthBias) := rfl
      rw [hsplit, demuxRounds]
      rcases demuxRound_spec hsp hbias h m₀ m₁ m₂ m₃ with
        ⟨hnone, hround⟩ | ⟨vs, src', hread, hready, hround⟩
      · rw [hround, Demuxed, readFields_append, hnone]
        exact .inl ⟨rfl, rfl⟩
      · rw [hround]
        exact (demuxRounds_spec hsp hbias muxed hready).append rfl hread
  | [], src, h => by
      exact demuxTail_spec h []
  | [m₀], src, h => demuxTail_spec h [m₀]
  | [m₀, m₁], src, h => demuxTail_spec h [m₀, m₁]
  | [m₀, m₁, m₂], src, h => demuxTail_spec h [m₀, m₁, m₂]

end Demux

theorem muxLengthsDecode2_eq {splitPoint matchLengthBias : Nat} (hsp : splitPoint ≤ 8)
    (hbias : matchLengthBias ≤ 15) (muxed : List UInt8) {long : List Nat}
    (hlong : ∀ v ∈ long, v < 2 ^ 16) :
    muxLengthsDecode2 splitPoint matchLengthBias muxed long =
      some (muxLengthsDecodeImpl 2 splitPoint matchLengthBias muxed long) := by
  have hready : LongSrc.Ready ⟨long, 0, long.length, false⟩ :=
    ⟨Nat.le_refl _, Nat.zero_le _, nofun, hlong⟩
  have hrest : LongSrc.rest ⟨long, 0, long.length, false⟩ = long := by
    rw [LongSrc.rest, remaining, List.take_length, List.drop_zero]
  rw [muxLengthsDecodeImpl_eq (by decide), decodeFields, muxLengthsDecode2]
  have hrun := demuxRounds_spec hsp hbias muxed hready
  rw [Demuxed, hrest] at hrun
  rcases hrun with ⟨hnone, hrun⟩ | ⟨vs, src, hread, hready', hrun⟩
  · rw [hrun, hnone]
    rfl
  · have hlen : src.rest.length = src.numLong - src.longPos := length_remaining hready'.num_le _
    have hpos := hready'.pos_le
    rw [hrun, hread]
    cases hcase : src.rest with
    | nil =>
      rw [hcase, List.length_nil] at hlen
      have hdone : src.longPos = src.numLong := by omega
      simp [checkConsumed, fieldsResult, hdone]
    | cons v rest =>
      rw [hcase, List.length_cons] at hlen
      have hleft : src.longPos ≠ src.numLong := by omega
      simp [checkConsumed, fieldsResult, hleft]

end OpenZL.Codecs.MuxLengths
