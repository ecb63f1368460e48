import OpenZL.Lib.LittleEndian
import Mathlib.Tactic.NormNum

/-!
# The bitpack kernel

`ZS_bitpackEncode8` / `ZS_bitpackEncode32` and their decoders, in the portable build (no AVX2/BMI2
variants).

Principal results: `bitpackEncode8_spec`, `bitpackEncode32_spec`, `bitpackDecode8_spec`,
`bitpackDecode32_spec`.
-/

namespace OpenZL.Codecs.Bitpack

open OpenZL.Lib

variable {nbBits : Nat}

/-- `ZS_bitpackEncodeBound`. -/
def bitpackEncodeBound (nbElts nbBits : Nat) : Nat := (nbElts * nbBits + 7) / 8

/-- The loop of `ZS_bitpackEncode8_generic`, with its tail. -/
def bitpackEncode8Generic (nbBits : Nat) : List Nat → Nat → Nat → List UInt8
  | [], bits, state => if bits > 0 then [UInt8.ofNat state] else []
  | v :: vs, bits, state =>
    let state := state ||| (v <<< bits) % 2 ^ 64
    let bits := bits + nbBits
    if bits ≥ 8 then UInt8.ofNat state :: bitpackEncode8Generic nbBits vs (bits - 8) (state >>> 8)
    else bitpackEncode8Generic nbBits vs bits state

/-- `ZS_writeLEN32` over an array: the `n` low bytes of every element. -/
def bytepackEncodeImpl (n : Nat) (src : List Nat) : List UInt8 := src.flatMap (toLE n)

/-- `bit1pack32`: the accumulator is filled from the last element to the first. -/
def bit1pack32 (src : List Nat) : List UInt8 :=
  toLE ((src.length + 7) / 8) (src.foldr (fun v acc => (acc <<< 1) % 2 ^ 64 + v) 0)

/-- The "last round" loop of `ZS_bitpackEncode32_generic`, with the final commit. -/
def bitpackEncode32LastRound (nbBits : Nat) : List Nat → Nat → Nat → List UInt8
  | [], acc64, bitPos => toLE ((bitPos + 7) / 8) acc64
  | v :: vs, acc64, bitPos =>
    let acc64 := acc64 ||| (v <<< bitPos) % 2 ^ 64
    let bitPos := bitPos + nbBits
    if bitPos > 63 - nbBits then
      toLE (bitPos / 8) acc64 ++
        bitpackEncode32LastRound nbBits vs (acc64 >>> (bitPos / 8 * 8)) (bitPos % 8)
    else bitpackEncode32LastRound nbBits vs acc64 bitPos

/-- The inner loop of a full round: no commit between the packs. -/
def bitpackEncode32Packs (nbBits : Nat) : List Nat → Nat → Nat → Nat × Nat
  | [], acc64, bitPos => (acc64, bitPos)
  | v :: vs, acc64, bitPos =>
    bitpackEncode32Packs nbBits vs (acc64 ||| (v <<< bitPos) % 2 ^ 64) (bitPos + nbBits)

/-- The full rounds of `ZS_bitpackEncode32_generic`; `dstPtr < dstEnd - 7` is the loop guard. -/
def bitpackEncode32FullRounds (nbBits dstSize : Nat) :
    Nat → List Nat → Nat → Nat → Nat → List UInt8
  | 0, src, _, acc64, bitPos => bitpackEncode32LastRound nbBits src acc64 bitPos
  | nr + 1, src, dstPtr, acc64, bitPos =>
    if dstPtr + 7 < dstSize then
      let (acc64, bitPos) := bitpackEncode32Packs nbBits (src.take (56 / nbBits)) acc64 bitPos
      toLE (bitPos / 8) acc64 ++
        bitpackEncode32FullRounds nbBits dstSize nr (src.drop (56 / nbBits)) (dstPtr + bitPos / 8)
          (acc64 >>> (bitPos / 8 * 8)) (bitPos % 8)
    else bitpackEncode32LastRound nbBits src acc64 bitPos

/-- `ZS_bitpackEncode32_generic`. -/
def bitpackEncode32Generic (src : List Nat) (nbBits : Nat) : List UInt8 :=
  bitpackEncode32FullRounds nbBits (bitpackEncodeBound src.length nbBits)
    (src.length / (56 / nbBits)) src 0 0 0

/-- `ZS_bitpackEncodeEdgeCase`; `none` is the source's `(size_t)-1`. -/
def bitpackEncodeEdgeCase (src : List Nat) (eltSize nbBits : Nat) : Option (List UInt8) :=
  if src.length = 0 ∨ nbBits = 0 then some []
  else if nbBits = eltSize * 8 then some (bytepackEncodeImpl eltSize src)
  else none

/-- `ZS_bitpackEncode8`. -/
def bitpackEncode8 (src : List Nat) (nbBits : Nat) : List UInt8 :=
  match bitpackEncodeEdgeCase src 1 nbBits with
  | some out => out
  | none => bitpackEncode8Generic nbBits src 0 0

/-- `ZS_bitpackEncode32`. -/
def bitpackEncode32 (src : List Nat) (nbBits : Nat) : List UInt8 :=
  match bitpackEncodeEdgeCase src 4 nbBits with
  | some out => out
  | none =>
    if nbBits = 1 ∧ src.length ≤ 64 then bit1pack32 src
    else if nbBits % 8 = 0 then bytepackEncodeImpl (nbBits / 8) src
    else bitpackEncode32Generic src nbBits

/-! ## Decoder

A read past the end of the source yields zero bytes here; callers check the size first. -/

/-- `ZL_readLE64` / `ZL_readLE64_N` at the start of what is left of the source. -/
def readLE64 (ip : List UInt8) : Nat := ofLE (ip.take 8)

/-- The loop of `ZS_bitpackDecode8_generic`. -/
def bitpackDecode8Generic (nbBits : Nat) : Nat → List UInt8 → Nat → Nat → List Nat
  | 0, _, _, _ => []
  | n + 1, ip, bits, state =>
    let (ip, state, bits) :=
      if bits < nbBits then (ip.tail, state ||| (ip.headD 0).toNat <<< bits, bits + 8)
      else (ip, state, bits)
    (state &&& (2 ^ nbBits - 1)) ::
      bitpackDecode8Generic nbBits n ip (bits - nbBits) (state >>> nbBits)

/-- The loop of `bit1depack8` and `bit1depack32`. -/
def bit1depack : Nat → Nat → List Nat
  | 0, _ => []
  | n + 1, acc => (acc &&& 1) :: bit1depack n (acc >>> 1)

/-- `ZS_readLEN32` over an array of `n`-byte elements. -/
def bytepackDecodeImpl (n : Nat) : Nat → List UInt8 → List Nat
  | 0, _ => []
  | k + 1, src => ofLE (src.take n) :: bytepackDecodeImpl n k (src.drop n)

/-- The "last round" loop of `ZS_bitpackDecode32_generic`. -/
def bitpackDecode32LastRound (nbBits : Nat) : Nat → List UInt8 → Nat → Nat → List Nat
  | 0, _, _, _ => []
  | n + 1, ip, acc64, bitPos =>
    let v := acc64 &&& (2 ^ nbBits - 1)
    let acc64 := acc64 >>> nbBits
    let bitPos := bitPos + nbBits
    if bitPos > 63 - nbBits then
      let ip := ip.drop (bitPos / 8)
      v :: bitpackDecode32LastRound nbBits n ip (readLE64 ip >>> (bitPos % 8)) (bitPos % 8)
    else v :: bitpackDecode32LastRound nbBits n ip acc64 bitPos

/-- The inner loop of a full round. -/
def bitpackDecode32Depacks (nbBits : Nat) : Nat → Nat → List Nat
  | 0, _ => []
  | n + 1, acc64 => (acc64 &&& (2 ^ nbBits - 1)) :: bitpackDecode32Depacks nbBits n (acc64 >>> nbBits)

/-- The full rounds of `ZS_bitpackDecode32_generic`: the loop breaks once fewer than eight
bytes are left. -/
def bitpackDecode32FullRounds (nbBits : Nat) :
    Nat → Nat → List UInt8 → Nat → Nat → List Nat
  | 0, nbValues, ip, acc64, bitPos => bitpackDecode32LastRound nbBits nbValues ip acc64 bitPos
  | nr + 1, nbValues, ip, acc64, bitPos =>
    let nbDepacks := 56 / nbBits
    let vs := bitpackDecode32Depacks nbBits nbDepacks acc64
    let bitPos := bitPos + nbDepacks * nbBits
    let ip := ip.drop (bitPos / 8)
    let acc64 := readLE64 ip >>> (bitPos % 8)
    if ip.length ≥ 8 then
      vs ++ bitpackDecode32FullRounds nbBits nr (nbValues - nbDepacks) ip acc64 (bitPos % 8)
    else vs ++ bitpackDecode32LastRound nbBits (nbValues - nbDepacks) ip acc64 (bitPos % 8)

/-- `ZS_bitpackDecode32_generic`: only the bytes it needs are looked at. -/
def bitpackDecode32Generic (nbValues : Nat) (src : List UInt8) (nbBits : Nat) : List Nat :=
  let ip := src.take (bitpackEncodeBound nbValues nbBits)
  bitpackDecode32FullRounds nbBits (nbValues / (56 / nbBits)) nbValues ip (readLE64 ip) 0

/-- `ZS_bitpackDecodeEdgeCase`; `none` is the source's `(size_t)-1`. -/
def bitpackDecodeEdgeCase (nbElts : Nat) (src : List UInt8) (eltSize nbBits : Nat) :
    Option (List Nat) :=
  if nbElts = 0 then some []
  else if nbBits = 0 then some (List.replicate nbElts 0)
  else if nbBits = eltSize * 8 then some (bytepackDecodeImpl eltSize nbElts src)
  else none

/-- `ZS_bitpackDecode8`. -/
def bitpackDecode8 (nbElts : Nat) (src : List UInt8) (nbBits : Nat) : List Nat :=
  match bitpackDecodeEdgeCase nbElts src 1 nbBits with
  | some out => out
  | none =>
    if nbBits = 1 ∧ nbElts ≤ 64 then bit1depack nbElts (readLE64 src)
    else bitpackDecode8Generic nbBits nbElts src 0 0

/-- `ZS_bitpackDecode32`. -/
def bitpackDecode32 (nbElts : Nat) (src : List UInt8) (nbBits : Nat) : List Nat :=
  match bitpackDecodeEdgeCase nbElts src 4 nbBits with
  | some out => out
  | none =>
    if nbBits = 1 ∧ nbElts ≤ 64 then bit1depack nbElts (readLE64 src)
    else if nbBits % 8 = 0 then bytepackDecodeImpl (nbBits / 8) nbElts src
    else bitpackDecode32Generic nbElts src nbBits

theorem or_shiftLeft_mod {acc b w v : Nat} (h : acc < 2 ^ b) (hv : v < 2 ^ w)
    (hb : b + w ≤ 64) : acc ||| (v <<< b) % 2 ^ 64 = acc + 2 ^ b * v := by
  have hlt : v <<< b < 2 ^ 64 := by
    rw [Nat.shiftLeft_eq, Nat.mul_comm]
    calc 2 ^ b * v < 2 ^ b * 2 ^ w := by gcongr
      _ = 2 ^ (b + w) := (Nat.pow_add 2 b w).symm
      _ ≤ 2 ^ 64 := Nat.pow_le_pow_right (by norm_num) hb
  rw [Nat.mod_eq_of_lt hlt, or_shiftLeft h]

theorem toLE_commit {m b acc M k : Nat} (hm : 8 * m ≤ b) :
    toLE ((b + k + 7) / 8) (acc + 2 ^ b * M) =
      toLE m acc ++ toLE ((b - 8 * m + k + 7) / 8) (acc >>> (m * 8) + 2 ^ (b - 8 * m) * M) := by
  have hpow : 2 ^ b = 256 ^ m * 2 ^ (b - 8 * m) := by
    rw [pow256, ← Nat.pow_add, Nat.add_sub_cancel' hm]
  have hlen : (b + k + 7) / 8 = m + (b - 8 * m + k + 7) / 8 := by omega
  have hlow : toLE m (acc + 2 ^ b * M) = toLE m acc := by
    rw [hpow, Nat.mul_assoc, ← toLE_mod, Nat.add_mul_mod_self_left, toLE_mod]
  have hhigh : (acc + 2 ^ b * M) / 256 ^ m = acc >>> (m * 8) + 2 ^ (b - 8 * m) * M := by
    rw [hpow, Nat.mul_assoc, Nat.add_mul_div_left _ _ (by positivity), Nat.shiftRight_eq_div_pow,
      pow256, Nat.mul_comm 8 m]
  rw [hlen, toLE_add, hlow, hhigh]

theorem shiftRight_lt {acc b m : Nat} (h : acc < 2 ^ b) (hm : 8 * m ≤ b) :
    acc >>> (m * 8) < 2 ^ (b - 8 * m) := by
  rw [Nat.shiftRight_eq_div_pow, Nat.div_lt_iff_lt_mul (by positivity), ← Nat.pow_add]
  rwa [show b - 8 * m + m * 8 = b by omega]

theorem bitpackEncode8Generic_spec (hn : nbBits ≤ 8) :
    ∀ (vs : List Nat) (bits state : Nat), (∀ v ∈ vs, v < 2 ^ nbBits) → state < 2 ^ bits →
      bits < 8 → bitpackEncode8Generic nbBits vs bits state =
        toLE ((bits + vs.length * nbBits + 7) / 8) (state + 2 ^ bits * Nat.ofDigits (2 ^ nbBits) vs)
  | [], bits, state, _, _, hb => by
    simp only [bitpackEncode8Generic, List.length_nil, Nat.zero_mul, Nat.add_zero,
      Nat.ofDigits_nil, Nat.mul_zero]
    split
    · rw [show (bits + 7) / 8 = 1 by omega]
      rfl
    · rw [show (bits + 7) / 8 = 0 by omega]
      rfl
  | v :: vs, bits, state, hvs, hs, hb => by
    have hv := hvs v (by simp)
    have hvs' : ∀ x ∈ vs, x < 2 ^ nbBits := fun x hx => hvs x (by simp [hx])
    have hlt := add_mul_lt hs hv
    have hlen : bits + (v :: vs).length * nbBits + 7 =
        bits + nbBits + vs.length * nbBits + 7 := by
      simp only [List.length_cons]
      ring
    simp only [bitpackEncode8Generic, or_shiftLeft_mod hs hv (by omega)]
    rw [add_ofDigits_cons, hlen]
    split
    · rename_i h8
      rw [toLE_commit (m := 1) (by omega)]
      rw [bitpackEncode8Generic_spec hn vs _ _ hvs' (shiftRight_lt (m := 1) hlt h8) (by omega)]
      rfl
    · rename_i h8
      exact bitpackEncode8Generic_spec hn vs _ _ hvs' hlt (by omega)

theorem bytepackEncodeImpl_spec {n : Nat} : ∀ {vs : List Nat}, (∀ v ∈ vs, v < 2 ^ (8 * n)) →
    bytepackEncodeImpl n vs = toLE (n * vs.length) (Nat.ofDigits (2 ^ (8 * n)) vs)
  | [], _ => by simp [bytepackEncodeImpl, toLE]
  | v :: vs, h => by
    have ih := bytepackEncodeImpl_spec fun x hx => h x (List.mem_cons_of_mem _ hx)
    have hv : v < 256 ^ n := by
      rw [pow256]
      exact h v (by simp)
    unfold bytepackEncodeImpl at ih ⊢
    rw [List.flatMap_cons, ih, List.length_cons, Nat.mul_succ, Nat.add_comm, toLE_add,
      Nat.ofDigits_cons, ← pow256, Nat.add_mul_div_left _ _ (by positivity), Nat.div_eq_of_lt hv,
      Nat.zero_add, ← toLE_mod n (v + _), Nat.add_mul_mod_self_left, toLE_mod]

theorem bit1pack32_spec {vs : List Nat} (h : ∀ v ∈ vs, v < 2) (hlen : vs.length ≤ 64) :
    bit1pack32 vs = toLE ((vs.length + 7) / 8) (Nat.ofDigits 2 vs) := by
  rw [bit1pack32, foldr_bits h hlen]

theorem bitpackEncode32LastRound_spec (h0 : 0 < nbBits) (hn : nbBits < 32) :
    ∀ (vs : List Nat) (acc bitPos : Nat), (∀ v ∈ vs, v < 2 ^ nbBits) → acc < 2 ^ bitPos →
      bitPos ≤ 63 - nbBits → bitpackEncode32LastRound nbBits vs acc bitPos =
        toLE ((bitPos + vs.length * nbBits + 7) / 8)
          (acc + 2 ^ bitPos * Nat.ofDigits (2 ^ nbBits) vs)
  | [], acc, bitPos, _, _, _ => by
    simp [bitpackEncode32LastRound]
  | v :: vs, acc, bitPos, hvs, ha, hb => by
    have hv := hvs v (by simp)
    have hvs' : ∀ x ∈ vs, x < 2 ^ nbBits := fun x hx => hvs x (by simp [hx])
    have hlt := add_mul_lt ha hv
    have hlen : bitPos + (v :: vs).length * nbBits + 7 =
        bitPos + nbBits + vs.length * nbBits + 7 := by
      simp only [List.length_cons]
      ring
    simp only [bitpackEncode32LastRound, or_shiftLeft_mod ha hv (by omega)]
    rw [add_ofDigits_cons, hlen]
    split
    · rename_i hc
      have hm : 8 * ((bitPos + nbBits) / 8) ≤ bitPos + nbBits := by omega
      have hmod : bitPos + nbBits - 8 * ((bitPos + nbBits) / 8) = (bitPos + nbBits) % 8 := by omega
      have hsh := shiftRight_lt hlt hm
      rw [toLE_commit hm]
      rw [hmod] at hsh ⊢
      rw [bitpackEncode32LastRound_spec h0 hn vs _ _ hvs' hsh (by omega)]
    · rename_i hc
      exact bitpackEncode32LastRound_spec h0 hn vs _ _ hvs' hlt (by omega)

theorem bitpackEncode32Packs_spec :
    ∀ (vs : List Nat) (acc bitPos : Nat), (∀ v ∈ vs, v < 2 ^ nbBits) → acc < 2 ^ bitPos →
      bitPos + vs.length * nbBits ≤ 64 → bitpackEncode32Packs nbBits vs acc bitPos =
        (acc + 2 ^ bitPos * Nat.ofDigits (2 ^ nbBits) vs, bitPos + vs.length * nbBits)
  | [], acc, bitPos, _, _, _ => by simp [bitpackEncode32Packs]
  | v :: vs, acc, bitPos, hvs, ha, hb => by
    have hv := hvs v (by simp)
    have hlen : bitPos + (v :: vs).length * nbBits = bitPos + nbBits + vs.length * nbBits := by
      simp only [List.length_cons]
      ring
    rw [hlen] at hb
    rw [bitpackEncode32Packs, or_shiftLeft_mod ha hv (by omega),
      bitpackEncode32Packs_spec vs _ _ (fun x hx => hvs x (by simp [hx])) (add_mul_lt ha hv) hb,
      add_ofDigits_cons, hlen]

theorem bitpackEncode32FullRounds_spec {nbBits dstSize : Nat} (h0 : 0 < nbBits)
    (hn : nbBits < 32) : ∀ (nr : Nat) (vs : List Nat) (dstPtr acc bitPos : Nat),
      (∀ v ∈ vs, v < 2 ^ nbBits) → acc < 2 ^ bitPos → bitPos < 8 →
      nr * (56 / nbBits) ≤ vs.length →
      bitpackEncode32FullRounds nbBits dstSize nr vs dstPtr acc bitPos =
        toLE ((bitPos + vs.length * nbBits + 7) / 8)
          (acc + 2 ^ bitPos * Nat.ofDigits (2 ^ nbBits) vs)
  | 0, vs, dstPtr, acc, bitPos, hvs, ha, hb, _ =>
    bitpackEncode32LastRound_spec h0 hn vs acc bitPos hvs ha (by omega)
  | nr + 1, vs, dstPtr, acc, bitPos, hvs, ha, hb, hnr => by
    rw [bitpackEncode32FullRounds]
    split
    · -- the packs of one round fit in the accumulator: 7 + 56 < 64
      have hp : 56 / nbBits * nbBits ≤ 56 := Nat.div_mul_le_self 56 nbBits
      have hle : 56 / nbBits ≤ vs.length := by
        rw [Nat.succ_mul] at hnr
        omega
      obtain ⟨as, bs, rfl, hlen⟩ : ∃ as bs, vs = as ++ bs ∧ as.length = 56 / nbBits :=
        ⟨vs.take (56 / nbBits), vs.drop (56 / nbBits), (List.take_append_drop _ _).symm,
          by simp [hle]⟩
      have hlt : acc + 2 ^ bitPos * Nat.ofDigits (2 ^ nbBits) as <
          2 ^ (bitPos + as.length * nbBits) := by
        apply add_mul_lt ha
        rw [Nat.mul_comm as.length, Nat.pow_mul]
        exact Nat.ofDigits_lt_base_pow_length (Nat.one_lt_two_pow (by omega))
          fun x hx => hvs x (by simp [hx])
      have hpk := bitpackEncode32Packs_spec as acc bitPos (fun x hx => hvs x (by simp [hx])) ha
        (by rw [hlen]; omega)
      rw [← hlen, List.take_left, List.drop_left, hpk]
      generalize hP : bitPos + as.length * nbBits = P at hlt ⊢
      have hm : 8 * (P / 8) ≤ P := by omega
      have hmod : P - 8 * (P / 8) = P % 8 := by omega
      have hsh := shiftRight_lt hlt hm
      rw [hmod] at hsh
      have hsum : bitPos + (as ++ bs).length * nbBits + 7 = P + bs.length * nbBits + 7 := by
        rw [List.length_append, ← hP]
        ring
      have hval : acc + 2 ^ bitPos * Nat.ofDigits (2 ^ nbBits) (as ++ bs) =
          acc + 2 ^ bitPos * Nat.ofDigits (2 ^ nbBits) as +
            2 ^ P * Nat.ofDigits (2 ^ nbBits) bs := by
        rw [Nat.ofDigits_append, ← hP, Nat.pow_add, Nat.mul_comm as.length, Nat.pow_mul]
        ring
      rw [hsum, hval, toLE_commit hm, hmod]
      refine congrArg (toLE (P / 8) _ ++ ·) ?_
      exact bitpackEncode32FullRounds_spec h0 hn nr bs _ _ _ (fun x hx => hvs x (by simp [hx])) hsh
        (by omega) (by rw [Nat.succ_mul, List.length_append] at hnr; omega)
    · exact bitpackEncode32LastRound_spec h0 hn vs acc bitPos hvs ha (by omega)

theorem bitpackEncodeEdgeCase_spec {vs : List Nat} {eltSize nbBits : Nat} {out : List UInt8}
    (hvs : ∀ v ∈ vs, v < 2 ^ nbBits) (h : bitpackEncodeEdgeCase vs eltSize nbBits = some out) :
    out = toLE (bitpackEncodeBound vs.length nbBits) (Nat.ofDigits (2 ^ nbBits) vs) := by
  unfold bitpackEncodeEdgeCase at h
  split at h
  · rename_i h0
    cases h
    rcases h0 with h0 | rfl
    · rw [List.length_eq_zero_iff.1 h0]
      simp [bitpackEncodeBound, toLE]
    · simp [bitpackEncodeBound, toLE]
  · split at h
    · rename_i _ hb
      cases h
      subst hb
      rw [Nat.mul_comm eltSize 8] at hvs ⊢
      rw [bytepackEncodeImpl_spec hvs]
      congr 1
      unfold bitpackEncodeBound
      rw [← Nat.mul_assoc, Nat.mul_comm vs.length 8, Nat.mul_assoc, Nat.mul_comm vs.length]
      omega
    · cases h

/-- **One format on every byte path**: the bytes of the packed number. -/
theorem bitpackEncode8_spec {vs : List Nat} (hn : nbBits ≤ 8) (hvs : ∀ v ∈ vs, v < 2 ^ nbBits) :
    bitpackEncode8 vs nbBits =
      toLE (bitpackEncodeBound vs.length nbBits) (Nat.ofDigits (2 ^ nbBits) vs) := by
  unfold bitpackEncode8
  split
  · rename_i out h
    exact bitpackEncodeEdgeCase_spec hvs h
  · rw [bitpackEncode8Generic_spec hn vs 0 0 hvs (by norm_num) (by norm_num)]
    simp [bitpackEncodeBound]

/-- **One format on every 32-bit path**: the bytes of the packed number. -/
theorem bitpackEncode32_spec {vs : List Nat} (hn : nbBits ≤ 32) (hvs : ∀ v ∈ vs, v < 2 ^ nbBits) :
    bitpackEncode32 vs nbBits =
      toLE (bitpackEncodeBound vs.length nbBits) (Nat.ofDigits (2 ^ nbBits) vs) := by
  unfold bitpackEncode32
  split
  · rename_i out h
    exact bitpackEncodeEdgeCase_spec hvs h
  · rename_i h
    split
    · rename_i h1
      obtain ⟨rfl, hlen⟩ := h1
      rw [bit1pack32_spec hvs hlen, bitpackEncodeBound, Nat.mul_one, Nat.pow_one]
    · split
      · rename_i _ h8
        obtain ⟨n, rfl⟩ := Nat.dvd_of_mod_eq_zero h8
        rw [Nat.mul_div_cancel_left _ (by norm_num), bytepackEncodeImpl_spec hvs]
        congr 1
        unfold bitpackEncodeBound
        rw [← Nat.mul_assoc, Nat.mul_comm vs.length 8, Nat.mul_assoc, Nat.mul_comm vs.length]
        omega
      · rw [bitpackEncode32Generic,
          bitpackEncode32FullRounds_spec (by omega) (by omega) _ vs 0 0 0 hvs (by norm_num)
            (by norm_num) (Nat.div_mul_le_self _ _)]
        simp [bitpackEncodeBound]

theorem and_mask (x w : Nat) : x &&& (2 ^ w - 1) = x % 2 ^ w :=
  Nat.and_two_pow_sub_one_eq_mod x w

theorem bitpackDecode8Generic_spec (hn : nbBits ≤ 8) :
    ∀ (n : Nat) (ip : List UInt8) (bits state : Nat), state < 2 ^ bits → bits < 8 →
      bitpackDecode8Generic nbBits n ip bits state =
        fields nbBits n (state + 2 ^ bits * ofLE ip)
  | 0, _, _, _, _, _ => rfl
  | n + 1, ip, bits, state, hs, hb => by
    -- refilling with one byte keeps the value of state and source together
    obtain ⟨ip', state', bits', hst, hval, hs', hle, hlt⟩ : ∃ ip' state' bits',
        (if bits < nbBits then (ip.tail, state ||| (ip.headD 0).toNat <<< bits, bits + 8)
          else (ip, state, bits)) = (ip', state', bits') ∧
        state + 2 ^ bits * ofLE ip = state' + 2 ^ bits' * ofLE ip' ∧ state' < 2 ^ bits' ∧
        nbBits ≤ bits' ∧ bits' < nbBits + 8 := by
      split
      · refine ⟨_, _, _, rfl, ?_, ?_, by omega, by omega⟩
        · rw [or_shiftLeft hs, Nat.pow_add]
          cases ip with
          | nil => simp
          | cons b bs =>
            simp only [List.headD_cons, List.tail_cons, ofLE_cons]
            ring
        · rw [or_shiftLeft hs]
          exact add_mul_lt hs (UInt8.toNat_lt _)
      · exact ⟨_, _, _, rfl, rfl, hs, by omega, by omega⟩
    have hpow : 2 ^ bits' = 2 ^ nbBits * 2 ^ (bits' - nbBits) := by
      rw [← Nat.pow_add, Nat.add_sub_cancel' hle]
    have hsh : state' >>> nbBits < 2 ^ (bits' - nbBits) := by
      rw [Nat.shiftRight_eq_div_pow, Nat.div_lt_iff_lt_mul (by positivity), Nat.mul_comm]
      rwa [hpow] at hs'
    rw [bitpackDecode8Generic, hst]
    simp only
    rw [bitpackDecode8Generic_spec hn n ip' _ _ hsh (by omega), fields, hval, hpow, and_mask,
      Nat.mul_assoc, Nat.add_mul_mod_self_left, Nat.add_mul_div_left _ _ (by positivity),
      Nat.shiftRight_eq_div_pow]

theorem bit1depack_spec : ∀ (n acc : Nat), bit1depack n acc = fields 1 n acc
  | 0, _ => rfl
  | n + 1, acc => by
    rw [bit1depack, fields, bit1depack_spec n, Nat.and_one_is_mod, Nat.shiftRight_one, Nat.pow_one]

theorem readLE64_eq (ip : List UInt8) : readLE64 ip = ofLE ip % 2 ^ 64 := by
  have h := ofLE_append (ip.take 8) (ip.drop 8)
  rw [List.take_append_drop] at h
  have hlt := ofLE_lt (ip.take 8)
  rw [readLE64]
  by_cases hlen : ip.length ≤ 8
  · rw [List.take_of_length_le hlen, Nat.mod_eq_of_lt]
    calc ofLE ip < 256 ^ ip.length := ofLE_lt ip
      _ ≤ 256 ^ 8 := Nat.pow_le_pow_right (by norm_num) hlen
      _ = 2 ^ 64 := by norm_num
  · rw [List.length_take, Nat.min_eq_left (by omega)] at h hlt
    rw [h, show (2 : Nat) ^ 64 = 256 ^ 8 by norm_num, Nat.add_mul_mod_self_left,
      Nat.mod_eq_of_lt hlt]

theorem bytepackDecodeImpl_spec (n : Nat) : ∀ (k : Nat) (src : List UInt8),
    bytepackDecodeImpl n k src = fields (8 * n) k (ofLE src)
  | 0, _ => rfl
  | k + 1, src => by
    rw [bytepackDecodeImpl, fields, bytepackDecodeImpl_spec n k, ofLE_drop, ofLE_take, pow256]

theorem readLE64_shiftRight (ip : List UInt8) {b : Nat} (hb : b ≤ 64) :
    readLE64 ip >>> b = ofLE ip / 2 ^ b % 2 ^ (64 - b) := by
  rw [readLE64_eq, Nat.shiftRight_eq_div_pow]
  conv_lhs => rw [show 64 = b + (64 - b) by omega, Nat.pow_add, Nat.mod_mul_right_div_self]

theorem shiftRight_mod {X w m : Nat} (h : w ≤ m) :
    (X % 2 ^ m) >>> w = X / 2 ^ w % 2 ^ (m - w) := by
  rw [Nat.shiftRight_eq_div_pow]
  conv_lhs => rw [show m = w + (m - w) by omega, Nat.pow_add, Nat.mod_mul_right_div_self]

theorem mod_and_mask {X w m : Nat} (h : w ≤ m) : X % 2 ^ m &&& (2 ^ w - 1) = X % 2 ^ w := by
  rw [and_mask, Nat.mod_mod_of_dvd _ (Nat.pow_dvd_pow 2 h)]

theorem ofLE_drop_div (ip : List UInt8) (p : Nat) :
    ofLE (ip.drop (p / 8)) / 2 ^ (p % 8) = ofLE ip / 2 ^ p := by
  rw [ofLE_drop, pow256, Nat.div_div_eq_div_mul, ← Nat.pow_add, Nat.div_add_mod]

theorem bitpackDecode32LastRound_spec (h0 : 0 < nbBits) (hn : nbBits < 32) :
    ∀ (n : Nat) (ip : List UInt8) (acc bitPos : Nat), bitPos ≤ 63 - nbBits →
      acc = ofLE ip / 2 ^ bitPos % 2 ^ (64 - bitPos) →
      bitpackDecode32LastRound nbBits n ip acc bitPos = fields nbBits n (ofLE ip / 2 ^ bitPos)
  | 0, _, _, _, _, _ => rfl
  | n + 1, ip, acc, bitPos, hb, ha => by
    have hv : acc &&& (2 ^ nbBits - 1) = ofLE ip / 2 ^ bitPos % 2 ^ nbBits := by
      rw [ha, mod_and_mask (by omega)]
    have hnext : ofLE ip / 2 ^ bitPos / 2 ^ nbBits = ofLE ip / 2 ^ (bitPos + nbBits) := by
      rw [Nat.div_div_eq_div_mul, ← Nat.pow_add]
    simp only [bitpackDecode32LastRound, hv, fields, hnext]
    split
    · rw [bitpackDecode32LastRound_spec h0 hn n _ _ _ (by omega)
        (readLE64_shiftRight _ (by omega)), ofLE_drop_div]
    · rw [bitpackDecode32LastRound_spec h0 hn n ip _ _ (by omega)
        (by rw [ha, shiftRight_mod (by omega), hnext, Nat.sub_sub])]

theorem bitpackDecode32Depacks_spec (nbBits : Nat) : ∀ (n acc : Nat),
    bitpackDecode32Depacks nbBits n acc = fields nbBits n acc
  | 0, _ => rfl
  | n + 1, acc => by
    rw [bitpackDecode32Depacks, fields, bitpackDecode32Depacks_spec nbBits n, and_mask,
      Nat.shiftRight_eq_div_pow]

theorem bitpackDecode32FullRounds_spec (h0 : 0 < nbBits) (hn : nbBits < 32) :
    ∀ (nr n : Nat) (ip : List UInt8) (acc bitPos : Nat), bitPos < 8 →
      nr * (56 / nbBits) ≤ n → acc = ofLE ip / 2 ^ bitPos % 2 ^ (64 - bitPos) →
      bitpackDecode32FullRounds nbBits nr n ip acc bitPos =
        fields nbBits n (ofLE ip / 2 ^ bitPos)
  | 0, n, ip, acc, bitPos, hb, _, ha =>
    bitpackDecode32LastRound_spec h0 hn n ip acc bitPos (by omega) ha
  | nr + 1, n, ip, acc, bitPos, hb, hnr, ha => by
    have hp : nbBits * (56 / nbBits) ≤ 56 := Nat.mul_div_le 56 nbBits
    rw [Nat.succ_mul] at hnr
    have hlow : bitpackDecode32Depacks nbBits (56 / nbBits) acc =
        fields nbBits (56 / nbBits) (ofLE ip / 2 ^ bitPos) := by
      rw [bitpackDecode32Depacks_spec, ha, fields_mod_of_le (by omega)]
    have hsplit : fields nbBits n (ofLE ip / 2 ^ bitPos) =
        fields nbBits (56 / nbBits) (ofLE ip / 2 ^ bitPos) ++ fields nbBits (n - 56 / nbBits)
          (ofLE ip / 2 ^ (bitPos + 56 / nbBits * nbBits)) := by
      conv_lhs => rw [show n = 56 / nbBits + (n - 56 / nbBits) by omega]
      rw [fields_append, Nat.div_div_eq_div_mul, ← Nat.pow_add, Nat.mul_comm nbBits]
    have hacc := readLE64_shiftRight (ip.drop ((bitPos + 56 / nbBits * nbBits) / 8))
      (b := (bitPos + 56 / nbBits * nbBits) % 8) (by omega)
    simp only [bitpackDecode32FullRounds, hlow]
    rw [hsplit, ← ofLE_drop_div ip (bitPos + 56 / nbBits * nbBits)]
    split
    · rw [bitpackDecode32FullRounds_spec h0 hn nr _ _ _ _ (by omega) (by omega) hacc]
    · rw [bitpackDecode32LastRound_spec h0 hn _ _ _ _ (by omega) hacc]

theorem bitpackDecodeEdgeCase_spec {n eltSize nbBits : Nat} {src : List UInt8} {out : List Nat}
    (h : bitpackDecodeEdgeCase n src eltSize nbBits = some out) :
    out = fields nbBits n (ofLE src) := by
  unfold bitpackDecodeEdgeCase at h
  split at h
  · rename_i h0
    cases h
    rw [h0, fields]
  · split at h
    · rename_i _ h0
      cases h
      rw [h0, fields_zero_width]
    · split at h
      · rename_i _ _ hb
        cases h
        rw [bytepackDecodeImpl_spec, hb, Nat.mul_comm]
      · cases h

/-- **One reading on every byte path**: the fields of the source. -/
theorem bitpackDecode8_spec {n nbBits : Nat} {src : List UInt8} (hn : nbBits ≤ 8) :
    bitpackDecode8 n src nbBits = fields nbBits n (ofLE src) := by
  unfold bitpackDecode8
  split
  · rename_i out h
    exact bitpackDecodeEdgeCase_spec h
  · split
    · rename_i h1
      obtain ⟨rfl, hlen⟩ := h1
      rw [bit1depack_spec, readLE64_eq, fields_mod_of_le (by omega)]
    · rw [bitpackDecode8Generic_spec hn n src 0 0 (by norm_num) (by norm_num)]
      simp

/-- **One reading on every 32-bit path**: the fields of the source. -/
theorem bitpackDecode32_spec {n nbBits : Nat} {src : List UInt8} (hn : nbBits ≤ 32) :
    bitpackDecode32 n src nbBits = fields nbBits n (ofLE src) := by
  unfold bitpackDecode32
  split
  · rename_i out h
    exact bitpackDecodeEdgeCase_spec h
  · rename_i h
    split
    · rename_i h1
      obtain ⟨rfl, hlen⟩ := h1
      rw [bit1depack_spec, readLE64_eq, fields_mod_of_le (by omega)]
    · split
      · rename_i _ h8
        rw [bytepackDecodeImpl_spec, Nat.mul_div_cancel' (Nat.dvd_of_mod_eq_zero h8)]
      · rename_i h8
        have h0 : 0 < nbBits := by omega
        have h32 : nbBits < 32 := by omega
        rw [bitpackDecode32Generic, bitpackDecode32FullRounds_spec h0 h32 _ _ _ _ _ (by norm_num)
          (Nat.div_mul_le_self _ _) (by rw [readLE64_eq]; simp), ofLE_take, pow256, Nat.pow_zero,
          Nat.div_one]
        apply fields_mod_of_le
        rw [Nat.mul_comm nbBits]
        unfold bitpackEncodeBound
        omega

theorem fields_ofLE_append {n nbBits : Nat} {src : List UInt8}
    (h : bitpackEncodeBound n nbBits ≤ src.length) (rest : List UInt8) :
    fields nbBits n (ofLE (src ++ rest)) = fields nbBits n (ofLE src) := by
  have hle : nbBits * n ≤ 8 * src.length := by
    rw [Nat.mul_comm nbBits]
    unfold bitpackEncodeBound at h
    omega
  rw [ofLE_append, ← fields_mod_of_le hle, pow256, Nat.add_mul_mod_self_left, fields_mod_of_le hle]

theorem fields_ofLE_packed {vs : List Nat} (hvs : ∀ v ∈ vs, v < 2 ^ nbBits) (rest : List UInt8) :
    fields nbBits vs.length
      (ofLE (toLE (bitpackEncodeBound vs.length nbBits) (Nat.ofDigits (2 ^ nbBits) vs) ++ rest)) =
        vs := by
  have hle : nbBits * vs.length ≤ 8 * bitpackEncodeBound vs.length nbBits := by
    rw [Nat.mul_comm nbBits]
    unfold bitpackEncodeBound
    omega
  rw [← fields_mod_of_le hle, ← pow256, ofLE_toLE_append_mod, pow256, fields_mod_of_le hle,
    fields_ofDigits hvs]

theorem length_bitpackEncode32LastRound (nbBits : Nat) : ∀ {vs us : List Nat},
    vs.length = us.length → ∀ (acc acc' bitPos : Nat),
    (bitpackEncode32LastRound nbBits vs acc bitPos).length =
      (bitpackEncode32LastRound nbBits us acc' bitPos).length
  | [], [], _, acc, acc', bitPos => by simp [bitpackEncode32LastRound, length_toLE]
  | v :: vs, u :: us, h, acc, acc', bitPos => by
    have ih := length_bitpackEncode32LastRound nbBits (Nat.succ.inj h)
    unfold bitpackEncode32LastRound
    dsimp only
    split
    · rw [List.length_append, List.length_append, length_toLE, length_toLE]
      exact congrArg _ (ih _ _ _)
    · exact ih _ _ _

theorem bitpackEncode32Packs_snd (nbBits : Nat) : ∀ (vs : List Nat) (acc bitPos : Nat),
    (bitpackEncode32Packs nbBits vs acc bitPos).2 = bitPos + vs.length * nbBits
  | [], acc, bitPos => by simp [bitpackEncode32Packs]
  | v :: vs, acc, bitPos => by
    rw [bitpackEncode32Packs, bitpackEncode32Packs_snd nbBits vs, List.length_cons, Nat.succ_mul]
    omega

theorem length_bitpackEncode32FullRounds (nbBits dstSize : Nat) : ∀ (nr : Nat) {vs us : List Nat},
    vs.length = us.length → ∀ (dstPtr acc acc' bitPos : Nat),
    (bitpackEncode32FullRounds nbBits dstSize nr vs dstPtr acc bitPos).length =
      (bitpackEncode32FullRounds nbBits dstSize nr us dstPtr acc' bitPos).length
  | 0, vs, us, h, dstPtr, acc, acc', bitPos => length_bitpackEncode32LastRound nbBits h _ _ _
  | nr + 1, vs, us, h, dstPtr, acc, acc', bitPos => by
    unfold bitpackEncode32FullRounds
    split
    · have htake : (vs.take (56 / nbBits)).length = (us.take (56 / nbBits)).length := by
        simp [h]
      have hdrop : (vs.drop (56 / nbBits)).length = (us.drop (56 / nbBits)).length := by
        simp [h]
      have hpos : (bitpackEncode32Packs nbBits (vs.take (56 / nbBits)) acc bitPos).2 =
          (bitpackEncode32Packs nbBits (us.take (56 / nbBits)) acc' bitPos).2 := by
        rw [bitpackEncode32Packs_snd, bitpackEncode32Packs_snd, htake]
      rw [List.length_append, List.length_append, length_toLE, length_toLE, hpos]
      exact congrArg _ (length_bitpackEncode32FullRounds nbBits dstSize nr hdrop _ _ _ _)
    · exact length_bitpackEncode32LastRound nbBits h _ _ _

theorem length_bytepackEncodeImpl (n : Nat) (vs : List Nat) :
    (bytepackEncodeImpl n vs).length = vs.length * n := by
  induction vs with
  | nil => simp [bytepackEncodeImpl]
  | cons v vs ih =>
    rw [bytepackEncodeImpl] at ih ⊢
    rw [List.flatMap_cons, List.length_append, ih, length_toLE, List.length_cons, Nat.succ_mul]
    omega

theorem length_bitpackEncode32 (hn : nbBits ≤ 32) (vs : List Nat) :
    (bitpackEncode32 vs nbBits).length = bitpackEncodeBound vs.length nbBits := by
  -- compare with a list of zeroes, whose packing is known
  have hzero : (bitpackEncode32 (List.replicate vs.length 0) nbBits).length =
      bitpackEncodeBound vs.length nbBits := by
    rw [bitpackEncode32_spec hn (by
      intro v hv
      rw [List.eq_of_mem_replicate hv]
      positivity), length_toLE, List.length_replicate]
  rw [← hzero]
  have hlen : vs.length = (List.replicate vs.length 0).length := by simp
  unfold bitpackEncode32 bitpackEncodeEdgeCase
  rw [← hlen]
  by_cases h0 : vs.length = 0 ∨ nbBits = 0
  · simp only [if_pos h0]
  by_cases h4 : nbBits = 4 * 8
  · simp only [if_neg h0, if_pos h4, length_bytepackEncodeImpl, ← hlen]
  simp only [if_neg h0, if_neg h4]
  split
  · rw [bit1pack32, bit1pack32, length_toLE, length_toLE, ← hlen]
  · split
    · simp only [length_bytepackEncodeImpl, ← hlen]
    · rw [bitpackEncode32Generic, bitpackEncode32Generic, ← hlen]
      exact length_bitpackEncode32FullRounds nbBits _ _ hlen _ _ _ _

end OpenZL.Codecs.Bitpack
