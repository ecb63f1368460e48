import OpenZL.Lib.Intrinsics
import OpenZL.Shared.Varint

/-!
# The laws of the varint codecs (`varint.h`)

Besides the plain encoder and decoder there are two encoders built on bit deposits, which write
a fixed number of bytes and return how many count, and a decoder that refuses anything but
canonical encodings, for 32-bit and for 64-bit values.

Principal results: `varintEncode32Fast_eq`, `varintEncode64Fast_eq`, `varintDecodeStrictImpl_eq`,
`strictFast_encode`, `strictFast_sound`, `varint_laws`.
-/

namespace OpenZL.Shared

open OpenZL.Lib

/-- `ZL_clz64`, of a value other than zero. -/
def clz64 (val : Nat) : Nat := 63 - val.log2

/-- `_lzcnt_u32`. -/
def lzcnt32 (val : Nat) : Nat := if val = 0 then 32 else 31 - val.log2

/-- `_bzhi_u64`: the bits from `index` on are cleared; the index is a byte. -/
def bzhi64 (src index : Nat) : Nat := if index % 256 < 64 then src % 2 ^ (index % 256) else src

/-- `MSBS32`: the continuation bits, with the number of bytes in the highest byte. -/
def MSBS32 : List Nat :=
  List.replicate 4 0x500000080808080 ++ List.replicate 7 0x400000000808080 ++
    List.replicate 7 0x300000000008080 ++ List.replicate 7 0x200000000000080 ++
    List.replicate 8 0x100000000000000

/-- `ZL_varintEncode32Fast`: the bytes written, and the returned length. -/
def varintEncode32Fast (hasBMI2 : Bool) (val : Nat) : List UInt8 × Nat :=
  if hasBMI2 then
    let p := pdep val 0x0000000f7f7f7f7f
    let msbs := MSBS32.getD (lzcnt32 val) 0
    (toLE 8 (p ||| msbs), msbs >>> 56 % 256)
  else (varintEncode val, (varintEncode val).length)

/-- `kSize`. -/
def kSize : List Nat :=
  [10, 9, 9, 9, 9, 9, 9, 9, 8, 8, 8, 8, 8,
   8,  8, 7, 7, 7, 7, 7, 7, 7, 6, 6, 6, 6,
   6,  6, 6, 5, 5, 5, 5, 5, 5, 5, 4, 4, 4,
   4,  4, 4, 4, 3, 3, 3, 3, 3, 3, 3, 2, 2,
   2,  2, 2, 2, 2, 1, 1, 1, 1, 1, 1, 1]

/-- `ZL_varintEncode64Fast`: the bytes written, and the returned length. -/
def varintEncode64Fast (hasBMI2 : Bool) (value : Nat) : List UInt8 × Nat :=
  if hasBMI2 then
    if value < 0x80 then ([UInt8.ofNat value], 1)
    else
      let kMask := 0x8080808080808080
      let size := kSize.getD (clz64 value) 0
      let v := pdep value (2 ^ 64 - 1 - kMask) ||| kMask
      let v := bzhi64 v (size * 8 - 1)
      (toLE 8 v ++ [UInt8.ofNat (value >>> 56), 1], size)
  else (varintEncode value, (varintEncode value).length)

/-- The unrolled branch of `ZL_varintDecodeStrictImpl`, from byte `iter` on, with `n` bytes still
allowed. -/
def varintDecodeStrictFast (kWidth : Nat) : Nat → Nat → Nat → Parser ErrorCode Nat
  | 0, _, _ => throw .GENERIC
  | n + 1, iter, val => do
    let b ← Parser.popByte .GENERIC
    let val := val ||| (b.toNat &&& (if iter = 9 then 0x01 else 0x7f)) <<< (7 * iter)
    if b < 128 then do
      Parser.failIf (kWidth = 4 ∧ iter = 4 ∧ b &&& ~~~0x0F ≠ 0) .GENERIC
      Parser.failIf (iter = 9 ∧ b &&& ~~~0x01 ≠ 0) .GENERIC
      -- a last byte of zero means that the value was encoded inefficiently
      Parser.failIf (iter ≠ 0 ∧ b = 0) .GENERIC
      return val
    else do
      Parser.failIf (kWidth = 4 ∧ iter = 4) .GENERIC
      varintDecodeStrictFast kWidth n (iter + 1) val

/-- The loop of `ZL_varintDecodeStrictImpl`. -/
def varintDecodeStrictSlow : List UInt8 → Nat → Nat → Except ErrorCode (Nat × List UInt8)
  | [], _, _ => .error .GENERIC
  | b :: bs, iter, val =>
    if b < 128 then
      if iter > 0 ∧ b = 0 then .error .GENERIC
      else .ok (val ||| (b.toNat <<< (iter * 7)) % 2 ^ 64, bs)
    else varintDecodeStrictSlow bs (iter + 1)
      (val ||| ((b.toNat &&& 0x7f) <<< (7 * iter)) % 2 ^ 64)

/-- `ZL_VARINT_LENGTH_32` or `ZL_VARINT_LENGTH_64`. -/
def varintLength (kWidth : Nat) : Nat := if kWidth = 4 then 5 else 10

/-- `ZL_varintDecodeStrictImpl`. -/
def varintDecodeStrictImpl (kWidth : Nat) : Parser ErrorCode Nat := fun s =>
  if s.length ≥ varintLength kWidth then varintDecodeStrictFast kWidth 10 0 0 s
  else varintDecodeStrictSlow s 0 0

/-- `ZL_varintDecode32Strict`. -/
def varintDecode32Strict : Parser ErrorCode Nat := varintDecodeStrictImpl 4

/-- `ZL_varintDecode64Strict`. -/
def varintDecode64Strict : Parser ErrorCode Nat := varintDecodeStrictImpl 8

/-! ## Encoders -/

theorem log2_or_one (val : Nat) : (val ||| 1).log2 = val.log2 := by
  rcases Nat.eq_zero_or_pos val with rfl | hpos
  · rfl
  · have hle : val ≤ val ||| 1 := Nat.left_le_or
    have hlt : val ||| 1 < 2 ^ (val.log2 + 1) := by
      refine Nat.or_lt_two_pow Nat.lt_log2_self ?_
      exact Nat.one_lt_two_pow (by omega)
    have hne : val ||| 1 ≠ 0 := by omega
    have hge : val.log2 ≤ (val ||| 1).log2 := by
      rw [Nat.le_log2 hne]
      exact (Nat.log2_self_le (by omega)).trans hle
    have hup : (val ||| 1).log2 < val.log2 + 1 := (Nat.log2_lt hne).2 hlt
    omega

theorem varintSize_eq (val : Nat) : varintSize val = val.log2 / 7 + 1 := by
  rw [varintSize, log2_or_one]
  omega

theorem lt_of_log2_div {v n : Nat} (h : v.log2 / 7 = n) : v < 2 ^ (7 * n + 7) := by
  refine Nat.lt_log2_self.trans_le (Nat.pow_le_pow_right (by norm_num) ?_)
  omega

theorem log2_div_seven_eq_zero {v : Nat} (h : v < 128) : v.log2 / 7 = 0 := by
  rcases Nat.eq_zero_or_pos v with rfl | hpos
  · rfl
  · have : v.log2 < 7 := (Nat.log2_lt (by omega)).2 h
    omega

theorem log2_shiftRight_seven {v : Nat} (h : 128 ≤ v) : v.log2 = (v >>> 7).log2 + 7 := by
  have hv : v >>> 7 ≠ 0 := by
    rw [Nat.shiftRight_eq_div_pow]
    exact Nat.div_ne_zero_iff.2 ⟨by norm_num, by simpa using h⟩
  have hlow : 2 ^ (v >>> 7).log2 ≤ v >>> 7 := Nat.log2_self_le hv
  have hhigh : v >>> 7 < 2 ^ ((v >>> 7).log2 + 1) := Nat.lt_log2_self
  apply (Nat.log2_eq_iff (by omega)).2
  rw [show (v >>> 7).log2 + 7 + 1 = (v >>> 7).log2 + 1 + 7 by omega, Nat.pow_add, Nat.pow_add]
  omega

theorem length_varintEncodeLoop : ∀ {k v : Nat}, v < 2 ^ (7 * k + 7) →
    (varintEncodeLoop k v).length = v.log2 / 7 + 1
  | 0, v, hv => by
    have hlog : v.log2 / 7 = 0 := by
      rcases Nat.eq_zero_or_pos v with rfl | hpos
      · rfl
      · have := (Nat.log2_lt (by omega)).2 hv
        omega
    rw [varintEncodeLoop, hlog]
    rfl
  | k + 1, v, hv => by
    rw [varintEncodeLoop]
    split
    · rename_i h128
      rw [List.length_cons, length_varintEncodeLoop (shiftRight_lt_two_pow hv),
        log2_shiftRight_seven h128]
      omega
    · rename_i h128
      have hlog := log2_div_seven_eq_zero (by omega : v < 128)
      rw [hlog]
      rfl

theorem length_varintEncode {v : Nat} (h : v < 2 ^ 64) :
    (varintEncode v).length = varintSize v := by
  rw [varintEncode, length_varintEncodeLoop (h.trans (by norm_num)), varintSize_eq]

theorem or_bytes {a c : Nat} (x y : Nat) (ha : a < 256) (hc : c < 256) :
    (a + 256 * x) ||| (c + 256 * y) = (a ||| c) + 256 * (x ||| y) := by
  have hmod := Nat.or_mod_two_pow (a := a + 256 * x) (b := c + 256 * y) (n := 8)
  have hdiv := Nat.or_div_two_pow (a := a + 256 * x) (b := c + 256 * y) (n := 8)
  rw [show (a + 256 * x) % 2 ^ 8 = a by omega, show (c + 256 * y) % 2 ^ 8 = c by omega] at hmod
  rw [show (a + 256 * x) / 2 ^ 8 = x by omega, show (c + 256 * y) / 2 ^ 8 = y by omega] at hdiv
  have := Nat.mod_add_div ((a + 256 * x) ||| (c + 256 * y)) (2 ^ 8)
  omega

theorem mod_or_80 (v : Nat) : v % 128 ||| 0x80 = 128 + v % 128 := by
  rw [Nat.or_comm, ← and_7f, or_80, and_7f]

/-- `k` groups of seven bits, without continuation bits. -/
def groups : Nat → Nat → Nat
  | 0, _ => 0
  | k + 1, v => v % 128 + 256 * groups k (v / 128)

/-- The continuation bits of the first `n` bytes. -/
def continuations : Nat → Nat
  | 0 => 0
  | n + 1 => 0x80 + 256 * continuations n

/-- `k` groups of seven bits, each with its continuation bit. -/
def continued : Nat → Nat → Nat
  | 0, _ => 0
  | k + 1, v => 128 + v % 128 + 256 * continued k (v / 128)

theorem groups_or_continuations (k v : Nat) : groups k v ||| continuations k = continued k v := by
  induction k generalizing v with
  | zero => exact Nat.or_zero 0
  | succ k ih =>
    rw [groups, continuations, continued, or_bytes _ _ (by omega) (by norm_num), mod_or_80, ih]

theorem ofDigits_fields_seven (k v : Nat) : Nat.ofDigits (2 ^ 8) (fields 7 k v) = groups k v := by
  induction k generalizing v with
  | zero => rfl
  | succ k ih =>
    rw [fields, Nat.ofDigits_cons, ih, groups]
    rfl

theorem pdep_continued (v : Nat) :
    pdep v (2 ^ 64 - 1 - 0x8080808080808080) ||| 0x8080808080808080 = continued 8 v := by
  have hmask : 2 ^ 64 - 1 - 0x8080808080808080 = byteMask 7 := rfl
  have hbits : 0x8080808080808080 = continuations 8 := rfl
  rw [hmask, hbits, pdep_byteMask (by norm_num), ofDigits_fields_seven, groups_or_continuations]

theorem toLE_continued : ∀ {n k v : Nat}, n + 1 ≤ k → v.log2 / 7 = n →
    toLE (n + 1) (continued k v % 2 ^ ((n + 1) * 8 - 1)) = varintEncodeLoop (n) v 
  | 0, k + 1, v, _, hlog => by
    have hv : v < 128 := by simpa using lt_of_log2_div hlog
    rw [varintEncodeLoop, toLE, toLE, continued]
    congr 2
    omega
  | n + 1, k + 1, v, hk, hlog => by
    have hv : 128 ≤ v := by
      by_contra hlt
      have := log2_div_seven_eq_zero (by omega : v < 128)
      omega
    have ih := toLE_continued (n := n) (k := k) (v := v >>> 7) (by omega)
      (by have := log2_shiftRight_seven hv; omega)
    have hpow : 2 ^ ((n + 1 + 1) * 8 - 1) = 256 * 2 ^ ((n + 1) * 8 - 1) := by
      rw [show (n + 1 + 1) * 8 - 1 = 8 + ((n + 1) * 8 - 1) by omega, Nat.pow_add]
    have hmod := Nat.mod_mul (x := continued (k + 1) v) (a := 256) (b := 2 ^ ((n + 1) * 8 - 1))
    rw [continued,
      show (128 + v % 128 + 256 * continued k (v / 128)) % 256 = 128 + v % 128 by omega,
      show (128 + v % 128 + 256 * continued k (v / 128)) / 256 = continued k (v / 128) by omega]
      at hmod
    have hdiv : v >>> 7 = v / 128 := Nat.shiftRight_eq_div_pow v 7
    rw [varintEncodeLoop, if_pos hv, ← ih, toLE, continued, hpow, hmod, hdiv, or_80]
    congr 1
    · apply UInt8.toNat_inj.1
      rw [UInt8.toNat_ofNat', UInt8.toNat_ofNat']
      omega
    · congr 1
      omega

theorem kSize_eq : ∀ c < 64, kSize.getD c 0 = (70 - c) / 7 := by decide

theorem varintEncodeLoop_eq {n k v : Nat} (hv : v < 2 ^ (7 * n + 7)) (hk : n ≤ k) :
    varintEncodeLoop k v = varintEncodeLoop n v := by
  induction n generalizing k v with
  | zero =>
    change _ = [UInt8.ofNat v]
    cases k with
    | zero => rfl
    | succ k => rw [varintEncodeLoop, if_neg (by omega)]
  | succ n ih =>
    obtain ⟨m, rfl⟩ : ∃ m, k = m + 1 := ⟨k - 1, by omega⟩
    rw [varintEncodeLoop, varintEncodeLoop, ih (shiftRight_lt_two_pow hv) (by omega)]

theorem varintEncodeLoop_split : ∀ {k m v : Nat}, 2 ^ (7 * k) ≤ v →
    varintEncodeLoop (k + m) v = toLE k (continued k v) ++ varintEncodeLoop m (v >>> (7 * k))
  | 0, m, v, _ => by simp [toLE]
  | k + 1, m, v, hv => by
    have hpow : 2 ^ (7 * (k + 1)) = 2 ^ (7 * k) * 128 := by rw [Nat.mul_succ, Nat.pow_add]
    have h1 : 0 < 2 ^ (7 * k) := by positivity
    have hdiv : v >>> 7 = v / 128 := Nat.shiftRight_eq_div_pow v 7
    have hnext : 2 ^ (7 * k) ≤ v >>> 7 := by
      rw [hdiv, Nat.le_div_iff_mul_le (by norm_num)]
      omega
    rw [Nat.add_right_comm, varintEncodeLoop, if_pos (by omega), varintEncodeLoop_split hnext,
      ← Nat.shiftRight_add, toLE, continued, List.cons_append, or_80, hdiv,
      show 7 + 7 * k = 7 * (k + 1) by ring,
      show (128 + v % 128 + 256 * continued k (v / 128)) / 256 = continued k (v / 128) by omega]
    congr 1
    apply UInt8.toNat_inj.1
    rw [UInt8.toNat_ofNat', UInt8.toNat_ofNat']
    omega

theorem take_toLE {j k : Nat} (h : j ≤ k) (n : Nat) (rest : List UInt8) :
    (toLE k n ++ rest).take j = toLE j n := by
  obtain ⟨m, rfl⟩ := Nat.exists_eq_add_of_le h
  rw [toLE_add, List.append_assoc, List.take_left' (length_toLE j n)]

theorem varintEncode_eq {v n : Nat} (h : v.log2 / 7 = n) (hn : n ≤ 9) :
    varintEncode v = varintEncodeLoop n v := varintEncodeLoop_eq (lt_of_log2_div h) hn

/-- **The 64-bit fast encoder** writes the plain encoding, of which it returns the length. -/
theorem varintEncode64Fast_eq (hasBMI2 : Bool) {v : Nat} (h : v < 2 ^ 64) :
    (varintEncode64Fast hasBMI2 v).2 = varintSize v ∧
      (varintEncode64Fast hasBMI2 v).1.take (varintEncode64Fast hasBMI2 v).2 = varintEncode v := by
  unfold varintEncode64Fast
  cases hasBMI2 with
  | false => exact ⟨length_varintEncode h, List.take_length⟩
  | true =>
    simp only [if_true]
    split
    · rename_i h7
      have hlog := log2_div_seven_eq_zero (by omega : v < 128)
      rw [varintSize_eq, varintEncode_eq hlog (by norm_num), hlog]
      exact ⟨rfl, rfl⟩
    · rename_i h7
      have hlog : v.log2 < 64 := (Nat.log2_lt (by omega)).2 h
      have hsize : kSize.getD (clz64 v) 0 = v.log2 / 7 + 1 := by
        rw [clz64, kSize_eq _ (by omega)]
        omega
      rw [hsize, varintSize_eq, pdep_continued]
      refine ⟨rfl, ?_⟩
      obtain ⟨n, hn⟩ : ∃ n, v.log2 / 7 = n := ⟨_, rfl⟩
      rw [varintEncode_eq hn (by omega), hn]
      by_cases h8 : n + 1 ≤ 8
      · rw [bzhi64, Nat.mod_eq_of_lt (by omega), if_pos (by omega), take_toLE h8,
          toLE_continued h8 hn]
      · -- the groups beyond the eighth come from the highest byte of the value
        have hne : v ≠ 0 := by omega
        have h56 : 2 ^ (7 * 8) ≤ v := (Nat.le_log2 hne).1 (by omega)
        rw [bzhi64, Nat.mod_eq_of_lt (by omega), if_neg (by omega)]
        have hn9 : n = 8 ∨ n = 9 := by omega
        rcases hn9 with rfl | rfl
        · rw [show varintEncodeLoop 8 v = varintEncodeLoop (8 + 0) v from rfl,
            varintEncodeLoop_split h56, List.take_append, List.take_of_length_le (by simp)]
          simp [varintEncodeLoop]
        · have h63 : 2 ^ 63 ≤ v := (Nat.le_log2 hne).1 (by omega)
          have hlast : v >>> 56 >>> 7 = 1 := by
            rw [← Nat.shiftRight_add, Nat.shiftRight_eq_div_pow]
            omega
          have hcont : UInt8.ofNat (0x80 ||| (v >>> 56 &&& 0x7f)) = UInt8.ofNat (v >>> 56) := by
            rw [or_80]
            congr 1
            omega
          rw [show varintEncodeLoop 9 v = varintEncodeLoop (8 + 1) v from rfl,
            varintEncodeLoop_split h56, List.take_append, List.take_of_length_le (by simp),
            varintEncodeLoop, if_pos (by omega), varintEncodeLoop, hlast, hcont]
          simp

theorem pdep_groups {v : Nat} (h : v < 2 ^ 32) : pdep v 0x0000000f7f7f7f7f = groups 5 v := by
  have hmask : maskPositions 0x0000000f7f7f7f7f = List.range' 0 7 ++ (List.range' 8 7 ++
      (List.range' 16 7 ++ (List.range' 24 7 ++ (List.range' 32 4 ++ [])))) := by decide
  rw [pdep, hmask]
  simp only [pdepList_range', pdepList, groups]
  omega

theorem MSBS32_eq : ∀ c < 32, MSBS32.getD c 0 =
    continuations ((38 - c) / 7 - 1) + 2 ^ 56 * ((38 - c) / 7) := by decide

theorem toLE_byte (k x : Nat) {a : Nat} (ha : a < 256) :
    toLE (k + 1) (a + 256 * x) = UInt8.ofNat a :: toLE k x := by
  rw [toLE, show (a + 256 * x) / 256 = x by omega]
  congr 1
  apply UInt8.toNat_inj.1
  rw [UInt8.toNat_ofNat', UInt8.toNat_ofNat']
  omega

theorem toLE_groups : ∀ {n k v : Nat} (junk : Nat), n + 1 ≤ k → v.log2 / 7 = n →
    toLE (n + 1) (groups k v ||| (continuations n + 256 ^ (n + 1) * junk)) = varintEncodeLoop n v
  | 0, k + 1, v, junk, _, hlog => by
    have hv : v < 128 := by simpa using lt_of_log2_div hlog
    rw [groups, continuations, pow_one, or_bytes _ _ (by omega) (by norm_num), Nat.or_zero,
      toLE_byte _ _ (by omega), Nat.mod_eq_of_lt hv]
    rfl
  | n + 1, k + 1, v, junk, hk, hlog => by
    have hv : 128 ≤ v := by
      by_contra hlt
      have := log2_div_seven_eq_zero (by omega : v < 128)
      omega
    have hdiv : v >>> 7 = v / 128 := Nat.shiftRight_eq_div_pow v 7
    have ih := toLE_groups (n := n) (k := k) (v := v >>> 7) junk (by omega)
      (by have := log2_shiftRight_seven hv; omega)
    have hpow : continuations (n + 1) + 256 ^ (n + 1 + 1) * junk =
        0x80 + 256 * (continuations n + 256 ^ (n + 1) * junk) := by
      rw [continuations, Nat.pow_succ']
      ring
    rw [groups, hpow, or_bytes _ _ (by omega) (by norm_num), mod_or_80, toLE_byte _ _ (by omega),
      varintEncodeLoop, if_pos hv, ← ih, or_80, hdiv]

/-- **The 32-bit fast encoder** writes the plain encoding, of which it returns the length. -/
theorem varintEncode32Fast_eq (hasBMI2 : Bool) {v : Nat} (h : v < 2 ^ 32) :
    (varintEncode32Fast hasBMI2 v).2 = varintSize v ∧
      (varintEncode32Fast hasBMI2 v).1.take (varintEncode32Fast hasBMI2 v).2 = varintEncode v := by
  unfold varintEncode32Fast
  cases hasBMI2 with
  | false => exact ⟨length_varintEncode (h.trans (by norm_num)), List.take_length⟩
  | true =>
    rcases Nat.eq_zero_or_pos v with rfl | hpos
    · exact ⟨by decide, by decide⟩
    · obtain ⟨n, hn⟩ : ∃ n, v.log2 / 7 = n := ⟨_, rfl⟩
      have hlog : v.log2 < 32 := (Nat.log2_lt (by omega)).2 h
      have hmsbs : MSBS32.getD (lzcnt32 v) 0 = continuations n + 2 ^ 56 * (n + 1) := by
        rw [lzcnt32, if_neg (by omega), MSBS32_eq _ (by omega),
          show (38 - (31 - v.log2)) / 7 = n + 1 by omega, Nat.add_sub_cancel]
      have hsize : (continuations n + 2 ^ 56 * (n + 1)) >>> 56 % 256 = n + 1 := by
        have hcont : continuations n < 2 ^ 56 := by
          have hn5 : n < 5 := by omega
          interval_cases n <;> decide
        rw [Nat.shiftRight_eq_div_pow]
        omega
      have hjunk : 2 ^ 56 * (n + 1) = 256 ^ (n + 1) * (256 ^ (6 - n) * (n + 1)) := by
        rw [← Nat.mul_assoc, ← Nat.pow_add, show n + 1 + (6 - n) = 7 by omega,
          pow256]
      have htake := take_toLE (j := n + 1) (k := 8) (by omega)
        (groups 5 v ||| (continuations n + 2 ^ 56 * (n + 1))) []
      simp only [if_true]
      rw [hmsbs, hsize, varintSize_eq, hn, pdep_groups h, varintEncode_eq hn (by omega)]
      refine ⟨rfl, ?_⟩
      rw [List.append_nil] at htake
      rw [htake, hjunk, toLE_groups _ (by omega) hn]

theorem varintDecodeSlow_eq : ∀ {s : List UInt8} {n shift val : Nat}, s.length < n →
    shift + 7 * n ≤ 70 → varintDecodeSlow s shift val = varintDecodeFast n shift val s
  | [], n + 1, _, _, _, _ => rfl
  | b :: bs, n + 1, shift, val, hn, hs => by
    have hn' : bs.length + 1 < n + 1 := hn
    rw [varintDecodeSlow, varintDecodeFast_cons, if_neg (show n ≠ 0 by omega)]
    split
    · rename_i hb
      have hb' : b.toNat < 128 := UInt8.lt_iff_toNat_lt.1 hb
      rw [shiftLeft_mod_eq hb' (by omega), and_7f, Nat.mod_eq_of_lt hb']
    · rw [and_7f, shiftLeft_mod_eq (Nat.mod_lt _ (by norm_num)) (by omega),
        varintDecodeSlow_eq (n := n) (by omega) (by omega)]

theorem varintDecode_eq : varintDecode = varintDecodeFast 10 0 0 := by
  funext s
  unfold varintDecode
  split
  · rfl
  · exact varintDecodeSlow_eq (by omega) (by norm_num)

/-! ## Strict decoders -/

/-- What the strict decoder refuses in a last byte. -/
def RefusedLast (kWidth iter : Nat) (b : UInt8) : Prop :=
  (kWidth = 4 ∧ iter = 4 ∧ b &&& ~~~0x0F ≠ 0) ∨ (iter = 9 ∧ b &&& ~~~0x01 ≠ 0) ∨
    (iter ≠ 0 ∧ b = 0)

instance (kWidth iter : Nat) (b : UInt8) : Decidable (RefusedLast kWidth iter b) :=
  inferInstanceAs (Decidable (_ ∨ _ ∨ _))

theorem strictFast_cons (kWidth n iter val : Nat) (b : UInt8) (bs : List UInt8) :
    varintDecodeStrictFast kWidth (n + 1) iter val (b :: bs) =
      if b < 128 then
        if RefusedLast kWidth iter b then .error .GENERIC
        else .ok (val ||| (b.toNat &&& (if iter = 9 then 0x01 else 0x7f)) <<< (7 * iter), bs)
      else if kWidth = 4 ∧ iter = 4 then .error .GENERIC
      else varintDecodeStrictFast kWidth n (iter + 1)
        (val ||| (b.toNat &&& (if iter = 9 then 0x01 else 0x7f)) <<< (7 * iter)) bs := by
  rw [varintDecodeStrictFast, run_bind_of_ok (run_popByte_cons _ _ _)]
  split
  · by_cases h₁ : kWidth = 4 ∧ iter = 4 ∧ b &&& ~~~0x0F ≠ 0
    · have hrefused : RefusedLast kWidth iter b := Or.inl h₁
      rw [run_bind_of_error (run_failIf_of h₁ _), if_pos hrefused]
    rw [run_bind_of_ok (run_failIf_of_not h₁ _)]
    by_cases h₂ : iter = 9 ∧ b &&& ~~~0x01 ≠ 0
    · have hrefused : RefusedLast kWidth iter b := Or.inr (Or.inl h₂)
      rw [run_bind_of_error (run_failIf_of h₂ _), if_pos hrefused]
    rw [run_bind_of_ok (run_failIf_of_not h₂ _)]
    by_cases h₃ : iter ≠ 0 ∧ b = 0
    · have hrefused : RefusedLast kWidth iter b := Or.inr (Or.inr h₃)
      rw [run_bind_of_error (run_failIf_of h₃ _), if_pos hrefused]
    have haccepted : ¬ RefusedLast kWidth iter b := by
      rintro (h | h | h)
      · exact h₁ h
      · exact h₂ h
      · exact h₃ h
    rw [run_bind_of_ok (run_failIf_of_not h₃ _), if_neg haccepted]
    rfl
  · by_cases h₁ : kWidth = 4 ∧ iter = 4
    · rw [run_bind_of_error (run_failIf_of h₁ _), if_pos h₁]
    · rw [run_bind_of_ok (run_failIf_of_not h₁ _), if_neg h₁]

theorem varintDecodeStrictSlow_eq {kWidth : Nat} : ∀ {s : List UInt8} {n iter val : Nat},
    iter + s.length < varintLength kWidth → iter + n = 10 →
    varintDecodeStrictSlow s iter val = varintDecodeStrictFast kWidth n iter val s
  | [], n, iter, _, hlen, hn => by
    have : varintLength kWidth ≤ 10 := by
      unfold varintLength
      split <;> norm_num
    cases n with
    | zero => rfl
    | succ n => rfl
  | b :: bs, n, iter, val, hlen, hn => by
    have hlen' : iter + (bs.length + 1) < varintLength kWidth := hlen
    have hlen'' : iter + 1 + bs.length < varintLength kWidth := by omega
    have hiter : iter < 9 ∧ (kWidth = 4 → iter < 4) := by
      unfold varintLength at hlen'
      split at hlen' <;> omega
    obtain ⟨m, rfl⟩ : ∃ m, n = m + 1 := ⟨n - 1, by omega⟩
    rw [varintDecodeStrictSlow, strictFast_cons, if_neg (show iter ≠ 9 by omega)]
    split
    · rename_i hb
      have hb' : b.toNat < 128 := UInt8.lt_iff_toNat_lt.1 hb
      have hrefused : RefusedLast kWidth iter b ↔ iter > 0 ∧ b = 0 := by
        unfold RefusedLast
        constructor
        · rintro (⟨h4, h, -⟩ | ⟨h, -⟩ | ⟨h, h0⟩)
          · have := hiter.2 h4
            omega
          · omega
          · exact ⟨by omega, h0⟩
        · rintro ⟨h, h0⟩
          exact Or.inr (Or.inr ⟨by omega, h0⟩)
      simp only [hrefused]
      rw [Nat.mul_comm iter, shiftLeft_mod_eq hb' (by omega), and_7f, Nat.mod_eq_of_lt hb']
    · rw [and_7f, shiftLeft_mod_eq (Nat.mod_lt _ (by norm_num)) (by omega),
        if_neg fun h => absurd (hiter.2 h.1) (by omega),
        varintDecodeStrictSlow_eq (n := m) hlen'' (by omega)]

theorem varintDecodeStrictImpl_eq (kWidth : Nat) :
    varintDecodeStrictImpl kWidth = varintDecodeStrictFast kWidth 10 0 0 := by
  funext s
  unfold varintDecodeStrictImpl
  split
  · rfl
  · exact varintDecodeStrictSlow_eq (by omega) (by norm_num)

/-- Nothing after the byte that ends a varint plays a role. -/
def BlindToSuffix (decode : Parser ErrorCode Nat) : Prop :=
  ∀ (bs : List UInt8) (last : UInt8), (∀ b ∈ bs, 128 ≤ b) → last < 128 →
    (∃ e, ∀ rest, decode (bs ++ last :: rest) = .error e) ∨
      ∃ v, ∀ rest, decode (bs ++ last :: rest) = .ok (v, rest)

theorem varintDecodeFast_blind : ∀ (n shift val : Nat),
    BlindToSuffix (varintDecodeFast n shift val)
  | 0, _, _ => fun _ _ _ _ => Or.inl ⟨.GENERIC, fun _ => rfl⟩
  | n + 1, shift, val => by
    intro bs last hbs hlast
    cases bs with
    | nil =>
      refine Or.inr ⟨val ||| (last.toNat &&& (if n = 0 then 0x01 else 0x7f)) <<< shift,
        fun rest => ?_⟩
      rw [List.nil_append, varintDecodeFast_cons, if_pos hlast]
    | cons b bs =>
      have hb : ¬ b < 128 := UInt8.not_lt.2 (hbs b (by simp))
      have ih := varintDecodeFast_blind n (shift + 7)
        (val ||| (b.toNat &&& (if n = 0 then 0x01 else 0x7f)) <<< shift) bs last
        (fun c hc => hbs c (List.mem_cons_of_mem _ hc)) hlast
      simpa only [List.cons_append, varintDecodeFast_cons, if_neg hb] using ih

theorem strictFast_blind (kWidth : Nat) : ∀ (n iter val : Nat),
    BlindToSuffix (varintDecodeStrictFast kWidth n iter val)
  | 0, _, _ => fun _ _ _ _ => Or.inl ⟨.GENERIC, fun _ => rfl⟩
  | n + 1, iter, val => by
    intro bs last hbs hlast
    cases bs with
    | nil =>
      by_cases hrefused : RefusedLast kWidth iter last
      · refine Or.inl ⟨.GENERIC, fun rest => ?_⟩
        rw [List.nil_append, strictFast_cons, if_pos hlast, if_pos hrefused]
      · refine Or.inr ⟨val ||| (last.toNat &&& (if iter = 9 then 0x01 else 0x7f)) <<< (7 * iter),
          fun rest => ?_⟩
        rw [List.nil_append, strictFast_cons, if_pos hlast, if_neg hrefused]
    | cons b bs =>
      have hb : ¬ b < 128 := UInt8.not_lt.2 (hbs b (by simp))
      by_cases h4 : kWidth = 4 ∧ iter = 4
      · refine Or.inl ⟨.GENERIC, fun rest => ?_⟩
        rw [List.cons_append, strictFast_cons, if_neg hb, if_pos h4]
      · have ih := strictFast_blind kWidth n (iter + 1)
          (val ||| (b.toNat &&& (if iter = 9 then 0x01 else 0x7f)) <<< (7 * iter)) bs last
          (fun c hc => hbs c (List.mem_cons_of_mem _ hc)) hlast
        simpa only [List.cons_append, strictFast_cons, if_neg hb, if_neg h4] using ih

theorem and_not_0F (b : UInt8) : b &&& ~~~0x0F = 0 ↔ b.toNat < 16 := by
  have h := (by decide +kernel : ∀ i : Fin 256, UInt8.ofNat i.val &&& ~~~0x0F = 0 ↔ i.val < 16)
  simpa using h ⟨b.toNat, b.toNat_lt⟩

theorem and_not_01 (b : UInt8) : b &&& ~~~0x01 = 0 ↔ b.toNat < 2 := by
  have h := (by decide +kernel : ∀ i : Fin 256, UInt8.ofNat i.val &&& ~~~0x01 = 0 ↔ i.val < 2)
  simpa using h ⟨b.toNat, b.toNat_lt⟩

/-- The number of bits of the values of a strict decoder. -/
def bitsOf (kWidth : Nat) : Nat := if kWidth = 4 then 32 else 64

theorem not_refusedLast {kWidth iter : Nat} {b : UInt8} (hb : b < 128) (hiter : iter ≤ 9)
    (h4 : kWidth = 4 → iter ≤ 4) : ¬ RefusedLast kWidth iter b ↔
      b.toNat < 2 ^ (bitsOf kWidth - 7 * iter) ∧ (iter ≠ 0 → b.toNat ≠ 0) := by
  have hb' : b.toNat < 128 := UInt8.lt_iff_toNat_lt.1 hb
  have hzero : b = 0 ↔ b.toNat = 0 := by rw [← UInt8.toNat_inj, UInt8.toNat_zero]
  unfold RefusedLast bitsOf
  rw [hzero, ne_eq, and_not_0F, ne_eq, and_not_01]
  by_cases hw : kWidth = 4
  · have hi := h4 hw
    rw [if_pos hw]
    interval_cases iter <;> simp [hw] <;> omega
  · rw [if_neg hw]
    interval_cases iter <;> simp [hw] <;> omega

theorem and_mask_last {kWidth iter : Nat} {b : UInt8} (hb : b < 128)
    (h : ¬ RefusedLast kWidth iter b) :
    b.toNat &&& (if iter = 9 then 0x01 else 0x7f) = b.toNat := by
  have hb' : b.toNat < 128 := UInt8.lt_iff_toNat_lt.1 hb
  split
  · rename_i h9
    have hlt : b.toNat < 2 := by
      by_contra hge
      exact h (Or.inr (Or.inl ⟨h9, fun h0 => hge ((and_not_01 b).1 h0)⟩))
    rw [Nat.and_one_is_mod]
    omega
  · rw [and_7f, Nat.mod_eq_of_lt hb']

theorem bitsOf_sub_succ {kWidth iter : Nat} (hiter : iter < 9) (h4 : kWidth = 4 → iter < 4) :
    bitsOf kWidth - 7 * iter = bitsOf kWidth - 7 * (iter + 1) + 7 := by
  unfold bitsOf
  split
  · have := h4 ‹_›
    omega
  · omega

theorem strictFast_last {kWidth n iter v val : Nat} (rest : List UInt8) (hiter : iter ≤ 9)
    (h4 : kWidth = 4 → iter ≤ 4) (hval : val < 2 ^ (7 * iter)) (hv128 : v < 128)
    (hne : iter ≠ 0 → v ≠ 0) (hv : v < 2 ^ (bitsOf kWidth - 7 * iter)) :
    varintDecodeStrictFast kWidth (n + 1) iter val (UInt8.ofNat v :: rest) =
      .ok (val + 2 ^ (7 * iter) * v, rest) := by
  have hlast : ¬ RefusedLast kWidth iter (UInt8.ofNat v) := by
    rw [not_refusedLast (last_lt hv128) hiter h4, toNat_last hv128]
    exact ⟨hv, hne⟩
  rw [strictFast_cons, if_pos (last_lt hv128), if_neg hlast, and_mask_last (last_lt hv128) hlast,
    toNat_last hv128, or_shiftLeft hval]

theorem strictFast_encode {kWidth : Nat} : ∀ {k iter v val : Nat} (rest : List UInt8),
    iter + k = 9 → (kWidth = 4 → iter ≤ 4) → val < 2 ^ (7 * iter) → (iter ≠ 0 → v ≠ 0) →
    v < 2 ^ (bitsOf kWidth - 7 * iter) →
    varintDecodeStrictFast kWidth (k + 1) iter val (varintEncodeLoop k v ++ rest) =
      .ok (val + 2 ^ (7 * iter) * v, rest)
  | 0, iter, v, val, rest, hk, h4, hval, hne, hv => by
    have hv128 : v < 128 := by
      have hbits : bitsOf kWidth - 7 * iter ≤ 7 := by
        unfold bitsOf
        split <;> omega
      exact hv.trans_le (Nat.pow_le_pow_right (by norm_num) hbits)
    exact strictFast_last rest (by omega) h4 hval hv128 hne hv
  | k + 1, iter, v, val, rest, hk, h4, hval, hne, hv => by
    rw [varintEncodeLoop]
    split
    · rename_i h128
      -- a second group means that the width is not used up
      have h4' : kWidth = 4 → iter < 4 := by
        intro hw
        by_contra hge
        have hiter : iter = 4 := by omega
        rw [bitsOf, if_pos hw, hiter] at hv
        omega
      have hmod : (128 + v % 128) % 128 = v % 128 := by omega
      have hlt := add_mul_lt hval (show v % 128 < 2 ^ 7 by omega)
      have hnext : v >>> 7 < 2 ^ (bitsOf kWidth - 7 * (iter + 1)) :=
        shiftRight_lt_two_pow (by rwa [← bitsOf_sub_succ (by omega) h4'])
      have hne' : v >>> 7 ≠ 0 := by
        rw [Nat.shiftRight_eq_div_pow]
        omega
      rw [List.cons_append, strictFast_cons, if_neg (continuation_not_lt v),
        if_neg fun h => absurd (h4' h.1) (by omega), if_neg (show iter ≠ 9 by omega),
        toNat_continuation, and_7f, hmod, or_shiftLeft hval,
        strictFast_encode rest (by omega) (fun h => h4' h) hlt (fun _ => hne') hnext,
        Nat.mul_succ, add_groups]
    · rename_i h128
      exact strictFast_last rest (by omega) h4 hval (by omega) hne hv

theorem strictFast_sound {kWidth : Nat} : ∀ {k iter val w : Nat} {s s' : List UInt8},
    iter + k = 9 → (kWidth = 4 → iter ≤ 4) → val < 2 ^ (7 * iter) →
    varintDecodeStrictFast kWidth (k + 1) iter val s = .ok (w, s') →
    ∃ v, w = val + 2 ^ (7 * iter) * v ∧ s = varintEncodeLoop k v ++ s' ∧ (iter ≠ 0 → v ≠ 0) ∧
      v < 2 ^ (bitsOf kWidth - 7 * iter)
  | k, iter, val, w, [], s', _, _, _, h => by cases h
  | k, iter, val, w, b :: bs, s', hk, h4, hval, h => by
    rw [strictFast_cons] at h
    split at h
    · rename_i hb
      have hb' : b.toNat < 128 := UInt8.lt_iff_toNat_lt.1 hb
      split at h
      · cases h
      · rename_i hlast
        obtain ⟨rfl, rfl⟩ := Prod.mk.inj (Except.ok.inj h)
        obtain ⟨hlt, hne⟩ := (not_refusedLast hb (by omega) h4).1 hlast
        refine ⟨b.toNat, ?_, ?_, hne, hlt⟩
        · rw [and_mask_last hb hlast, or_shiftLeft hval]
        · have hloop : varintEncodeLoop k b.toNat = [b] := by
            cases k with
            | zero => simp [varintEncodeLoop]
            | succ k => simp [varintEncodeLoop, hb']
          rw [hloop, List.singleton_append]
    · rename_i hb
      have hb' : 128 ≤ b.toNat := Nat.le_of_not_lt fun hlt => hb (UInt8.lt_iff_toNat_lt.2 hlt)
      have hb8 := b.toNat_lt
      split at h
      · cases h
      · rename_i h44
        cases k with
        | zero => cases h
        | succ k =>
          have h4' : kWidth = 4 → iter < 4 := fun hw => by
            have := h4 hw
            have : iter ≠ 4 := fun hi => h44 ⟨hw, hi⟩
            omega
          have hlt := add_mul_lt hval (show b.toNat % 128 < 2 ^ 7 by omega)
          rw [if_neg (show iter ≠ 9 by omega), and_7f, or_shiftLeft hval] at h
          obtain ⟨v, rfl, rfl, hne, hv⟩ := strictFast_sound (by omega) (fun h => h4' h) hlt h
          have hshift : (b.toNat % 128 + 128 * v) >>> 7 = v := by
            rw [Nat.shiftRight_eq_div_pow]
            omega
          refine ⟨b.toNat % 128 + 128 * v, ?_, ?_, fun _ => by omega, ?_⟩
          · rw [Nat.mul_succ, Nat.pow_add]
            ring
          · have hbyte : UInt8.ofNat (0x80 ||| ((b.toNat % 128 + 128 * v) &&& 0x7f)) = b := by
              apply UInt8.toNat_inj.1
              rw [toNat_continuation]
              omega
            rw [varintEncodeLoop, if_pos (by omega), hbyte, hshift, List.cons_append]
          · have := add_mul_lt (show b.toNat % 128 < 2 ^ 7 by omega) hv
            rw [bitsOf_sub_succ (by omega) h4', Nat.add_comm _ 7]
            simpa using this

theorem strictImpl_reads {kWidth v : Nat} (h : v < 2 ^ bitsOf kWidth) :
    Reads (varintDecodeStrictImpl kWidth) (varintEncode v) v := by
  intro rest
  have hrun : varintDecodeStrictFast kWidth 10 0 0 (varintEncodeLoop 9 v ++ rest) =
      .ok (0 + 2 ^ (7 * 0) * v, rest) :=
    strictFast_encode rest rfl (by omega) (by norm_num) (by simp) (by simpa using h)
  simpa [varintDecodeStrictImpl_eq, varintEncode] using hrun

theorem strictImpl_sound {kWidth v : Nat} {s s' : List UInt8}
    (h : varintDecodeStrictImpl kWidth s = .ok (v, s')) :
    v < 2 ^ bitsOf kWidth ∧ s = varintEncode v ++ s' := by
  rw [varintDecodeStrictImpl_eq] at h
  obtain ⟨w, rfl, rfl, -, hw⟩ := strictFast_sound (k := 9) rfl (by omega) (by norm_num) h
  simpa [varintEncode] using hw

/-! ## The laws -/

/-- **The laws of the varint codecs**: sizes, the fast encoders, round trips through every
decoder, canonicity of what the strict decoders accept, and the two branches of each decoder. -/
theorem varint_laws :
    (∀ v < 2 ^ 64, (varintEncode v).length = varintSize v ∧
      (∀ hasBMI2, (varintEncode64Fast hasBMI2 v).2 = (varintEncode v).length ∧
        (varintEncode64Fast hasBMI2 v).1.take (varintEncode v).length = varintEncode v) ∧
      Reads varintDecode (varintEncode v) v ∧ Reads varintDecode64Strict (varintEncode v) v) ∧
    (∀ v < 2 ^ 32,
      (∀ hasBMI2, (varintEncode32Fast hasBMI2 v).2 = (varintEncode v).length ∧
        (varintEncode32Fast hasBMI2 v).1.take (varintEncode v).length = varintEncode v) ∧
      Reads varintDecode32Strict (varintEncode v) v) ∧
    (∀ s v s', varintDecode64Strict s = .ok (v, s') → v < 2 ^ 64 ∧ s = varintEncode v ++ s') ∧
    (∀ s v s', varintDecode32Strict s = .ok (v, s') → v < 2 ^ 32 ∧ s = varintEncode v ++ s') ∧
    ∀ decode ∈ [varintDecode, varintDecode64Strict, varintDecode32Strict],
      BlindToSuffix decode := by
  refine ⟨fun v hv => ⟨length_varintEncode hv, fun hasBMI2 => ?_, varintDecode_reads hv,
    strictImpl_reads hv⟩, fun v hv => ⟨fun hasBMI2 => ?_, strictImpl_reads hv⟩,
    fun s v s' => strictImpl_sound, fun s v s' => strictImpl_sound, ?_⟩
  · obtain ⟨hsize, hbytes⟩ := varintEncode64Fast_eq hasBMI2 hv
    rw [length_varintEncode hv, ← hsize]
    exact ⟨rfl, hbytes⟩
  · obtain ⟨hsize, hbytes⟩ := varintEncode32Fast_eq hasBMI2 hv
    rw [length_varintEncode (hv.trans (by norm_num)), ← hsize]
    exact ⟨rfl, hbytes⟩
  · intro decode hdecode
    simp only [List.mem_cons, List.not_mem_nil, or_false] at hdecode
    rcases hdecode with rfl | rfl | rfl
    · rw [varintDecode_eq]
      exact varintDecodeFast_blind 10 0 0
    · rw [varintDecode64Strict, varintDecodeStrictImpl_eq]
      exact strictFast_blind 8 10 0 0
    · rw [varintDecode32Strict, varintDecodeStrictImpl_eq]
      exact strictFast_blind 4 10 0 0

end OpenZL.Shared
