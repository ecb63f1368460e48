import OpenZL.Common.Basic
import OpenZL.Lib.LittleEndian
import OpenZL.Lib.Parser

/-!
# Variable-length integers (`varint.h`)

Seven payload bits per byte, least significant group first, the high bit set on every byte but the
last.

Principal results: `varintDecode_reads`, `varintDecode_local`, `varintDecode_bounds`.
-/

namespace OpenZL.Shared

open OpenZL.Lib

/-- The loop of `ZL_varintEncode`; a 64-bit value leaves it after at most nine rounds. -/
def varintEncodeLoop : Nat → Nat → List UInt8
  | 0, val => [UInt8.ofNat val]
  | k + 1, val =>
    if val ≥ 128 then UInt8.ofNat (0x80 ||| (val &&& 0x7f)) :: varintEncodeLoop k (val >>> 7)
    else [UInt8.ofNat val]

/-- `ZL_varintEncode`. -/
def varintEncode (val : Nat) : List UInt8 := varintEncodeLoop 9 val

/-- `ZL_varintSize`. -/
def varintSize (val : Nat) : Nat := ((val ||| 1).log2 + 1 + 6) / 7

/-- The unrolled branch of `ZL_varintDecode`, with `n` bytes still allowed. -/
def varintDecodeFast : Nat → Nat → Nat → Parser ErrorCode Nat
  | 0, _, _ => throw .GENERIC
  | n + 1, shift, val => do
    let b ← Parser.popByte .GENERIC
    let val := val ||| (b.toNat &&& (if n = 0 then 0x01 else 0x7f)) <<< shift
    if b < 128 then return val else varintDecodeFast n (shift + 7) val

/-- The loop of `ZL_varintDecode`, used when fewer than ten bytes are left. -/
def varintDecodeSlow : List UInt8 → Nat → Nat → Except ErrorCode (Nat × List UInt8)
  | [], _, _ => .error .GENERIC
  | b :: bs, shift, val =>
    if b < 128 then .ok (val ||| (b.toNat <<< shift) % 2 ^ 64, bs)
    else varintDecodeSlow bs (shift + 7) (val ||| ((b.toNat &&& 0x7f) <<< shift) % 2 ^ 64)

/-- `ZL_varintDecode`. -/
def varintDecode : Parser ErrorCode Nat := fun s =>
  if s.length ≥ 10 then varintDecodeFast 10 0 0 s else varintDecodeSlow s 0 0

theorem and_7f (n : Nat) : n &&& 0x7f = n % 128 := Nat.and_two_pow_sub_one_eq_mod n 7

theorem or_80 (n : Nat) : 0x80 ||| (n &&& 0x7f) = 128 + n % 128 := by
  rw [and_7f]
  have h := Nat.shiftLeft_add_eq_or_of_lt (i := 7) (b := n % 128) (Nat.mod_lt _ (by norm_num)) 1
  simpa using h.symm

theorem toNat_continuation (n : Nat) :
    (UInt8.ofNat (0x80 ||| (n &&& 0x7f))).toNat = 128 + n % 128 := by
  rw [or_80, UInt8.toNat_ofNat']
  omega

theorem toNat_last {n : Nat} (h : n < 128) : (UInt8.ofNat n).toNat = n := by
  rw [UInt8.toNat_ofNat']
  omega

theorem shiftLeft_mod_eq {v shift : Nat} (hv : v < 128) (h : shift + 7 ≤ 64) :
    (v <<< shift) % 2 ^ 64 = v <<< shift := by
  apply Nat.mod_eq_of_lt
  rw [Nat.shiftLeft_eq]
  calc v * 2 ^ shift < 2 ^ 7 * 2 ^ shift := Nat.mul_lt_mul_of_pos_right hv (by positivity)
    _ = 2 ^ (7 + shift) := (Nat.pow_add 2 7 shift).symm
    _ ≤ 2 ^ 64 := Nat.pow_le_pow_right (by norm_num) (by omega)

theorem varintDecodeFast_cons (n shift val : Nat) (b : UInt8) (bs : List UInt8) :
    varintDecodeFast (n + 1) shift val (b :: bs) =
      if b < 128 then .ok (val ||| (b.toNat &&& (if n = 0 then 0x01 else 0x7f)) <<< shift, bs)
      else varintDecodeFast n (shift + 7)
        (val ||| (b.toNat &&& (if n = 0 then 0x01 else 0x7f)) <<< shift) bs := by
  rw [varintDecodeFast, run_bind_of_ok (run_popByte_cons _ _ _)]
  split <;> rfl

theorem continuation_not_lt (n : Nat) : ¬ UInt8.ofNat (0x80 ||| (n &&& 0x7f)) < 128 := by
  rw [UInt8.lt_iff_toNat_lt, toNat_continuation]
  exact Nat.not_lt.2 (Nat.le_add_right _ _)

theorem last_lt {n : Nat} (h : n < 128) : UInt8.ofNat n < 128 := by
  rw [UInt8.lt_iff_toNat_lt, toNat_last h]
  exact h

theorem add_groups (val shift v : Nat) :
    val + 2 ^ shift * (v % 128) + 2 ^ (shift + 7) * (v >>> 7) = val + 2 ^ shift * v := by
  have h := Nat.mod_add_div v 128
  rw [Nat.shiftRight_eq_div_pow, Nat.pow_add]
  conv_rhs => rw [← h]
  ring

theorem shiftRight_lt_two_pow {v k : Nat} (h : v < 2 ^ (k + 7)) : v >>> 7 < 2 ^ k := by
  rwa [Nat.shiftRight_eq_div_pow, Nat.div_lt_iff_lt_mul (by positivity), ← Nat.pow_add]

theorem varintDecodeFast_encode : ∀ (k v shift val : Nat) (rest : List UInt8),
    val < 2 ^ shift → v < 2 ^ (7 * k + 1) →
    varintDecodeFast (k + 1) shift val (varintEncodeLoop k v ++ rest) =
      .ok (val + 2 ^ shift * v, rest)
  | 0, v, shift, val, rest, hval, hv => by
    have hand : v &&& 0x01 = v := by
      rw [Nat.and_one_is_mod]
      omega
    rw [varintEncodeLoop, List.singleton_append, varintDecodeFast_cons,
      if_pos (last_lt (by omega)), toNat_last (by omega), if_pos rfl, hand, or_shiftLeft hval]
  | k + 1, v, shift, val, rest, hval, hv => by
    rw [varintEncodeLoop]
    split
    · have hmod : (128 + v % 128) % 128 = v % 128 := by omega
      have hlt := add_mul_lt hval (show v % 128 < 2 ^ 7 by omega)
      rw [List.cons_append, varintDecodeFast_cons, if_neg (continuation_not_lt v),
        toNat_continuation, if_neg (Nat.succ_ne_zero k), and_7f, hmod, or_shiftLeft hval,
        varintDecodeFast_encode k _ _ _ rest hlt (shiftRight_lt_two_pow hv), add_groups]
    · rename_i hv128
      have hv' : v < 128 := by omega
      rw [List.singleton_append, varintDecodeFast_cons, if_pos (last_lt hv'), toNat_last hv',
        if_neg (Nat.succ_ne_zero k), and_7f, Nat.mod_eq_of_lt hv', or_shiftLeft hval]

theorem varintDecodeSlow_encode : ∀ (k v shift val : Nat) (rest : List UInt8),
    val < 2 ^ (7 * shift) → v < 2 ^ (7 * k + 7) → v < 2 ^ (63 - 7 * shift) → shift ≤ 8 →
    varintDecodeSlow (varintEncodeLoop k v ++ rest) (7 * shift) val =
      .ok (val + 2 ^ (7 * shift) * v, rest)
  | 0, v, shift, val, rest, hval, hv, hv63, hs => by
    have hv' : v < 128 := by simpa using hv
    rw [varintEncodeLoop, List.singleton_append, varintDecodeSlow, if_pos (last_lt hv'),
      toNat_last hv', shiftLeft_mod_eq hv' (by omega), or_shiftLeft hval]
  | k + 1, v, shift, val, rest, hval, hv, hv63, hs => by
    rw [varintEncodeLoop]
    split
    · rename_i hv128
      -- a continuation byte means that the value reaches into the next group
      have hs' : shift ≤ 7 := by
        by_contra hc
        have : 2 ^ (63 - 7 * shift) ≤ 2 ^ 7 := Nat.pow_le_pow_right (by norm_num) (by omega)
        omega
      have hmod : (128 + v % 128) % 128 = v % 128 := by omega
      have hlt := add_mul_lt hval (show v % 128 < 2 ^ 7 by omega)
      have hnext := shiftRight_lt_two_pow (k := 63 - 7 * (shift + 1)) (v := v)
        (by rwa [show 63 - 7 * (shift + 1) + 7 = 63 - 7 * shift by omega])
      rw [List.cons_append, varintDecodeSlow, if_neg (continuation_not_lt v), toNat_continuation,
        and_7f, hmod, shiftLeft_mod_eq (by omega) (by omega), or_shiftLeft hval,
        show 7 * shift + 7 = 7 * (shift + 1) from rfl,
        varintDecodeSlow_encode k _ _ _ rest hlt (shiftRight_lt_two_pow hv) hnext (by omega),
        Nat.mul_succ, add_groups]
    · rename_i hv128
      have hv' : v < 128 := by omega
      rw [List.singleton_append, varintDecodeSlow, if_pos (last_lt hv'), toNat_last hv',
        shiftLeft_mod_eq hv' (by omega), or_shiftLeft hval]

theorem lt_length_varintEncodeLoop : ∀ {j k v : Nat}, j ≤ k → 2 ^ (7 * j) ≤ v →
    j < (varintEncodeLoop k v).length
  | 0, 0, v, _, _ => by simp [varintEncodeLoop]
  | 0, k + 1, v, _, _ => by
    rw [varintEncodeLoop]
    split <;> simp
  | j + 1, 0, v, hjk, _ => by omega
  | j + 1, k + 1, v, hjk, hv => by
    have hpow : 2 ^ (7 * (j + 1)) = 2 ^ (7 * j) * 128 := by
      rw [Nat.mul_succ, Nat.pow_add]
    have h1 : 0 < 2 ^ (7 * j) := by positivity
    have hnext : 2 ^ (7 * j) ≤ v >>> 7 := by
      rw [Nat.shiftRight_eq_div_pow, Nat.le_div_iff_mul_le (by positivity)]
      omega
    have ih := lt_length_varintEncodeLoop (show j ≤ k by omega) hnext
    rw [varintEncodeLoop, if_pos (by omega), List.length_cons]
    omega

/-- **Round trip**: every 64-bit value is read back, whatever follows. -/
theorem varintDecode_reads {v : Nat} (h : v < 2 ^ 64) :
    Reads varintDecode (varintEncode v) v := by
  intro rest
  unfold varintDecode varintEncode
  split
  · rw [varintDecodeFast_encode 9 v 0 0 rest (by norm_num) (by simpa using h)]
    simp
  · rename_i hlen
    have hv : v < 2 ^ 63 := by
      by_contra hc
      have := lt_length_varintEncodeLoop (j := 9) (k := 9) le_rfl (Nat.not_lt.1 hc)
      simp only [List.length_append] at hlen
      omega
    rw [varintDecodeSlow_encode 9 v 0 0 rest (by norm_num) (by norm_num; omega) hv (by norm_num)]
    simp

theorem varintDecodeFast_local : ∀ (n shift val : Nat), Local (varintDecodeFast n shift val)
  | 0, _, _ => Local.throw _
  | n + 1, shift, val => by
    rw [varintDecodeFast]
    exact (Local.popByte _).bind fun b =>
      Local.ite (Local.pure _) (varintDecodeFast_local n _ _)

theorem varintDecodeSlow_local : ∀ {s s' : List UInt8} {shift val v : Nat},
    varintDecodeSlow s shift val = .ok (v, s') →
    s' <:+ s ∧ ∀ more, varintDecodeSlow (s ++ more) shift val = .ok (v, s' ++ more)
  | [], _, _, _, _, h => by cases h
  | b :: bs, s', shift, val, v, h => by
    rw [varintDecodeSlow] at h
    split at h
    · rename_i hb
      obtain ⟨rfl, rfl⟩ := Prod.mk.inj (Except.ok.inj h)
      exact ⟨List.suffix_cons _ _, fun more => by rw [List.cons_append, varintDecodeSlow, if_pos hb]⟩
    · rename_i hb
      obtain ⟨hs, hext⟩ := varintDecodeSlow_local h
      refine ⟨hs.trans (List.suffix_cons _ _), fun more => ?_⟩
      rw [List.cons_append, varintDecodeSlow, if_neg hb, hext more]

theorem varintDecodeFast_of_slow : ∀ {s s' : List UInt8} {n shift val v : Nat},
    s.length < n → shift + 7 * n ≤ 70 → varintDecodeSlow s shift val = .ok (v, s') →
    ∀ more, varintDecodeFast n shift val (s ++ more) = .ok (v, s' ++ more)
  | [], _, _, _, _, _, _, _, h, _ => by cases h
  | b :: bs, s', 0, shift, val, v, hn, hs, h, more => by simp at hn
  | b :: bs, s', n + 1, shift, val, v, hn, hs, h, more => by
    have hn' : bs.length + 1 < n + 1 := hn
    rw [varintDecodeSlow] at h
    rw [List.cons_append, varintDecodeFast_cons, if_neg (show n ≠ 0 by omega)]
    split at h
    · rename_i hb
      have hb' : b.toNat < 128 := UInt8.lt_iff_toNat_lt.1 hb
      rw [shiftLeft_mod_eq hb' (by omega)] at h
      obtain ⟨rfl, rfl⟩ := Prod.mk.inj (Except.ok.inj h)
      rw [if_pos hb, and_7f, Nat.mod_eq_of_lt hb']
    · rename_i hb
      rw [and_7f, shiftLeft_mod_eq (Nat.mod_lt _ (by norm_num)) (by omega)] at h
      rw [if_neg hb, and_7f, varintDecodeFast_of_slow (by omega) (by omega) h more]

/-- **Locality**: bytes after the varint play no role, even where they change the branch. -/
theorem varintDecode_local : Local varintDecode := by
  intro s v s' h
  unfold varintDecode at h ⊢
  split at h
  · rename_i hlen
    obtain ⟨hs, hext⟩ := varintDecodeFast_local 10 0 0 s v s' h
    refine ⟨hs, fun more => ?_⟩
    rw [if_pos (by simp; omega), hext more]
  · rename_i hlen
    obtain ⟨hs, hext⟩ := varintDecodeSlow_local h
    refine ⟨hs, fun more => ?_⟩
    split
    · exact varintDecodeFast_of_slow (by omega) (by omega) h more
    · exact hext more

theorem varintDecodeFast_lt : ∀ {n shift val v : Nat} {s s' : List UInt8},
    val < 2 ^ shift → shift + 7 * n = 70 → varintDecodeFast n shift val s = .ok (v, s') →
    v < 2 ^ 64 ∧ s'.length < s.length
  | 0, _, _, _, _, _, _, _, h => by cases h
  | n + 1, _, _, _, [], _, _, _, h => by cases h
  | n + 1, shift, val, v, b :: bs, s', hval, hs, h => by
    have hnew : val ||| (b.toNat &&& (if n = 0 then 0x01 else 0x7f)) <<< shift <
        2 ^ (if n = 0 then 64 else shift + 7) := by
      rw [or_shiftLeft hval]
      split
      · rename_i hn
        have hshift : shift = 63 := by omega
        rw [hshift] at hval ⊢
        exact add_mul_lt (w := 1) hval (by rw [Nat.and_one_is_mod]; omega)
      · exact add_mul_lt (w := 7) hval (by rw [and_7f]; omega)
    rw [varintDecodeFast_cons] at h
    split at h
    · obtain ⟨rfl, rfl⟩ := Prod.mk.inj (Except.ok.inj h)
      refine ⟨hnew.trans_le (Nat.pow_le_pow_right (by norm_num) ?_), by simp⟩
      split <;> omega
    · cases n with
      | zero => cases h
      | succ n =>
        simp only [Nat.succ_ne_zero, if_false] at hnew h
        have ih := varintDecodeFast_lt hnew (by omega) h
        exact ⟨ih.1, by simp; omega⟩

theorem varintDecodeSlow_lt : ∀ {s s' : List UInt8} {shift val v : Nat},
    val < 2 ^ 64 → varintDecodeSlow s shift val = .ok (v, s') →
    v < 2 ^ 64 ∧ s'.length < s.length
  | [], _, _, _, _, _, h => by cases h
  | b :: bs, s', shift, val, v, hval, h => by
    have hnew : ∀ x, val ||| (x <<< shift) % 2 ^ 64 < 2 ^ 64 := fun x =>
      Nat.or_lt_two_pow hval (Nat.mod_lt _ (by norm_num))
    rw [varintDecodeSlow] at h
    split at h
    · obtain ⟨rfl, rfl⟩ := Prod.mk.inj (Except.ok.inj h)
      exact ⟨hnew _, by simp⟩
    · have ih := varintDecodeSlow_lt (hnew _) h
      exact ⟨ih.1, by simp; omega⟩

theorem varintDecode_bounds {s s' : List UInt8} {v : Nat} (h : varintDecode s = .ok (v, s')) :
    v < 2 ^ 64 ∧ s'.length < s.length := by
  unfold varintDecode at h
  split at h
  · exact varintDecodeFast_lt (by norm_num) (by norm_num) h
  · exact varintDecodeSlow_lt (by norm_num) h

end OpenZL.Shared
