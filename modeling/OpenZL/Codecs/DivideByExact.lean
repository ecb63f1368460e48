import Mathlib.Data.List.TakeWhile
import Mathlib.Tactic.LinearCombination
import OpenZL.Codecs.DivideBy
import OpenZL.Lib.Result
import OpenZL.Shared.VarintLaws

/-!
# The divide-by codec is exact

The loop of the inverse keeps, with alternating signs, two remainders that are multiples of the
divisor modulo the word; they are coprime, so the last one is 1 and its factor is the inverse.

Principal results: `getMultiplicativeInverse_spec`; `firstIndexNotDivisibleBy_eq`; `toNat_gcdVec`;
`divideByEncode_eq`; `divideBy_exact`.
-/

namespace OpenZL.Codecs.DivideBy

open OpenZL.Lib OpenZL.Shared

variable {w : Nat}

/-! ## Inverses -/

/-- Between two rounds: both remainders are multiples of the divisor `d`, one of them with a
negative factor, and they are coprime. -/
structure Euclid (d : BitVec w) (s : InverseState w) : Prop where
  sign : s.sb = 1 ∧ s.y = s.ts * d ∧ s.x = -(s.tl * d) ∨
    s.sb = 0 ∧ s.y = -(s.ts * d) ∧ s.x = s.tl * d
  coprime : Nat.gcd s.y.toNat s.x.toNat = 1

theorem Euclid.step {d : BitVec w} {s : InverseState w} (h : Euclid d s) : Euclid d s.step := by
  rw [InverseState.step_eq]
  refine ⟨?_, ?_⟩
  · dsimp only
    rw [← sub_mul_div]
    rcases h.sign with ⟨hsb, hy, hx⟩ | ⟨hsb, hy, hx⟩
    · refine Or.inr ⟨by rw [hsb]; exact BitVec.xor_self, hx, ?_⟩
      linear_combination hy - s.y / s.x * hx
    · refine Or.inl ⟨by rw [hsb]; exact BitVec.zero_xor, hx, ?_⟩
      linear_combination hy - s.y / s.x * hx
  · dsimp only
    rw [BitVec.toNat_umod, Nat.gcd_comm, ← Nat.gcd_rec, Nat.gcd_comm]
    exact h.coprime

theorem inverseLoop_spec {d : BitVec w} (s : InverseState w) (h : Euclid d s) :
    Euclid d (inverseLoop s) ∧ (inverseLoop s).x = 0 := by
  induction s using inverseLoop.induct with
  | case1 s hx =>
      rw [inverseLoop, if_pos hx]
      exact ⟨h, hx⟩
  | case2 s hx ih =>
      rw [inverseLoop, if_neg hx]
      exact ih h.step

theorem one_toNat (hw : 0 < w) : (1 : BitVec w).toNat = 1 := BitVec.toNat_one hw

theorem zero_toNat : (0 : BitVec w).toNat = 0 := BitVec.toNat_zero

theorem intMax_add_one : BitVec.intMax w + 1 + (BitVec.intMax w + 1) = 0 := by
  have htwo : BitVec.intMax w + 1 = BitVec.twoPow w (w - 1) := sub_add_cancel _ _
  rw [htwo]
  apply BitVec.eq_of_toNat_eq
  rw [BitVec.toNat_add, BitVec.toNat_twoPow, zero_toNat, ← Nat.add_mod, ← Nat.mul_two]
  cases w with
  | zero => rfl
  | succ w => rw [Nat.add_sub_cancel, ← Nat.pow_succ, Nat.mod_self]

theorem euclid_start (hw : 0 < w) {d : BitVec w} (hodd : d.toNat % 2 = 1) :
    Euclid d { x := BitVec.allOnes w - d * (BitVec.allOnes w / d) + 1, y := d, sb := 1, ts := 1,
               tl := BitVec.allOnes w / d } := by
  refine ⟨Or.inl ⟨rfl, (one_mul d).symm, ?_⟩, ?_⟩
  · dsimp only
    rw [← BitVec.neg_one_eq_allOnes, ← BitVec.ofNat_eq_ofNat]
    ring
  · dsimp only
    have hd : 0 < d.toNat := by omega
    have hmod := Nat.mod_lt (2 ^ w - 1) hd
    have hsplit := Nat.mod_add_div (2 ^ w - 1) d.toNat
    rw [sub_mul_div, BitVec.toNat_add, BitVec.toNat_umod, BitVec.toNat_allOnes, one_toNat hw,
      Nat.mod_eq_of_lt (by omega), ← Nat.gcd_add_mul_left_right _ _ ((2 ^ w - 1) / d.toNat),
      Nat.add_right_comm, hsplit, Nat.sub_add_cancel (by omega)]
    exact coprime_two_pow_of_odd w hodd

/-- **The inverse** of the odd part of the divisor. -/
theorem getMultiplicativeInverse_spec {divisor : BitVec w} (hd : divisor ≠ 0) :
    (getMultiplicativeInverse w divisor).1 = ctz w divisor.toNat ∧
      (getMultiplicativeInverse w divisor).2 * (divisor >>> ctz w divisor.toNat) = 1 := by
  have hne := toNat_ne_zero hd
  have hw : 0 < w := Nat.zero_lt_of_lt (ctz_lt hne divisor.isLt)
  have hodd := oddPart_odd hne divisor.isLt
  rw [oddPart, ← BitVec.toNat_ushiftRight] at hodd
  rw [getMultiplicativeInverse]
  dsimp only
  generalize divisor >>> ctz w divisor.toNat = d at hodd
  by_cases hone : d = 1
  · rw [if_pos hone, hone]
    exact ⟨rfl, mul_one 1⟩
  · rw [if_neg hone]
    obtain ⟨⟨hsign, hcoprime⟩, hzero⟩ := inverseLoop_spec _ (euclid_start hw hodd)
    generalize inverseLoop _ = s at hsign hcoprime hzero
    rw [hzero, zero_toNat, Nat.gcd_zero_right] at hcoprime
    have hy : s.y = 1 := BitVec.eq_of_toNat_eq (hcoprime.trans (one_toNat hw).symm)
    rcases hsign with ⟨hsb, hts, -⟩ | ⟨hsb, hts, -⟩
    · have hneg : s.sb ≠ 0 := by
        intro hsb0
        have := congrArg BitVec.toNat (hsb.symm.trans hsb0)
        rw [one_toNat hw, zero_toNat] at this
        exact absurd this (by decide)
      rw [if_neg hneg]
      exact ⟨rfl, hts.symm.trans hy⟩
    · rw [if_pos hsb]
      refine ⟨rfl, ?_⟩
      have := @intMax_add_one w
      linear_combination d * this + hy - hts

theorem toNat_inverse {divisor : BitVec w} (hd : divisor ≠ 0) :
    (getMultiplicativeInverse w divisor).2.toNat * oddPart w divisor.toNat % 2 ^ w = 1 % 2 ^ w := by
  have hinverse := congrArg BitVec.toNat (getMultiplicativeInverse_spec hd).2
  rwa [BitVec.toNat_mul, BitVec.toNat_ushiftRight] at hinverse

/-! ## Quotients -/

theorem quotient_of_int {divisor val : BitVec w} (hd : divisor ≠ 0)
    (hdvd : divisor.toNat ∣ val.toNat) :
    (BitVec.ofNat w ((val.toNat * (getMultiplicativeInverse w divisor).2.toNat) >>>
      (getMultiplicativeInverse w divisor).1)).toNat = val.toNat / divisor.toNat := by
  have hne := toNat_ne_zero hd
  obtain ⟨q, hq⟩ := hdvd
  rw [Nat.mul_comm] at hq
  have hquot : val.toNat / divisor.toNat = q := by
    rw [hq, Nat.mul_div_cancel _ (Nat.pos_of_ne_zero hne)]
  have hlt : q < 2 ^ w := hquot ▸ Nat.lt_of_le_of_lt (Nat.div_le_self _ _) val.isLt
  rw [hquot, BitVec.toNat_ofNat, (getMultiplicativeInverse_spec hd).1, hq]
  nth_rewrite 1 [← two_pow_mul_oddPart hne divisor.isLt]
  rw [mul_inverse_shiftRight_mod q _ (toNat_inverse hd), Nat.mod_eq_of_lt hlt]

theorem quotient_of_word {divisor val : BitVec w} (hd : divisor ≠ 0)
    (hdvd : divisor.toNat ∣ val.toNat) :
    ((val * (getMultiplicativeInverse w divisor).2) >>>
      (getMultiplicativeInverse w divisor).1).toNat = val.toNat / divisor.toNat := by
  have hne := toNat_ne_zero hd
  obtain ⟨q, hq⟩ := hdvd
  rw [Nat.mul_comm] at hq
  have hquot : val.toNat / divisor.toNat = q := by
    rw [hq, Nat.mul_div_cancel _ (Nat.pos_of_ne_zero hne)]
  have hlt : q * 2 ^ ctz w divisor.toNat < 2 ^ w := by
    refine Nat.lt_of_le_of_lt ?_ val.isLt
    rw [hq]
    refine Nat.mul_le_mul_left q ?_
    nth_rewrite 2 [← two_pow_mul_oddPart hne divisor.isLt]
    exact Nat.le_mul_of_pos_right _ (oddPart_pos hne divisor.isLt)
  rw [hquot, BitVec.toNat_ushiftRight, BitVec.toNat_mul, (getMultiplicativeInverse_spec hd).1, hq]
  nth_rewrite 1 [← two_pow_mul_oddPart hne divisor.isLt]
  exact mul_inverse_mod_shiftRight (toNat_inverse hd) hlt

theorem not_dvd_iff {d quotient val m : Nat} (hd : 0 < d) (hval : val < m)
    (hexact : d ∣ val → quotient = val / d) :
    quotient * d % m ≠ val ∨ (m - 1) / d < quotient ↔ ¬d ∣ val := by
  constructor
  · rintro h hdvd
    rw [hexact hdvd, Nat.div_mul_cancel hdvd, Nat.mod_eq_of_lt hval] at h
    have hle : val / d ≤ (m - 1) / d := Nat.div_le_div_right (by omega)
    rcases h with h | h
    · exact h rfl
    · omega
  · intro hdvd
    by_contra hcon
    rw [not_or, not_not, Nat.not_lt, Nat.le_div_iff_mul_le hd] at hcon
    rw [Nat.mod_eq_of_lt (by omega)] at hcon
    exact hdvd ⟨quotient, by rw [← hcon.1, Nat.mul_comm]⟩

theorem toNat_setWidth_divisor {divisor : BitVec 64} {v : Nat} (hlt : divisor.toNat < 2 ^ v) :
    (divisor.setWidth v).toNat = divisor.toNat := by
  rw [BitVec.toNat_setWidth, Nat.mod_eq_of_lt hlt]

theorem setWidth_divisor_ne_zero {divisor : BitVec 64} {v : Nat} (hd : divisor ≠ 0)
    (hlt : divisor.toNat < 2 ^ v) : divisor.setWidth v ≠ 0 := by
  intro hzero
  have := congrArg BitVec.toNat hzero
  rw [toNat_setWidth_divisor hlt, zero_toNat] at this
  exact toNat_ne_zero hd this

theorem notDivisible_iff {divisor div val overflow : BitVec w} (hd : divisor ≠ 0)
    (hoverflow : overflow.toNat = (2 ^ w - 1) / divisor.toNat)
    (hexact : divisor.toNat ∣ val.toNat → div.toNat = val.toNat / divisor.toNat) :
    div * divisor ≠ val ∨ overflow < div ↔ ¬divisor.toNat ∣ val.toNat := by
  rw [← not_dvd_iff (Nat.pos_of_ne_zero (toNat_ne_zero hd)) val.isLt hexact, ← BitVec.toNat_mul,
    BitVec.lt_def, hoverflow, ne_eq, ne_eq, BitVec.toNat_inj]

theorem toNat_overflow {divisor : BitVec 64} {v : Nat} (max : BitVec 64)
    (hmax : max.toNat = 2 ^ v - 1) :
    ((max / divisor).setWidth v).toNat = (2 ^ v - 1) / divisor.toNat := by
  have hle := Nat.div_le_self (2 ^ v - 1) divisor.toNat
  have hpos := Nat.two_pow_pos v
  rw [BitVec.toNat_setWidth, BitVec.toNat_udiv, hmax, Nat.mod_eq_of_lt (by omega)]

theorem quotient_of_short {divisor : BitVec 64} (hd : divisor ≠ 0) (hlt : divisor.toNat < 2 ^ 16)
    {val : BitVec 16} (hdvd : divisor.toNat ∣ val.toNat) :
    (((val.setWidth 32 * (getMultiplicativeInverse 32 (divisor.setWidth 32)).2) >>>
      (getMultiplicativeInverse 32 (divisor.setWidth 32)).1).setWidth 16).toNat =
      val.toNat / divisor.toNat := by
  have hlt' : divisor.toNat < 2 ^ 32 := hlt.trans (by decide)
  have hval : (val.setWidth 32).toNat = val.toNat := by
    rw [BitVec.toNat_setWidth, Nat.mod_eq_of_lt (val.isLt.trans (by decide))]
  have hquot := @quotient_of_word 32 (divisor.setWidth 32) (val.setWidth 32)
    (setWidth_divisor_ne_zero hd hlt') (by rwa [toNat_setWidth_divisor hlt', hval])
  rw [BitVec.toNat_setWidth, hquot, toNat_setWidth_divisor hlt', hval,
    Nat.mod_eq_of_lt (Nat.lt_of_le_of_lt (Nat.div_le_self _ _) val.isLt)]

theorem short_test (quotient overflow val : BitVec 16) (divisor : BitVec 64) :
    (quotient.setWidth 32 * divisor.setWidth 32).setWidth 16 ≠ val ∨
        overflow.setWidth 32 < quotient.setWidth 32 ↔
      quotient * divisor.setWidth 16 ≠ val ∨ overflow < quotient := by
  have hmul : (quotient.setWidth 32 * divisor.setWidth 32).setWidth 16 =
      quotient * divisor.setWidth 16 := by
    rw [BitVec.setWidth_mul _ _ (by decide), BitVec.setWidth_setWidth_of_le _ (by decide),
      BitVec.setWidth_setWidth_of_le _ (by decide), BitVec.setWidth_eq]
  have hord : overflow.setWidth 32 < quotient.setWidth 32 ↔ overflow < quotient := by
    rw [BitVec.lt_def, BitVec.lt_def, BitVec.toNat_setWidth_of_le (by decide),
      BitVec.toNat_setWidth_of_le (by decide)]
  rw [hmul, hord]

/-- **The first index** that is not divisible, for every width. -/
theorem firstIndexNotDivisibleBy_eq (intWidth : IntWidth w) (src : List (BitVec w))
    {divisor : BitVec 64} (hd : divisor ≠ 0) (hlt : divisor.toNat < 2 ^ w) :
    firstIndexNotDivisibleBy intWidth src divisor =
      src.findIdx fun val => ¬divisor.toNat ∣ val.toNat := by
  have hne := setWidth_divisor_ne_zero hd hlt
  have hto := toNat_setWidth_divisor hlt
  cases intWidth with
  | u8 =>
      rw [firstIndexNotDivisibleBy, firstIndexNotDivisibleBy8]
      dsimp only
      congr 1
      funext val
      rw [decide_eq_decide, ← hto]
      exact notDivisible_iff hne (by rw [hto]; exact toNat_overflow _ rfl) (quotient_of_int hne)
  | u16 =>
      rw [firstIndexNotDivisibleBy, firstIndexNotDivisibleBy16]
      dsimp only
      congr 1
      funext val
      rw [decide_eq_decide, getMultiplicativeInverse32]
      rw [short_test, ← hto]
      exact notDivisible_iff hne (by rw [hto]; exact toNat_overflow _ rfl)
        (by rw [hto]; exact quotient_of_short hd hlt)
  | u32 =>
      rw [firstIndexNotDivisibleBy, firstIndexNotDivisibleBy32]
      dsimp only
      congr 1
      funext val
      rw [decide_eq_decide, ← hto]
      exact notDivisible_iff hne (by rw [hto]; exact toNat_overflow _ rfl) (quotient_of_word hne)
  | u64 =>
      rw [firstIndexNotDivisibleBy, firstIndexNotDivisibleBy64]
      dsimp only
      congr 1
      funext val
      rw [decide_eq_decide]
      exact notDivisible_iff hd (BitVec.toNat_udiv) (quotient_of_word hd)

/-- **The encoder's kernel** writes the exact quotients of multiples. -/
theorem divideByEncode_eq (intWidth : IntWidth w) {src : List (BitVec w)} {divisor : BitVec 64}
    (hd : divisor ≠ 0) (hlt : divisor.toNat < 2 ^ w)
    (hdvd : ∀ val ∈ src, divisor.toNat ∣ val.toNat) :
    divideByEncode intWidth src divisor = src.map fun val => val / divisor.setWidth w := by
  have hne := setWidth_divisor_ne_zero hd hlt
  have hto := toNat_setWidth_divisor hlt
  cases intWidth with
  | u8 =>
      refine List.map_congr_left fun val hval => BitVec.eq_of_toNat_eq ?_
      rw [BitVec.toNat_udiv]
      exact quotient_of_int hne (by rw [hto]; exact hdvd val hval)
  | u16 =>
      refine List.map_congr_left fun val hval => BitVec.eq_of_toNat_eq ?_
      have hshort : (divisor.setWidth 16).setWidth 32 = divisor.setWidth 32 := by
        apply BitVec.eq_of_toNat_eq
        rw [BitVec.toNat_setWidth_of_le (by decide), hto,
          toNat_setWidth_divisor (hlt.trans (by decide))]
      rw [BitVec.toNat_udiv, hto, hshort]
      exact quotient_of_short hd hlt (hdvd val hval)
  | u32 =>
      refine List.map_congr_left fun val hval => BitVec.eq_of_toNat_eq ?_
      rw [BitVec.toNat_udiv]
      exact quotient_of_word hne (by rw [hto]; exact hdvd val hval)
  | u64 =>
      refine List.map_congr_left fun val hval => BitVec.eq_of_toNat_eq ?_
      rw [BitVec.toNat_udiv, hto]
      exact quotient_of_word hd (hdvd val hval)

/-! ## Divisors -/

theorem toNat_gcdLoop (a b : BitVec 64) (ha : a ≠ 0) (hb : b ≠ 0) (hodda : a.toNat % 2 = 1)
    (hoddb : b.toNat % 2 = 1) : (gcdLoop a b ha hb).toNat = Nat.gcd a.toNat b.toNat := by
  induction a, b, ha, hb using gcdLoop.induct with
  | case1 a ha hb =>
      rw [gcdLoop, dif_pos rfl, Nat.gcd_self]
  | case2 a b ha hb h hlt t ih =>
      have hne : t ≠ 0 := sub_ne_zero.2 (Ne.symm h)
      have ht : t.toNat = b.toNat - a.toNat := BitVec.toNat_sub_of_le (BitVec.le_of_lt hlt)
      have hodd : (shiftOutZeros t).toNat % 2 = 1 := by
        rw [toNat_shiftOutZeros]
        exact oddPart_odd (toNat_ne_zero hne) t.isLt
      rw [gcdLoop, dif_neg h, if_pos hlt]
      rw [ih hodda hodd, toNat_shiftOutZeros, ht, gcd_oddPart_sub hodda hlt b.isLt]
  | case3 a b ha hb h hlt t ih =>
      have hne : t ≠ 0 := sub_ne_zero.2 h
      have hle : b ≤ a := BitVec.not_lt.1 hlt
      have ht : t.toNat = a.toNat - b.toNat := BitVec.toNat_sub_of_le hle
      have hodd : (shiftOutZeros t).toNat % 2 = 1 := by
        rw [toNat_shiftOutZeros]
        exact oddPart_odd (toNat_ne_zero hne) t.isLt
      have hlt' : b.toNat < a.toNat :=
        Nat.lt_of_le_of_ne hle fun heq => h (BitVec.eq_of_toNat_eq heq.symm)
      rw [gcdLoop, dif_neg h, if_neg hlt]
      rw [ih hoddb hodd, toNat_shiftOutZeros, ht, gcd_oddPart_sub hoddb hlt' a.isLt, Nat.gcd_comm]

theorem toNat_gcdImpl_sorted (a b : BitVec 64) :
    (if hb : b = 0 then a
      else if ha : a % b = 0 then b
      else
        gcdLoop (shiftOutZeros (a % b)) (shiftOutZeros b) (shiftOutZeros_ne_zero ha)
            (shiftOutZeros_ne_zero hb) <<<
          (if ctz 64 (a % b).toNat < ctz 64 b.toNat then ctz 64 (a % b).toNat
            else ctz 64 b.toNat) : BitVec 64).toNat = Nat.gcd a.toNat b.toNat := by
  have hrec : Nat.gcd (a % b).toNat b.toNat = Nat.gcd a.toNat b.toNat := by
    rw [BitVec.toNat_umod, ← Nat.gcd_rec, Nat.gcd_comm]
  by_cases hb : b = 0
  · rw [dif_pos hb, hb, zero_toNat, Nat.gcd_zero_right]
  · rw [dif_neg hb]
    by_cases ha : a % b = 0
    · rw [dif_pos ha, ← hrec, ha, zero_toNat, Nat.gcd_zero_left]
    · rw [dif_neg ha]
      have hna := toNat_ne_zero ha
      have hnb := toNat_ne_zero hb
      have hodda := oddPart_odd hna (a % b).isLt
      have hoddb := oddPart_odd hnb b.isLt
      have hmin : (if ctz 64 (a % b).toNat < ctz 64 b.toNat then ctz 64 (a % b).toNat
          else ctz 64 b.toNat) = min (ctz 64 (a % b).toNat) (ctz 64 b.toNat) := by
        split <;> omega
      have hle := Nat.gcd_le_right a.toNat (Nat.pos_of_ne_zero hnb)
      rw [hmin, BitVec.toNat_shiftLeft, Nat.shiftLeft_eq,
        toNat_gcdLoop _ _ _ _ (by rwa [toNat_shiftOutZeros]) (by rwa [toNat_shiftOutZeros]),
        toNat_shiftOutZeros, toNat_shiftOutZeros, ← gcd_two_pow_mul _ _ hodda hoddb,
        two_pow_mul_oddPart hna (a % b).isLt, two_pow_mul_oddPart hnb b.isLt, hrec,
        Nat.mod_eq_of_lt (Nat.lt_of_le_of_lt hle b.isLt)]

theorem toNat_gcdImpl (a b : BitVec 64) : (gcdImpl a b).toNat = Nat.gcd a.toNat b.toNat := by
  rw [gcdImpl]
  by_cases hlt : a < b
  · rw [if_pos hlt, Nat.gcd_comm]
    exact toNat_gcdImpl_sorted b a
  · rw [if_neg hlt]
    exact toNat_gcdImpl_sorted a b

/-- The greatest common divisor of a list. -/
def gcdOf (src : List (BitVec w)) : Nat := (src.map BitVec.toNat).foldr Nat.gcd 0

theorem gcdOf_cons (val : BitVec w) (src : List (BitVec w)) :
    gcdOf (val :: src) = Nat.gcd val.toNat (gcdOf src) := rfl

theorem dvd_gcdOf {d : Nat} {src : List (BitVec w)} : d ∣ gcdOf src ↔ ∀ val ∈ src, d ∣ val.toNat := by
  induction src with
  | nil => exact iff_of_true (Nat.dvd_zero d) nofun
  | cons val src ih => rw [gcdOf_cons, Nat.dvd_gcd_iff, ih, List.forall_mem_cons]

theorem gcd_gcdOf_drop {g n : Nat} {src : List (BitVec w)}
    (h : ∀ val ∈ src.take n, g ∣ val.toNat) :
    Nat.gcd g (gcdOf (src.drop n)) = Nat.gcd g (gcdOf src) := by
  induction src generalizing n with
  | nil => rw [List.drop_nil]
  | cons val src ih =>
      cases n with
      | zero => rfl
      | succ n =>
          have hval := h val List.mem_cons_self
          rw [List.drop_succ_cons, ih fun v hv => h v (List.mem_cons_of_mem _ hv), gcdOf_cons,
            ← Nat.gcd_assoc, Nat.gcd_eq_left hval]

theorem dvd_of_mem_take {intWidth : IntWidth w} {src : List (BitVec w)} {divisor : BitVec 64}
    (hd : divisor ≠ 0) (hlt : divisor.toNat < 2 ^ w) :
    ∀ val ∈ src.take (firstIndexNotDivisibleBy intWidth src divisor), divisor.toNat ∣ val.toNat := by
  intro val hval
  rw [firstIndexNotDivisibleBy_eq intWidth src hd hlt] at hval
  obtain ⟨i, hi, rfl⟩ := List.mem_iff_getElem.1 hval
  rw [List.length_take] at hi
  rw [List.getElem_take]
  have := List.not_of_lt_findIdx (Nat.lt_of_lt_of_le hi (Nat.min_le_left _ _))
  simpa using this

theorem IntWidth.le (intWidth : IntWidth w) : w ≤ 64 := by cases intWidth <;> decide

theorem toNat_setWidth_val (intWidth : IntWidth w) (val : BitVec w) :
    (val.setWidth 64).toNat = val.toNat := BitVec.toNat_setWidth_of_le intWidth.le

theorem toNat_gcdVecLoop (intWidth : IntWidth w) (gcd : BitVec 64) (src : List (BitVec w))
    (hne : gcd ≠ 0) (hlt : gcd.toNat < 2 ^ w) :
    (gcdVecLoop intWidth gcd src).toNat = Nat.gcd gcd.toNat (gcdOf src) := by
  induction gcd, src using gcdVecLoop.induct intWidth with
  | case1 gcd src h =>
      rw [gcdVecLoop]
      split
      · rw [← gcd_gcdOf_drop (dvd_of_mem_take hne hlt), h]
        exact (Nat.gcd_zero_right _).symm
      · rename_i heq
        rw [h] at heq
        exact absurd heq nofun
  | case2 gcd src val rest h ih =>
      have hgcd := toNat_gcdImpl (val.setWidth 64) gcd
      rw [toNat_setWidth_val intWidth] at hgcd
      have hpos := Nat.pos_of_ne_zero (toNat_ne_zero hne)
      have hle := Nat.gcd_le_right val.toNat hpos
      have hne' : gcdImpl (val.setWidth 64) gcd ≠ 0 := by
        intro hzero
        rw [hzero, zero_toNat] at hgcd
        exact absurd hgcd.symm (Nat.gcd_pos_of_pos_right _ hpos).ne'
      rw [gcdVecLoop]
      split
      · rename_i heq
        rw [h] at heq
        exact absurd heq nofun
      · rename_i val' rest' heq
        rw [h] at heq
        obtain ⟨rfl, rfl⟩ := List.cons.inj heq
        rw [ih hne' (by omega), hgcd, ← gcd_gcdOf_drop (dvd_of_mem_take hne hlt), h, gcdOf_cons,
          ← Nat.gcd_assoc, Nat.gcd_comm val.toNat]

theorem gcdOf_dropWhile (src : List (BitVec w)) : gcdOf (src.dropWhile (· = 0)) = gcdOf src := by
  induction src with
  | nil => rfl
  | cons val src ih =>
      by_cases hval : val = 0
      · rw [List.dropWhile_cons_of_pos (by rw [hval]; exact decide_eq_true rfl), ih, gcdOf_cons,
          hval, zero_toNat, Nat.gcd_zero_left]
      · rw [List.dropWhile_cons_of_neg (by simpa using hval)]

/-- **`ZL_gcdVec`** returns the greatest common divisor, or 1 if there are fewer than two elements
or no other than zero. -/
theorem toNat_gcdVec (intWidth : IntWidth w) (src : List (BitVec w)) :
    (gcdVec intWidth src).toNat =
      if 2 ≤ src.length ∧ ∃ val ∈ src, val ≠ 0 then gcdOf src else 1 := by
  rw [gcdVec]
  by_cases hlen : src.length ≤ 1
  · rw [if_pos hlen, if_neg (by omega)]
    rfl
  · rw [if_neg hlen]
    have hgcd := gcdOf_dropWhile src
    cases hdrop : src.dropWhile (· = 0) with
    | nil =>
        rw [List.dropWhile_eq_nil_iff] at hdrop
        rw [if_neg]
        · rfl
        · rintro ⟨-, val, hmem, hne⟩
          exact hne (of_decide_eq_true (hdrop val hmem))
    | cons val rest =>
        have hne : val ≠ 0 := by
          have := List.head?_dropWhile_not (p := (· = 0)) (l := src)
          rw [hdrop] at this
          simpa using this
        have hmem : val ∈ src := List.dropWhile_subset _ (hdrop ▸ List.mem_cons_self)
        have hto := toNat_setWidth_val intWidth val
        have hne' : val.setWidth 64 ≠ 0 := by
          intro hzero
          rw [hzero, zero_toNat] at hto
          exact toNat_ne_zero hne hto.symm
        rw [if_pos ⟨by omega, val, hmem, hne⟩, ← hgcd, hdrop, gcdOf_cons]
        rw [toNat_gcdVecLoop intWidth _ _ hne' (by rw [hto]; exact val.isLt), hto]

theorem getDivisor_spec {intWidth : IntWidth w} {param divisor : BitVec 64} {src : List (BitVec w)}
    (h : getDivisor intWidth param src = .ok divisor) :
    divisor ≠ 0 ∧ divisor.toNat < 2 ^ w ∧ ∀ val ∈ src, divisor.toNat ∣ val.toNat := by
  have hw : 1 < 2 ^ w := by cases intWidth <;> decide
  rw [getDivisor] at h
  by_cases hzero : param = 0
  · rw [if_pos hzero] at h
    obtain rfl := Except.ok.inj h
    have hgcd := toNat_gcdVec intWidth src
    suffices hto : (gcdVec intWidth src).toNat ≠ 0 ∧ (gcdVec intWidth src).toNat < 2 ^ w ∧
        ∀ val ∈ src, (gcdVec intWidth src).toNat ∣ val.toNat from
      ⟨fun h0 => hto.1 (by rw [h0, zero_toNat]), hto.2⟩
    by_cases hcond : 2 ≤ src.length ∧ ∃ val ∈ src, val ≠ 0
    · rw [if_pos hcond] at hgcd
      obtain ⟨-, val, hmem, hne⟩ := hcond
      have hdvd := dvd_gcdOf.1 (Nat.dvd_refl (gcdOf src))
      have hval := Nat.pos_of_ne_zero (toNat_ne_zero hne)
      rw [hgcd]
      exact ⟨(Nat.pos_of_dvd_of_pos (hdvd val hmem) hval).ne',
        Nat.lt_of_le_of_lt (Nat.le_of_dvd hval (hdvd val hmem)) val.isLt, hdvd⟩
    · rw [if_neg hcond] at hgcd
      rw [hgcd]
      exact ⟨Nat.one_ne_zero, hw, fun val _ => Nat.one_dvd _⟩
  · rw [if_neg hzero] at h
    by_cases hlarge : param.toNat > 2 ^ w - 1
    · rw [if_pos hlarge] at h
      exact absurd h nofun
    · rw [if_neg hlarge] at h
      by_cases hfirst : firstIndexNotDivisibleBy intWidth src param ≠ src.length
      · rw [if_pos hfirst] at h
        exact absurd h nofun
      · rw [if_neg hfirst] at h
        obtain rfl := Except.ok.inj h
        have hlt : param.toNat < 2 ^ w := by omega
        have hall := @dvd_of_mem_take w intWidth src param hzero hlt
        rw [not_not.1 hfirst, List.take_length] at hall
        exact ⟨hzero, hlt, hall⟩

theorem toNat_findMax_le {bound : Nat} {array : List (BitVec w)}
    (h : ∀ val ∈ array, val.toNat ≤ bound) : (findMax array).toNat ≤ bound := by
  have hfold : ∀ (max : BitVec w) (array : List (BitVec w)), max.toNat ≤ bound →
      (∀ val ∈ array, val.toNat ≤ bound) →
      (array.foldl (fun max val => if max < val then val else max) max).toNat ≤ bound := by
    intro max array hmax harray
    induction array generalizing max with
    | nil => exact hmax
    | cons val array ih =>
        rw [List.forall_mem_cons] at harray
        refine ih _ ?_ harray.2
        dsimp only
        split
        · exact harray.1
        · exact hmax
  exact hfold 0 array (by rw [zero_toNat]; exact Nat.zero_le _) h

theorem DI_divide_by_int_quotients {divisor : BitVec 64} {src : List (BitVec w)} (hd : divisor ≠ 0)
    (hlt : divisor.toNat < 2 ^ w) (hdvd : ∀ val ∈ src, divisor.toNat ∣ val.toNat) :
    DI_divide_by_int (varintEncode divisor.toNat)
      (src.map fun val => val / divisor.setWidth w) = .ok src := by
  have hto := toNat_setWidth_divisor hlt
  have hread := varintDecode_reads divisor.isLt []
  rw [List.append_nil] at hread
  have hlen : (varintEncode divisor.toNat).length ≠ 0 := by
    rw [length_varintEncode divisor.isLt, varintSize_eq]
    omega
  have hmax : (findMax (src.map fun val => val / divisor.setWidth w)).toNat ≤
      (2 ^ w - 1) / divisor.toNat := by
    refine toNat_findMax_le fun quotient hq => ?_
    obtain ⟨val, -, rfl⟩ := List.mem_map.1 hq
    have := val.isLt
    rw [BitVec.toNat_udiv, hto]
    exact Nat.div_le_div_right (by omega)
  rw [DI_divide_by_int, if_neg hlen, hread, ok_bind]
  dsimp only
  rw [if_neg (toNat_ne_zero hd), if_neg (by omega), if_neg (by omega), divideByDecode, List.map_map]
  refine congrArg Except.ok ((List.map_congr_left fun val hval => ?_).trans (List.map_id src))
  apply BitVec.eq_of_toNat_eq
  rw [Function.comp_apply, BitVec.toNat_mul, BitVec.toNat_udiv, BitVec.ofNat_toNat,
    BitVec.setWidth_eq, hto, Nat.div_mul_cancel (hdvd val hval), Nat.mod_eq_of_lt val.isLt]
  rfl

/-- A shift and the inverse of the odd part that it leaves. -/
def InverseOf (divisor : BitVec w) (result : Nat × BitVec w) : Prop :=
  ∃ odd : BitVec w, odd.toNat % 2 = 1 ∧ divisor.toNat = 2 ^ result.1 * odd.toNat ∧
    result.2 * odd = 1

theorem inverseOf_getMultiplicativeInverse {divisor : BitVec w} (hd : divisor ≠ 0) :
    InverseOf divisor (getMultiplicativeInverse w divisor) := by
  have hne := toNat_ne_zero hd
  obtain ⟨hshift, hinverse⟩ := getMultiplicativeInverse_spec hd
  refine ⟨divisor >>> ctz w divisor.toNat, ?_, ?_, hinverse⟩
  · rw [BitVec.toNat_ushiftRight]
    exact oddPart_odd hne divisor.isLt
  · rw [hshift, BitVec.toNat_ushiftRight]
    exact (two_pow_mul_oddPart hne divisor.isLt).symm

/-- **The codec is exact**: the divisor is the greatest common divisor, the inverses are inverses,
the scan stops at the first element that is not a multiple, the quotients are those of the
division, and the decoder takes what the encoder sends and returns the array. -/
theorem divideBy_exact :
    (∀ (w : Nat) (intWidth : IntWidth w) (src : List (BitVec w)),
      (gcdVec intWidth src).toNat =
        if 2 ≤ src.length ∧ ∃ val ∈ src, val ≠ 0 then gcdOf src else 1) ∧
    (∀ divisor, divisor ≠ 0 → InverseOf divisor (getMultiplicativeInverse8 divisor)) ∧
    (∀ divisor, divisor ≠ 0 → InverseOf divisor (getMultiplicativeInverse32 divisor)) ∧
    (∀ divisor, divisor ≠ 0 → InverseOf divisor (getMultiplicativeInverse64 divisor)) ∧
    (∀ (w : Nat) (intWidth : IntWidth w) (src : List (BitVec w)) (divisor : BitVec 64),
      divisor ≠ 0 → divisor.toNat < 2 ^ w →
      firstIndexNotDivisibleBy intWidth src divisor =
        src.findIdx fun val => ¬divisor.toNat ∣ val.toNat) ∧
    (∀ (w : Nat) (intWidth : IntWidth w) (src : List (BitVec w)) (divisor : BitVec 64),
      divisor ≠ 0 → divisor.toNat < 2 ^ w → (∀ val ∈ src, divisor.toNat ∣ val.toNat) →
      divideByEncode intWidth src divisor = src.map fun val => val / divisor.setWidth w) ∧
    ∀ (w : Nat) (intWidth : IntWidth w) (div : Option DivideByParam) (src : List (BitVec w))
      (header : List UInt8) (quotients : List (BitVec w)),
      EI_divide_by_int intWidth div src = .ok (header, quotients) →
      DI_divide_by_int header quotients = .ok src := by
  refine ⟨fun w intWidth src => toNat_gcdVec intWidth src,
    fun divisor hd => inverseOf_getMultiplicativeInverse hd,
    fun divisor hd => inverseOf_getMultiplicativeInverse hd,
    fun divisor hd => inverseOf_getMultiplicativeInverse hd,
    fun w intWidth src divisor hd hlt => firstIndexNotDivisibleBy_eq intWidth src hd hlt,
    fun w intWidth src divisor hd hlt hdvd => divideByEncode_eq intWidth hd hlt hdvd, ?_⟩
  intro w intWidth div src header quotients h
  rw [EI_divide_by_int] at h
  obtain ⟨param, -, h⟩ := bind_eq_ok.1 h
  obtain ⟨divisor, hdivisor, h⟩ := bind_eq_ok.1 h
  obtain ⟨rfl, rfl⟩ := Prod.mk.inj (Except.ok.inj h)
  obtain ⟨hd, hlt, hdvd⟩ := getDivisor_spec hdivisor
  rw [divideByEncode_eq intWidth hd hlt hdvd]
  exact DI_divide_by_int_quotients hd hlt hdvd

theorem divideBy_exact_bytes :
    (gcdVec .u8 [12, 18]).toNat = 6 ∧ InverseOf 6 (getMultiplicativeInverse8 6) ∧
      InverseOf 6 (getMultiplicativeInverse32 6) ∧ InverseOf 6 (getMultiplicativeInverse64 6) ∧
      firstIndexNotDivisibleBy .u8 [12, 7] 6 = 1 ∧ divideByEncode .u8 [12, 18] 6 = [2, 3] ∧
      DI_divide_by_int [6] ([2, 3] : List (BitVec 8)) = .ok [12, 18] := by
  obtain ⟨hgcd, h8, h32, h64, hfirst, hencode, hdecode⟩ := divideBy_exact
  have hquot := hencode 8 .u8 [12, 18] 6 (by decide) (by decide) (by decide)
  have hall := hfirst 8 .u8 [12, 18] 6 (by decide) (by decide)
  refine ⟨(hgcd 8 .u8 [12, 18]).trans (by decide), h8 6 (by decide), h32 6 (by decide),
    h64 6 (by decide), (hfirst 8 .u8 [12, 7] 6 (by decide) (by decide)).trans (by decide),
    hquot.trans (by decide), hdecode 8 .u8 (some ⟨8, 6⟩) [12, 18] [6] [2, 3] ?_⟩
  have hdivisor : getDivisor .u8 6 [12, 18] = .ok 6 := by
    rw [getDivisor, if_neg (by decide), if_neg (by decide), if_neg (by rw [hall]; decide)]
  have hparam : divParamOf (some ⟨8, 6⟩) = .ok 6 := rfl
  rw [EI_divide_by_int, hparam, ok_bind, hdivisor, ok_bind, hquot]
  rfl

end OpenZL.Codecs.DivideBy
