import OpenZL.Lib.LittleEndian
import Mathlib.Tactic.IntervalCases
import Mathlib.Tactic.Ring

/-!
# Bit deposit and extract, and vector registers

`pext` gathers the bits of a number at the positions of a mask, `pdep` spreads bits out to them.

Principal results: `pext_byteMask`, `pdep_byteMask`, `Simd.lanes_ofLanes`, `Simd.loadu_ofLanes`.
-/

namespace OpenZL.Lib

variable {w : Nat}

/-- Gather the bits of `x` at the given positions. -/
def pextList : List Nat → Nat → Nat
  | [], _ => 0
  | i :: is, x => (x.testBit i).toNat + 2 * pextList is x

/-- Spread the low bits of `x` out to the given positions. -/
def pdepList : List Nat → Nat → Nat
  | [], _ => 0
  | i :: is, x => 2 ^ i * (x % 2) + pdepList is (x / 2)

/-- The positions of the bits of a 64-bit mask. -/
def maskPositions (mask : Nat) : List Nat := (List.range 64).filter mask.testBit

/-- `_pext_u64` -/
def pext (x mask : Nat) : Nat := pextList (maskPositions mask) x

/-- `_pdep_u64` -/
def pdep (x mask : Nat) : Nat := pdepList (maskPositions mask) x

/-- The low `w` bits of `n` lanes of `L` bits, from `base` on. -/
def lanePositions (L w : Nat) : Nat → Nat → List Nat
  | _, 0 => []
  | base, n + 1 => List.range' base w ++ lanePositions L w (base + L) n

theorem pextList_range' (base w : Nat) (rest : List Nat) (x : Nat) :
    pextList (List.range' base w ++ rest) x = x / 2 ^ base % 2 ^ w + 2 ^ w * pextList rest x := by
  induction w generalizing base with
  | zero => simp [Nat.mod_one]
  | succ w ih =>
    have hbit : (x.testBit base).toNat = x / 2 ^ base % 2 := by
      rw [Nat.testBit_eq_decide_div_mod_eq]
      rcases Nat.mod_two_eq_zero_or_one (x / 2 ^ base) with h | h <;> simp [h]
    rw [List.range'_succ, List.cons_append, pextList, ih, hbit, Nat.pow_succ 2 base,
      ← Nat.div_div_eq_div_mul, Nat.pow_succ', Nat.mod_mul]
    ring

theorem pdepList_range' (base w : Nat) (rest : List Nat) (x : Nat) :
    pdepList (List.range' base w ++ rest) x =
      2 ^ base * (x % 2 ^ w) + pdepList rest (x / 2 ^ w) := by
  induction w generalizing base x with
  | zero => simp [Nat.mod_one]
  | succ w ih =>
    rw [List.range'_succ, List.cons_append, pdepList, ih, Nat.pow_succ' (m := 2) (n := w),
      Nat.mod_mul, ← Nat.div_div_eq_div_mul, Nat.pow_succ]
    ring

theorem pextList_lanePositions {L w : Nat} (hw : w ≤ L) (base n x : Nat) :
    pextList (lanePositions L w base n) x =
      Nat.ofDigits (2 ^ w) ((fields L n (x / 2 ^ base)).map (· % 2 ^ w)) := by
  induction n generalizing base with
  | zero => rfl
  | succ n ih =>
    rw [lanePositions, pextList_range', ih, fields, List.map_cons, Nat.ofDigits_cons,
      Nat.mod_mod_of_dvd _ (Nat.pow_dvd_pow 2 hw), Nat.div_div_eq_div_mul, ← Nat.pow_add]

theorem pdepList_lanePositions (L w base n x : Nat) :
    pdepList (lanePositions L w base n) x = 2 ^ base * Nat.ofDigits (2 ^ L) (fields w n x) := by
  induction n generalizing base x with
  | zero => simp [lanePositions, pdepList, fields]
  | succ n ih =>
    rw [lanePositions, pdepList_range', ih, fields, Nat.ofDigits_cons, Nat.pow_add]
    ring

/-- The mask of the low `w` bits of each byte. -/
def byteMask (w : Nat) : Nat := (2 ^ w - 1) * 0x0101010101010101

/-- The mask of the low `w` bits of each 16-bit lane. -/
def wordMask (w : Nat) : Nat := (2 ^ w - 1) * 0x0001000100010001

theorem maskPositions_byteMask (hw : w ≤ 8) :
    maskPositions (byteMask w) = lanePositions 8 w 0 8 := by
  interval_cases w <;> decide

theorem maskPositions_wordMask (hw : w ≤ 16) :
    maskPositions (wordMask w) = lanePositions 16 w 0 4 := by
  interval_cases w <;> decide

theorem map_mod_fields {L w : Nat} {es : List Nat} (hL : ∀ e ∈ es, e < 2 ^ L)
    (hw : ∀ e ∈ es, e < 2 ^ w) :
    (fields L es.length (Nat.ofDigits (2 ^ L) es)).map (· % 2 ^ w) = es := by
  rw [fields_ofDigits hL]
  conv_rhs => rw [← List.map_id es]
  exact List.map_congr_left fun e he => Nat.mod_eq_of_lt (hw e he)

theorem lt_two_pow_of_le {w L : Nat} {es : List Nat} (hw : w ≤ L) (h : ∀ e ∈ es, e < 2 ^ w) :
    ∀ e ∈ es, e < 2 ^ L :=
  fun e he => (h e he).trans_le (Nat.pow_le_pow_right Nat.two_pos hw)

theorem pext_byteMask {es : List Nat} (hw : w ≤ 8) (hlen : es.length = 8)
    (h : ∀ e ∈ es, e < 2 ^ w) :
    pext (Nat.ofDigits (2 ^ 8) es) (byteMask w) = Nat.ofDigits (2 ^ w) es := by
  have hfields := map_mod_fields (lt_two_pow_of_le hw h) h
  rw [hlen] at hfields
  rw [pext, maskPositions_byteMask hw, pextList_lanePositions hw, Nat.pow_zero, Nat.div_one,
    hfields]

theorem pext_wordMask {es : List Nat} (hw : w ≤ 16) (hlen : es.length = 4)
    (h : ∀ e ∈ es, e < 2 ^ w) :
    pext (Nat.ofDigits (2 ^ 16) es) (wordMask w) = Nat.ofDigits (2 ^ w) es := by
  have hfields := map_mod_fields (lt_two_pow_of_le hw h) h
  rw [hlen] at hfields
  rw [pext, maskPositions_wordMask hw, pextList_lanePositions hw, Nat.pow_zero, Nat.div_one,
    hfields]

theorem pdep_byteMask (hw : w ≤ 8) (x : Nat) :
    pdep x (byteMask w) = Nat.ofDigits (2 ^ 8) (fields w 8 x) := by
  rw [pdep, maskPositions_byteMask hw, pdepList_lanePositions, Nat.pow_zero, Nat.one_mul]

theorem pdep_wordMask (hw : w ≤ 16) (x : Nat) :
    pdep x (wordMask w) = Nat.ofDigits (2 ^ 16) (fields w 4 x) := by
  rw [pdep, maskPositions_wordMask hw, pdepList_lanePositions, Nat.pow_zero, Nat.one_mul]

namespace Simd

/-- The lanes of `k` bytes of a register. -/
def lanes (k n : Nat) (v : List UInt8) : List Nat := fields (8 * k) n (ofLE v)

/-- The register of the given lanes. -/
def ofLanes (k : Nat) (xs : List Nat) : List UInt8 := xs.flatMap (toLE k)

/-- `_mm_loadu_si128`, `_mm256_loadu_si256`: `n` bytes of memory at an offset. -/
def loadu (mem : List UInt8) (off n : Nat) : List UInt8 := (mem.drop off).take n

/-- A signed number of `2 * k` bytes, saturated to an unsigned one of `k` bytes. -/
def saturate (k x : Nat) : Nat := if 2 ^ (16 * k - 1) ≤ x then 0 else min x (2 ^ (8 * k) - 1)

/-- `_mm_packus_epi16` for `k = 1`, `_mm_packus_epi32` for `k = 2`. -/
def packus (k : Nat) (a b : List UInt8) : List UInt8 :=
  ofLanes k ((lanes (2 * k) (8 / k) a ++ lanes (2 * k) (8 / k) b).map (saturate k))

/-- `_mm256_castsi256_si128` -/
def castsi256 (v : List UInt8) : List UInt8 := v.take 16

/-- `_mm_srli_si128` -/
def srli (v : List UInt8) (n : Nat) : List UInt8 := v.drop n ++ List.replicate n 0

/-- `_mm256_cvtepu8_epi16` and its kind: the `n` lowest lanes of `k` bytes, in lanes of `k'`. -/
def cvtepu (k k' n : Nat) (v : List UInt8) : List UInt8 := ofLanes k' (lanes k n v)

variable {k : Nat} {xs ys : List Nat}

theorem length_ofLanes (k : Nat) (xs : List Nat) : (ofLanes k xs).length = k * xs.length := by
  induction xs with
  | nil => simp [ofLanes]
  | cons x xs ih =>
    rw [ofLanes] at ih ⊢
    rw [List.flatMap_cons, List.length_append, length_toLE, ih, List.length_cons, Nat.mul_succ]
    omega

theorem ofLanes_append (k : Nat) (xs ys : List Nat) :
    ofLanes k (xs ++ ys) = ofLanes k xs ++ ofLanes k ys := List.flatMap_append

theorem ofLE_ofLanes (h : ∀ x ∈ xs, x < 2 ^ (8 * k)) :
    ofLE (ofLanes k xs) = Nat.ofDigits (2 ^ (8 * k)) xs := by
  induction xs with
  | nil => rfl
  | cons x xs ih =>
    have hx : x < 256 ^ k := by
      rw [pow256]
      exact h x List.mem_cons_self
    rw [ofLanes] at ih ⊢
    rw [List.flatMap_cons, ofLE_append, length_toLE, ofLE_toLE, Nat.mod_eq_of_lt hx,
      ih fun y hy => h y (List.mem_cons_of_mem _ hy), Nat.ofDigits_cons, pow256]

theorem pext_ofLanes_one (hw : w ≤ 8) (hlen : xs.length = 8) (h : ∀ x ∈ xs, x < 2 ^ w) :
    pext (ofLE (ofLanes 1 xs)) (byteMask w) = Nat.ofDigits (2 ^ w) xs := by
  rw [ofLE_ofLanes (lt_two_pow_of_le (by omega) h)]
  exact pext_byteMask hw hlen h

theorem pext_ofLanes_two (hw : w ≤ 16) (hlen : xs.length = 4) (h : ∀ x ∈ xs, x < 2 ^ w) :
    pext (ofLE (ofLanes 2 xs)) (wordMask w) = Nat.ofDigits (2 ^ w) xs := by
  rw [ofLE_ofLanes (lt_two_pow_of_le (by omega) h)]
  exact pext_wordMask hw hlen h

theorem lanes_ofLanes (h : ∀ x ∈ xs, x < 2 ^ (8 * k)) :
    lanes k xs.length (ofLanes k xs) = xs := by
  rw [lanes, ofLE_ofLanes h, fields_ofDigits h]

theorem loadu_ofLanes (k : Nat) (xs : List Nat) (i n : Nat) :
    loadu (ofLanes k xs) (k * i) (k * n) = ofLanes k ((xs.drop i).take n) := by
  have hsplit : ∀ (ys : List Nat) (j : Nat), j ≤ ys.length →
      (ofLanes k ys).drop (k * j) = ofLanes k (ys.drop j) ∧
        (ofLanes k ys).take (k * j) = ofLanes k (ys.take j) := by
    intro ys j hj
    have hlen : (ofLanes k (ys.take j)).length = k * j := by
      rw [length_ofLanes, List.length_take, Nat.min_eq_left hj]
    rw [← List.take_append_drop j ys, ofLanes_append, List.take_append_drop]
    exact ⟨List.drop_left' hlen, List.take_left' hlen⟩
  rw [loadu]
  by_cases hi : i ≤ xs.length
  · rw [(hsplit xs i hi).1]
    by_cases hn : n ≤ (xs.drop i).length
    · exact (hsplit _ n hn).2
    · rw [List.take_of_length_le, List.take_of_length_le (by omega)]
      rw [length_ofLanes]
      exact Nat.mul_le_mul_left k (by omega)
  · have hdrop : xs.drop i = [] := List.drop_eq_nil_of_le (by omega)
    have hbytes : (ofLanes k xs).drop (k * i) = [] := by
      apply List.drop_eq_nil_of_le
      rw [length_ofLanes]
      exact Nat.mul_le_mul_left k (by omega)
    rw [hdrop, hbytes, List.take_nil, List.take_nil]
    rfl

theorem saturate_of_lt {x : Nat} (hk : 0 < k) (h : x < 2 ^ (8 * k)) : saturate k x = x := by
  have hpow : 2 ^ (8 * k) ≤ 2 ^ (16 * k - 1) := Nat.pow_le_pow_right Nat.two_pos (by omega)
  rw [saturate, if_neg (by omega), Nat.min_eq_left (by omega)]

theorem packus_ofLanes (hk : 0 < k) (hxs : ∀ x ∈ xs, x < 2 ^ (8 * k))
    (hys : ∀ y ∈ ys, y < 2 ^ (8 * k)) (hlen : xs.length = 8 / k) (hlen' : ys.length = 8 / k) :
    packus k (ofLanes (2 * k) xs) (ofLanes (2 * k) ys) = ofLanes k (xs ++ ys) := by
  have hpow : 8 * k ≤ 8 * (2 * k) := by omega
  rw [packus]
  nth_rewrite 1 [← hlen]
  rw [← hlen', lanes_ofLanes (lt_two_pow_of_le hpow hxs), lanes_ofLanes (lt_two_pow_of_le hpow hys)]
  congr 1
  conv_rhs => rw [← List.map_id (xs ++ ys)]
  refine List.map_congr_left fun x hx => saturate_of_lt hk ?_
  rcases List.mem_append.1 hx with hx | hx
  · exact hxs x hx
  · exact hys x hx

theorem cvtepu_ofLanes {k' n : Nat} (hxs : ∀ x ∈ xs, x < 2 ^ (8 * k)) (hlen : xs.length = n) :
    cvtepu k k' n (ofLanes k xs) = ofLanes k' xs := by
  rw [cvtepu, ← hlen, lanes_ofLanes hxs]

end Simd

end OpenZL.Lib
