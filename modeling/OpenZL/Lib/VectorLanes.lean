import OpenZL.Lib.BitStreams
import OpenZL.Lib.Intrinsics
import OpenZL.Lib.Shuffles

/-!
# Lanes of vector registers

More instructions on registers as lists of bytes: lane by lane arithmetic, byte shuffles, and masks
of comparisons.

Principal results: `Simd.lanewise_ofLanes`, `Simd.pshufb_lanes`, `Simd.movemaskEpi8_flags`.
-/

namespace OpenZL.Lib.Simd

open Shuffles

/-- An operation on each pair of lanes of `k` bytes. -/
def lanewise (k : Nat) (f : Nat → Nat → Nat) (a b : List UInt8) : List UInt8 :=
  ofLanes k (List.zipWith f (lanes k (a.length / k) a) (lanes k (b.length / k) b))

/-- `_mm_add_epi16` -/
def addEpi16 : List UInt8 → List UInt8 → List UInt8 := lanewise 2 fun x y => (x + y) % 2 ^ 16

/-- `_mm256_sub_epi16` -/
def subEpi16 : List UInt8 → List UInt8 → List UInt8 :=
  lanewise 2 fun x y => (x + 2 ^ 16 - y) % 2 ^ 16

/-- `_mm256_subs_epu16` -/
def subsEpu16 : List UInt8 → List UInt8 → List UInt8 := lanewise 2 fun x y => x - y

/-- `_mm256_cmpeq_epi16` -/
def cmpeqEpi16 : List UInt8 → List UInt8 → List UInt8 :=
  lanewise 2 fun x y => if x = y then 2 ^ 16 - 1 else 0

/-- `_mm_cmpeq_epi8` -/
def cmpeqEpi8 (a b : List UInt8) : List UInt8 :=
  List.zipWith (fun x y => if x = y then 0xff else 0) a b

/-- `_mm_and_si128` -/
def andSi (a b : List UInt8) : List UInt8 := List.zipWith (· &&& ·) a b

/-- `_mm256_srl_epi32` -/
def srlEpi32 (v : List UInt8) (count : Nat) : List UInt8 :=
  ofLanes 4 ((lanes 4 (v.length / 4) v).map (· >>> count))

/-- A comparison of two lanes, in each byte. -/
def flagByte (b : Bool) : UInt8 := if b then 0xff else 0

/-- `_mm_set1_epi8`, `_mm256_set1_epi8`: a register of `n` bytes. -/
def set1Epi8 (n : Nat) (x : UInt8) : List UInt8 := List.replicate n x

/-- `_mm_cmpgt_epi8`, `_mm256_cmpgt_epi8` -/
def cmpgtEpi8 (a b : List UInt8) : List UInt8 :=
  List.zipWith (fun x y => flagByte (x.toInt8 > y.toInt8)) a b

/-- `_mm_shuffle_epi8`, with the indices in a register. -/
def pshufb (v idx : List UInt8) : List UInt8 := shuffle128 v (idx.map UInt8.toNat)

/-- `_mm256_shuffle_epi8`, with the indices in a register. -/
def pshufb256 (v idx : List UInt8) : List UInt8 := shuffle256 v (idx.map UInt8.toNat)

/-- `_mm_movemask_epi8` -/
def movemaskEpi8 (v : List UInt8) : Nat := ofBits (v.map fun b => b.toNat.testBit 7)

/-- The lanes of two registers in turn. -/
def interleave : List Nat → List Nat → List Nat
  | x :: xs, y :: ys => x :: y :: interleave xs ys
  | _, _ => []

/-- `_mm_unpacklo_epi16` -/
def unpackloEpi16 (a b : List UInt8) : List UInt8 :=
  ofLanes 2 (interleave ((lanes 2 8 a).take 4) ((lanes 2 8 b).take 4))

/-- `_mm_unpackhi_epi16` -/
def unpackhiEpi16 (a b : List UInt8) : List UInt8 :=
  ofLanes 2 (interleave ((lanes 2 8 a).drop 4) ((lanes 2 8 b).drop 4))

/-- `ZL_popcount64` -/
def popcount (x : Nat) : Nat := (List.range 64).countP x.testBit

theorem pshufb_eq (v idx : List UInt8) :
    pshufb v idx = idx.map fun i => if i.toNat ≥ 128 then 0 else v.getD (i.toNat % 16) 0 := by
  rw [pshufb, shuffle128, List.map_map]
  rfl

section Lanes

variable {k : Nat} {xs ys : List Nat}

theorem length_div_ofLanes (hk : 0 < k) (xs : List Nat) : (ofLanes k xs).length / k = xs.length := by
  rw [length_ofLanes, Nat.mul_div_cancel_left _ hk]

theorem lanewise_ofLanes (hk : 0 < k) (f : Nat → Nat → Nat) (hxs : ∀ x ∈ xs, x < 2 ^ (8 * k))
    (hys : ∀ y ∈ ys, y < 2 ^ (8 * k)) :
    lanewise k f (ofLanes k xs) (ofLanes k ys) = ofLanes k (List.zipWith f xs ys) := by
  rw [lanewise, length_div_ofLanes hk, length_div_ofLanes hk, lanes_ofLanes hxs, lanes_ofLanes hys]

theorem getD_ofLanes_two {xs : List Nat} {r : Nat} (hr : r < xs.length) :
    [(ofLanes 2 xs).getD (2 * r) 0, (ofLanes 2 xs).getD (2 * r + 1) 0] = toLE 2 (xs.getD r 0) := by
  induction xs generalizing r with
  | nil => exact absurd hr (Nat.not_lt_zero r)
  | cons x xs ih =>
    cases r with
    | zero => rfl
    | succ r =>
      rw [List.length_cons] at hr
      exact ih (by omega)

/-- The indices of the two bytes of a lane, or of zero. -/
def laneIndex : Option Nat → List UInt8
  | none => [0x80, 0x80]
  | some r => [UInt8.ofNat (2 * r), UInt8.ofNat (2 * r + 1)]

/-- The lane that is picked. -/
def picked (xs : List Nat) : Option Nat → Nat
  | none => 0
  | some r => xs.getD r 0

theorem pshufb_lanes {xs : List Nat} (hlen : xs.length = 8) {select : List (Option Nat)}
    (hselect : ∀ r, some r ∈ select → r < 8) :
    pshufb (ofLanes 2 xs) (select.flatMap laneIndex) = ofLanes 2 (select.map (picked xs)) := by
  induction select with
  | nil => rfl
  | cons o select ih =>
    have hrest := ih fun r hr => hselect r (List.mem_cons_of_mem _ hr)
    have hone : pshufb (ofLanes 2 xs) (laneIndex o) = toLE 2 (picked xs o) := by
      cases o with
      | none => simp [pshufb_eq, laneIndex, picked, toLE]
      | some r =>
        have hr := hselect r List.mem_cons_self
        have hlow : (UInt8.ofNat (2 * r)).toNat = 2 * r := by
          rw [UInt8.toNat_ofNat']
          omega
        have hhigh : (UInt8.ofNat (2 * r + 1)).toNat = 2 * r + 1 := by
          rw [UInt8.toNat_ofNat']
          omega
        rw [picked, ← getD_ofLanes_two (by omega), laneIndex, pshufb_eq, List.map_cons, List.map_cons,
          hlow, hhigh, if_neg (by omega), if_neg (by omega), Nat.mod_eq_of_lt (by omega),
          Nat.mod_eq_of_lt (by omega)]
        rfl
    rw [pshufb_eq] at hone hrest ⊢
    rw [List.flatMap_cons, List.map_append, hone, hrest, List.map_cons]
    rfl

end Lanes

theorem zipWith_interleave (f : Nat → Nat → Nat) : ∀ {as bs cs ds : List Nat},
    as.length = bs.length → cs.length = ds.length →
      List.zipWith f (interleave as bs) (interleave cs ds) =
        interleave (List.zipWith f as cs) (List.zipWith f bs ds)
  | a :: as, b :: bs, c :: cs, d :: ds, h, h' => by
      simp only [interleave, List.zipWith_cons_cons,
        zipWith_interleave f (Nat.succ.inj h) (Nat.succ.inj h')]
  | [], [], _, _, _, _ => by simp [interleave]
  | _ :: _, _ :: _, [], [], _, _ => by simp [interleave]

theorem ofLanes_interleave : ∀ {as bs : List Nat}, as.length = bs.length →
    (∀ a ∈ as, a < 2 ^ 16) →
      ofLanes 2 (interleave as bs) = ofLanes 4 (List.zipWith (fun a b => a + 2 ^ 16 * b) as bs)
  | a :: as, b :: bs, h, ha => by
      have hlane : toLE 4 (a + 2 ^ 16 * b) = toLE 2 a ++ toLE 2 b := by
        have hlow := ha a List.mem_cons_self
        rw [toLE_add 2 2, ← toLE_mod 2 (a + _), show 256 ^ 2 = 2 ^ 16 by decide,
          Nat.add_mul_mod_self_left, Nat.mod_eq_of_lt hlow, Nat.add_mul_div_left _ _ (by decide),
          Nat.div_eq_of_lt hlow, Nat.zero_add]
      have hrest := ofLanes_interleave (Nat.succ.inj h) fun x hx =>
        ha x (List.mem_cons_of_mem _ hx)
      have hcons : ∀ k x xs, ofLanes k (x :: xs) = toLE k x ++ ofLanes k xs := fun _ _ _ => rfl
      rw [interleave, hcons, hcons, hrest, List.zipWith_cons_cons, hcons, hlane, List.append_assoc]
  | [], [], _, _ => rfl

theorem movemaskEpi8_flags (bs : List Bool) : movemaskEpi8 (bs.map flagByte) = ofBits bs := by
  rw [movemaskEpi8, List.map_map]
  congr 1
  conv_rhs => rw [← List.map_id bs]
  refine List.map_congr_left fun b _ => ?_
  cases b <;> rfl

/-- The ranks of the lanes that are flagged, in their places. -/
def expandSelect : Nat → List Bool → List (Option Nat)
  | _, [] => []
  | r, true :: bs => some r :: expandSelect (r + 1) bs
  | r, false :: bs => none :: expandSelect r bs

/-- The places of the lanes that are flagged. -/
def flagged : Nat → List Bool → List Nat
  | _, [] => []
  | i, true :: bs => i :: flagged (i + 1) bs
  | i, false :: bs => flagged (i + 1) bs

/-- The lanes that are flagged, in front. -/
def compressSelect (bs : List Bool) : List (Option Nat) :=
  (flagged 0 bs).map some ++ List.replicate (bs.length - (flagged 0 bs).length) none

@[simp] theorem length_expandSelect (r : Nat) (bs : List Bool) :
    (expandSelect r bs).length = bs.length := by
  induction bs generalizing r with
  | nil => rfl
  | cons b bs ih => cases b <;> rw [expandSelect, List.length_cons, ih, List.length_cons]

theorem lt_of_mem_expandSelect {bs : List Bool} {r i : Nat} (h : some i ∈ expandSelect r bs) :
    i < r + bs.count true := by
  induction bs generalizing r with
  | nil => cases h
  | cons b bs ih =>
    cases b with
    | false =>
      rw [List.count_cons_of_ne (by decide)]
      rcases List.mem_cons.1 h with h | h
      · cases h
      · exact ih h
    | true =>
      rw [List.count_cons_self]
      rcases List.mem_cons.1 h with h | h
      · cases h
        omega
      · have := ih h
        omega

theorem lt_of_mem_flagged {bs : List Bool} {i j : Nat} (h : j ∈ flagged i bs) :
    j < i + bs.length := by
  induction bs generalizing i with
  | nil => cases h
  | cons b bs ih =>
    rw [List.length_cons]
    cases b with
    | false =>
      have := ih h
      omega
    | true =>
      rcases List.mem_cons.1 h with rfl | h
      · omega
      · have := ih h
        omega

theorem length_flagged (i : Nat) (bs : List Bool) : (flagged i bs).length = bs.count true := by
  induction bs generalizing i with
  | nil => rfl
  | cons b bs ih =>
    cases b with
    | false => rw [flagged, ih, List.count_cons_of_ne (by decide)]
    | true => rw [flagged, List.length_cons, ih, List.count_cons_self]

/-- The lanes that are flagged. -/
def keep : List Bool → List Nat → List Nat
  | true :: bs, x :: xs => x :: keep bs xs
  | false :: bs, _ :: xs => keep bs xs
  | _, _ => []

theorem mem_of_mem_keep : ∀ {bs : List Bool} {xs : List Nat} {x : Nat}, x ∈ keep bs xs → x ∈ xs
  | true :: bs, y :: xs, x, h => by
      rcases List.mem_cons.1 h with rfl | h
      · exact List.mem_cons_self
      · exact List.mem_cons_of_mem _ (mem_of_mem_keep h)
  | false :: bs, y :: xs, x, h => List.mem_cons_of_mem _ (@mem_of_mem_keep bs xs x h)
  | [], _, _, h => nomatch h
  | true :: _, [], _, h => nomatch h
  | false :: _, [], _, h => nomatch h

theorem map_flagged : ∀ {bs : List Bool} {xs : List Nat} (front : List Nat),
    bs.length = xs.length →
      (flagged front.length bs).map (fun i => (front ++ xs).getD i 0) = keep bs xs
  | [], [], _, _ => rfl
  | true :: bs, x :: xs, front, h => by
      have hrest := map_flagged (front ++ [x]) (Nat.succ.inj h)
      rw [List.length_append, List.length_singleton, List.append_assoc,
        List.singleton_append] at hrest
      rw [flagged, List.map_cons, hrest, keep, List.getD_eq_getElem?_getD,
        List.getElem?_append_right (Nat.le_refl _), Nat.sub_self]
      rfl
  | false :: bs, x :: xs, front, h => by
      have hrest := map_flagged (front ++ [x]) (Nat.succ.inj h)
      rw [List.length_append, List.length_singleton, List.append_assoc,
        List.singleton_append] at hrest
      rw [flagged, hrest, keep]

theorem map_compressSelect {bs : List Bool} {xs : List Nat} (h : bs.length = xs.length) :
    (compressSelect bs).map (picked xs) =
      keep bs xs ++ List.replicate (bs.length - (keep bs xs).length) 0 := by
  have hkeep := map_flagged [] h
  rw [List.nil_append, List.length_nil] at hkeep
  have hlen : (keep bs xs).length = (flagged 0 bs).length := by
    rw [← hkeep, List.length_map]
  rw [compressSelect, List.map_append, List.map_map, List.map_replicate, hlen, ← hkeep]
  rfl

theorem length_keep {bs : List Bool} {xs : List Nat} (h : bs.length = xs.length) :
    (keep bs xs).length = bs.count true := by
  have hkeep := map_flagged [] h
  rw [← length_flagged 0, ← hkeep, List.length_map, List.length_nil]

end OpenZL.Lib.Simd
