import Mathlib.Algebra.BigOperators.Group.Finset.Basic
import Mathlib.Algebra.BigOperators.Group.Finset.Piecewise
import Mathlib.Algebra.BigOperators.Ring.List
import Mathlib.Algebra.Ring.Nat
import OpenZL.Codecs.PivcoTree

/-!
# Weights of a PivCo-Huffman tree

What the checks of a weights array establish, and what both ways to count the weights return.

Principal results: `Accepted.mass`, `countWeights_eq`.
-/

namespace OpenZL.Codecs.Pivco

open OpenZL.Lib

/-- How many symbols have a weight. -/
def countOf (weights : List UInt8) (weight : Nat) : Nat :=
  weights.countP fun w => w.toNat = weight

theorem countOf_append (xs ys : List UInt8) (v : Nat) :
    countOf (xs ++ ys) v = countOf xs v + countOf ys v := List.countP_append

theorem countOf_cons (w : UInt8) (ws : List UInt8) (v : Nat) :
    countOf (w :: ws) v = countOf ws v + if w.toNat = v then 1 else 0 := by
  simp [countOf, List.countP_cons]

theorem countOf_le (ws : List UInt8) (v : Nat) : countOf ws v ≤ ws.length := List.countP_le_length

theorem sum_by_weight {N : Nat} (g : Nat → Nat) : ∀ {ws : List UInt8}, (∀ w ∈ ws, w.toNat < N) →
    ∑ v ∈ Finset.range N, countOf ws v * g v = (ws.map fun w => g w.toNat).sum
  | [], _ => by simp [countOf]
  | w :: ws, h => by
      have hw : w.toNat ∈ Finset.range N := Finset.mem_range.2 (h w List.mem_cons_self)
      have hsum := sum_by_weight g fun x hx => h x (List.mem_cons_of_mem w hx)
      simp only [countOf_cons, Nat.add_mul, Finset.sum_add_distrib, hsum, ite_mul, Nat.one_mul,
        Nat.zero_mul, Finset.sum_ite_eq, if_pos hw, List.map_cons, List.sum_cons]
      omega

/-- What the checks of `ZL_PivCoHuffman_computeTableLog` promise. -/
structure Accepted (weights : List UInt8) (tableLog : Nat) : Prop where
  length_le : weights.length ≤ maxSymbols
  le : ∀ w ∈ weights, w.toNat ≤ maxTableLog
  tableLog_le : tableLog ≤ maxTableLog
  mass : (weights.map fun w => 2 ^ w.toNat / 2).sum = 2 ^ tableLog

theorem isPow2_iff {n : Nat} (h : n ≠ 0) : isPow2 n = true ↔ n = 2 ^ n.log2 := by
  rw [isPow2, beq_iff_eq, Nat.and_sub_one_eq_zero_iff_isPowerOfTwo h]
  constructor
  · rintro ⟨k, rfl⟩
    rw [Nat.log2_two_pow]
  · exact fun h => ⟨_, h⟩

theorem foldl_sum : ∀ {ws : List UInt8} {sum : Nat}, (∀ w ∈ ws, w.toNat ≤ maxTableLog) →
    sum + ws.length * 2048 < 2 ^ 32 →
    ws.foldl (fun sum w => (sum + (1 <<< (w.toNat &&& 31)) >>> 1) % 2 ^ 32) sum =
      sum + (ws.map fun w => 2 ^ w.toNat / 2).sum
  | [], _, _, _ => by simp
  | w :: ws, sum, h, hlt => by
      have hw : w.toNat ≤ 12 := h w List.mem_cons_self
      have hand : w.toNat &&& 31 = w.toNat := by
        rw [show 31 = 2 ^ 5 - 1 from rfl, Nat.and_two_pow_sub_one_eq_mod]
        exact Nat.mod_eq_of_lt (by omega)
      have hpow : 2 ^ w.toNat ≤ 2 ^ 12 := Nat.pow_le_pow_right (by decide) hw
      rw [List.length_cons] at hlt
      rw [List.foldl_cons, hand, Nat.shiftLeft_eq, Nat.shiftRight_eq_div_pow, Nat.one_mul,
        Nat.pow_one, Nat.mod_eq_of_lt (by omega),
        foldl_sum (fun x hx => h x (List.mem_cons_of_mem w hx)) (by omega), List.map_cons,
        List.sum_cons, Nat.add_assoc]

theorem accepted_of_computeTableLog {weights : List UInt8} {tableLog : Nat}
    (h : computeTableLog weights = some tableLog) : Accepted weights tableLog := by
  rw [computeTableLog] at h
  split at h
  · cases h
  · rename_i hlength
    have hlength : weights.length ≤ 256 := by
      have : ¬ weights.length > 256 := fun h => hlength (Or.inr h)
      omega
    dsimp only at h
    split at h
    · cases h
    · rename_i hany
      have hle : ∀ w ∈ weights, w.toNat ≤ maxTableLog := by simpa using hany
      rw [foldl_sum hle (by omega), Nat.zero_add] at h
      split at h
      · cases h
      · rename_i hpow
        rw [not_or, Bool.not_eq_false] at hpow
        split at h
        · cases h
        · rename_i hlog
          have hlog' := Option.some.inj h
          rw [hlog'] at hlog
          exact ⟨hlength, hle, by omega, by rw [← hlog', ← (isPow2_iff hpow.1).1 hpow.2]⟩

section

variable {weights : List UInt8} {tableLog : Nat}

theorem Accepted.lt_fourteen (h : Accepted weights tableLog) :
    ∀ w ∈ weights, w.toNat < 14 := fun w hw => by
  have : w.toNat ≤ 12 := h.le w hw
  omega

/-- How many symbols a tree has. -/
def numPresent (weights : List UInt8) : Nat := weights.countP fun w => w.toNat ≠ 0

theorem numPresent_le (h : Accepted weights tableLog) : numPresent weights ≤ 256 :=
  Nat.le_trans List.countP_le_length h.length_le

theorem numPresent_eq : ∀ ws : List UInt8,
    numPresent ws = (ws.map fun w => if w.toNat = 0 then 0 else 1).sum
  | [] => rfl
  | w :: ws => by
      have ih := numPresent_eq ws
      rw [numPresent] at ih ⊢
      rw [List.countP_cons, ih, List.map_cons, List.sum_cons, Nat.add_comm]
      by_cases hw : w.toNat = 0 <;> simp [hw]

/-- The symbols of each weight. -/
def seedCount (weights : List UInt8) (weight : Nat) : Nat :=
  if weight = 0 then 0 else countOf weights weight

theorem seedCount_mul (weights : List UInt8) (g : Nat → Nat) (v : Nat) :
    seedCount weights v * g v = countOf weights v * if v = 0 then 0 else g v := by
  rw [seedCount]
  split <;> simp

theorem Accepted.sum_seedCount_mul (h : Accepted weights tableLog) :
    ∑ v ∈ Finset.range 14, seedCount weights v * 2 ^ v = 2 ^ (tableLog + 1) := by
  simp only [seedCount_mul weights (fun v => 2 ^ v)]
  rw [sum_by_weight (fun v => if v = 0 then 0 else 2 ^ v) h.lt_fourteen, Nat.pow_succ, ← h.mass,
    ← List.sum_map_mul_right]
  congr 1
  refine List.map_congr_left fun w _ => ?_
  rcases Nat.eq_zero_or_pos w.toNat with hw | hw
  · simp [hw]
  · rw [if_neg (by omega)]
    exact (Nat.div_mul_cancel (Dvd.dvd.trans (by simp) (Nat.pow_dvd_pow 2 hw))).symm

theorem Accepted.sum_seedCount (h : Accepted weights tableLog) :
    ∑ v ∈ Finset.range 14, seedCount weights v = numPresent weights := by
  have hsum := sum_by_weight (fun v => if v = 0 then 0 else 1) h.lt_fourteen
  simp only [← seedCount_mul weights (fun _ => 1), Nat.mul_one] at hsum
  rw [hsum, numPresent_eq]

end

/-- Histograms with 8-bit lanes. -/
def lanes (count : Nat → Nat) : List Nat := (List.range 16).map fun v => count v % 2 ^ 8

theorem replicate_eq_lanes : List.replicate 16 0 = lanes fun _ => 0 := by decide

theorem countLane_lanes (count : Nat → Nat) (w : UInt8) :
    countLane (lanes count) w = lanes fun v => count v + if w.toNat = v then 1 else 0 := by
  refine List.ext_getElem (by simp [countLane, lanes]) fun v _ _ => ?_
  simp only [countLane, lanes, List.getElem_modify, List.getElem_map, List.getElem_range]
  split
  · omega
  · rfl

theorem foldl_countLane : ∀ (ws : List UInt8) (count : Nat → Nat),
    ws.foldl countLane (lanes count) = lanes fun v => count v + countOf ws v
  | [], count => by simp [countOf]
  | w :: ws, count => by
      rw [List.foldl_cons, countLane_lanes, foldl_countLane ws]
      simp only [countOf_cons]
      congr 1
      funext v
      omega

theorem lanes_of_lt {count : Nat → Nat} (h : ∀ v < 16, count v < 256) :
    lanes count = (List.range 16).map count := by
  refine List.map_congr_left fun v hv => ?_
  exact Nat.mod_eq_of_lt (h v (List.mem_range.1 hv))

theorem countFour_lanes : ∀ (ws : List UInt8), 4 ∣ ws.length → ∀ c₀ c₁ c₂ c₃ : Nat → Nat,
    ∃ d₀ d₁ d₂ d₃ : Nat → Nat,
      countFour ws (lanes c₀, lanes c₁, lanes c₂, lanes c₃) =
        (lanes d₀, lanes d₁, lanes d₂, lanes d₃) ∧
      ∀ v, d₀ v + d₁ v + d₂ v + d₃ v = c₀ v + c₁ v + c₂ v + c₃ v + countOf ws v ∧
        d₀ v ≤ c₀ v + ws.length / 4 ∧ d₁ v ≤ c₁ v + ws.length / 4 ∧
        d₂ v ≤ c₂ v + ws.length / 4 ∧ d₃ v ≤ c₃ v + ws.length / 4
  | [], _, c₀, c₁, c₂, c₃ => ⟨c₀, c₁, c₂, c₃, rfl, fun v => by simp [countOf]⟩
  | [_], h, _, _, _, _ | [_, _], h, _, _, _, _ | [_, _, _], h, _, _, _, _ => by
      simp only [List.length_cons, List.length_nil] at h
      omega
  | w₀ :: w₁ :: w₂ :: w₃ :: ws, h, c₀, c₁, c₂, c₃ => by
      have hws : 4 ∣ ws.length := by
        simp only [List.length_cons] at h
        omega
      rw [countFour, countLane_lanes, countLane_lanes, countLane_lanes, countLane_lanes]
      obtain ⟨d₀, d₁, d₂, d₃, hrun, hspec⟩ := countFour_lanes ws hws _ _ _ _
      refine ⟨d₀, d₁, d₂, d₃, hrun, fun v => ?_⟩
      obtain ⟨hsum, h₀, h₁, h₂, h₃⟩ := hspec v
      have hone (w : UInt8) : (if w.toNat = v then 1 else 0) ≤ 1 := by split <;> decide
      have hlength : (w₀ :: w₁ :: w₂ :: w₃ :: ws).length / 4 = ws.length / 4 + 1 := by
        simp only [List.length_cons]
        omega
      have hw₀ := hone w₀
      have hw₁ := hone w₁
      have hw₂ := hone w₂
      have hw₃ := hone w₃
      rw [hlength, countOf_cons, countOf_cons, countOf_cons, countOf_cons]
      omega

section

variable {weights : List UInt8}

theorem countWeightsScalar_eq (h : weights.length ≤ 256) :
    countWeightsScalar weights = (List.range 16).map (countOf weights) := by
  have hdrop : (weights.drop (weights.length % 4)).length = weights.length / 4 * 4 := by
    rw [List.length_drop]
    omega
  obtain ⟨d₀, d₁, d₂, d₃, hrun, hspec⟩ := countFour_lanes (weights.drop (weights.length % 4))
    (by omega) (fun v => 0 + countOf (weights.take (weights.length % 4)) v) (fun _ => 0)
    (fun _ => 0) (fun _ => 0)
  rw [countWeightsScalar]
  rw [replicate_eq_lanes, foldl_countLane, hrun]
  refine List.map_congr_left fun v hv => ?_
  have hv := List.mem_range.1 hv
  obtain ⟨hsum, h₀, h₁, h₂, h₃⟩ := hspec v
  have htake := countOf_le (weights.take (weights.length % 4)) v
  have hall := countOf_append (weights.take (weights.length % 4))
    (weights.drop (weights.length % 4)) v
  rw [List.take_append_drop] at hall
  rw [List.length_take] at htake
  have hget (count : Nat → Nat) : (lanes count).getD v 0 = count v % 2 ^ 8 := by
    simp [lanes, List.getD, hv]
  rw [hget, hget, hget, hget, Nat.mod_eq_of_lt (a := d₀ v) (by omega),
    Nat.mod_eq_of_lt (a := d₁ v) (by omega), Nat.mod_eq_of_lt (a := d₂ v) (by omega),
    Nat.mod_eq_of_lt (a := d₃ v) (by omega)]
  omega

theorem countWeightsSimd_eq (hlength : weights.length ≤ 256) (hle : ∀ w ∈ weights, w.toNat < 16) :
    countWeightsSimd weights = (List.range 16).map (countOf weights) := by
  have hlanes : weights.foldl countLane (List.replicate 16 0) = lanes (countOf weights) := by
    rw [replicate_eq_lanes, foldl_countLane]
    simp only [Nat.zero_add]
  rw [countWeightsSimd, hlanes]
  by_cases hwrap : ∃ v < 16, countOf weights v = 256
  · -- all 256 symbols have one weight
    obtain ⟨v, hv, hcount⟩ := hwrap
    have hall : ∀ w ∈ weights, w.toNat = v := by
      have := List.countP_eq_length (l := weights) (p := fun w => w.toNat = v)
      rw [countOf] at hcount
      have hle' := countOf_le weights v
      rw [countOf] at hle'
      simpa using this.1 (by omega)
    have hlen : weights.length = 256 := by
      have := countOf_le weights v
      omega
    have hother (u : Nat) (hu : u ≠ v) : countOf weights u = 0 := by
      rw [countOf, List.countP_eq_zero]
      intro w hw
      simpa [hall w hw] using Ne.symm hu
    have hzero : (lanes (countOf weights)).all (· = 0) = true := by
      simp only [lanes, List.all_map, List.all_eq_true, Function.comp, decide_eq_true_eq]
      intro u _
      rcases eq_or_ne u v with rfl | hu
      · rw [hcount]
        rfl
      · rw [hother u hu]
        rfl
    have hhead : (weights.headD 0).toNat = v := by
      rcases weights with - | ⟨w, ws⟩
      · cases hlen
      · exact hall w List.mem_cons_self
    rw [if_pos ⟨hlen, hzero⟩, hhead]
    refine List.ext_getElem (by simp) fun u _ _ => ?_
    simp only [List.getElem_set, List.getElem_map, List.getElem_range, List.getElem_replicate]
    split
    · rename_i h
      rw [← h, hcount]
    · rename_i h
      rw [hother u (Ne.symm h)]
  · have hlt : ∀ v < 16, countOf weights v < 256 := by
      intro v hv
      have := countOf_le weights v
      have hne : countOf weights v ≠ 256 := fun h => hwrap ⟨v, hv, h⟩
      omega
    rw [lanes_of_lt hlt, if_neg]
    rintro ⟨hlen, hzero⟩
    rcases weights with - | ⟨w, ws⟩
    · cases hlen
    · simp only [List.all_map, List.all_eq_true, Function.comp, decide_eq_true_eq] at hzero
      have := hzero w.toNat (List.mem_range.2 (hle w List.mem_cons_self))
      rw [countOf_cons, if_pos rfl] at this
      omega

/-- **Both histograms count the weights.** -/
theorem countWeights_eq (ssse3 : Bool) (hlength : weights.length ≤ 256)
    (hle : ∀ w ∈ weights, w.toNat < 16) :
    countWeights ssse3 weights = (List.range 16).map (countOf weights) := by
  cases ssse3 with
  | false => exact countWeightsScalar_eq hlength
  | true => exact countWeightsSimd_eq hlength hle

end

end OpenZL.Codecs.Pivco
