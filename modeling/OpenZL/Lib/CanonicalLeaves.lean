import Mathlib.Algebra.BigOperators.Ring.List
import Mathlib.Algebra.Order.BigOperators.Group.List
import Mathlib.Tactic.Ring

/-!
# Leaves of a complete canonical code

The leaves of a complete binary tree of depth at most `n`, by level from the root down.

Principal results: `Node.root`, `Node.leaf`, `Node.split`, `Node.sibling`.
-/

namespace OpenZL.Lib.Canonical

/-- The codewords that a leaf covers. -/
def size (n level : Nat) : Nat := 2 ^ (n - level)

/-- The first codeword of the `i`-th leaf. -/
def start (n : Nat) (levels : List Nat) (i : Nat) : Nat := ((levels.take i).map (size n)).sum

/-- The levels of the leaves of a complete code, from the root down. -/
structure Complete (n : Nat) (levels : List Nat) : Prop where
  sorted : levels.Pairwise (· ≤ ·)
  le : ∀ l ∈ levels, l ≤ n
  full : (levels.map (size n)).sum = 2 ^ n

variable {n : Nat} {levels : List Nat} {L i j m : Nat}

theorem size_pos (n level : Nat) : 0 < size n level := Nat.two_pow_pos _

@[simp] theorem start_zero (n : Nat) (levels : List Nat) : start n levels 0 = 0 := rfl

theorem start_length (h : Complete n levels) : start n levels levels.length = 2 ^ n := by
  rw [start, List.take_length, h.full]

theorem start_succ (hi : i < levels.length) :
    start n levels (i + 1) = start n levels i + size n levels[i] := by
  rw [start, List.take_add_one, List.getElem?_eq_getElem hi, Option.toList_some, List.map_append,
    List.sum_append, start, List.map_singleton, List.sum_singleton]

theorem start_lt_succ (hi : i < levels.length) : start n levels i < start n levels (i + 1) := by
  rw [start_succ hi]
  exact Nat.lt_add_of_pos_right (size_pos _ _)

theorem start_mono (hij : i ≤ j) (hj : j ≤ levels.length) :
    start n levels i ≤ start n levels j := by
  induction j, hij using Nat.le_induction with
  | base => exact Nat.le_refl _
  | succ j hij ih => exact (ih (by omega)).trans (start_lt_succ (by omega)).le

theorem start_lt (hij : i < j) (hj : j ≤ levels.length) : start n levels i < start n levels j :=
  (start_lt_succ (by omega)).trans_le (start_mono hij hj)

theorem dvd_start (h : ∀ l ∈ levels.take i, l ≤ L) : 2 ^ (n - L) ∣ start n levels i := by
  refine List.dvd_sum fun s hs => ?_
  obtain ⟨l, hl, rfl⟩ := List.mem_map.1 hs
  exact Nat.pow_dvd_pow 2 (Nat.sub_le_sub_left (h l hl) n)

theorem Complete.level_mono (h : Complete n levels) (hij : i ≤ j) (hj : j < levels.length) :
    levels[i] ≤ levels[j] := by
  rcases Nat.eq_or_lt_of_le hij with rfl | hlt
  · exact Nat.le_refl _
  · exact List.pairwise_iff_getElem.1 h.sorted i j (by omega) hj hlt

theorem Complete.dvd_start_getElem (h : Complete n levels) (hi : i < levels.length) :
    size n levels[i] ∣ start n levels i := by
  refine dvd_start fun l hl => ?_
  obtain ⟨k, hk, rfl⟩ := List.getElem_of_mem hl
  rw [List.length_take] at hk
  rw [List.getElem_take]
  exact h.level_mono (by omega) hi

/-- A node at level `L`, over the leaves from `i` to `j`. -/
structure Node (n : Nat) (levels : List Nat) (L i j : Nat) : Prop where
  lt : i < j
  le : j ≤ levels.length
  level_le : L ≤ n
  dvd : 2 ^ (n - L) ∣ start n levels i
  stop : start n levels j = start n levels i + 2 ^ (n - L)

theorem Node.root (h : Complete n levels) : Node n levels 0 0 levels.length := by
  refine ⟨?_, Nat.le_refl _, Nat.zero_le _, Nat.dvd_zero _, ?_⟩
  · rcases levels with - | ⟨l, levels⟩
    · have := h.full
      have hpos := Nat.two_pow_pos n
      rw [List.map_nil, List.sum_nil] at this
      omega
    · exact Nat.zero_lt_succ _
  · rw [start_length h, start_zero, Nat.zero_add, Nat.sub_zero]

theorem Node.le_level (h : Node n levels L i j) (hi : i < levels.length) : L ≤ levels[i] := by
  by_contra hlt
  have hsucc := @start_succ n levels i hi
  have hmono := @start_mono n levels (i + 1) j h.lt h.le
  have hsize : 2 ^ (n - L) < size n levels[i] :=
    Nat.pow_lt_pow_right (by decide) (by have := h.level_le; omega)
  have := h.stop
  omega

theorem Node.leaf (h : Node n levels L i (i + 1)) (hc : Complete n levels)
    (hi : i < levels.length) : levels[i] = L := by
  have hsucc := @start_succ n levels i hi
  have hsize : size n levels[i] = 2 ^ (n - L) := by
    have := h.stop
    omega
  have hle := hc.le _ (List.getElem_mem hi)
  have hlevel := h.level_le
  have hexp : n - levels[i] = n - L := Nat.pow_right_injective (Nat.le_refl 2) hsize
  omega

theorem Node.lt_level (h : Node n levels L i j) (hij : i + 1 < j)
    (hi : i < levels.length) : L < levels[i] := by
  by_contra hle
  have hsucc := @start_succ n levels i hi
  have hlt := @start_lt n levels (i + 1) j hij h.le
  have hsize : 2 ^ (n - L) ≤ size n levels[i] :=
    Nat.pow_le_pow_right (by decide) (by omega)
  have := h.stop
  omega

theorem not_between {s a x : Nat} (ha : s ∣ a) (hx : s ∣ x) (hlt : a < x) : a + s ≤ x := by
  obtain ⟨a, rfl⟩ := ha
  obtain ⟨x, rfl⟩ := hx
  have hax : a < x := Nat.lt_of_mul_lt_mul_left hlt
  calc s * a + s = s * (a + 1) := by ring
    _ ≤ s * x := Nat.mul_le_mul_left s hax

theorem Node.split (h : Node n levels L i j) (hc : Complete n levels) (hij : i + 1 < j) :
    ∃ m, Node n levels (L + 1) i m ∧ Node n levels (L + 1) m j := by
  have hi : i < levels.length := by have := h.le; omega
  have hlow := h.lt_level hij hi
  have hle := hc.le _ (List.getElem_mem hi)
  have hpow : 2 ^ (n - L) = 2 ^ (n - (L + 1)) + 2 ^ (n - (L + 1)) := by
    rw [← Nat.two_mul, ← Nat.pow_succ']
    congr 1
    omega
  have hdvd : 2 ^ (n - (L + 1)) ∣ start n levels i := Dvd.dvd.trans (by rw [hpow]; simp) h.dvd
  -- the first leaf that starts half way or later
  obtain ⟨m, him, hmj, hbefore, hafter⟩ : ∃ m, i < m ∧ m ≤ j ∧
      start n levels (m - 1) < start n levels i + 2 ^ (n - (L + 1)) ∧
      start n levels i + 2 ^ (n - (L + 1)) ≤ start n levels m := by
    have hstop := h.stop
    have hex : ∃ m, start n levels i + 2 ^ (n - (L + 1)) ≤ start n levels m := ⟨j, by omega⟩
    have hmin := Nat.find_spec hex
    have hpos' : i < Nat.find hex := by
      by_contra hle
      have := @start_mono n levels (Nat.find hex) i (Nat.le_of_not_lt hle) hi.le
      omega
    refine ⟨Nat.find hex, hpos', Nat.find_min' hex (by omega), ?_, hmin⟩
    exact Nat.lt_of_not_le (Nat.find_min hex (by omega))
  have hjle := h.le
  have hm1 : m - 1 < levels.length := by omega
  have hlevel : L + 1 ≤ levels[m - 1] :=
    Nat.le_trans hlow (hc.level_mono (by omega) hm1)
  have hsizeDvd : size n levels[m - 1] ∣ 2 ^ (n - (L + 1)) :=
    Nat.pow_dvd_pow 2 (Nat.sub_le_sub_left hlevel n)
  have hmid : start n levels m = start n levels i + 2 ^ (n - (L + 1)) := by
    have hsucc := @start_succ n levels (m - 1) hm1
    rw [Nat.sub_add_cancel (by omega)] at hsucc
    have hnot := not_between (hc.dvd_start_getElem hm1)
      (Nat.dvd_add (hsizeDvd.trans hdvd) hsizeDvd) hbefore
    omega
  have hstop := h.stop
  have hmj' : m < j := by
    rcases Nat.eq_or_lt_of_le hmj with rfl | hlt
    · omega
    · exact hlt
  refine ⟨m, ⟨him, by omega, by omega, hdvd, hmid⟩, ⟨hmj', h.le, by omega, ?_, by omega⟩⟩
  rw [hmid]
  exact Nat.dvd_add hdvd (Nat.dvd_refl _)

theorem Node.sibling (h : Node n levels L i j) (hc : Complete n levels)
    (hleft : Node n levels (L + 1) i m) (hright : Node n levels (L + 1) m j) (hj : j = m + 1) :
    m = i + 1 := by
  subst hj
  have hm : m < levels.length := hright.le
  have hleaf := hright.leaf hc hm
  have hi : i < levels.length := by have := hleft.lt; omega
  have hle := hc.level_mono hleft.lt.le hm
  have hlow := hleft.le_level hi
  have hsize : size n levels[i] = 2 ^ (n - (L + 1)) := by
    rw [size]
    congr 2
    omega
  have hsucc := @start_succ n levels i hi
  by_contra hne
  have hlt := @start_lt n levels (i + 1) m (by have := hleft.lt; omega) hm.le
  have := hleft.stop
  omega

end OpenZL.Lib.Canonical
