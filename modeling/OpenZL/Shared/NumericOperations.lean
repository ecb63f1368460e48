import Mathlib.Algebra.GroupWithZero.Nat
import Mathlib.Algebra.BigOperators.Group.List.Basic

/-!
# Numeric streams (`numeric_operations.c`)

A numeric stream is an array of integers of one width.

Principal result: `sumArrayST_eq`.
-/

namespace OpenZL.Shared

/-- A numeric stream: its element width in bytes, and its elements. -/
structure NumericStream where
  eltWidth : Nat
  elts : List Nat
  width_mem : eltWidth ∈ [1, 2, 4, 8]
  elts_lt : ∀ elt ∈ elts, elt < 2 ^ (8 * eltWidth)

/-- `NUMOP_sumArrayST`; `size_t` has 64 bits. -/
def sumArrayST (array : List Nat) : Nat := array.foldl (fun total size => (total + size) % 2 ^ 64) 0

/-- `NUMOP_findMaxST` -/
def findMaxST (array : List Nat) : Nat :=
  array.foldl (fun max size => if max < size then size else max) 0

/-- `NUMOP_underLimit`, `NUMOP_underLimitU16` -/
def underLimit (array : List Nat) (limit : Nat) : Bool := array.all (· < limit)

/-- `NUMOP_numericWidthForValue` -/
def numericWidthForValue (maxValue : Nat) : Nat :=
  if maxValue < 256 then 1 else if maxValue < 65536 then 2 else if maxValue ≤ 2 ^ 32 - 1 then 4 else 8

theorem numericWidthForValue_mem (maxValue : Nat) :
    numericWidthForValue maxValue ∈ [1, 2, 4, 8] := by
  rw [numericWidthForValue]
  split
  · decide
  · split
    · decide
    · split <;> decide

/-- `NUMOP_writeNumerics_fromST`, `NUMOP_writeNumerics_fromU32`: the elements are cast. -/
def writeNumerics (eltWidth : Nat) (hwidth : eltWidth ∈ [1, 2, 4, 8]) (array : List Nat) :
    NumericStream where
  eltWidth := eltWidth
  elts := array.map (· % 2 ^ (8 * eltWidth))
  width_mem := hwidth
  elts_lt := by
    intro elt helt
    obtain ⟨value, -, rfl⟩ := List.mem_map.1 helt
    exact Nat.mod_lt _ (Nat.two_pow_pos _)

theorem sumArrayST_eq (array : List Nat) : sumArrayST array = array.sum % 2 ^ 64 := by
  have hfold : ∀ (array : List Nat) (total : Nat), total < 2 ^ 64 →
      array.foldl (fun total size => (total + size) % 2 ^ 64) total =
        (total + array.sum) % 2 ^ 64 := by
    intro array
    induction array with
    | nil => exact fun total h => (Nat.mod_eq_of_lt h).symm
    | cons size array ih =>
        intro total _
        rw [List.foldl_cons, ih _ (Nat.mod_lt _ (Nat.two_pow_pos 64)), List.sum_cons,
          Nat.mod_add_mod, Nat.add_assoc]
  rw [sumArrayST, hfold array 0 (by decide), Nat.zero_add]

theorem findMaxST_le {array : List Nat} {bound : Nat} :
    findMaxST array ≤ bound ↔ ∀ size ∈ array, size ≤ bound := by
  have hfold : ∀ (array : List Nat) (max : Nat),
      array.foldl (fun max size => if max < size then size else max) max ≤ bound ↔
        max ≤ bound ∧ ∀ size ∈ array, size ≤ bound := by
    intro array
    induction array with
    | nil => exact fun max => ⟨fun h => ⟨h, nofun⟩, fun h => h.1⟩
    | cons size array ih =>
        intro max
        rw [List.foldl_cons, ih, List.forall_mem_cons]
        split <;> constructor <;> rintro ⟨h1, h2⟩
        · exact ⟨by omega, h1, h2⟩
        · exact ⟨h2.1, h2.2⟩
        · exact ⟨h1, by omega, h2⟩
        · exact ⟨h1, h2.2⟩
  rw [findMaxST, hfold]
  exact and_iff_right (Nat.zero_le _)

theorem underLimit_iff {array : List Nat} {limit : Nat} :
    ¬underLimit array limit ↔ ∃ value ∈ array, limit ≤ value := by
  simp [underLimit]

theorem elts_writeNumerics {eltWidth : Nat} {hwidth : eltWidth ∈ [1, 2, 4, 8]} {array : List Nat}
    (h : ∀ value ∈ array, value < 2 ^ (8 * eltWidth)) :
    (writeNumerics eltWidth hwidth array).elts = array :=
  (List.map_congr_left fun value hvalue => Nat.mod_eq_of_lt (h value hvalue)).trans
    (List.map_id array)

theorem lt_numericWidthForValue {value : Nat} (h : value < 2 ^ 64) :
    value < 2 ^ (8 * numericWidthForValue value) := by
  rw [numericWidthForValue]
  split
  · omega
  · split
    · omega
    · split <;> omega

end OpenZL.Shared
