import Mathlib.Logic.Basic
import Mathlib.Data.List.Basic

/-!
# Registers whose bytes are only moved

Instructions of SSE and AVX2 that move bytes, clear them or join them with a bitwise or.

Principal results: `Names.hom_value`, `map_shuffle256`, `map_value_named`.
-/

namespace OpenZL.Lib.Shuffles

/-- A byte: zero, and a bitwise or. -/
class Lane (α : Type) where
  zero : α
  or : α → α → α

/-- A map that keeps zero and the bitwise or. -/
structure Lane.Hom {α β : Type} [Lane α] [Lane β] (f : α → β) : Prop where
  map_zero : f Lane.zero = Lane.zero
  map_or : ∀ x y, f (Lane.or x y) = Lane.or (f x) (f y)

instance : Lane UInt8 := ⟨0, (· ||| ·)⟩

@[simp] theorem zero_uint8 : (Lane.zero : UInt8) = 0 := rfl

@[simp] theorem or_uint8 (x y : UInt8) : Lane.or x y = x ||| y := rfl

/-- The names of the bytes that were joined. -/
abbrev Names := List Nat

instance : Lane Names := ⟨[], (· ++ ·)⟩

/-- The byte that some bytes are joined to. -/
def Names.value (bytes : List UInt8) (names : Names) : UInt8 :=
  names.foldr (fun i acc => bytes.getD i 0 ||| acc) 0

theorem Names.hom_value (bytes : List UInt8) : Lane.Hom (Names.value bytes) where
  map_zero := rfl
  map_or x y := by
    show (x ++ y).foldr _ 0 = x.foldr _ 0 ||| y.foldr _ 0
    induction x with
    | nil => exact UInt8.zero_or.symm
    | cons i x ih => rw [List.cons_append, List.foldr_cons, List.foldr_cons, ih, UInt8.or_assoc]

theorem Names.value_singleton (bytes : List UInt8) (i : Nat) :
    Names.value bytes [i] = bytes.getD i 0 := UInt8.or_zero

/-- A register whose bytes have one name each. -/
def named (start n : Nat) : List Names := (List.range' start n).map fun i => [i]

section Instructions

variable {α : Type} [Lane α]

/-- `_mm_shuffle_epi8` -/
def shuffle128 (v : List α) (idx : List Nat) : List α :=
  idx.map fun i => if i ≥ 128 then Lane.zero else v.getD (i % 16) Lane.zero

/-- `_mm256_shuffle_epi8`: the halves of the register are shuffled on their own. -/
def shuffle256 (v : List α) (idx : List Nat) : List α :=
  shuffle128 (v.take 16) (idx.take 16) ++ shuffle128 (v.drop 16) (idx.drop 16)

/-- `_mm256_blend_epi32` -/
def blendEpi32 (a b : List α) (imm : Nat) : List α :=
  (List.range 8).flatMap fun i =>
    if imm.testBit i then (b.drop (4 * i)).take 4 else (a.drop (4 * i)).take 4

/-- `_mm256_blendv_epi8` -/
def blendvEpi8 : List α → List α → List Nat → List α
  | x :: a, y :: b, m :: mask => (if m ≥ 128 then y else x) :: blendvEpi8 a b mask
  | _, _, _ => []

/-- `_mm256_permutevar8x32_epi32` -/
def permutevar8x32 (v : List α) (idx : List Nat) : List α :=
  idx.flatMap fun i => (v.drop (4 * (i % 8))).take 4

/-- `_mm_or_si128` -/
def orSi (a b : List α) : List α := List.zipWith Lane.or a b

/-- Lanes of `k` bytes of two registers in turn, `n` of each. -/
def unpackLanes (k : Nat) : Nat → List α → List α → List α
  | 0, _, _ => []
  | n + 1, a, b => a.take k ++ (b.take k ++ unpackLanes k n (a.drop k) (b.drop k))

/-- `_mm256_unpacklo_epi8` and `_mm256_unpacklo_epi16` -/
def unpacklo (k : Nat) (a b : List α) : List α :=
  unpackLanes k (8 / k) a b ++ unpackLanes k (8 / k) (a.drop 16) (b.drop 16)

/-- `_mm256_unpackhi_epi8` and `_mm256_unpackhi_epi16` -/
def unpackhi (k : Nat) (a b : List α) : List α :=
  unpackLanes k (8 / k) (a.drop 8) (b.drop 8) ++ unpackLanes k (8 / k) (a.drop 24) (b.drop 24)

/-- `_mm256_slli_epi64` by a number of bytes. -/
def slliEpi64 (v : List α) (bytes : Nat) : List α :=
  (List.range 4).flatMap fun i =>
    List.replicate bytes Lane.zero ++ (v.drop (8 * i)).take (8 - bytes)

/-- `_mm256_srli_epi64` by a number of bytes. -/
def srliEpi64 (v : List α) (bytes : Nat) : List α :=
  (List.range 4).flatMap fun i =>
    (v.drop (8 * i + bytes)).take (8 - bytes) ++ List.replicate bytes Lane.zero

/-- `_mm256_broadcastsi128_si256` -/
def broadcast {β : Type} (v : List β) : List β := v ++ v

end Instructions

section Moves

variable {α β : Type} (f : α → β)

theorem map_getD_nil (vs : List (List α)) (i : Nat) :
    (vs.getD i []).map f = (vs.map (List.map f)).getD i [] := by
  rw [List.getD_eq_getElem?_getD, List.getD_eq_getElem?_getD, List.getElem?_map]
  cases vs[i]? <;> rfl

theorem map_blendEpi32 (a b : List α) (imm : Nat) :
    (blendEpi32 a b imm).map f = blendEpi32 (a.map f) (b.map f) imm := by
  simp only [blendEpi32, List.map_flatMap, apply_ite (List.map f), List.map_take, List.map_drop]

theorem map_blendvEpi8 : ∀ (a b : List α) (mask : List Nat),
    (blendvEpi8 a b mask).map f = blendvEpi8 (a.map f) (b.map f) mask
  | x :: a, y :: b, m :: mask => by
      simp only [blendvEpi8, List.map_cons, apply_ite f, map_blendvEpi8 a b mask]
  | [], _, _ => by simp only [blendvEpi8, List.map_nil]
  | _ :: _, [], _ => by simp only [blendvEpi8, List.map_nil, List.map_cons]
  | _ :: _, _ :: _, [] => by simp only [blendvEpi8, List.map_nil, List.map_cons]

theorem map_permutevar8x32 (v : List α) (idx : List Nat) :
    (permutevar8x32 v idx).map f = permutevar8x32 (v.map f) idx := by
  simp only [permutevar8x32, List.map_flatMap, List.map_take, List.map_drop]

theorem map_unpackLanes (k : Nat) : ∀ (n : Nat) (a b : List α),
    (unpackLanes k n a b).map f = unpackLanes k n (a.map f) (b.map f)
  | 0, _, _ => rfl
  | n + 1, a, b => by
      simp only [unpackLanes, List.map_append, map_unpackLanes k n, List.map_take, List.map_drop]

theorem map_unpacklo (k : Nat) (a b : List α) :
    (unpacklo k a b).map f = unpacklo k (a.map f) (b.map f) := by
  simp only [unpacklo, List.map_append, map_unpackLanes, List.map_drop]

theorem map_unpackhi (k : Nat) (a b : List α) :
    (unpackhi k a b).map f = unpackhi k (a.map f) (b.map f) := by
  simp only [unpackhi, List.map_append, map_unpackLanes, List.map_drop]

end Moves

section Maps

variable {α β : Type} [Lane α] [Lane β] {f : α → β}

variable (hf : Lane.Hom f)

include hf

theorem map_getD (v : List α) (i : Nat) :
    f (v.getD i Lane.zero) = (v.map f).getD i Lane.zero := by
  rw [List.getD_eq_getElem?_getD, List.getD_eq_getElem?_getD, List.getElem?_map]
  cases v[i]? with
  | none => exact hf.map_zero
  | some x => rfl

theorem map_shuffle128 (v : List α) (idx : List Nat) :
    (shuffle128 v idx).map f = shuffle128 (v.map f) idx := by
  rw [shuffle128, shuffle128, List.map_map]
  refine List.map_congr_left fun i _ => ?_
  rw [Function.comp_apply, apply_ite f, hf.map_zero, map_getD hf]

theorem map_shuffle256 (v : List α) (idx : List Nat) :
    (shuffle256 v idx).map f = shuffle256 (v.map f) idx := by
  rw [shuffle256, shuffle256, List.map_append, map_shuffle128 hf, map_shuffle128 hf, List.map_take,
    List.map_drop]

theorem map_orSi (a b : List α) :
    (orSi a b).map f = orSi (a.map f) (b.map f) := by
  simp only [orSi, List.map_zipWith, List.zipWith_map, hf.map_or]

theorem map_slliEpi64 (v : List α) (bytes : Nat) :
    (slliEpi64 v bytes).map f = slliEpi64 (v.map f) bytes := by
  simp only [slliEpi64, List.map_flatMap, List.map_append, List.map_replicate, hf.map_zero,
    List.map_take, List.map_drop]

theorem map_srliEpi64 (v : List α) (bytes : Nat) :
    (srliEpi64 v bytes).map f = srliEpi64 (v.map f) bytes := by
  simp only [srliEpi64, List.map_flatMap, List.map_append, List.map_replicate, hf.map_zero,
    List.map_take, List.map_drop]

end Maps

theorem map_value_named (bytes : List UInt8) {start n : Nat} (h : start + n ≤ bytes.length) :
    (named start n).map (Names.value bytes) = (bytes.drop start).take n := by
  refine List.ext_getElem? fun i => ?_
  rw [named, List.map_map, List.getElem?_map, List.getElem?_take, List.getElem?_drop]
  by_cases hi : i < n
  · rw [if_pos hi, List.getElem?_range' hi, Nat.one_mul, Option.map_some, Function.comp_apply,
      Names.value_singleton, List.getD_eq_getElem?_getD, List.getElem?_eq_getElem (by omega),
      Option.getD_some]
  · rw [if_neg hi, List.getElem?_eq_none (by rw [List.length_range']; omega), Option.map_none]

end OpenZL.Lib.Shuffles
