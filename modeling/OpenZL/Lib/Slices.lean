import Mathlib.Data.List.Basic

/-!
# Slices of a sequence

A slice is a range of positions.

Principal results: `Tiles.append_singleton`, `Tiles.flatMap_content`.
-/

namespace OpenZL.Lib

variable {slices : List Slice}

/-- The positions `start`, …, `start + count - 1`. -/
structure Slice where
  start : Nat
  count : Nat
  deriving DecidableEq, Repr

namespace Slice

def stop (s : Slice) : Nat := s.start + s.count

/-- The elements of `xs` at the positions of a slice. -/
def content {α : Type} (xs : List α) (s : Slice) : List α := (xs.drop s.start).take s.count

end Slice

/-- The slices follow each other, from `start` to `stop`. -/
def Tiles : Nat → List Slice → Nat → Prop
  | start, [], stop => start = stop
  | start, s :: slices, stop => s.start = start ∧ Tiles s.stop slices stop

theorem Tiles.append_singleton {start mid : Nat} (h : Tiles start slices mid) {count : Nat} :
    Tiles start (slices ++ [⟨mid, count⟩]) (mid + count) := by
  induction slices generalizing start with
  | nil => exact ⟨Eq.symm h, rfl⟩
  | cons s slices ih => exact ⟨h.1, ih h.2⟩

theorem Tiles.concat_iff {start stop : Nat} {s : Slice} :
    Tiles start (slices ++ [s]) stop ↔ Tiles start slices s.start ∧ s.stop = stop := by
  induction slices generalizing start with
  | nil =>
    change s.start = start ∧ s.stop = stop ↔ start = s.start ∧ s.stop = stop
    rw [eq_comm]
  | cons t slices ih =>
    change t.start = start ∧ Tiles t.stop (slices ++ [s]) stop ↔ (t.start = start ∧ _) ∧ _
    rw [ih, and_assoc]

theorem Tiles.le {start stop : Nat} (h : Tiles start slices stop) :
    start ≤ stop := by
  induction slices generalizing start with
  | nil => exact Nat.le_of_eq h
  | cons s slices ih =>
    have := ih h.2
    have := h.1
    unfold Slice.stop at *
    omega

theorem Tiles.stop_le {start stop : Nat} (h : Tiles start slices stop) :
    ∀ s ∈ slices, s.stop ≤ stop := by
  induction slices generalizing start with
  | nil => simp
  | cons s slices ih =>
    intro t ht
    rcases List.mem_cons.1 ht with rfl | ht
    · exact h.2.le
    · exact ih h.2 t ht

theorem Tiles.flatMap_content {α : Type} (xs : List α) {start stop : Nat}
    (h : Tiles start slices stop) :
    slices.flatMap (Slice.content xs) = Slice.content xs ⟨start, stop - start⟩ := by
  induction slices generalizing start with
  | nil =>
    obtain rfl : start = stop := h
    simp [Slice.content]
  | cons s slices ih =>
    obtain ⟨rfl, htiles⟩ := h
    have hle := htiles.le
    unfold Slice.stop at hle htiles
    rw [List.flatMap_cons, ih htiles]
    unfold Slice.content
    rw [show stop - s.start = s.count + (stop - (s.start + s.count)) by omega, List.take_add,
      List.drop_drop]

end OpenZL.Lib
