import Mathlib.Algebra.GroupWithZero.Nat
import Mathlib.Algebra.BigOperators.Group.Finset.Piecewise
import Mathlib.Logic.Function.Basic

/-!
# Segments of several sources

A list of segments, each with a size and the name of a source, says how one list is cut up and
distributed over the sources, and how the sources are joined again.

Principal results: `join_distribute`, `distribute_join`, `length_distribute`.
-/

namespace OpenZL.Lib.Interleave

variable {α ι : Type} [DecidableEq ι]

/-- The sizes of the segments of one source, added up. -/
def totalOf (name : ι) : List (Nat × ι) → Nat
  | [] => 0
  | (size, tag) :: segments => if tag = name then size + totalOf name segments
      else totalOf name segments

/-- The sizes of all segments, added up. -/
def total (segments : List (Nat × ι)) : Nat := (segments.map Prod.fst).sum

/-- Segment after segment, from the sources to one list. -/
def join : List (Nat × ι) → (ι → List α) → List α
  | [], _ => []
  | (size, tag) :: segments, srcs =>
      (srcs tag).take size ++ join segments (Function.update srcs tag ((srcs tag).drop size))

/-- Segment after segment, from one list to the sources. -/
def distribute : List (Nat × ι) → List α → ι → List α
  | [], _, _ => []
  | (size, tag) :: segments, src, name =>
      if tag = name then src.take size ++ distribute segments (src.drop size) name
      else distribute segments (src.drop size) name

omit [DecidableEq ι] in
theorem total_cons (size : Nat) (tag : ι) (segments : List (Nat × ι)) :
    total ((size, tag) :: segments) = size + total segments := by
  rw [total, List.map_cons, List.sum_cons, total]

theorem totalOf_le_total (name : ι) (segments : List (Nat × ι)) :
    totalOf name segments ≤ total segments := by
  induction segments with
  | nil => exact Nat.le_refl 0
  | cons segment segments ih =>
      rw [totalOf, total_cons]
      split <;> omega

theorem totalOf_eq_zero {name : ι} {segments : List (Nat × ι)}
    (h : ∀ segment ∈ segments, segment.2 ≠ name) : totalOf name segments = 0 := by
  induction segments with
  | nil => rfl
  | cons segment segments ih =>
      rw [List.forall_mem_cons] at h
      rw [totalOf, if_neg h.1, ih h.2]

theorem length_distribute (segments : List (Nat × ι)) (src : List α) (name : ι)
    (h : total segments ≤ src.length) :
    (distribute segments src name).length = totalOf name segments := by
  induction segments generalizing src with
  | nil => rfl
  | cons segment segments ih =>
      obtain ⟨size, tag⟩ := segment
      rw [total_cons] at h
      have hrest := ih (src.drop size) (by rw [List.length_drop]; omega)
      rw [distribute, totalOf]
      split
      · rw [List.length_append, List.length_take, hrest, Nat.min_eq_left (by omega)]
      · exact hrest

theorem update_distribute (size : Nat) (tag : ι) (segments : List (Nat × ι)) (src : List α)
    (h : size ≤ src.length) :
    Function.update (distribute ((size, tag) :: segments) src) tag
        ((distribute ((size, tag) :: segments) src tag).drop size) =
      distribute segments (src.drop size) := by
  funext name
  by_cases hname : name = tag
  · subst hname
    rw [Function.update_self, distribute, if_pos rfl, List.drop_left' (List.length_take_of_le h)]
  · rw [Function.update_of_ne hname, distribute, if_neg (Ne.symm hname)]

/-- **Joining inverts distributing.** -/
theorem join_distribute (segments : List (Nat × ι)) (src : List α)
    (h : total segments = src.length) : join segments (distribute segments src) = src := by
  induction segments generalizing src with
  | nil => exact (List.length_eq_zero_iff.1 h.symm).symm
  | cons segment segments ih =>
      obtain ⟨size, tag⟩ := segment
      rw [total_cons] at h
      have hsize : size ≤ src.length := by omega
      have hhead : (distribute ((size, tag) :: segments) src tag).take size = src.take size := by
        rw [distribute, if_pos rfl, List.take_left' (List.length_take_of_le hsize)]
      rw [join, update_distribute _ _ _ _ hsize, hhead,
        ih _ (by rw [List.length_drop]; omega), List.take_append_drop]

theorem totalOf_tail {size : Nat} {tag : ι} {segments : List (Nat × ι)} {srcs : ι → List α}
    (h : ∀ name, totalOf name ((size, tag) :: segments) = (srcs name).length) :
    size ≤ (srcs tag).length ∧ ∀ name, totalOf name segments =
      (Function.update srcs tag ((srcs tag).drop size) name).length := by
  have htag := h tag
  rw [totalOf, if_pos rfl] at htag
  refine ⟨by omega, fun name => ?_⟩
  by_cases hname : name = tag
  · subst hname
    rw [Function.update_self, List.length_drop]
    omega
  · have := h name
    rw [totalOf, if_neg (Ne.symm hname)] at this
    rw [Function.update_of_ne hname, this]

/-- **Distributing inverts joining**: every source is consumed completely and in order. -/
theorem distribute_join (segments : List (Nat × ι)) (srcs : ι → List α)
    (h : ∀ name, totalOf name segments = (srcs name).length) :
    distribute segments (join segments srcs) = srcs := by
  induction segments generalizing srcs with
  | nil =>
      funext name
      exact (List.length_eq_zero_iff.1 (h name).symm).symm
  | cons segment segments ih =>
      obtain ⟨size, tag⟩ := segment
      obtain ⟨hsize, hrest⟩ := totalOf_tail h
      have hlen := List.length_take_of_le hsize
      funext name
      rw [join, distribute, List.take_left' hlen, List.drop_left' hlen, ih _ hrest]
      by_cases hname : tag = name
      · subst hname
        rw [if_pos rfl, Function.update_self, List.take_append_drop]
      · rw [if_neg hname, Function.update_of_ne (Ne.symm hname)]

theorem length_join (segments : List (Nat × ι)) (srcs : ι → List α)
    (h : ∀ name, totalOf name segments = (srcs name).length) :
    (join segments srcs).length = total segments := by
  induction segments generalizing srcs with
  | nil => rfl
  | cons segment segments ih =>
      obtain ⟨hsize, hrest⟩ := totalOf_tail h
      rw [join, List.length_append, List.length_take_of_le hsize, ih _ hrest, total_cons]

theorem sum_totalOf {segments : List (Nat × Nat)} {n : Nat}
    (h : ∀ segment ∈ segments, segment.2 < n) :
    ∑ name ∈ Finset.range n, totalOf name segments = total segments := by
  induction segments with
  | nil => exact Finset.sum_const_zero
  | cons segment segments ih =>
      obtain ⟨size, tag⟩ := segment
      rw [List.forall_mem_cons] at h
      have hcons : ∀ name, totalOf name ((size, tag) :: segments) =
          (if tag = name then size else 0) + totalOf name segments := by
        intro name
        rw [totalOf]
        split <;> omega
      simp only [hcons]
      rw [Finset.sum_add_distrib, ih h.2, Finset.sum_ite_eq, if_pos (Finset.mem_range.2 h.1),
        total_cons]

end OpenZL.Lib.Interleave
