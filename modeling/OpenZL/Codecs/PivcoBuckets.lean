import Mathlib.Algebra.BigOperators.Intervals
import Mathlib.Algebra.Order.BigOperators.Group.Finset
import OpenZL.Codecs.PivcoWeights

/-!
# Buckets of leaves

What the builder of a PivCo-Huffman tree is about, without its storage: for each weight the symbols
that are leaves of their own, and the flat leaves that were moved there.

Principal results: `Partial.peel`, `Partial.next`, `Partial.seeds`.
-/

namespace OpenZL.Codecs.Pivco

/-- Symbols and flat leaves by weight. -/
structure Buckets where
  single : Nat → List UInt8
  flat : Nat → List (List UInt8)

namespace Buckets

/-- All leaves of a weight, by their symbols. -/
def leaves (b : Buckets) (v : Nat) : List (List UInt8) := (b.single v).map ([·]) ++ b.flat v

/-- The largest power of two of symbols of a weight becomes a flat leaf. -/
def peel (b : Buckets) (w : Nat) : Buckets :=
  let k := (b.single w).length.log2
  let off := (b.single w).length - 2 ^ k
  { single := Function.update b.single w ((b.single w).take off)
    flat := Function.update b.flat (w + k) (b.flat (w + k) ++ [(b.single w).drop off]) }

/-- How many symbols the flat leaves hold. -/
def flatSymbols (b : Buckets) : Nat := ∑ v ∈ Finset.range 14, (b.flat v).flatten.length

end Buckets

theorem sum_update {α : Type} (F : Nat → α → Nat) (g : Nat → α) (x : α) {w N : Nat} (hw : w < N) :
    (∑ v ∈ Finset.range N, F v (Function.update g w x v)) + F w (g w) =
      (∑ v ∈ Finset.range N, F v (g v)) + F w x := by
  have hmem : w ∈ Finset.range N := Finset.mem_range.2 hw
  rw [← Finset.add_sum_erase _ _ hmem, ← Finset.add_sum_erase _ (fun v => F v (g v)) hmem,
    Function.update_self]
  have hrest : ∑ v ∈ (Finset.range N).erase w, F v (Function.update g w x v) =
      ∑ v ∈ (Finset.range N).erase w, F v (g v) := by
    refine Finset.sum_congr rfl fun v hv => ?_
    rw [Function.update_of_ne (Finset.ne_of_mem_erase hv)]
  omega

/-- Leaves while the symbols of weight `w` are peeled: those of a higher weight have been, those of a
lower one have not. -/
structure Partial (weightOf : UInt8 → Nat) (count : Nat → Nat) (tableLog w : Nat) (b : Buckets) :
    Prop where
  single_weight : ∀ v, ∀ s ∈ b.single v, weightOf s = v
  flat_weight : ∀ v, ∀ y ∈ b.flat v, ∃ k, 0 < k ∧ y.length = 2 ^ k ∧ ∀ s ∈ y, weightOf s + k = v
  single_le : ∀ v, (b.single v).length ≤ count v
  -- each weight from `w` on but lower than `v` has left at most one flat leaf
  flat_le : ∀ v, (b.flat v).length ≤ v - w
  -- the weight `w` has not left a flat leaf yet where it still can
  room : ∀ v, w < v → 2 ^ (v - w) ≤ (b.single w).length → (b.flat v).length < v - w
  flat_high : ∀ v, 14 ≤ v → b.flat v = []
  mass : (∑ v ∈ Finset.range 14, (b.single v).length * 2 ^ v) +
    ∑ v ∈ Finset.range 14, (b.flat v).length * 2 ^ v = 2 ^ (tableLog + 1)
  total : (∑ v ∈ Finset.range 14, (b.single v).length) + b.flatSymbols =
    ∑ v ∈ Finset.range 14, count v
  content : ∀ s, (∑ v ∈ Finset.range 14, (b.single v).count s) +
    ∑ v ∈ Finset.range 14, (b.flat v).flatten.count s = if weightOf s = 0 then 0 else 1

section

variable {weightOf : UInt8 → Nat} {count : Nat → Nat} {tableLog w : Nat} {b : Buckets}

theorem Partial.le_root (h : Partial weightOf count tableLog w b) (hw : w < 14)
    (hne : b.single w ≠ []) : w + (b.single w).length.log2 ≤ tableLog + 1 := by
  have hle : (b.single w).length * 2 ^ w ≤ 2 ^ (tableLog + 1) := by
    have := Finset.single_le_sum (f := fun v => (b.single v).length * 2 ^ v)
      (fun v _ => Nat.zero_le _) (Finset.mem_range.2 hw)
    have hmass := h.mass
    omega
  have hlog : 2 ^ (b.single w).length.log2 ≤ (b.single w).length :=
    Nat.log2_self_le (by simpa using hne)
  have hpow : 2 ^ (w + (b.single w).length.log2) ≤ 2 ^ (tableLog + 1) := by
    rw [Nat.pow_add, Nat.mul_comm]
    exact (Nat.mul_le_mul_right _ hlog).trans hle
  exact (Nat.pow_le_pow_iff_right (by decide)).1 hpow

theorem Partial.next (h : Partial weightOf count tableLog (w + 1) b) :
    Partial weightOf count tableLog w b where
  single_weight := h.single_weight
  flat_weight := h.flat_weight
  single_le := h.single_le
  flat_le v := (h.flat_le v).trans (by omega)
  room v hv _ := by
    have := h.flat_le v
    omega
  flat_high := h.flat_high
  mass := h.mass
  total := h.total
  content := h.content

theorem length_peeled {xs : List UInt8} (hlong : 2 < xs.length) :
    0 < xs.length.log2 ∧ (xs.take (xs.length - 2 ^ xs.length.log2)).length + 2 ^ xs.length.log2 =
        xs.length ∧
      (xs.drop (xs.length - 2 ^ xs.length.log2)).length = 2 ^ xs.length.log2 := by
  have hlog : 2 ^ xs.length.log2 ≤ xs.length := Nat.log2_self_le (by omega)
  have hpos : 1 ≤ xs.length.log2 := by
    rw [Nat.le_log2 (by omega)]
    omega
  rw [List.length_take, List.length_drop]
  generalize 2 ^ xs.length.log2 = p at *
  exact ⟨hpos, by omega, by omega⟩

/-- **A peel keeps the leaves well formed.** -/
theorem Partial.peel (h : Partial weightOf count tableLog w b) (hw : w < 14)
    (htable : tableLog < 13) (hlong : 2 < (b.single w).length) :
    Partial weightOf count tableLog w (b.peel w) := by
  have hroot := h.le_root hw (List.ne_nil_of_length_pos (by omega))
  obtain ⟨hk, htake, hdrop⟩ := length_peeled hlong
  have hlt : (b.single w).length < 2 ^ ((b.single w).length.log2 + 1) := Nat.lt_log2_self
  have hsplit := List.take_append_drop
    ((b.single w).length - 2 ^ (b.single w).length.log2) (b.single w)
  have hwk : w + (b.single w).length.log2 < 14 := by omega
  generalize hkdef : (b.single w).length.log2 = k at *
  generalize hx : (b.single w).take ((b.single w).length - 2 ^ k) = xs at *
  generalize hy : (b.single w).drop ((b.single w).length - 2 ^ k) = ys at *
  have hpeel : b.peel w = ⟨Function.update b.single w xs,
      Function.update b.flat (w + k) (b.flat (w + k) ++ [ys])⟩ := by
    rw [Buckets.peel, hkdef, hx, hy]
  have hsub : ∀ s ∈ xs, s ∈ b.single w := fun s hs => by
    rw [← hsplit]
    exact List.mem_append_left _ hs
  have hsub' : ∀ s ∈ ys, s ∈ b.single w := fun s hs => by
    rw [← hsplit]
    exact List.mem_append_right _ hs
  rw [hpeel]
  refine ⟨fun v s hs => ?_, fun v y hy => ?_, fun v => ?_, fun v => ?_, fun v hv hle => ?_,
    fun v hv => ?_, ?_, ?_, fun s => ?_⟩ <;> dsimp only at *
  · rcases eq_or_ne v w with rfl | hne
    · rw [Function.update_self] at hs
      exact h.single_weight v s (hsub s hs)
    · rw [Function.update_of_ne hne] at hs
      exact h.single_weight v s hs
  · rcases eq_or_ne v (w + k) with rfl | hne
    · rw [Function.update_self, List.mem_append, List.mem_singleton] at hy
      rcases hy with hy | rfl
      · exact h.flat_weight _ y hy
      · refine ⟨k, hk, hdrop, fun s hs => ?_⟩
        rw [h.single_weight w s (hsub' s hs)]
    · rw [Function.update_of_ne hne] at hy
      exact h.flat_weight v y hy
  · rcases eq_or_ne v w with rfl | hne
    · rw [Function.update_self]
      have := h.single_le v
      omega
    · rw [Function.update_of_ne hne]
      exact h.single_le v
  · rcases eq_or_ne v (w + k) with rfl | hne
    · rw [Function.update_self, List.length_append, List.length_singleton]
      have := h.room (w + k) (by omega) (by rw [Nat.add_sub_cancel_left]; omega)
      omega
    · rw [Function.update_of_ne hne]
      exact h.flat_le v
  · rw [Function.update_self] at hle
    rcases eq_or_ne v (w + k) with rfl | hne
    · rw [Nat.add_sub_cancel_left] at hle
      rw [Nat.pow_succ] at hlt
      omega
    · rw [Function.update_of_ne hne]
      exact h.room v hv (by omega)
  · rw [Function.update_of_ne (by omega)]
    exact h.flat_high v hv
  · have hsingle := sum_update (fun v (xs : List UInt8) => xs.length * 2 ^ v) b.single xs hw
    have hflat := sum_update (fun v (ys : List (List UInt8)) => ys.length * 2 ^ v) b.flat
      (b.flat (w + k) ++ [ys]) hwk
    have hmass := h.mass
    have hpow : 2 ^ (w + k) = 2 ^ k * 2 ^ w := by rw [Nat.pow_add, Nat.mul_comm]
    rw [← htake, Nat.add_mul] at hsingle
    rw [List.length_append, List.length_singleton, Nat.add_mul, Nat.one_mul] at hflat
    omega
  · have hsingle := sum_update (fun _ (xs : List UInt8) => xs.length) b.single xs hw
    have hflat := sum_update (fun _ (ys : List (List UInt8)) => ys.flatten.length) b.flat
      (b.flat (w + k) ++ [ys]) hwk
    have htotal := h.total
    rw [Buckets.flatSymbols] at htotal ⊢
    dsimp only at hsingle hflat ⊢
    rw [List.flatten_append, List.length_append, List.flatten_singleton] at hflat
    omega
  · have hsingle := sum_update (fun _ (xs : List UInt8) => xs.count s) b.single xs hw
    have hflat := sum_update (fun _ (ys : List (List UInt8)) => ys.flatten.count s) b.flat
      (b.flat (w + k) ++ [ys]) hwk
    have hcontent := h.content s
    have hcount : (b.single w).count s = xs.count s + ys.count s := by
      rw [← List.count_append, hsplit]
    rw [List.flatten_append, List.count_append, List.flatten_singleton] at hflat
    omega

end

/-- The weight of a symbol. -/
def weightOf (weights : List UInt8) (symbol : UInt8) : Nat :=
  (weights.getD symbol.toNat 0).toNat

/-- The symbols of a weight, in order. -/
def seeds (weights : List UInt8) (v : Nat) : List UInt8 :=
  if v = 0 then []
  else (weights.zipIdx.filter fun x => x.1.toNat = v).map fun x => UInt8.ofNat x.2

theorem seeds_append (xs : List UInt8) (w : UInt8) (v : Nat) :
    seeds (xs ++ [w]) v =
      seeds xs v ++ if w.toNat = v ∧ v ≠ 0 then [UInt8.ofNat xs.length] else [] := by
  rw [seeds, seeds]
  rcases Nat.eq_zero_or_pos v with rfl | hv
  · simp
  · rw [if_neg (by omega), if_neg (by omega), List.zipIdx_append, List.filter_append,
      List.map_append]
    by_cases hw : w.toNat = v
    · simp [hw, show v ≠ 0 by omega]
    · simp [hw]

theorem length_seeds (weights : List UInt8) (v : Nat) :
    (seeds weights v).length = seedCount weights v := by
  rw [seeds, seedCount]
  split
  · rfl
  · rw [List.length_map, ← List.countP_eq_length_filter, countOf]
    have hmap : weights.countP (fun w => w.toNat = v) =
        (weights.zipIdx.map Prod.fst).countP fun w => w.toNat = v := by
      rw [List.zipIdx_map_fst]
    rw [hmap, List.countP_map]
    rfl

section

variable {weights : List UInt8} {tableLog : Nat}

theorem mem_seeds (h : weights.length ≤ 256) {s : UInt8} {v : Nat} :
    s ∈ seeds weights v ↔ weightOf weights s = v ∧ v ≠ 0 := by
  rw [seeds, weightOf, List.getD]
  split
  · rename_i hv
    simp [hv]
  · rename_i hv
    simp only [List.mem_map, List.mem_filter, List.mem_zipIdx_iff_getElem?, decide_eq_true_eq]
    constructor
    · rintro ⟨⟨w, i⟩, ⟨hget, hw⟩, rfl⟩
      have hi : i < weights.length := (List.getElem?_eq_some_iff.1 hget).1
      have htoNat : (UInt8.ofNat i).toNat = i := UInt8.toNat_ofNat_of_lt' (by
        show i < 256
        omega)
      rw [htoNat, hget]
      exact ⟨hw, hv⟩
    · rintro ⟨hw, -⟩
      cases hget : weights[s.toNat]? with
      | none =>
          rw [hget] at hw
          exact absurd hw.symm hv
      | some w =>
          rw [hget] at hw
          exact ⟨(w, s.toNat), ⟨hget, hw⟩, UInt8.ofNat_toNat⟩

theorem nodup_seeds (h : weights.length ≤ 256) (v : Nat) : (seeds weights v).Nodup := by
  rw [seeds]
  split
  · exact List.nodup_nil
  · have hsub : ((weights.zipIdx.filter fun x => x.1.toNat = v).map Prod.snd).Sublist
        (List.range' 0 weights.length) := by
      rw [← List.zipIdx_map_snd 0 weights]
      exact List.filter_sublist.map _
    have hnodup := hsub.nodup List.nodup_range'
    rw [show (fun x : UInt8 × Nat => UInt8.ofNat x.2) = UInt8.ofNat ∘ Prod.snd from rfl,
      ← List.map_map]
    refine hnodup.map_on fun i hi j hj hij => ?_
    have hi := List.mem_range'_1.1 (hsub.subset hi)
    have hj := List.mem_range'_1.1 (hsub.subset hj)
    have := congrArg UInt8.toNat hij
    simp only [UInt8.toNat_ofNat'] at this
    omega

theorem count_seeds (h : weights.length ≤ 256) (s : UInt8) (v : Nat) :
    (seeds weights v).count s =
      if weightOf weights s = v then if weightOf weights s = 0 then 0 else 1 else 0 := by
  rw [(nodup_seeds h v).count]
  by_cases hv : weightOf weights s = v
  · subst hv
    rw [if_pos rfl]
    by_cases hzero : weightOf weights s = 0
    · rw [if_neg (fun hs => ((mem_seeds h).1 hs).2 hzero), if_pos hzero]
    · rw [if_pos ((mem_seeds h).2 ⟨rfl, hzero⟩), if_neg hzero]
  · rw [if_neg (fun hs => hv ((mem_seeds h).1 hs).1), if_neg hv]

theorem Accepted.weightOf_le (h : Accepted weights tableLog) (s : UInt8) :
    weightOf weights s ≤ 12 := by
  rw [weightOf, List.getD]
  cases hget : weights[s.toNat]? with
  | none => exact Nat.zero_le _
  | some w => exact h.le w (List.mem_of_getElem? hget)

/-- Before anything is peeled each symbol is a leaf. -/
def seedBuckets (weights : List UInt8) : Buckets := ⟨seeds weights, fun _ => []⟩

/-- **The seeds are well formed.** -/
theorem Partial.seeds (h : Accepted weights tableLog) (w : Nat) :
    Partial (weightOf weights) (seedCount weights) tableLog w (seedBuckets weights) where
  single_weight v s hs := ((mem_seeds h.length_le).1 hs).1
  flat_weight v y hy := nomatch hy
  single_le v := (length_seeds weights v).le
  flat_le v := Nat.zero_le _
  room v hv _ := Nat.sub_pos_of_lt hv
  flat_high v _ := rfl
  mass := by
    rw [← h.sum_seedCount_mul]
    simp [seedBuckets, length_seeds]
  total := by simp [seedBuckets, length_seeds, Buckets.flatSymbols]
  content s := by
    have hlt : weightOf weights s ∈ Finset.range 14 := by
      have := h.weightOf_le s
      exact Finset.mem_range.2 (by omega)
    simp only [seedBuckets, count_seeds h.length_le, Finset.sum_ite_eq, if_pos hlt,
      List.flatten_nil, List.count_nil, Finset.sum_const_zero, Nat.add_zero]

end

end OpenZL.Codecs.Pivco
