import Mathlib.Data.List.GetD
import OpenZL.Codecs.Partition
import OpenZL.Codecs.PivcoWeights

/-!
# Which partition a value is in

Partitions tile a range of the 64-bit numbers, which may end at 2^64.

Principal results: `validate_iff`, `findBucket_spec`, `partitionLUT_spec`, `u32Partition_spec`.
-/

namespace OpenZL.Codecs.Partition

open OpenZL.Lib OpenZL.Codecs.Pivco

namespace PartitionParams

/-- The parameters are of the source's types. -/
def Words (params : PartitionParams) : Prop :=
  params.startValue < 2 ^ 64 ∧ ∀ size ∈ params.partitionSizes, size < 2 ^ 64

/-- The start of a partition, or the end of the last one. -/
def base (params : PartitionParams) (i : Nat) : Nat :=
  params.startValue + (params.partitionSizes.take i).sum

/-- What makes parameters valid. -/
structure Valid (params : PartitionParams) : Prop where
  pos : 0 < params.numPartitions
  le : params.numPartitions ≤ maxPartitions
  effect : ¬(params.numPartitions = 1 ∧ params.startValue = 0)
  sizes : ∀ size ∈ params.partitionSizes, size ≠ 0
  end_le : params.base params.numPartitions ≤ 2 ^ 64

theorem validateLoop_iff (sizes : List Nat) : ∀ {sum : Nat}, (∀ size ∈ sizes, size < 2 ^ 64) →
    sum < 2 ^ 64 → (validateLoop sizes sum = true ↔
      (∀ size ∈ sizes, size ≠ 0) ∧ sum + sizes.sum ≤ 2 ^ 64) := by
  induction sizes with
  | nil =>
    intro sum _ hsum
    rw [validateLoop, List.sum_nil]
    exact ⟨fun _ => ⟨nofun, hsum.le⟩, fun _ => rfl⟩
  | cons size sizes ih =>
    intro sum hlt hsum
    have hsize := hlt size List.mem_cons_self
    have hrest : ∀ s ∈ sizes, s < 2 ^ 64 := fun s hs => hlt s (List.mem_cons_of_mem _ hs)
    rw [validateLoop, List.sum_cons, List.forall_mem_cons]
    by_cases hzero : size = 0
    · rw [if_pos hzero]
      exact ⟨nofun, fun h => absurd hzero h.1.1⟩
    · rw [if_neg hzero]
      by_cases hover : 2 ^ 64 ≤ sum + size
      · by_cases hend : sizes = [] ∧ (sum + size) % 2 ^ 64 = 0
        · obtain ⟨rfl, hmod⟩ := hend
          rw [if_neg fun h => h.2 ⟨rfl, hmod⟩, validateLoop, List.sum_nil]
          exact ⟨fun _ => ⟨⟨hzero, nofun⟩, by omega⟩, fun _ => rfl⟩
        · rw [if_pos ⟨hover, hend⟩]
          refine ⟨nofun, fun h => ?_⟩
          obtain ⟨⟨-, hsizes⟩, hle⟩ := h
          refine absurd ⟨?_, by omega⟩ hend
          cases sizes with
          | nil => rfl
          | cons s sizes =>
            have := hsizes s List.mem_cons_self
            rw [List.sum_cons] at hle
            omega
      · have hfits := Nat.not_le.1 hover
        have hkeep : ¬(2 ^ 64 ≤ sum + size ∧ ¬(sizes = [] ∧ (sum + size) % 2 ^ 64 = 0)) :=
          fun h => hover h.1
        rw [if_neg hkeep, Nat.mod_eq_of_lt hfits, ih hrest hfits, Nat.add_assoc]
        exact ⟨fun h => ⟨⟨hzero, h.1⟩, h.2⟩, fun h => ⟨h.1.2, h.2⟩⟩

theorem base_end (params : PartitionParams) :
    params.base params.numPartitions = params.startValue + params.partitionSizes.sum := by
  rw [base, numPartitions, List.take_length]

/-- **What `validate` accepts.** -/
theorem validate_iff {params : PartitionParams} (h : params.Words) :
    params.validate = true ↔ params.Valid := by
  rw [validate]
  by_cases hnone : params.numPartitions = 0
  · rw [if_pos hnone]
    exact ⟨nofun, fun hv => absurd hv.pos (by omega)⟩
  · rw [if_neg hnone]
    by_cases hmany : params.numPartitions > maxPartitions
    · rw [if_pos hmany]
      exact ⟨nofun, fun hv => absurd hv.le (by omega)⟩
    · rw [if_neg hmany]
      by_cases heffect : params.numPartitions = 1 ∧ params.startValue = 0
      · rw [if_pos heffect]
        exact ⟨nofun, fun hv => absurd heffect hv.effect⟩
      · rw [if_neg heffect, validateLoop_iff _ h.2 h.1, ← base_end]
        exact ⟨fun hv => ⟨by omega, by omega, heffect, hv.1, hv.2⟩, fun hv => ⟨hv.sizes, hv.end_le⟩⟩

end PartitionParams

section Bases

variable {params : PartitionParams} {i j v : Nat}

theorem base_zero (params : PartitionParams) : params.base 0 = params.startValue := by
  rw [PartitionParams.base, List.take_zero, List.sum_nil, Nat.add_zero]

theorem base_succ (params : PartitionParams) (i : Nat) :
    params.base (i + 1) = params.base i + params.partitionSizes.getD i 0 := by
  rw [PartitionParams.base, PartitionParams.base, List.getD_eq_getElem?_getD]
  rcases Nat.lt_or_ge i params.partitionSizes.length with hi | hi
  · rw [List.take_succ_eq_append_getElem hi, List.sum_append, List.sum_singleton, Nat.add_assoc,
      List.getElem?_eq_getElem hi, Option.getD_some]
  · rw [List.take_of_length_le hi, List.take_of_length_le (by omega), List.getElem?_eq_none hi]
    rfl

theorem base_mono (h : i ≤ j) : params.base i ≤ params.base j := by
  induction j, h using Nat.le_induction with
  | base => exact Nat.le_refl _
  | succ j _ ih =>
    rw [base_succ]
    omega

theorem PartitionParams.Valid.size_pos (h : params.Valid) (hi : i < params.numPartitions) :
    0 < params.partitionSizes.getD i 0 := by
  have hmem : params.partitionSizes.getD i 0 ∈ params.partitionSizes := by
    rw [List.getD_eq_getElem _ _ hi]
    exact List.getElem_mem hi
  exact Nat.pos_of_ne_zero (h.sizes _ hmem)

theorem PartitionParams.Valid.base_lt (h : params.Valid) (hij : i < j)
    (hj : j ≤ params.numPartitions) : params.base i < params.base j := by
  have hsize := h.size_pos (show i < params.numPartitions by omega)
  have hmono := @base_mono params (i + 1) j hij
  rw [base_succ] at hmono
  omega

theorem PartitionParams.Valid.base_word (h : params.Valid) (hi : i < params.numPartitions) :
    params.base i < 2 ^ 64 := (h.base_lt hi (Nat.le_refl _)).trans_le h.end_le

theorem getElem?_basesFrom : ∀ (sizes : List Nat) (b i : Nat), i < sizes.length →
    b + (sizes.take i).sum < 2 ^ 64 →
      (PartitionParams.basesFrom b sizes)[i]? = some (b + (sizes.take i).sum)
  | [], _, _, hi, _ => absurd hi (Nat.not_lt_zero _)
  | size :: sizes, b, 0, _, _ => by
    rw [PartitionParams.basesFrom, List.getElem?_cons_zero, List.take_zero, List.sum_nil,
      Nat.add_zero]
  | size :: sizes, b, i + 1, hi, hlt => by
    rw [List.take_succ_cons, List.sum_cons, ← Nat.add_assoc] at hlt ⊢
    rw [PartitionParams.basesFrom, List.getElem?_cons_succ, Nat.mod_eq_of_lt (by omega)]
    exact getElem?_basesFrom sizes (b + size) i (Nat.lt_of_succ_lt_succ hi) hlt

theorem PartitionParams.Valid.bases (h : params.Valid) (hi : i < params.numPartitions) :
    params.computeBasesU64[i]? = some (params.base i) :=
  getElem?_basesFrom _ _ _ hi (h.base_word hi)

theorem PartitionParams.Valid.bases_getD (h : params.Valid) (hi : i < params.numPartitions) :
    params.computeBasesU64.getD i 0 = params.base i := by
  rw [List.getD_eq_getElem?_getD, h.bases hi, Option.getD_some]

theorem length_basesFrom : ∀ (b : Nat) (sizes : List Nat),
    (PartitionParams.basesFrom b sizes).length = sizes.length
  | _, [] => rfl
  | b, size :: sizes => by
    rw [PartitionParams.basesFrom, List.length_cons, length_basesFrom, List.length_cons]

theorem PartitionParams.Valid.maxValue (h : params.Valid) :
    params.maxValue + 1 = params.base params.numPartitions := by
  have hpos := h.pos
  have hlast : params.numPartitions - 1 < params.numPartitions := by omega
  have hsize := h.size_pos hlast
  have hend := h.end_le
  have hsucc := base_succ params (params.numPartitions - 1)
  rw [Nat.sub_add_cancel hpos] at hsucc
  have hbase : params.computeBasesU64.getLastD 0 = params.base (params.numPartitions - 1) := by
    have hlen : params.computeBasesU64.length = params.numPartitions := length_basesFrom _ _
    rw [List.getLastD_eq_getLast?, List.getLast?_eq_getElem?, hlen, h.bases hlast]
    rfl
  have hsizes : params.partitionSizes.getLastD 0 =
      params.partitionSizes.getD (params.numPartitions - 1) 0 := by
    rw [List.getLastD_eq_getLast?, List.getLast?_eq_getElem?, List.getD_eq_getElem?_getD]
    rfl
  rw [PartitionParams.maxValue, hbase, hsizes, Nat.mod_eq_of_lt (by omega)]
  omega

/-- The value is in the `i`-th partition. -/
def InBucket (params : PartitionParams) (i v : Nat) : Prop :=
  i < params.numPartitions ∧ params.base i ≤ v ∧ v < params.base (i + 1)

/-- The value is in some partition. -/
def Covers (params : PartitionParams) (v : Nat) : Prop :=
  params.startValue ≤ v ∧ v < params.base params.numPartitions

instance (params : PartitionParams) (v : Nat) : Decidable (Covers params v) :=
  inferInstanceAs (Decidable (_ ∧ _))

theorem InBucket.unique (h : InBucket params i v) (h' : InBucket params j v) : i = j := by
  obtain ⟨-, hi, hi'⟩ := h
  obtain ⟨-, hj, hj'⟩ := h'
  rcases Nat.lt_trichotomy i j with hlt | heq | hlt
  · have := @base_mono params (i + 1) j hlt
    omega
  · exact heq
  · have := @base_mono params (j + 1) i hlt
    omega

theorem InBucket.covers (h : InBucket params i v) : Covers params v := by
  have hstart := @base_mono params 0 i (Nat.zero_le i)
  have hend := @base_mono params (i + 1) params.numPartitions h.1
  rw [base_zero] at hstart
  exact ⟨hstart.trans h.2.1, h.2.2.trans_le hend⟩

end Bases

section Search

variable {params : PartitionParams} {v : Nat}

theorem findBucketLoop_spec (h : params.Valid) (hv : v < params.base params.numPartitions)
    (fuel : Nat) : ∀ {lo hi : Nat}, lo ≤ hi → hi ≤ lo + fuel → hi ≤ params.numPartitions →
      lo < params.numPartitions → params.base lo ≤ v →
      (hi < params.numPartitions → v < params.base (hi + 1)) →
        InBucket params
          (findBucketLoop v params.computeBasesU64 params.numPartitions fuel lo hi) v := by
  induction fuel with
  | zero =>
    intro lo hi hle hfuel hn hlo hbase hnext
    obtain rfl : lo = hi := by omega
    exact ⟨hlo, hbase, hnext hlo⟩
  | succ fuel ih =>
    intro lo hi hle hfuel hn hlo hbase hnext
    rw [findBucketLoop]
    by_cases hlt : lo < hi
    · rw [if_pos hlt]
      by_cases hmid : lo + (hi - lo) / 2 + 1 < params.numPartitions ∧
          params.computeBasesU64.getD (lo + (hi - lo) / 2 + 1) 0 ≤ v
      · rw [if_pos hmid]
        have hle' := hmid.2
        rw [h.bases_getD hmid.1] at hle'
        exact ih (by omega) (by omega) hn hmid.1 hle' hnext
      · rw [if_neg hmid]
        refine ih (by omega) (by omega) (by omega) hlo hbase fun hmidlt => ?_
        by_cases hlast : lo + (hi - lo) / 2 + 1 < params.numPartitions
        · have hgt := not_and.1 hmid hlast
          rw [h.bases_getD hlast] at hgt
          exact Nat.not_le.1 hgt
        · obtain heq : lo + (hi - lo) / 2 + 1 = params.numPartitions := by omega
          rwa [heq]
    · obtain rfl : lo = hi := by omega
      rw [if_neg hlt]
      exact ⟨hlo, hbase, hnext hlo⟩

/-- The partition that the generic encoder finds. -/
def bucketOf (params : PartitionParams) (v : Nat) : Nat :=
  findBucket v params.computeBasesU64 params.numPartitions params.maxValue

/-- **The search** finds the partition of a value. -/
theorem findBucket_spec (h : params.Valid) (hv : Covers params v) :
    InBucket params (bucketOf params v) v := by
  have hmax := h.maxValue
  obtain ⟨hstart, hlt⟩ := hv
  rw [← base_zero] at hstart
  have hin : ¬(v < params.computeBasesU64.getD 0 0 ∨ v > params.maxValue) := by
    rw [h.bases_getD h.pos]
    omega
  rw [bucketOf, findBucket, if_neg hin]
  exact findBucketLoop_spec h hlt _ (Nat.zero_le _) (by omega) (Nat.le_refl _) h.pos hstart
    fun hn => absurd hn (Nat.lt_irrefl _)

theorem findBucket_out (h : params.Valid) (hv : ¬Covers params v) :
    bucketOf params v = params.numPartitions := by
  have hmax := h.maxValue
  have hout : v < params.computeBasesU64.getD 0 0 ∨ v > params.maxValue := by
    rw [h.bases_getD h.pos, base_zero]
    rw [Covers] at hv
    omega
  rw [bucketOf, findBucket, if_pos hout]

theorem bucketOf_eq (h : params.Valid) {i : Nat} (hi : InBucket params i v) :
    bucketOf params v = i := (findBucket_spec h hi.covers).unique hi

end Search

theorem foldl_min_le {α : Type} (f : α → Nat) (xs : List α) : ∀ (z : Nat),
    xs.foldl (fun z x => min z (f x)) z ≤ z ∧ ∀ x ∈ xs, xs.foldl (fun z x => min z (f x)) z ≤ f x := by
  induction xs with
  | nil => exact fun z => ⟨Nat.le_refl _, nofun⟩
  | cons x xs ih =>
    intro z
    obtain ⟨hz, hxs⟩ := ih (min z (f x))
    rw [List.foldl_cons]
    refine ⟨hz.trans (Nat.min_le_left _ _), fun y hy => ?_⟩
    rcases List.mem_cons.1 hy with rfl | hy
    · exact hz.trans (Nat.min_le_right _ _)
    · exact hxs y hy

/-- All boundaries are multiples of `2 ^ k`. -/
structure Aligned (params : PartitionParams) (k : Nat) : Prop where
  start : 2 ^ k ∣ params.startValue
  sizes : ∀ size ∈ params.partitionSizes, 2 ^ k ∣ size

section Table

variable {params : PartitionParams} {k : Nat}

theorem getNumTrailingZeros_spec (hw : params.Words) (h : params.Valid) :
    ∃ k, params.getNumTrailingZeros = some k ∧ Aligned params k := by
  obtain ⟨hstart, hsizes⟩ := foldl_min_le PartitionParams.ctz64 params.partitionSizes
    (if params.startValue = 0 then 64 else PartitionParams.ctz64 params.startValue)
  obtain ⟨size, hsize⟩ := List.exists_mem_of_length_pos h.pos
  have hlt : PartitionParams.ctz64 size < 64 := ctz_lt (h.sizes size hsize) (hw.2 size hsize)
  have hle := hsizes size hsize
  rw [PartitionParams.getNumTrailingZeros, if_pos ((PartitionParams.validate_iff hw).2 h)]
  rw [if_pos (by omega)]
  refine ⟨_, rfl, ?_, fun size hsize => ?_⟩
  · by_cases hzero : params.startValue = 0
    · rw [hzero]
      exact Nat.dvd_zero _
    · rw [if_neg hzero] at hstart hle ⊢
      exact (Nat.pow_dvd_pow 2 hstart).trans (two_pow_ctz_dvd hzero hw.1)
  · exact (Nat.pow_dvd_pow 2 (hsizes size hsize)).trans
      (two_pow_ctz_dvd (h.sizes size hsize) (hw.2 size hsize))

theorem Aligned.base (h : Aligned params k) (i : Nat) : 2 ^ k ∣ params.base i :=
  Nat.dvd_add h.start (List.dvd_sum fun size hsize => h.sizes size (List.mem_of_mem_take hsize))

/-- The part of the table below partition `i` is filled: where values are, with the partition of
the values that an entry stands for. -/
structure Filled (params : PartitionParams) (k lutSize i : Nat) (lut : List Nat) : Prop where
  length : lut.length = min lutSize (params.base i / 2 ^ k)
  entry : ∀ j p, lut[j]? = some p → params.startValue / 2 ^ k ≤ j →
    InBucket params p (j * 2 ^ k)

variable (hvalid : params.Valid) (ha : Aligned params k)

include hvalid ha

theorem Filled.step {lutSize i : Nat} {lut : List Nat} (h : Filled params k lutSize i lut)
    (hi : i < params.numPartitions) (hlt : lut.length < lutSize) :
    Filled params k lutSize (i + 1) (lut ++ List.replicate
      (min lutSize (lut.length + params.partitionSizes.getD i 0 >>> k) - lut.length)
      (i % 2 ^ 8)) := by
  have hpos : 0 < 2 ^ k := Nat.two_pow_pos k
  have hlen : lut.length = params.base i / 2 ^ k := by
    have hmin := h.length
    omega
  have hle := hvalid.le
  have hmax : maxPartitions = 256 := rfl
  have hi8 : i % 2 ^ 8 = i := Nat.mod_eq_of_lt (by omega)
  have hsucc : params.base (i + 1) / 2 ^ k =
      lut.length + params.partitionSizes.getD i 0 >>> k := by
    rw [base_succ, Nat.add_div_of_dvd_right (ha.base i), Nat.shiftRight_eq_div_pow, hlen]
  rw [hi8]
  refine ⟨?_, fun j p hj hstart => ?_⟩
  · rw [List.length_append, List.length_replicate, hsucc]
    generalize params.partitionSizes.getD i 0 >>> k = n
    omega
  · rcases Nat.lt_or_ge j lut.length with hold | hnew
    · rw [List.getElem?_append_left hold] at hj
      exact h.entry j p hj hstart
    · rw [List.getElem?_append_right hnew, List.getElem?_replicate] at hj
      obtain ⟨hnum, heq⟩ := Option.ite_none_right_eq_some.1 hj
      obtain rfl : i = p := Option.some.inj heq
      refine ⟨hi, ?_, ?_⟩
      · calc params.base i = params.base i / 2 ^ k * 2 ^ k := (Nat.div_mul_cancel (ha.base i)).symm
          _ ≤ j * 2 ^ k := Nat.mul_le_mul_right _ (by omega)
      · calc j * 2 ^ k < params.base (i + 1) / 2 ^ k * 2 ^ k :=
              Nat.mul_lt_mul_of_pos_right (by omega) hpos
          _ = params.base (i + 1) := Nat.div_mul_cancel (ha.base (i + 1))

theorem buildPartitionLUTLoop_spec {lutSize : Nat} (sizes : List Nat) :
    ∀ {i : Nat} {lut : List Nat}, params.partitionSizes.drop i = sizes →
      i ≤ params.numPartitions → Filled params k lutSize i lut →
      Filled params k lutSize params.numPartitions (buildPartitionLUTLoop k lutSize sizes i lut)
    := by
  induction sizes with
  | nil =>
    intro i lut hdrop hi h
    have hend : params.numPartitions ≤ i := List.drop_eq_nil_iff.1 hdrop
    obtain rfl : i = params.numPartitions := by omega
    exact h
  | cons size sizes ih =>
    intro i lut hdrop hi h
    have hlt : i < params.numPartitions := by
      rcases Nat.lt_or_ge i params.partitionSizes.length with hlt | hge
      · exact hlt
      · rw [List.drop_eq_nil_of_le hge] at hdrop
        cases hdrop
    have hsize : params.partitionSizes.getD i 0 = size ∧
        params.partitionSizes.drop (i + 1) = sizes := by
      rw [List.drop_eq_getElem_cons hlt] at hdrop
      rw [List.getD_eq_getElem _ _ hlt]
      exact ⟨(List.cons.inj hdrop).1, (List.cons.inj hdrop).2⟩
    rw [buildPartitionLUTLoop]
    by_cases hfull : lut.length ≥ lutSize
    · rw [if_pos hfull]
      have hlen := h.length
      have hmono : params.base i / 2 ^ k ≤ params.base params.numPartitions / 2 ^ k :=
        Nat.div_le_div_right (base_mono hi)
      exact ⟨by omega, h.entry⟩
    · rw [if_neg hfull]
      have hstep := h.step hvalid ha hlt (Nat.not_le.1 hfull)
      rw [hsize.1] at hstep
      exact ih hsize.2 hlt hstep

/-- **The table of values** has the partition of each value. -/
theorem partitionLUT_spec {lutSize v : Nat} (hv : Covers params v) (hsize : v >>> k < lutSize) :
    (buildPartitionLUT params k lutSize)[v >>> k]? = some (bucketOf params v) := by
  have hpos : 0 < 2 ^ k := Nat.two_pow_pos k
  have hfirst : Filled params k lutSize 0
      (List.replicate (min lutSize (params.startValue >>> k)) 0) := by
    refine ⟨?_, fun j p hj hstart => ?_⟩
    · rw [List.length_replicate, base_zero, Nat.shiftRight_eq_div_pow]
    · have hlt := (List.getElem?_eq_some_iff.1 hj).1
      rw [List.length_replicate, Nat.shiftRight_eq_div_pow] at hlt
      omega
  have hfilled := buildPartitionLUTLoop_spec hvalid ha params.partitionSizes rfl
    (Nat.zero_le _) hfirst
  rw [buildPartitionLUT]
  generalize buildPartitionLUTLoop k lutSize params.partitionSizes 0
    (List.replicate (min lutSize (params.startValue >>> k)) 0) = lut at hfilled ⊢
  rw [Nat.shiftRight_eq_div_pow] at hsize ⊢
  have hend : v / 2 ^ k < params.base params.numPartitions / 2 ^ k := by
    rw [Nat.div_lt_iff_lt_mul hpos, Nat.div_mul_cancel (ha.base _)]
    exact hv.2
  have hlt : v / 2 ^ k < lut.length := by
    rw [hfilled.length]
    omega
  obtain ⟨p, hp⟩ : ∃ p, lut[v / 2 ^ k]? = some p := ⟨_, List.getElem?_eq_getElem hlt⟩
  obtain ⟨hn, hlow, hhigh⟩ := hfilled.entry _ p hp (Nat.div_le_div_right hv.1)
  have hdiv := Nat.div_add_mod' v (2 ^ k)
  have hnext : (v / 2 ^ k + 1) * 2 ^ k ≤ params.base (p + 1) := by
    rw [← Nat.div_mul_cancel (ha.base (p + 1))] at hhigh ⊢
    exact Nat.mul_le_mul_right _ (Nat.lt_of_mul_lt_mul_right hhigh)
  rw [Nat.add_mul, Nat.one_mul] at hnext
  rw [List.getElem?_append_left hlt, hp, bucketOf_eq hvalid ⟨hn, by omega, by omega⟩]

theorem partitionLUT_u16 {v : Nat} (hlargest : ∀ size ∈ params.partitionSizes, size ≤ 2 ^ 14)
    (hv : Covers params v) (hlt : v < 2 ^ 16) :
    (buildPartitionLUT params k (65536 >>> k))[v >>> k]? = some (bucketOf params v) := by
  refine partitionLUT_spec hvalid ha hv ?_
  obtain ⟨size, hsize⟩ := List.exists_mem_of_length_pos hvalid.pos
  have hle : 2 ^ k ≤ 2 ^ 14 :=
    (Nat.le_of_dvd (Nat.pos_of_ne_zero (hvalid.sizes size hsize)) (ha.sizes size hsize)).trans
      (hlargest size hsize)
  have hk : k ≤ 14 := (Nat.pow_le_pow_iff_right (by decide)).1 hle
  have hpow : 65536 = 2 ^ (16 - k) * 2 ^ k := by
    rw [← Nat.pow_add, Nat.sub_add_cancel (by omega)]
  rw [Nat.shiftRight_eq_div_pow, Nat.shiftRight_eq_div_pow,
    Nat.div_lt_iff_lt_mul (Nat.two_pow_pos k), hpow, Nat.mul_div_cancel _ (Nat.two_pow_pos k),
    ← hpow]
  exact hlt

end Table

section Logarithms

variable {params : PartitionParams} {k v : Nat}

/-- A boundary that one table or the other tells. -/
def Boundary (x : Nat) : Prop := x ≤ PB_LINEAR_THRESHOLD ∨ x = 2 ^ x.log2

theorem Boundary.of_supported {x prev : Nat} (h : u32BoundarySupported x prev = true) :
    Boundary x := by
  rw [u32BoundarySupported] at h
  by_cases hle : x ≤ PB_LINEAR_THRESHOLD
  · exact Or.inl hle
  · rw [if_neg hle, Bool.and_eq_true, Bool.and_eq_true] at h
    have hzero : x ≠ 0 := by
      rintro rfl
      exact hle (Nat.zero_le _)
    exact Or.inr ((isPow2_iff hzero).1 h.1.2)

theorem of_unless_false {c : Prop} [Decidable c] {b : Bool}
    (h : (if c then false else b) = true) : ¬c ∧ b = true := by
  by_cases hc : c
  · rw [if_pos hc] at h
    cases h
  · rw [if_neg hc] at h
    exact ⟨hc, h⟩

theorem canUseHybridLUTLoop_spec (sizes : List Nat) : ∀ {boundary prev : Nat},
    canUseHybridLUTLoop sizes boundary prev = true →
      boundary + sizes.sum ≤ 2 ^ 32 ∧
        ∀ i, 0 < i → i < sizes.length → Boundary (boundary + (sizes.take i).sum) := by
  induction sizes with
  | nil =>
    intro boundary prev h
    rw [canUseHybridLUTLoop] at h
    exact ⟨of_decide_eq_true h, fun i _ hi => absurd hi (Nat.not_lt_zero i)⟩
  | cons size sizes ih =>
    intro boundary prev h
    rw [canUseHybridLUTLoop] at h
    obtain ⟨-, h⟩ := of_unless_false h
    obtain ⟨hsupported, h⟩ := of_unless_false h
    obtain ⟨hend, hrest⟩ := ih h
    rw [List.sum_cons, ← Nat.add_assoc]
    refine ⟨hend, fun i hpos hi => ?_⟩
    obtain ⟨i, rfl⟩ : ∃ j, i = j + 1 := ⟨i - 1, by omega⟩
    rw [List.take_succ_cons, List.sum_cons, ← Nat.add_assoc]
    rw [List.length_cons] at hi
    rcases Nat.eq_zero_or_pos i with rfl | hi'
    · rw [List.take_zero, List.sum_nil, Nat.add_zero]
      have hne : sizes ≠ [] := List.ne_nil_of_length_pos (by omega)
      exact Boundary.of_supported (Bool.not_eq_false _ ▸ not_and.1 hsupported hne)
    · exact hrest i hi' (by omega)

theorem canUseHybridLUT_spec (h : canUseHybridLUT params = true) :
    params.base params.numPartitions ≤ 2 ^ 32 ∧
      ∀ i, i < params.numPartitions → Boundary (params.base i) := by
  rw [canUseHybridLUT] at h
  obtain ⟨hstart, h⟩ := of_unless_false h
  obtain ⟨hend, hrest⟩ := canUseHybridLUTLoop_spec params.partitionSizes h
  rw [PartitionParams.base_end]
  refine ⟨hend, fun i hi => ?_⟩
  rcases Nat.eq_zero_or_pos i with rfl | hpos
  · rw [base_zero]
    exact Boundary.of_supported (Bool.not_eq_false _ ▸ hstart)
  · exact hrest i hpos hi

theorem bucketOf_log2 (hvalid : params.Valid)
    (hbounds : ∀ i, i < params.numPartitions → Boundary (params.base i)) (hv : Covers params v)
    (hlarge : PB_LINEAR_THRESHOLD ≤ v) : bucketOf params (2 ^ v.log2) = bucketOf params v := by
  have hthreshold : PB_LINEAR_THRESHOLD = 2 ^ 16 := rfl
  have hne : v ≠ 0 := by omega
  obtain ⟨hn, hlow, hhigh⟩ := findBucket_spec hvalid hv
  refine bucketOf_eq hvalid ⟨hn, ?_, (Nat.log2_self_le hne).trans_lt hhigh⟩
  rcases hbounds _ hn with hsmall | hpow
  · have hlog : 16 ≤ v.log2 := (Nat.le_log2 hne).2 (by omega)
    have hmono : 2 ^ 16 ≤ 2 ^ v.log2 := Nat.pow_le_pow_right Nat.two_pos hlog
    omega
  · rw [hpow] at hlow ⊢
    exact Nat.pow_le_pow_right Nat.two_pos ((Nat.le_log2 hne).2 hlow)

/-- **The two tables** have the partition of each value. -/
theorem u32Partition_spec (hvalid : params.Valid) (ha : Aligned params k)
    (hhybrid : canUseHybridLUT params = true) (hv : Covers params v) :
    u32Partition (buildPartitionLUT params k (max 1 (PB_LINEAR_THRESHOLD >>> k)))
      (logPartitions params) k v = some (bucketOf params v) := by
  have hthreshold : PB_LINEAR_THRESHOLD = 2 ^ 16 := rfl
  obtain ⟨hend, hbounds⟩ := canUseHybridLUT_spec hhybrid
  rw [u32Partition]
  by_cases hsmall : v < PB_LINEAR_THRESHOLD
  · rw [if_pos hsmall]
    refine partitionLUT_spec hvalid ha hv ?_
    rw [Nat.shiftRight_eq_div_pow, Nat.shiftRight_eq_div_pow, lt_max_iff]
    rcases Nat.lt_or_ge v (2 ^ k) with hlt | hge
    · exact Or.inl (by rw [Nat.div_eq_of_lt hlt]; exact Nat.one_pos)
    · have hk : k ≤ 16 := (Nat.pow_le_pow_iff_right (by decide)).1 (by omega : 2 ^ k ≤ 2 ^ 16)
      have hpow : PB_LINEAR_THRESHOLD = 2 ^ (16 - k) * 2 ^ k := by
        rw [← Nat.pow_add, Nat.sub_add_cancel hk, hthreshold]
      refine Or.inr ?_
      rw [Nat.div_lt_iff_lt_mul (Nat.two_pow_pos k), hpow,
        Nat.mul_div_cancel _ (Nat.two_pow_pos k), ← hpow]
      exact hsmall
  · have hlarge := Nat.not_lt.1 hsmall
    have hne : v ≠ 0 := by omega
    have hlog : 16 ≤ v.log2 := (Nat.le_log2 hne).2 (by omega)
    have hlt : v.log2 < 32 := (Nat.log2_lt hne).2 (hv.2.trans_le hend)
    obtain ⟨hn, -, -⟩ := findBucket_spec hvalid hv
    have hle := hvalid.le
    have hmax : maxPartitions = 256 := rfl
    have hbits : PB_LINEAR_THRESHOLD_LOG + (v.log2 - PB_LINEAR_THRESHOLD_LOG) = v.log2 :=
      Nat.add_sub_cancel' hlog
    have hbuckets : v.log2 - PB_LINEAR_THRESHOLD_LOG < PB_U32_LOG_BUCKETS :=
      (by omega : v.log2 - 16 < 16)
    have hsame : findBucket (2 ^ v.log2) params.computeBasesU64 params.numPartitions
        params.maxValue = bucketOf params v := bucketOf_log2 hvalid hbounds hv hlarge
    rw [if_neg hsmall, logPartitions, List.getElem?_map, List.getElem?_range hbuckets,
      Option.map_some, hbits, hsame, if_pos hn, Nat.mod_eq_of_lt (by omega)]

end Logarithms

end OpenZL.Codecs.Partition
