import Mathlib.Algebra.BigOperators.Ring.Finset
import OpenZL.Codecs.PivcoRanks

/-!
# Shape of a PivCo-Huffman tree

What `ZL_PivCoHuffmanTree_build` makes of accepted weights: the leaves of a complete code, each with
the symbols of one weight, and every present symbol in exactly one leaf.

Principal results: `build_shape`.
-/

namespace OpenZL.Codecs.Pivco

open OpenZL.Lib

/-- A tree filled from the leaves of a complete code. -/
structure Shape (weights : List UInt8) (tableLog : Nat) (tree : PivCoHuffmanTree)
    (ls : List (Nat × List UInt8)) : Prop where
  tableLog_eq : tree.tableLog = tableLog
  tableLog_le : tableLog ≤ 12
  filled : Filled tree (entries 0 ls)
  numRanks : tree.numRanks = (entries 0 ls).length
  complete : Canonical.Complete 16 (ls.map Prod.fst)
  level_lt : ∀ l ∈ ls, l.1 < tree.numLevels
  leaf : ∀ l ∈ ls, ∃ k, l.2.length = 2 ^ k ∧
    ∀ s ∈ l.2, weightOf weights s ≠ 0 ∧ weightOf weights s + l.1 + k = tableLog + 1
  -- within a level, single symbols come first
  order : ls.Pairwise fun x y => x.1 = y.1 → y.2.length = 1 → x.2.length = 1
  nodup : (ls.map Prod.snd).flatten.Nodup
  mem : ∀ s, s ∈ (ls.map Prod.snd).flatten ↔ weightOf weights s ≠ 0

theorem minWeight_eq (counts : List Nat) : ∀ {fuel w v : Nat}, w ≤ v → v < w + fuel →
    counts.getD v 0 ≠ 0 → w ≤ minWeight counts fuel w ∧ minWeight counts fuel w ≤ v ∧
      ∀ u, w ≤ u → u < minWeight counts fuel w → counts.getD u 0 = 0
  | 0, w, v, hwv, hv, _ => by omega
  | fuel + 1, w, v, hwv, hv, hne => by
      rw [minWeight]
      split
      · rename_i hzero
        have hlt : w < v := by
          rcases Nat.eq_or_lt_of_le hwv with rfl | hlt
          · exact absurd hzero hne
          · exact hlt
        obtain ⟨hle, hmin, hall⟩ := @minWeight_eq counts fuel (w + 1) v hlt (by omega) hne
        refine ⟨by omega, hmin, fun u hu hum => ?_⟩
        rcases Nat.eq_or_lt_of_le hu with rfl | hlt
        · exact hzero
        · exact hall u hlt hum
      · exact ⟨Nat.le_refl w, hwv, fun u hu hum => absurd hum (by omega)⟩

section

variable {ls : Nat → List (List UInt8)} {tableLog : Nat}

theorem mem_listing : ∀ {n level : Nat} {l : Nat × List UInt8},
    l ∈ listing ls tableLog n level → level ≤ l.1 ∧ l.1 < level + n ∧ l.2 ∈ ls (tableLog + 1 - l.1)
  | 0, _, _, h => nomatch h
  | n + 1, level, l, h => by
      rw [listing, List.mem_append] at h
      rcases h with h | h
      · obtain ⟨y, hy, rfl⟩ := List.mem_map.1 h
        exact ⟨Nat.le_refl _, by omega, hy⟩
      · obtain ⟨hle, hlt, hmem⟩ := mem_listing h
        exact ⟨by omega, by omega, hmem⟩

theorem sum_listing_levels (g : Nat → List UInt8 → Nat) : ∀ (n level : Nat),
    ((listing ls tableLog n level).map fun l => g (tableLog + 1 - l.1) l.2).sum =
      ∑ j ∈ Finset.range n,
        ((ls (tableLog + 1 - (level + j))).map (g (tableLog + 1 - (level + j)))).sum
  | 0, _ => rfl
  | n + 1, level => by
      rw [listing, List.map_append, List.sum_append, sum_listing_levels g n (level + 1),
        Finset.sum_range_succ', Nat.add_comm, Nat.add_zero, List.map_map]
      congr 1
      refine Finset.sum_congr rfl fun j _ => ?_
      rw [Nat.add_assoc, Nat.add_comm 1 j]

theorem sum_listing (g : Nat → List UInt8 → Nat) {m : Nat} (hm : m ≤ tableLog + 1)
    (htable : tableLog ≤ 12) (hlow : ∀ v < m, ls v = [])
    (hhigh : ∀ v, tableLog + 1 < v → v < 14 → ls v = []) :
    ((listing ls tableLog (tableLog + 2 - m) 0).map fun l => g (tableLog + 1 - l.1) l.2).sum =
      ∑ v ∈ Finset.range 14, ((ls v).map (g v)).sum := by
  rw [sum_listing_levels]
  have hall : ∑ j ∈ Finset.range (tableLog + 2 - m),
      ((ls (tableLog + 1 - (0 + j))).map (g (tableLog + 1 - (0 + j)))).sum =
      ∑ j ∈ Finset.range (tableLog + 2),
        ((ls (tableLog + 2 - 1 - j)).map (g (tableLog + 2 - 1 - j))).sum := by
    refine Finset.sum_subset_zero_on_sdiff (Finset.range_mono (Nat.sub_le _ _)) (fun j hj => ?_)
      fun j _ => ?_
    · rw [Finset.mem_sdiff, Finset.mem_range, Finset.mem_range] at hj
      rw [hlow _ (by omega)]
      rfl
    · rw [Nat.zero_add]
      rfl
  rw [hall, Finset.sum_range_reflect (fun v => ((ls v).map (g v)).sum)]
  refine Finset.sum_subset (Finset.range_mono (by omega)) fun v hv hv' => ?_
  rw [Finset.mem_range] at hv hv'
  rw [hhigh v (by omega) hv]
  rfl

theorem pairwise_listing {R : List UInt8 → List UInt8 → Prop}
    (h : ∀ v, (ls v).Pairwise R) : ∀ n level : Nat,
    (listing ls tableLog n level).Pairwise fun x y => x.1 ≤ y.1 ∧ (x.1 = y.1 → R x.2 y.2)
  | 0, _ => List.Pairwise.nil
  | n + 1, level => by
      rw [listing, List.pairwise_append]
      refine ⟨?_, pairwise_listing h n (level + 1), fun x hx y hy => ?_⟩
      · rw [List.pairwise_map]
        exact (h _).imp fun hxy => ⟨Nat.le_refl _, fun _ => hxy⟩
      · obtain ⟨x, -, rfl⟩ := List.mem_map.1 hx
        have hle := (mem_listing hy).1
        exact ⟨by omega, fun heq => by omega⟩

end

section

variable {weights : List UInt8} {tableLog : Nat} {b : Buckets}

theorem sum_map_leaves (f : List UInt8 → Nat) (b : Buckets) (v : Nat) :
    ((b.leaves v).map f).sum = ((b.single v).map fun s => f [s]).sum + ((b.flat v).map f).sum := by
  rw [Buckets.leaves, List.map_append, List.sum_append, List.map_map]
  rfl

variable (h : Partial (weightOf weights) (seedCount weights) tableLog 0 b)

include h

theorem Partial.mass_leaves :
    ∑ v ∈ Finset.range 14, (b.leaves v).length * 2 ^ v = 2 ^ (tableLog + 1) := by
  rw [← h.mass, ← Finset.sum_add_distrib]
  refine Finset.sum_congr rfl fun v _ => ?_
  rw [Buckets.leaves, List.length_append, List.length_map, Nat.add_mul]

theorem Partial.count_leaves (s : UInt8) :
    ∑ v ∈ Finset.range 14, ((b.leaves v).map fun y => y.count s).sum =
      if weightOf weights s = 0 then 0 else 1 := by
  rw [← h.content, ← Finset.sum_add_distrib]
  refine Finset.sum_congr rfl fun v _ => ?_
  rw [sum_map_leaves, List.count_flatten]
  congr 1
  induction b.single v with
  | nil => rfl
  | cons x xs ih =>
      rw [List.map_cons, List.sum_cons, ih, ← List.count_append]
      rfl

theorem Partial.length_leaves (ha : Accepted weights tableLog) :
    ∑ v ∈ Finset.range 14, ((b.leaves v).map fun y => y.length).sum = numPresent weights := by
  rw [← ha.sum_seedCount, ← h.total, Buckets.flatSymbols, ← Finset.sum_add_distrib]
  refine Finset.sum_congr rfl fun v _ => ?_
  rw [sum_map_leaves, List.length_flatten]
  simp

theorem Partial.leaves_high {v : Nat} (hv : tableLog + 1 < v) (hv' : v < 14) :
    b.leaves v = [] := by
  have hle := Finset.single_le_sum (f := fun v => (b.leaves v).length * 2 ^ v)
    (fun v _ => Nat.zero_le _) (Finset.mem_range.2 hv')
  rw [h.mass_leaves] at hle
  rw [← List.length_eq_zero_iff]
  by_contra hne
  have hpow : 2 ^ (tableLog + 1) < 2 ^ v := Nat.pow_lt_pow_right (by decide) hv
  have hone : 2 ^ v ≤ (b.leaves v).length * 2 ^ v := Nat.le_mul_of_pos_left _ (by omega)
  omega

theorem Partial.leaves_lt (ha : Accepted weights tableLog) {v : Nat} {y : List UInt8}
    (hy : y ∈ b.leaves v) : v < 14 := by
  by_contra hv
  rw [Buckets.leaves, h.flat_high v (by omega), List.append_nil] at hy
  obtain ⟨s, hs, -⟩ := List.mem_map.1 hy
  have hweight := h.single_weight v s hs
  have hle := ha.weightOf_le s
  omega

theorem Partial.depth (ha : Accepted weights tableLog) {v : Nat} {y : List UInt8}
    (hy : y ∈ b.leaves v) : ∃ k, y.length = 2 ^ k ∧
      ∀ s ∈ y, weightOf weights s ≠ 0 ∧ weightOf weights s + k = v := by
  have hpresent (s : UInt8) (hs : s ∈ y) : weightOf weights s ≠ 0 := by
    intro hzero
    have hcount := h.count_leaves s
    rw [if_pos hzero, Finset.sum_eq_zero_iff] at hcount
    have hsum := hcount v (Finset.mem_range.2 (h.leaves_lt ha hy))
    have hle := List.single_le_sum (fun _ _ => Nat.zero_le _) _
      (List.mem_map_of_mem (f := fun y : List UInt8 => y.count s) hy)
    have hpos := List.count_pos_iff.2 hs
    omega
  rw [Buckets.leaves, List.mem_append] at hy
  rcases hy with hy | hy
  · obtain ⟨x, hx, rfl⟩ := List.mem_map.1 hy
    refine ⟨0, rfl, fun s hs => ⟨hpresent s hs, ?_⟩⟩
    rw [List.mem_singleton.1 hs, h.single_weight v x hx, Nat.add_zero]
  · obtain ⟨k, -, hlength, hweight⟩ := h.flat_weight v y hy
    exact ⟨k, hlength, fun s hs => ⟨hpresent s hs, hweight s hs⟩⟩

theorem Partial.order (v : Nat) :
    (b.leaves v).Pairwise fun x y => y.length = 1 → x.length = 1 := by
  have hflat : ∀ y ∈ b.flat v, y.length ≠ 1 := fun y hy hone => by
    obtain ⟨k, hk, hlength, -⟩ := h.flat_weight v y hy
    have := Nat.one_lt_two_pow (n := k) (by omega)
    omega
  rw [Buckets.leaves, List.pairwise_append]
  refine ⟨?_, ?_, fun x hx y hy hone => absurd hone (hflat y hy)⟩
  · rw [List.pairwise_map]
    exact List.pairwise_of_forall_mem_list fun _ _ _ _ _ => rfl
  · exact List.pairwise_of_forall_mem_list fun x _ y hy hone => absurd hone (hflat y hy)

theorem Partial.depth_lt (ha : Accepted weights tableLog) {v : Nat} {y : List UInt8}
    (hy : y ∈ b.leaves v) : ∃ k, y.length = 2 ^ k ∧ k < v := by
  obtain ⟨k, hlength, hweight⟩ := h.depth ha hy
  obtain ⟨s, hs⟩ := List.exists_mem_of_length_pos (l := y) (by
    rw [hlength]
    exact Nat.two_pow_pos k)
  have := hweight s hs
  exact ⟨k, hlength, by omega⟩

theorem Partial.leaves_zero (ha : Accepted weights tableLog) : b.leaves 0 = [] := by
  refine List.eq_nil_iff_forall_not_mem.2 fun y hy => ?_
  obtain ⟨k, -, hlt⟩ := h.depth_lt ha hy
  exact Nat.not_lt_zero k hlt

theorem Partial.count_flat_le (v : Nat) :
    (b.leaves v).countP (fun y => y.length ≠ 1) ≤ v := by
  have hflat := h.flat_le v
  have hle : (b.flat v).countP (fun y => y.length ≠ 1) ≤ (b.flat v).length :=
    List.countP_le_length
  have hsingle : ((b.single v).map ([·])).countP (fun y => y.length ≠ 1) = 0 := by
    rw [List.countP_eq_zero]
    simp
  rw [Buckets.leaves, List.countP_append, hsingle]
  omega

theorem Partial.exists_leaf (ha : Accepted weights tableLog) :
    ∃ v, 1 ≤ v ∧ v ≤ tableLog + 1 ∧ v < 14 ∧ (b.leaves v).length ≠ 0 := by
  have hpos := Nat.two_pow_pos (tableLog + 1)
  obtain ⟨v, hv, hne⟩ := Finset.exists_ne_zero_of_sum_ne_zero (s := Finset.range 14)
    (f := fun v => (b.leaves v).length * 2 ^ v) (by rw [h.mass_leaves]; omega)
  have hlt := Finset.mem_range.1 hv
  have hlen : (b.leaves v).length ≠ 0 := fun h0 => hne (by rw [h0, Nat.zero_mul])
  refine ⟨v, ?_, ?_, hlt, hlen⟩
  · rcases Nat.eq_zero_or_pos v with rfl | hpos
    · rw [h.leaves_zero ha] at hlen
      exact absurd rfl hlen
    · exact hpos
  · by_contra hhigh
    rw [h.leaves_high (by omega) hlt] at hlen
    exact hlen rfl

omit h

theorem countP_of_forall₂ {storage : List UInt8} {leaves : List PivCoLeaf}
    {ys : List (List UInt8)} (h : List.Forall₂ (LeafOf storage) leaves ys) :
    leaves.countP (fun leaf => leaf.numSymbols ≠ 1) = ys.countP fun y => y.length ≠ 1 := by
  induction h with
  | nil => rfl
  | cons hleaf _ ih => rw [List.countP_cons, List.countP_cons, ih, hleaf.1]

/-- **Accepted weights make a tree.** -/
theorem build_shape (ha : Accepted weights tableLog) (ssse3 : Bool) :
    ∃ builder tree ls, buildLeaves ssse3 weights tableLog = some builder ∧
      (∀ w, 1 ≤ w → w ≤ maxWeight →
        (bucketLeaves builder w).countP (fun leaf => leaf.numSymbols ≠ 1) ≤ w) ∧
      build ssse3 weights tableLog = some tree ∧ Shape weights tableLog tree ls := by
  have htable : tableLog ≤ 12 := ha.tableLog_le
  obtain ⟨builder, b, hbuild, hb, h⟩ := buildLeaves_eq ha ssse3
  obtain ⟨v, hv, hv', hv'', hne⟩ := h.exists_leaf ha
  obtain ⟨hm, hmv, hbelow⟩ := @minWeight_eq builder.weightCounts 16 1 v hv (by omega)
    (by rwa [hb.counts v hv hv''])
  generalize hmdef : minWeight builder.weightCounts 16 1 = m at *
  have hlow : ∀ u < m, b.leaves u = [] := fun u hu => by
    rcases Nat.eq_zero_or_pos u with rfl | hpos
    · exact h.leaves_zero ha
    · have hzero := hbelow u hpos hu
      rw [hb.counts u hpos (by omega)] at hzero
      exact List.length_eq_zero_iff.1 hzero
  have hsum (g : Nat → List UInt8 → Nat) := @sum_listing b.leaves tableLog g m
    (by omega) htable hlow fun u hu hu' => h.leaves_high hu hu'
  obtain ⟨n, hn⟩ : ∃ n, tableLog + 2 - m = n + 1 := ⟨tableLog + 1 - m, by omega⟩
  rw [hn] at hsum
  -- the leaves fill the tree
  have hfull : ((listing b.leaves tableLog (n + 1) 0).map fun l =>
      Canonical.size 16 l.1).sum = 2 ^ 16 := by
    have hsize : ((listing b.leaves tableLog (n + 1) 0).map fun l => Canonical.size 16 l.1) =
        (listing b.leaves tableLog (n + 1) 0).map fun l =>
          2 ^ (tableLog + 1 - l.1) * 2 ^ (15 - tableLog) := by
      refine List.map_congr_left fun l hl => ?_
      have hlt := (mem_listing hl).2.1
      rw [Canonical.size, ← Nat.pow_add]
      congr 1
      omega
    rw [hsize, hsum fun v _ => 2 ^ v * 2 ^ (15 - tableLog)]
    have hconst (v : Nat) : ((b.leaves v).map fun _ => 2 ^ v * 2 ^ (15 - tableLog)).sum =
        (b.leaves v).length * 2 ^ v * 2 ^ (15 - tableLog) := by
      rw [List.map_const', List.sum_replicate_nat, Nat.mul_assoc]
    simp only [hconst]
    rw [← Finset.sum_mul, h.mass_leaves, ← Nat.pow_add]
    congr 1
    omega
  -- and hold each present symbol once
  have hcount (s : UInt8) : (((listing b.leaves tableLog (n + 1) 0).map Prod.snd).flatten).count s =
      if weightOf weights s = 0 then 0 else 1 := by
    rw [List.count_flatten, List.map_map, ← h.count_leaves, ← hsum fun _ y => y.count s]
    rfl
  have hnodup : ((listing b.leaves tableLog (n + 1) 0).map Prod.snd).flatten.Nodup := by
    refine List.nodup_iff_count_le_one.2 fun s => ?_
    rw [hcount s]
    split <;> decide
  have hmem (s : UInt8) : s ∈ ((listing b.leaves tableLog (n + 1) 0).map Prod.snd).flatten ↔
      weightOf weights s ≠ 0 := by
    rw [← List.count_pos_iff, hcount s]
    split <;> simp_all
  have hlength : ((listing b.leaves tableLog (n + 1) 0).map Prod.snd).flatten.length ≤ 256 := by
    rw [List.length_flatten, List.map_map]
    have htotal := hsum fun _ y => y.length
    rw [h.length_leaves ha] at htotal
    exact htotal.le.trans (numPresent_le ha)
  obtain ⟨tree, hrun, hfilled, hranks, hlevels, htab⟩ :=
    @assignRanks_filled builder b.leaves tableLog (by omega)
    (fun w hw hw' => hb.bucket hw hw') (fun w y hy => h.depth_lt ha hy) n 0 0
    { symbolToRank := List.replicate maxSymbols 0
      rankToSymbol := List.replicate maxSymbols 0
      rankToFlatDepth := List.replicate maxSymbols 0
      rankToCodeword := List.replicate maxSymbols 0
      numLevels := n + 1
      numRanks := 0
      tableLog := tableLog } [] ⟨List.length_replicate, List.length_replicate,
        List.length_replicate, List.length_replicate, rfl, rfl, rfl, fun r e he => by cases he⟩
    rfl (Nat.zero_add _) (by dsimp only; omega) (by rw [hfull]; rfl)
    (by rw [List.length_nil, Nat.zero_add]; exact hlength) (by exact hnodup)
  rw [List.nil_append, Nat.zero_mul] at hfilled hranks
  refine ⟨builder, tree, _, hbuild, fun w hw hw' => ?_, ?_, ⟨htab, htable, hfilled, hranks, ?_,
    fun l hl => ?_, fun l hl => ?_, ?_, hnodup, hmem⟩⟩
  · rw [countP_of_forall₂ (hb.bucket hw (Nat.lt_succ_of_le hw'))]
    exact h.count_flat_le w
  · rw [build, hbuild]
    simp only [bind, Option.bind, hmdef, if_pos (show m ≤ tableLog + 1 by omega), hn]
    exact hrun
  · have hpairs := @pairwise_listing b.leaves tableLog _ h.order (n + 1) 0
    refine ⟨?_, fun l hl => ?_, ?_⟩
    · rw [List.pairwise_map]
      exact hpairs.imp fun hxy => hxy.1
    · obtain ⟨x, hx, rfl⟩ := List.mem_map.1 hl
      have hlt := (mem_listing hx).2.1
      omega
    · rw [List.map_map]
      exact hfull
  · rw [hlevels]
    exact (mem_listing hl).2.1.trans_eq (Nat.zero_add _)
  · obtain ⟨-, hlt, hy⟩ := mem_listing hl
    obtain ⟨k, hk, hweight⟩ := h.depth ha hy
    refine ⟨k, hk, fun s hs => ⟨(hweight s hs).1, ?_⟩⟩
    have := (hweight s hs).2
    omega
  · exact (pairwise_listing h.order (n + 1) 0).imp fun hxy => hxy.2

end

end OpenZL.Codecs.Pivco
