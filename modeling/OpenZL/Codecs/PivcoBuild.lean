import OpenZL.Codecs.PivcoBuckets

/-!
# Building the leaves of a PivCo-Huffman tree

The builder of `ZL_PivCoHuffmanTree_build` stores the leaves of each weight in the slots reserved
for it and their symbols in one storage.

Principal results: `seedLeaves_eq`, `peelLeaves_eq`, `buildLeaves_eq`.
-/

namespace OpenZL.Codecs.Pivco

open OpenZL.Lib

/-- The first slot of a weight. -/
def offset (count : Nat → Nat) (v : Nat) : Nat := ∑ i ∈ Finset.range v, (count i + i)

section

variable {count : Nat → Nat}

theorem offset_succ (count : Nat → Nat) (v : Nat) :
    offset count (v + 1) = offset count v + count v + v := by
  rw [offset, Finset.sum_range_succ, offset, Nat.add_assoc]

theorem offset_mono {u v : Nat} (h : u ≤ v) : offset count u ≤ offset count v := by
  induction v, h using Nat.le_induction with
  | base => exact Nat.le_refl _
  | succ v _ ih =>
      rw [offset_succ]
      omega

theorem slot_inj {u v i j : Nat} (hi : i < count u + u) (hj : j < count v + v)
    (h : offset count u + i = offset count v + j) : u = v ∧ i = j := by
  have hu := offset_succ count u
  have hv := offset_succ count v
  rcases Nat.lt_trichotomy u v with hlt | rfl | hlt
  · have := @offset_mono count (u + 1) v hlt
    omega
  · omega
  · have := @offset_mono count (v + 1) u hlt
    omega

end

section

variable {weights : List UInt8} {tableLog : Nat}

theorem offset_fourteen (h : Accepted weights tableLog) :
    offset (seedCount weights) 14 = numPresent weights + 91 := by
  rw [offset, Finset.sum_add_distrib, h.sum_seedCount]
  rfl

theorem layOut_eq (weights : List UInt8) : ∀ {n : Nat}, n ≤ 15 →
    layOut ((List.range 16).map (countOf weights)) n =
      (List.range (n + 1)).map (offset (seedCount weights))
  | 0, _ => rfl
  | 1, _ => by simp [layOut, List.range_succ, offset, seedCount]
  | n + 2, hn => by
      have hlast : ((List.range (n + 2)).map (offset (seedCount weights))).getD (n + 1) 0 =
          offset (seedCount weights) (n + 1) := by
        simp [List.getD]
      have hcount : ((List.range 16).map (countOf weights)).getD (n + 1) 0 =
          seedCount weights (n + 1) := by
        simp [List.getD, show n + 1 < 16 by omega, seedCount]
      rw [layOut, layOut_eq weights (by omega), hlast, hcount, ← offset_succ, ← List.map_singleton,
        ← List.map_append, ← List.range_succ]
      omega

end

/-- The slot holds a leaf with these symbols. -/
def Holds (builder : PivCoBuilder) (pos : Nat) (y : List UInt8) : Prop :=
  ∃ off, builder.leaves[pos]? = some ⟨off, y.length⟩ ∧ off + y.length ≤ builder.nextSymbol ∧
    Buffer.read builder.symbolStorage off y.length = y

/-- The builder stores these leaves, by weight. -/
structure Stores (count : Nat → Nat) (builder : PivCoBuilder) (ls : Nat → List (List UInt8)) :
    Prop where
  length_leaves : builder.leaves.length = leafStorageSize
  length_storage : builder.symbolStorage.length = symbolStorageSize
  next_le : builder.nextSymbol ≤ symbolStorageSize
  holds : ∀ v i y, (ls v)[i]? = some y → Holds builder (offset count v + i) y

section

variable {count : Nat → Nat} {builder : PivCoBuilder} {ls : Nat → List (List UInt8)}

theorem Stores.of_prefix {ls' : Nat → List (List UInt8)} (h : Stores count builder ls)
    (hls : ∀ v, ls' v <+: ls v) (counts : List Nat) :
    Stores count { builder with weightCounts := counts } ls' where
  length_leaves := h.length_leaves
  length_storage := h.length_storage
  next_le := h.next_le
  holds v i y hy := by
    have hi := (List.getElem?_eq_some_iff.1 hy).1
    refine h.holds v i y ?_
    rw [← hy]
    obtain ⟨t, ht⟩ := hls v
    rw [← ht, List.getElem?_append_left hi]

theorem Stores.put (h : Stores count builder ls) {u : Nat} {y : List UInt8} (counts : List Nat)
    (hroom : ∀ v, (ls v).length ≤ count v + v) (hu : (ls u).length < count u + u)
    (hpos : offset count u + (ls u).length < leafStorageSize)
    (hnext : builder.nextSymbol + y.length ≤ symbolStorageSize) :
    Stores count
      { builder with
        leaves := builder.leaves.set (offset count u + (ls u).length)
          ⟨builder.nextSymbol, y.length⟩
        symbolStorage := Buffer.write builder.symbolStorage builder.nextSymbol y
        weightCounts := counts
        nextSymbol := builder.nextSymbol + y.length }
      (Function.update ls u (ls u ++ [y])) where
  length_leaves := by rw [List.length_set, h.length_leaves]
  length_storage := by
    rw [Buffer.length_write (by rw [h.length_storage]; exact hnext), h.length_storage]
  next_le := hnext
  holds v i x hx := by
    have hold (hx : (ls v)[i]? = some x) (hne : offset count v + i ≠
        offset count u + (ls u).length) : Holds
        { builder with
          leaves := builder.leaves.set (offset count u + (ls u).length)
            ⟨builder.nextSymbol, y.length⟩
          symbolStorage := Buffer.write builder.symbolStorage builder.nextSymbol y
          weightCounts := counts
          nextSymbol := builder.nextSymbol + y.length } (offset count v + i) x := by
      obtain ⟨off, hleaf, hoff, hread⟩ := h.holds v i x hx
      refine ⟨off, ?_, Nat.le_add_right_of_le hoff, ?_⟩
      · rw [List.getElem?_set_ne (Ne.symm hne), hleaf]
      · rw [Buffer.read_write_before (by rw [h.length_storage]; exact h.next_le) hoff, hread]
    rcases eq_or_ne v u with rfl | hne
    · rw [Function.update_self] at hx
      rcases Nat.lt_or_ge i (ls v).length with hi | hi
      · rw [List.getElem?_append_left hi] at hx
        exact hold hx (by omega)
      · rw [List.getElem?_append_right hi, List.getElem?_singleton] at hx
        split at hx
        · obtain rfl := Option.some.inj hx
          obtain rfl : i = (ls v).length := by omega
          refine ⟨builder.nextSymbol, ?_, Nat.le_refl _, ?_⟩
          · rw [List.getElem?_set_self (by rw [h.length_leaves]; exact hpos)]
          · exact Buffer.read_write_self (by rw [h.length_storage]; exact h.next_le) y
        · cases hx
    · rw [Function.update_of_ne hne] at hx
      refine hold hx fun heq => hne ?_
      have hi := (List.getElem?_eq_some_iff.1 hx).1
      exact (slot_inj (Nat.lt_of_lt_of_le hi (hroom v)) hu heq).1

end

section

variable {weights : List UInt8} {tableLog : Nat}

/-- The next free slots once some symbols are seeded. -/
def slots (weights seeded : List UInt8) : List Nat :=
  (List.range 15).map fun v => offset (seedCount weights) v + (seeds seeded v).length

theorem getD_slots (weights xs : List UInt8) {v : Nat} (hv : v < 15) :
    (slots weights xs).getD v 0 = offset (seedCount weights) v + (seeds xs v).length := by
  simp [slots, List.getD, hv]

theorem seedBuckets_leaves (xs : List UInt8) (v : Nat) :
    (seedBuckets xs).leaves v = (seeds xs v).map ([·]) := List.append_nil _

theorem seedCount_append (xs ys : List UInt8) (v : Nat) :
    seedCount (xs ++ ys) v = seedCount xs v + seedCount ys v := by
  rw [seedCount, seedCount, seedCount, countOf_append]
  split <;> rfl

theorem seeds_append_zero (xs : List UInt8) : seeds (xs ++ [0]) = seeds xs := by
  funext v
  rw [seeds_append, if_neg, List.append_nil]
  rintro ⟨hv, hne⟩
  exact hne hv.symm

theorem leaves_seed (xs : List UInt8) {w : UInt8} (hw : w.toNat ≠ 0) :
    (seedBuckets (xs ++ [w])).leaves = Function.update (seedBuckets xs).leaves w.toNat
      ((seedBuckets xs).leaves w.toNat ++ [[UInt8.ofNat xs.length]]) := by
  funext v
  rw [seedBuckets_leaves, seeds_append]
  rcases eq_or_ne v w.toNat with rfl | hne
  · rw [if_pos ⟨rfl, hw⟩, Function.update_self, seedBuckets_leaves, List.map_append]
    rfl
  · rw [if_neg (fun h => hne h.1.symm), List.append_nil, Function.update_of_ne hne,
      seedBuckets_leaves]

theorem slots_seed (weights xs : List UInt8) {w : UInt8} (hw : w.toNat ≠ 0) :
    (slots weights xs).modify w.toNat (· + 1) = slots weights (xs ++ [w]) := by
  refine List.ext_getElem (by simp [slots]) fun v _ _ => ?_
  simp only [slots, List.getElem_modify, List.getElem_map, List.getElem_range, seeds_append]
  split
  · rename_i hv
    subst hv
    rw [if_pos ⟨rfl, hw⟩, List.length_append, List.length_singleton, Nat.add_assoc]
  · rename_i hv
    rw [if_neg (fun h => hv h.1), List.append_nil]

/-- **Every present symbol is seeded.** -/
theorem seedLeaves_eq (h : Accepted weights tableLog) : ∀ (rest xs : List UInt8)
    (builder : PivCoBuilder), weights = xs ++ rest →
    Stores (seedCount weights) builder (seedBuckets xs).leaves →
    builder.nextSymbol = numPresent xs →
    ∃ builder', seedLeaves rest xs.length (slots weights xs) builder = some builder' ∧
      Stores (seedCount weights) builder' (seedBuckets weights).leaves ∧
      builder'.nextSymbol = numPresent weights ∧
      builder'.weightCounts = builder.weightCounts ∧
      builder'.weightOffsets = builder.weightOffsets
  | [], xs, builder, hxs, hstores, hnext => by
      rw [List.append_nil] at hxs
      subst hxs
      exact ⟨builder, rfl, hstores, hnext, rfl, rfl⟩
  | w :: rest, xs, builder, hxs, hstores, hnext => by
      have hxs' : weights = xs ++ [w] ++ rest := by rw [List.append_assoc, hxs]; rfl
      have hlength : (xs ++ [w]).length = xs.length + 1 := by
        rw [List.length_append, List.length_singleton]
      rw [seedLeaves]
      by_cases hw : w = 0
      · subst hw
        rw [if_pos rfl, ← hlength]
        have hslots : slots weights xs = slots weights (xs ++ [0]) := by
          rw [slots, slots, seeds_append_zero]
        rw [hslots]
        refine seedLeaves_eq h rest (xs ++ [0]) builder hxs' ?_ ?_
        · rwa [seedBuckets, seeds_append_zero]
        · rw [hnext, numPresent, numPresent, List.countP_append]
          rfl
      · have hw' : w.toNat ≠ 0 := fun h0 => hw (UInt8.toNat_inj.1 h0)
        have hlt : w.toNat < 14 := h.lt_fourteen w (by rw [hxs]; simp)
        have hseeds : (seeds xs w.toNat).length < seedCount weights w.toNat := by
          have hone : seedCount (w :: rest) w.toNat ≠ 0 := by
            rw [seedCount, if_neg hw', countOf_cons, if_pos rfl]
            omega
          rw [length_seeds, hxs, seedCount_append]
          omega
        have hpresent : numPresent (xs ++ [w]) = numPresent xs + 1 := by
          rw [numPresent, numPresent, List.countP_append]
          simp [hw']
        have hnumLe : numPresent (xs ++ [w]) ≤ 256 := by
          have hle := numPresent_le h
          rw [hxs', numPresent, List.countP_append] at hle
          rw [numPresent]
          omega
        have hpos : offset (seedCount weights) w.toNat + (seeds xs w.toNat).length <
            leafStorageSize := by
          have hmono := @offset_mono (seedCount weights) (w.toNat + 1) 14 hlt
          have hle := numPresent_le h
          rw [offset_succ, offset_fourteen h] at hmono
          show _ < 347
          omega
        have hstorage : builder.nextSymbol + 1 ≤ symbolStorageSize := by
          show _ ≤ 512
          omega
        have hput := hstores.put (u := w.toNat) (y := [UInt8.ofNat xs.length])
          builder.weightCounts (fun v => by
            rw [seedBuckets_leaves, List.length_map, length_seeds, hxs, seedCount_append]
            omega)
          (by rw [seedBuckets_leaves, List.length_map]; omega)
          (by rwa [seedBuckets_leaves, List.length_map]) hstorage
        rw [← leaves_seed xs hw', seedBuckets_leaves, List.length_map] at hput
        rw [if_neg hw, appendSymbols, getD_slots weights xs (by omega),
          if_pos (show _ + [UInt8.ofNat xs.length].length ≤ _ from hstorage)]
        simp only [bind, Option.bind, if_pos hpos, slots_seed weights xs hw', ← hlength]
        exact seedLeaves_eq h rest (xs ++ [w]) _ hxs' hput (by
          rw [hpresent, ← hnext]
          rfl)

/-- The builder holds the buckets. -/
structure Represents (weights : List UInt8) (builder : PivCoBuilder) (b : Buckets) : Prop where
  stores : Stores (seedCount weights) builder b.leaves
  length_counts : builder.weightCounts.length = 16
  counts : ∀ v, 1 ≤ v → v < 14 → builder.weightCounts.getD v 0 = (b.leaves v).length
  offsets : builder.weightOffsets = (List.range 15).map (offset (seedCount weights))
  next : builder.nextSymbol = numPresent weights + b.flatSymbols

theorem Represents.getD_offsets {builder : PivCoBuilder} {b : Buckets}
    (h : Represents weights builder b) {v : Nat} (hv : v < 15) :
    builder.weightOffsets.getD v 0 = offset (seedCount weights) v := by
  simp [h.offsets, List.getD, hv]

theorem mapM_eq_some_map {α β : Type} {f : α → Option β} {g : α → β} : ∀ {l : List α},
    (∀ x ∈ l, f x = some (g x)) → l.mapM f = some (l.map g)
  | [], _ => rfl
  | x :: l, h => by
      rw [List.mapM_cons, h x List.mem_cons_self,
        mapM_eq_some_map fun y hy => h y (List.mem_cons_of_mem x hy)]
      rfl

theorem map_getD_range_drop {α : Type} (d : α) {xs : List α} {off n : Nat}
    (h : off + n = xs.length) : (List.range n).map (fun i => xs.getD (off + i) d) = xs.drop off := by
  refine List.ext_getElem (by rw [List.length_map, List.length_range, List.length_drop]; omega)
    fun i hi _ => ?_
  rw [List.length_map, List.length_range] at hi
  simp [List.getD, show off + i < xs.length by omega]

theorem getD_modify {l : List Nat} {v i : Nat} {f : Nat → Nat} (hv : v < l.length) :
    (l.modify i f).getD v 0 = if i = v then f (l.getD v 0) else l.getD v 0 := by
  rw [List.getD, List.getD, List.getElem?_modify, List.getElem?_eq_getElem hv]
  split <;> rfl

theorem childSymbol_eq {builder : PivCoBuilder} {pos : Nat} {s : UInt8}
    (h : Holds builder pos [s]) : childSymbol builder pos = some s := by
  obtain ⟨off, hleaf, -, hread⟩ := h
  have hget : builder.symbolStorage[off]? = some s := by
    have hhead := congrArg List.head? hread
    rwa [Buffer.read_eq, List.head?_take, List.length_singleton, if_neg (by decide),
      List.head?_drop] at hhead
  rw [childSymbol, List.getD, hleaf]
  simp [List.getD, hget]

variable {w : Nat} {builder : PivCoBuilder} {b : Buckets}

theorem Partial.leaves_eq {f : UInt8 → Nat} {c : Nat → Nat} (h : Partial f c tableLog w b) {v : Nat}
    (hv : v ≤ w) : b.leaves v = (b.single v).map ([·]) := by
  have hle := h.flat_le v
  rw [Nat.sub_eq_zero_of_le hv, Nat.le_zero, List.length_eq_zero_iff] at hle
  rw [Buckets.leaves, hle, List.append_nil]

theorem Partial.length_leaves_le {f : UInt8 → Nat} {c : Nat → Nat} (h : Partial f c tableLog w b)
    (v : Nat) : (b.leaves v).length ≤ c v + v := by
  have hsingle := h.single_le v
  have hflat := h.flat_le v
  rw [Buckets.leaves, List.length_append, List.length_map]
  omega

theorem peel_leaves_prefix {f : UInt8 → Nat} {c : Nat → Nat} (h : Partial f c tableLog w b)
    (hlong : 2 < (b.single w).length) (v : Nat) :
    (b.peel w).leaves v <+: Function.update b.leaves (w + (b.single w).length.log2)
      (b.leaves (w + (b.single w).length.log2) ++
        [(b.single w).drop ((b.single w).length - 2 ^ (b.single w).length.log2)]) v := by
  have hk := (length_peeled hlong).1
  rcases eq_or_ne v (w + (b.single w).length.log2) with rfl | hne
  · rw [Function.update_self, Buckets.leaves, Buckets.leaves, Buckets.peel]
    dsimp only
    rw [Function.update_self, Function.update_of_ne (by omega), List.append_assoc]
  · rw [Function.update_of_ne hne, Buckets.leaves, Buckets.leaves, Buckets.peel]
    dsimp only
    rw [Function.update_of_ne hne]
    rcases eq_or_ne v w with rfl | hvw
    · rw [Function.update_self]
      have hle := h.flat_le v
      rw [Nat.sub_self, Nat.le_zero, List.length_eq_zero_iff] at hle
      rw [hle, List.append_nil, List.append_nil]
      exact (List.take_prefix _ _).map _
    · rw [Function.update_of_ne hvw]

theorem peelLeaves_succ (ha : Accepted weights tableLog) (hb : Represents weights builder b)
    (h : Partial (weightOf weights) (seedCount weights) tableLog w b) (hw : 1 ≤ w) (hw' : w < 14)
    (hlong : 2 < (b.single w).length) (fuel : Nat) :
    ∃ builder', Represents weights builder' (b.peel w) ∧
      peelLeaves w (fuel + 1) builder = peelLeaves w fuel builder' := by
  have hroot := h.le_root hw' (List.ne_nil_of_length_pos (by omega))
  have htable : tableLog ≤ 12 := ha.tableLog_le
  obtain ⟨hk, htake, hdrop⟩ := length_peeled hlong
  have hprefix := peel_leaves_prefix h hlong
  have hpeel := h.peel hw' (by omega) hlong
  have hcounts := hb.counts w hw hw'
  rw [h.leaves_eq (Nat.le_refl w), List.length_map] at hcounts
  have hlog : 2 ^ (b.single w).length.log2 ≤ (b.single w).length := Nat.log2_self_le (by omega)
  generalize hkdef : (b.single w).length.log2 = k at *
  generalize hoffdef : (b.single w).length - 2 ^ k = off at *
  generalize hys : (b.single w).drop off = ys at *
  have hlen : off + 2 ^ k = (b.single w).length := by omega
  -- the symbols of the block
  have hchildren : ((List.range (2 ^ k)).mapM fun i =>
      childSymbol builder (builder.weightOffsets.getD w 0 + off + i)) = some ys := by
    rw [← hys, ← map_getD_range_drop 0 hlen]
    refine mapM_eq_some_map fun i hi => childSymbol_eq ?_
    have hi := List.mem_range.1 hi
    rw [hb.getD_offsets (by omega), Nat.add_assoc]
    refine hb.stores.holds w (off + i) _ ?_
    rw [h.leaves_eq (Nat.le_refl w), List.getElem?_map, List.getD,
      List.getElem?_eq_getElem (by omega)]
    rfl
  -- its leaf
  have hflat := h.room (w + k) (by omega) (by rw [Nat.add_sub_cancel_left]; exact hlog)
  have hless : (b.leaves (w + k)).length < seedCount weights (w + k) + (w + k) := by
    have hsingle := h.single_le (w + k)
    rw [Buckets.leaves, List.length_append, List.length_map]
    omega
  have hslot : offset (seedCount weights) (w + k) + (b.leaves (w + k)).length <
      offset (seedCount weights) (w + k + 1) := by
    rw [offset_succ]
    omega
  have hpos : offset (seedCount weights) (w + k) + (b.leaves (w + k)).length <
      leafStorageSize := by
    have hmono := @offset_mono (seedCount weights) (w + k + 1) 14 (by omega)
    have hle := numPresent_le ha
    rw [offset_fourteen ha] at hmono
    show _ < 347
    omega
  have hleaf : appendLeaf builder (w + k) ⟨builder.nextSymbol, 2 ^ k⟩ = some { builder with
      leaves := builder.leaves.set
        (offset (seedCount weights) (w + k) + (b.leaves (w + k)).length)
        ⟨builder.nextSymbol, ys.length⟩
      weightCounts := builder.weightCounts.modify (w + k) (· + 1) } := by
    rw [appendLeaf, if_pos (show w + k ≤ maxWeight from (by omega : w + k ≤ 13)),
      hb.getD_offsets (by omega),
      hb.getD_offsets (by omega), hb.counts (w + k) (by omega) (by omega)]
    rw [if_pos ⟨hslot, hpos⟩, hdrop]
  -- and its copy of the symbols
  have hsymbols : (b.peel w).flatSymbols = b.flatSymbols + ys.length := by
    have hsum := sum_update (fun _ (ys : List (List UInt8)) => ys.flatten.length) b.flat
      (b.flat (w + k) ++ [ys]) (show w + k < 14 by omega)
    rw [List.flatten_append, List.length_append, List.flatten_singleton] at hsum
    rw [Buckets.flatSymbols, Buckets.flatSymbols, Buckets.peel, hkdef, hoffdef, hys]
    dsimp only
    omega
  have hnext : builder.nextSymbol + ys.length ≤ symbolStorageSize := by
    have htotal := hpeel.total
    have hle := numPresent_le ha
    have hbnext := hb.next
    rw [ha.sum_seedCount] at htotal
    show _ ≤ 512
    omega
  have hput := hb.stores.put (u := w + k) (y := ys)
    ((builder.weightCounts.modify (w + k) (· + 1)).modify w (· - 2 ^ k)) h.length_leaves_le
    hless hpos hnext
  refine ⟨_, ⟨hput.of_prefix hprefix
    ((builder.weightCounts.modify (w + k) (· + 1)).modify w (· - 2 ^ k)), ?_, fun v hv hv' => ?_,
    hb.offsets, ?_⟩, ?_⟩
  · rw [List.length_modify, List.length_modify, hb.length_counts]
  · have hlength := hb.length_counts
    have hcount := hb.counts v hv hv'
    rw [getD_modify (by rw [List.length_modify]; omega), getD_modify (by omega), hcount,
      Buckets.leaves, Buckets.leaves, Buckets.peel, hkdef, hoffdef, hys]
    simp only [List.length_append, List.length_map]
    rcases eq_or_ne v w with rfl | hvw
    · rw [if_pos rfl, if_neg (by omega), Function.update_self, Function.update_of_ne (by omega)]
      omega
    · rw [if_neg (Ne.symm hvw), Function.update_of_ne hvw]
      rcases eq_or_ne v (w + k) with rfl | hne
      · rw [if_pos rfl, Function.update_self, List.length_append, List.length_singleton]
        omega
      · rw [if_neg (Ne.symm hne), Function.update_of_ne hne]
  · dsimp only
    rw [hb.next, hsymbols, Nat.add_assoc]
  · rw [peelLeaves, hcounts, if_pos hlong]
    dsimp only
    rw [hkdef, hoffdef, hchildren]
    simp only [bind, Option.bind, hleaf, appendSymbols, if_pos hnext]

theorem peelLeaves_eq (ha : Accepted weights tableLog) (hw : 1 ≤ w) (hw' : w < 14) :
    ∀ (fuel : Nat) (builder : PivCoBuilder) (b : Buckets), Represents weights builder b →
    Partial (weightOf weights) (seedCount weights) tableLog w b → (b.single w).length ≤ fuel →
    ∃ builder' b', peelLeaves w fuel builder = some builder' ∧ Represents weights builder' b' ∧
      Partial (weightOf weights) (seedCount weights) tableLog w b'
  | fuel, builder, b, hb, h, hfuel => by
      have hcount := hb.counts w hw hw'
      rw [h.leaves_eq (Nat.le_refl w), List.length_map] at hcount
      rcases Nat.lt_or_ge 2 (b.single w).length with hlong | hshort
      · cases fuel with
        | zero => omega
        | succ fuel =>
            obtain ⟨builder', hb', hrun⟩ := peelLeaves_succ ha hb h hw hw' hlong fuel
            have htable : tableLog ≤ 12 := ha.tableLog_le
            rw [hrun]
            refine peelLeaves_eq ha hw hw' fuel builder' _ hb' (h.peel hw' (by omega) hlong) ?_
            obtain ⟨-, htake, -⟩ := length_peeled hlong
            have hpos := Nat.two_pow_pos (b.single w).length.log2
            rw [Buckets.peel]
            dsimp only
            rw [Function.update_self]
            omega
      · refine ⟨builder, b, ?_, hb, h⟩
        cases fuel with
        | zero => rw [peelLeaves, hcount, if_neg (by omega)]
        | succ fuel => rw [peelLeaves, hcount, if_neg (by omega)]

theorem optimizeLeaves_eq (ha : Accepted weights tableLog) : ∀ {w : Nat}, w < 14 →
    ∀ (builder : PivCoBuilder) (b : Buckets), Represents weights builder b →
    Partial (weightOf weights) (seedCount weights) tableLog w b →
    ∃ builder' b', optimizeLeaves w builder = some builder' ∧ Represents weights builder' b' ∧
      Partial (weightOf weights) (seedCount weights) tableLog 0 b'
  | 0, _, builder, b, hb, h => ⟨builder, b, rfl, hb, h⟩
  | w + 1, hw, builder, b, hb, h => by
      have hcount := hb.counts (w + 1) (by omega) hw
      rw [h.leaves_eq (Nat.le_refl _), List.length_map] at hcount
      obtain ⟨builder₁, b₁, hrun, hb₁, h₁⟩ :=
        peelLeaves_eq ha (by omega) hw _ builder b hb h (Nat.le_of_eq hcount.symm)
      rw [optimizeLeaves, hrun]
      exact optimizeLeaves_eq ha (by omega) builder₁ b₁ hb₁ h₁.next

/-- **The builder never runs out of room, and holds well-formed leaves.** -/
theorem buildLeaves_eq (ha : Accepted weights tableLog) (ssse3 : Bool) :
    ∃ builder b, buildLeaves ssse3 weights tableLog = some builder ∧
      Represents weights builder b ∧
      Partial (weightOf weights) (seedCount weights) tableLog 0 b := by
  have htable : tableLog ≤ 12 := ha.tableLog_le
  have hcounts : countWeights ssse3 weights = (List.range 16).map (countOf weights) :=
    countWeights_eq ssse3 ha.length_le fun w hw => by
      have := ha.lt_fourteen w hw
      omega
  have hoffsets : layOut (countWeights ssse3 weights) (maxWeight + 1) =
      (List.range 15).map (offset (seedCount weights)) := by
    rw [hcounts]
    exact layOut_eq weights (by decide)
  have hslots : slots weights [] = (List.range 15).map (offset (seedCount weights)) := by
    refine List.map_congr_left fun v _ => ?_
    simp [seeds]
  have hempty : (seedBuckets []).leaves = fun _ => [] := by
    funext v
    rw [seedBuckets_leaves]
    simp [seeds]
  have hstart : Stores (seedCount weights)
      ⟨List.replicate leafStorageSize ⟨0, 0⟩, List.replicate symbolStorageSize 0,
        countWeights ssse3 weights, layOut (countWeights ssse3 weights) (maxWeight + 1), 0⟩
      (seedBuckets []).leaves := by
    refine ⟨List.length_replicate, List.length_replicate, Nat.zero_le _, fun v i y hy => ?_⟩
    rw [hempty] at hy
    cases hy
  obtain ⟨builder, hseed, hstores, hnext, hwc, hwo⟩ :=
    seedLeaves_eq ha weights [] _ rfl hstart rfl
  have hb : Represents weights builder (seedBuckets weights) := by
    refine ⟨hstores, ?_, fun v hv hv' => ?_, ?_, ?_⟩
    · rw [hwc]
      rw [hcounts, List.length_map, List.length_range]
    · rw [hwc]
      rw [hcounts, seedBuckets_leaves, List.length_map, length_seeds, seedCount,
        if_neg (by omega)]
      simp [List.getD, show v < 16 by omega]
    · rw [hwo]
      exact hoffsets
    · rw [hnext]
      simp [Buckets.flatSymbols, seedBuckets]
  obtain ⟨builder', b', hrun, hb', h'⟩ := optimizeLeaves_eq ha (by omega) builder
    (seedBuckets weights) hb (Partial.seeds ha tableLog)
  refine ⟨builder', b', ?_, hb', h'⟩
  rw [hslots, ← hoffsets, List.length_nil] at hseed
  rw [buildLeaves, hseed]
  exact hrun

end

end OpenZL.Codecs.Pivco
