import Mathlib.Data.Nat.Bitwise
import OpenZL.Codecs.PivcoShape

/-!
# Walking a PivCo-Huffman tree

Both sides of the codec walk the built tree from its root: a node is a level and a range of ranks, and
`ZL_PivCoHuffmanTree_splitRank` finds where its two children meet.

Principal results: `Shape.codeword_add_le`, `Shape.split`, `build_wellFormed`.
-/

namespace OpenZL.Codecs.Pivco

open OpenZL.Lib

/-- The first rank of the `i`-th leaf. -/
def firstRank (ls : List (Nat × List UInt8)) (i : Nat) : Nat :=
  ((ls.take i).map fun l => l.2.length).sum

section

variable {ls : List (Nat × List UInt8)} {i j : Nat}

@[simp] theorem firstRank_zero (ls : List (Nat × List UInt8)) : firstRank ls 0 = 0 := rfl

theorem firstRank_succ (hi : i < ls.length) :
    firstRank ls (i + 1) = firstRank ls i + ls[i].2.length := by
  rw [firstRank, List.take_add_one, List.getElem?_eq_getElem hi, Option.toList_some, List.map_append,
    List.sum_append, firstRank, List.map_singleton, List.sum_singleton]

theorem firstRank_length (first : Nat) (ls : List (Nat × List UInt8)) :
    firstRank ls ls.length = (entries first ls).length := by
  rw [firstRank, List.take_length, length_entries, List.length_flatten, List.map_map]
  rfl

theorem firstRank_mono (hij : i ≤ j) (hj : j ≤ ls.length) : firstRank ls i ≤ firstRank ls j := by
  induction j, hij using Nat.le_induction with
  | base => exact Nat.le_refl _
  | succ j hij ih =>
      rw [firstRank_succ (by omega)]
      exact (ih (by omega)).trans (Nat.le_add_right _ _)

theorem exists_step {f : Nat → Nat} {x : Nat} (h : f 0 ≤ x) : ∀ {n : Nat}, x < f n →
    ∃ i < n, f i ≤ x ∧ x < f (i + 1)
  | 0, hn => absurd h (by omega)
  | n + 1, hn => by
      rcases Nat.lt_or_ge x (f n) with hlt | hge
      · obtain ⟨i, hi, hstep⟩ := exists_step h hlt
        exact ⟨i, by omega, hstep⟩
      · exact ⟨n, Nat.lt_succ_self n, hge, hn⟩

theorem entries_getElem? (hi : i < ls.length) (hj : j < ls[i].2.length) :
    (entries 0 ls)[firstRank ls i + j]? = some ⟨ls[i].2[j], ls[i].2.length.log2,
      Canonical.start 16 (ls.map Prod.fst) i +
        j * 2 ^ (16 - (ls[i].1 + ls[i].2.length.log2))⟩ := by
  have hsplit : ls = ls.take i ++ ls[i] :: ls.drop (i + 1) := by
    rw [← List.drop_eq_getElem_cons hi, List.take_append_drop]
  have hfirst : (entries 0 (ls.take i)).length = firstRank ls i := by
    rw [length_entries, List.length_flatten, List.map_map]
    rfl
  have hstart : ((ls.take i).map fun l => Canonical.size 16 l.1).sum =
      Canonical.start 16 (ls.map Prod.fst) i := by
    rw [Canonical.start, ← List.map_take, List.map_map]
    rfl
  have hentries : entries 0 ls = entries 0 (ls.take i) ++
      (leafEntries (Canonical.start 16 (ls.map Prod.fst) i) ls[i].1 ls[i].2 ++
        entries (Canonical.start 16 (ls.map Prod.fst) i + Canonical.size 16 ls[i].1)
          (ls.drop (i + 1))) := by
    conv_lhs => rw [hsplit]
    rw [entries_append, hstart, Nat.zero_add]
    rfl
  rw [hentries, List.getElem?_append_right (by omega), hfirst, Nat.add_sub_cancel_left,
    List.getElem?_append_left (by rw [leafEntries, List.length_map, List.length_zipIdx]; exact hj),
    leafEntries, List.getElem?_map, List.getElem?_zipIdx, List.getElem?_eq_getElem hj]
  simp

end

/-- The length of the code of a rank. -/
def codeLength (weights : List UInt8) (tree : PivCoHuffmanTree) (rank : Nat) : Nat :=
  tree.tableLog + 1 - weightOf weights (tree.rankToSymbol.getD rank 0)

theorem getD_of_take {α : Type} {l : List α} {es : List Entry} {f : Entry → α}
    (h : l.take es.length = es.map f) {r : Nat} {e : Entry} (he : es[r]? = some e) (d : α) :
    l.getD r d = f e := by
  have hr := (List.getElem?_eq_some_iff.1 he).1
  have hget : l[r]? = some (f e) := by
    rw [← List.getElem?_take_of_lt hr, h, List.getElem?_map, he]
    rfl
  rw [List.getD, hget, Option.getD_some]

/-! ## Places -/

/-- What the tree says about the `j`-th symbol of the `i`-th leaf. -/
structure Place (weights : List UInt8) (tree : PivCoHuffmanTree) (ls : List (Nat × List UInt8))
    (i j rank : Nat) : Prop where
  lt : i < ls.length
  lt_leaf : j < ls[i].2.length
  rank_eq : rank = firstRank ls i + j
  rank_lt : rank < tree.numRanks
  symbol : tree.rankToSymbol.getD rank 0 = ls[i].2[j]
  depth : 2 ^ tree.rankToFlatDepth.getD rank 0 = ls[i].2.length
  codeLength_eq : codeLength weights tree rank = ls[i].1 + tree.rankToFlatDepth.getD rank 0
  codeLength_le : codeLength weights tree rank ≤ 12
  codeword : tree.rankToCodeword.getD rank 0 = Canonical.start 16 (ls.map Prod.fst) i +
    j * 2 ^ (16 - codeLength weights tree rank)
  symbolToRank : tree.symbolToRank.getD (tree.rankToSymbol.getD rank 0).toNat 0 = rank

section

variable {weights : List UInt8} {tableLog : Nat} {tree : PivCoHuffmanTree}
  {ls : List (Nat × List UInt8)} (h : Shape weights tableLog tree ls)

include h

theorem Shape.place {i j : Nat} (hi : i < ls.length) (hj : j < ls[i].2.length) :
    Place weights tree ls i j (firstRank ls i + j) := by
  have hentry := entries_getElem? hi hj
  have hr := (List.getElem?_eq_some_iff.1 hentry).1
  obtain ⟨k, hk, hweight⟩ := h.leaf ls[i] (List.getElem_mem hi)
  rw [hk, Nat.log2_two_pow] at hentry
  have hsymbol := getD_of_take h.filled.symbols hentry 0
  have hdepth := getD_of_take h.filled.depths hentry 0
  have hcodeword := getD_of_take h.filled.codewords hentry 0
  have hranks := h.filled.ranks _ _ hentry
  dsimp only at hsymbol hdepth hcodeword hranks
  have hlength : codeLength weights tree (firstRank ls i + j) = ls[i].1 + k := by
    have := (hweight _ (List.getElem_mem hj)).2
    rw [codeLength, hsymbol, h.tableLog_eq]
    omega
  refine ⟨hi, hj, rfl, by rw [h.numRanks]; exact hr, hsymbol, by rw [hdepth, hk],
    by rw [hdepth, hlength], ?_, by rw [hcodeword, hlength], by rw [hsymbol, hranks]⟩
  have hne := hweight _ (List.getElem_mem hj)
  have htable := h.tableLog_le
  rw [hlength]
  omega

theorem Shape.exists_place {r : Nat} (hr : r < tree.numRanks) :
    ∃ i j, Place weights tree ls i j r := by
  rw [h.numRanks, ← firstRank_length] at hr
  obtain ⟨i, hi, hle, hlt⟩ := exists_step (f := firstRank ls) (Nat.zero_le r) hr
  rw [firstRank_succ hi] at hlt
  have hplace := h.place hi (show r - firstRank ls i < _ by omega)
  rw [Nat.add_sub_cancel' hle] at hplace
  exact ⟨i, r - firstRank ls i, hplace⟩

omit h in
theorem Place.codeword_ge {i j r : Nat} (hp : Place weights tree ls i j r) :
    Canonical.start 16 (ls.map Prod.fst) i ≤ tree.rankToCodeword.getD r 0 := by
  rw [hp.codeword]
  exact Nat.le_add_right _ _

omit h in
theorem Place.start_succ {i j r : Nat} (hp : Place weights tree ls i j r) :
    Canonical.start 16 (ls.map Prod.fst) (i + 1) = Canonical.start 16 (ls.map Prod.fst) i +
      2 ^ tree.rankToFlatDepth.getD r 0 * 2 ^ (16 - codeLength weights tree r) := by
  have hi := hp.lt
  have hlength := hp.codeLength_eq
  have hle := hp.codeLength_le
  rw [Canonical.start_succ (by rw [List.length_map]; exact hi), List.getElem_map, Canonical.size,
    ← Nat.pow_add]
  congr 2
  omega

omit h in
theorem Place.codeword_add_le {i j r : Nat} (hp : Place weights tree ls i j r) :
    tree.rankToCodeword.getD r 0 + 2 ^ (16 - codeLength weights tree r) ≤
      Canonical.start 16 (ls.map Prod.fst) (i + 1) := by
  have hj := hp.lt_leaf
  rw [← hp.depth] at hj
  rw [hp.codeword, hp.start_succ, Nat.add_assoc, ← Nat.succ_mul]
  exact Nat.add_le_add_left (Nat.mul_le_mul_right _ hj) _

omit h in
theorem Place.dvd_codeword {i j r : Nat} (hp : Place weights tree ls i j r)
    (hc : Canonical.Complete 16 (ls.map Prod.fst)) :
    2 ^ (16 - codeLength weights tree r) ∣ tree.rankToCodeword.getD r 0 := by
  have hi := hp.lt
  have hdvd := hc.dvd_start_getElem (i := i) (by rw [List.length_map]; exact hi)
  rw [List.getElem_map, Canonical.size] at hdvd
  rw [hp.codeword]
  refine Nat.dvd_add (Dvd.dvd.trans (Nat.pow_dvd_pow 2 ?_) hdvd) (Nat.dvd_mul_left _ _)
  rw [hp.codeLength_eq]
  omega

omit h in
theorem Place.codeLength_congr {i j j' r r' : Nat} (hp : Place weights tree ls i j r)
    (hp' : Place weights tree ls i j' r') :
    codeLength weights tree r = codeLength weights tree r' := by
  rw [hp.codeLength_eq, hp'.codeLength_eq,
    Nat.pow_right_injective (Nat.le_refl 2) (hp.depth.trans hp'.depth.symm)]

omit h in
theorem start_mono_levels {i j : Nat} (hij : i ≤ j) (hj : j ≤ ls.length) :
    Canonical.start 16 (ls.map Prod.fst) i ≤ Canonical.start 16 (ls.map Prod.fst) j :=
  Canonical.start_mono hij (by rwa [List.length_map])

/-- **Codewords do not overlap**: those of a rank end before those of a later one start. -/
theorem Shape.codeword_add_le {r r' : Nat} (hlt : r < r') (hr' : r' < tree.numRanks) :
    tree.rankToCodeword.getD r 0 + 2 ^ (16 - codeLength weights tree r) ≤
      tree.rankToCodeword.getD r' 0 := by
  obtain ⟨i, j, hp⟩ := h.exists_place (hlt.trans hr')
  obtain ⟨i', j', hp'⟩ := h.exists_place hr'
  have hi := hp.lt
  have hi' := hp'.lt
  have hrank := hp.rank_eq
  have hrank' := hp'.rank_eq
  have hj' := hp'.lt_leaf
  rcases Nat.lt_trichotomy i i' with hii | rfl | hii
  · exact hp.codeword_add_le.trans
      ((start_mono_levels hii (Nat.le_of_lt hi')).trans hp'.codeword_ge)
  · rw [hp.codeword, hp'.codeword, ← hp.codeLength_congr hp', Nat.add_assoc, ← Nat.succ_mul]
    exact Nat.add_le_add_left (Nat.mul_le_mul_right _ (by omega)) _
  · have hmono := @firstRank_mono ls (i' + 1) i hii (Nat.le_of_lt hi)
    rw [firstRank_succ hi'] at hmono
    omega

theorem Shape.exists_codeword {x : Nat} (hx : x < 2 ^ 16) : ∃ r < tree.numRanks,
    tree.rankToCodeword.getD r 0 ≤ x ∧
      x < tree.rankToCodeword.getD r 0 + 2 ^ (16 - codeLength weights tree r) := by
  have hfull := Canonical.start_length h.complete
  rw [List.length_map] at hfull
  obtain ⟨i, hi, hle, hlt⟩ := exists_step (f := Canonical.start 16 (ls.map Prod.fst))
    (Nat.zero_le x) (hfull.symm ▸ hx)
  have hpos : 0 < ls[i].2.length := by
    obtain ⟨k, hk, -⟩ := h.leaf ls[i] (List.getElem_mem hi)
    rw [hk]
    exact Nat.two_pow_pos k
  have hfirst := h.place hi hpos
  have hsucc := hfirst.start_succ
  have hstep := Nat.two_pow_pos (16 - codeLength weights tree (firstRank ls i + 0))
  generalize hs : 2 ^ (16 - codeLength weights tree (firstRank ls i + 0)) = s at *
  have hj : (x - Canonical.start 16 (ls.map Prod.fst) i) / s < ls[i].2.length := by
    rw [Nat.div_lt_iff_lt_mul hstep, ← hfirst.depth]
    omega
  have hp := h.place hi hj
  have hsame : 2 ^ (16 - codeLength weights tree (firstRank ls i +
      (x - Canonical.start 16 (ls.map Prod.fst) i) / s)) = s := by
    rw [hp.codeLength_congr hfirst, hs]
  refine ⟨_, hp.rank_lt, ?_, ?_⟩
  · rw [hp.codeword, hsame]
    have := Nat.div_mul_le_self (x - Canonical.start 16 (ls.map Prod.fst) i) s
    omega
  · rw [hp.codeword, hsame]
    have := Nat.lt_div_mul_add (a := x - Canonical.start 16 (ls.map Prod.fst) i) hstep
    omega

end

/-! ## Walks -/

/-- The nodes that both sides reach from the root of a tree. -/
inductive Reached (tree : PivCoHuffmanTree) : Nat → Nat → Nat → Prop
  | root : Reached tree 0 0 tree.numRanks
  | left {level firstRank rankEnd m : Nat} : Reached tree level firstRank rankEnd →
      rangeIsLeaf tree firstRank rankEnd = false →
      splitRank tree level firstRank rankEnd = some m → Reached tree (level + 1) firstRank m
  | right {level firstRank rankEnd m : Nat} : Reached tree level firstRank rankEnd →
      rangeIsLeaf tree firstRank rankEnd = false →
      splitRank tree level firstRank rankEnd = some m → Reached tree (level + 1) m rankEnd

section

variable {weights : List UInt8} {tableLog : Nat} {tree : PivCoHuffmanTree}
  {ls : List (Nat × List UInt8)} {L i j : Nat}

theorem and_mask_eq_zero {a x : Nat} (hL : L < 16) (hdvd : 2 ^ (16 - L) ∣ a) (hle : a ≤ x)
    (hlt : x < a + 2 ^ (16 - L)) :
    x &&& 0x8000 >>> L = 0 ↔ x < a + 2 ^ (16 - (L + 1)) := by
  obtain ⟨q, rfl⟩ := hdvd
  obtain ⟨d, rfl⟩ := Nat.exists_eq_add_of_le hle
  have hmask : 0x8000 >>> L = 2 ^ (15 - L) := by
    rw [Nat.shiftRight_eq_div_pow, show 0x8000 = 2 ^ 15 from rfl]
    exact Nat.pow_div (by omega) (by decide)
  have hpow : 2 ^ (16 - L) = 2 ^ (15 - L + 1) := by
    congr 1
    omega
  have hd : d < 2 ^ (15 - L + 1) := by omega
  have hbit : (2 ^ (16 - L) * q + d).testBit (15 - L) = d.testBit (15 - L) := by
    rw [hpow, Nat.testBit_two_pow_mul_add q hd, if_pos (Nat.lt_succ_self _)]
  rw [hmask, Nat.and_two_pow, hbit, show 16 - (L + 1) = 15 - L by omega]
  rcases Nat.lt_or_ge d (2 ^ (15 - L)) with hlow | hhigh
  · rw [Nat.testBit_lt_two_pow hlow]
    simpa using hlow
  · rw [Nat.testBit_of_two_pow_le_and_two_pow_add_one_gt hhigh hd]
    simp only [Bool.toNat_true, Nat.one_mul]
    omega

theorem scanRank_eq {mask rankEnd m : Nat} (hm : m < rankEnd)
    (hset : tree.rankToCodeword.getD m 0 &&& mask ≠ 0) : ∀ {fuel r : Nat}, r ≤ m → m < r + fuel →
    (∀ u, r ≤ u → u < m → tree.rankToCodeword.getD u 0 &&& mask = 0) →
    scanRank tree mask rankEnd fuel r = some m
  | 0, r, hr, hfuel, _ => by omega
  | fuel + 1, r, hr, hfuel, hclear => by
      rw [scanRank]
      rcases Nat.eq_or_lt_of_le hr with rfl | hlt
      · rw [if_neg hset, if_pos hm]
      · rw [if_pos (hclear r (Nat.le_refl r) hlt), if_pos (by omega)]
        exact scanRank_eq hm hset hlt (by omega) fun u hu => hclear u (by omega)

variable (h : Shape weights tableLog tree ls)

include h

theorem Shape.leaf_pos (hi : i < ls.length) : 0 < ls[i].2.length := by
  obtain ⟨k, hk, -⟩ := h.leaf ls[i] (List.getElem_mem hi)
  rw [hk]
  exact Nat.two_pow_pos k

theorem Shape.place_first (hi : i < ls.length) : Place weights tree ls i 0 (firstRank ls i) :=
  h.place hi (h.leaf_pos hi)

theorem Shape.firstRank_lt (hij : i < j) (hj : j ≤ ls.length) : firstRank ls i < firstRank ls j := by
  have hpos := h.leaf_pos (show i < ls.length by omega)
  have hmono := @firstRank_mono ls (i + 1) j hij hj
  rw [firstRank_succ (by omega)] at hmono
  omega

theorem Shape.rangeIsLeaf_iff (hij : i < j) (hj : j ≤ ls.length) :
    rangeIsLeaf tree (firstRank ls i) (firstRank ls j) = true ↔ j = i + 1 := by
  have hi : i < ls.length := by omega
  have hsucc := firstRank_succ hi
  have hdepth := (h.place_first hi).depth
  rw [rangeIsLeaf, decide_eq_true_eq, Nat.shiftLeft_eq, Nat.one_mul, hdepth]
  constructor
  · intro heq
    by_contra hne
    have hlt := @Shape.firstRank_lt _ _ _ _ (i + 1) j h (by omega) hj
    omega
  · rintro rfl
    omega

/-- **A node splits where two leaves meet.** -/
theorem Shape.split {m : Nat} (hnode : Canonical.Node 16 (ls.map Prod.fst) L i j) (hij : i + 1 < j)
    (hleft : Canonical.Node 16 (ls.map Prod.fst) (L + 1) i m)
    (hright : Canonical.Node 16 (ls.map Prod.fst) (L + 1) m j) :
    splitRank tree L (firstRank ls i) (firstRank ls j) = some (firstRank ls m) := by
  have hj : j ≤ ls.length := by
    have := hnode.le
    rwa [List.length_map] at this
  have him := hleft.lt
  have hmj := hright.lt
  have hi : i < ls.length := by omega
  have hm : m < ls.length := by omega
  have hfull := firstRank_length 0 ls
  rw [← h.numRanks] at hfull
  have hend := @firstRank_mono ls j ls.length hj (Nat.le_refl _)
  have hlevel : L < tree.numLevels := by
    have hlow := hnode.lt_level hij (by rw [List.length_map]; exact hi)
    rw [List.getElem_map] at hlow
    exact hlow.trans (h.level_lt _ (List.getElem_mem hi))
  have hL : L < 16 := hleft.level_le
  have hfirst := @Shape.firstRank_lt _ _ _ _ i m h him (Nat.le_of_lt hm)
  have hlast := @Shape.firstRank_lt _ _ _ _ m j h hmj hj
  -- the codewords of the left child have the bit clear
  have hclear (u : Nat) (hu : firstRank ls i ≤ u) (hum : u < firstRank ls m) :
      tree.rankToCodeword.getD u 0 &&& 0x8000 >>> L = 0 := by
    obtain ⟨a, b, hp⟩ := h.exists_place (r := u) (by omega)
    have ha := hp.lt
    have hb := hp.lt_leaf
    have hrank := hp.rank_eq
    have hia : i ≤ a := by
      by_contra hlt
      have := @firstRank_mono ls (a + 1) i (by omega) (Nat.le_of_lt hi)
      rw [firstRank_succ ha] at this
      omega
    have ham : a < m := by
      by_contra hge
      have := @firstRank_mono ls m a (by omega) (Nat.le_of_lt ha)
      omega
    have hge := (start_mono_levels hia (Nat.le_of_lt ha)).trans hp.codeword_ge
    have hle := hp.codeword_add_le.trans (start_mono_levels ham (Nat.le_of_lt hm))
    have hpos := Nat.two_pow_pos (16 - codeLength weights tree u)
    have hstop := hleft.stop
    have hhalf : 2 ^ (16 - (L + 1)) ≤ 2 ^ (16 - L) := Nat.pow_le_pow_right (by decide) (by omega)
    rw [and_mask_eq_zero hL hnode.dvd hge (by omega)]
    omega
  -- and the first of the right child has it set
  have hset : tree.rankToCodeword.getD (firstRank ls m) 0 &&& 0x8000 >>> L ≠ 0 := by
    have hcodeword := (h.place_first hm).codeword
    rw [Nat.zero_mul, Nat.add_zero, hleft.stop] at hcodeword
    have hhalf : 2 ^ (16 - (L + 1)) < 2 ^ (16 - L) := Nat.pow_lt_pow_right (by decide) (by omega)
    rw [hcodeword, ne_eq, and_mask_eq_zero hL hnode.dvd (Nat.le_add_right _ _) (by omega)]
    exact Nat.lt_irrefl _
  have hranks : tree.numRanks ≤ 256 := by
    have hlen := congrArg List.length h.filled.symbols
    rw [List.length_take, h.filled.length_symbols, List.length_map] at hlen
    rw [h.numRanks]
    omega
  rw [splitRank, if_pos ⟨hlevel, by omega, by omega, hclear _ (Nat.le_refl _) hfirst⟩]
  exact scanRank_eq hlast hset hfirst (show _ < _ + 256 by omega) fun u hu => hclear u (by omega)

theorem Shape.reached {first last : Nat} (hr : Reached tree L first last) :
    ∃ i j, Canonical.Node 16 (ls.map Prod.fst) L i j ∧ first = firstRank ls i ∧
      last = firstRank ls j := by
  have hchild {L i j m : Nat} (hnode : Canonical.Node 16 (ls.map Prod.fst) L i j)
      (hleaf : rangeIsLeaf tree (firstRank ls i) (firstRank ls j) = false)
      (hsplit : splitRank tree L (firstRank ls i) (firstRank ls j) = some m) :
      ∃ a, Canonical.Node 16 (ls.map Prod.fst) (L + 1) i a ∧
        Canonical.Node 16 (ls.map Prod.fst) (L + 1) a j ∧ m = firstRank ls a := by
    have hj : j ≤ ls.length := by
      have := hnode.le
      rwa [List.length_map] at this
    have hne : ¬ j = i + 1 := fun heq => by
      rw [(h.rangeIsLeaf_iff hnode.lt hj).2 heq] at hleaf
      cases hleaf
    have hij : i + 1 < j := by
      have := hnode.lt
      omega
    obtain ⟨a, hleft, hright⟩ := hnode.split h.complete hij
    rw [h.split hnode hij hleft hright] at hsplit
    exact ⟨a, hleft, hright, (Option.some.inj hsplit).symm⟩
  induction hr with
  | root =>
      have hroot := Canonical.Node.root h.complete
      rw [List.length_map] at hroot
      exact ⟨0, ls.length, hroot, rfl, by rw [h.numRanks, firstRank_length 0]⟩
  | left _ hleaf hsplit ih =>
      obtain ⟨i, j, hnode, rfl, rfl⟩ := ih
      obtain ⟨a, hleft, -, rfl⟩ := hchild hnode hleaf hsplit
      exact ⟨i, a, hleft, rfl, rfl⟩
  | right _ hleaf hsplit ih =>
      obtain ⟨i, j, hnode, rfl, rfl⟩ := ih
      obtain ⟨a, -, hright, rfl⟩ := hchild hnode hleaf hsplit
      exact ⟨a, j, hright, rfl, rfl⟩

end

/-! ## Well-formed trees -/

/-- What holds of a node. -/
structure NodeFits (weights : List UInt8) (tree : PivCoHuffmanTree)
    (level first last : Nat) : Prop where
  level_lt : level < tree.numLevels
  lt : first < last
  le : last ≤ tree.numRanks
  -- the ranks of a leaf have codes of one length, which start with the node's path
  leaf : rangeIsLeaf tree first last = true → ∀ r, first ≤ r → r < last →
    leafFlatDepth tree r = leafFlatDepth tree first ∧
      codeLength weights tree r = level + leafFlatDepth tree first
  inner : rangeIsLeaf tree first last = false → ∃ m, splitRank tree level first last = some m ∧
    first < m ∧ m < last ∧
      (rangeIsConstantLeaf tree m last = true → rangeIsConstantLeaf tree first m = true)

/-- What both sides rely on. -/
structure WellFormed (weights : List UInt8) (tree : PivCoHuffmanTree) : Prop where
  rank : ∀ s, weightOf weights s ≠ 0 → tree.symbolToRank.getD s.toNat 0 < tree.numRanks ∧
    tree.rankToSymbol.getD (tree.symbolToRank.getD s.toNat 0) 0 = s
  symbol : ∀ r < tree.numRanks, weightOf weights (tree.rankToSymbol.getD r 0) ≠ 0 ∧
    tree.symbolToRank.getD (tree.rankToSymbol.getD r 0).toNat 0 = r
  increasing : ∀ r r', r < r' → r' < tree.numRanks →
    tree.rankToCodeword.getD r 0 < tree.rankToCodeword.getD r' 0
  -- a codeword is `codeLength` bits, at the top of 16
  codeword : ∀ r < tree.numRanks, codeLength weights tree r ≤ tree.tableLog ∧
    2 ^ (16 - codeLength weights tree r) ∣ tree.rankToCodeword.getD r 0
  -- every 16 bits start with exactly one codeword
  complete : ∀ x < 2 ^ 16, ∃! r, r < tree.numRanks ∧
    x / 2 ^ (16 - codeLength weights tree r) =
      tree.rankToCodeword.getD r 0 / 2 ^ (16 - codeLength weights tree r)
  node : ∀ level first last, Reached tree level first last → NodeFits weights tree level first last

section

variable {weights : List UInt8} {tableLog : Nat} {tree : PivCoHuffmanTree}
  {ls : List (Nat × List UInt8)} (h : Shape weights tableLog tree ls)

include h

theorem Shape.symbol_ne_zero {r : Nat} (hr : r < tree.numRanks) :
    weightOf weights (tree.rankToSymbol.getD r 0) ≠ 0 := by
  obtain ⟨i, j, hp⟩ := h.exists_place hr
  have hi := hp.lt
  have hj := hp.lt_leaf
  obtain ⟨k, -, hweight⟩ := h.leaf ls[i] (List.getElem_mem hi)
  rw [hp.symbol]
  exact (hweight _ (List.getElem_mem hj)).1

theorem Shape.rank_lt {s : UInt8} (hs : weightOf weights s ≠ 0) :
    tree.symbolToRank.getD s.toNat 0 < tree.numRanks ∧
      tree.rankToSymbol.getD (tree.symbolToRank.getD s.toNat 0) 0 = s := by
  have hmem := (h.mem s).2 hs
  rw [← map_symbol_entries 0] at hmem
  obtain ⟨e, he, rfl⟩ := List.mem_map.1 hmem
  obtain ⟨r, hr, hre⟩ := List.getElem_of_mem he
  have hget : (entries 0 ls)[r]? = some e := by rw [List.getElem?_eq_getElem hr, hre]
  rw [h.filled.ranks r e hget]
  exact ⟨by rwa [h.numRanks], getD_of_take h.filled.symbols hget 0⟩

omit h in
theorem div_eq_div_iff_of_dvd {x c s : Nat} (hs : 0 < s) (hc : s ∣ c) :
    x / s = c / s ↔ c ≤ x ∧ x < c + s := by
  obtain ⟨q, rfl⟩ := hc
  rw [Nat.mul_div_cancel_left q hs, Nat.div_eq_iff hs]
  rw [Nat.mul_comm]
  omega

theorem Shape.exists_unique_codeword {x : Nat} (hx : x < 2 ^ 16) :
    ∃! r, r < tree.numRanks ∧ x / 2 ^ (16 - codeLength weights tree r) =
      tree.rankToCodeword.getD r 0 / 2 ^ (16 - codeLength weights tree r) := by
  have hiff {r : Nat} (hr : r < tree.numRanks) :
      x / 2 ^ (16 - codeLength weights tree r) =
        tree.rankToCodeword.getD r 0 / 2 ^ (16 - codeLength weights tree r) ↔
      tree.rankToCodeword.getD r 0 ≤ x ∧
        x < tree.rankToCodeword.getD r 0 + 2 ^ (16 - codeLength weights tree r) := by
    obtain ⟨i, j, hp⟩ := h.exists_place hr
    exact div_eq_div_iff_of_dvd (Nat.two_pow_pos _) (hp.dvd_codeword h.complete)
  obtain ⟨r, hr, hle, hlt⟩ := h.exists_codeword hx
  refine ⟨r, ⟨hr, (hiff hr).2 ⟨hle, hlt⟩⟩, fun r' ⟨hr', heq⟩ => ?_⟩
  obtain ⟨hle', hlt'⟩ := (hiff hr').1 heq
  rcases Nat.lt_trichotomy r r' with hrr | hrr | hrr
  · have := h.codeword_add_le hrr hr'
    omega
  · exact hrr.symm
  · have := h.codeword_add_le hrr hr
    omega

theorem Shape.nodeFits {level first last : Nat} (hr : Reached tree level first last) :
    NodeFits weights tree level first last := by
  obtain ⟨i, j, hnode, rfl, rfl⟩ := h.reached hr
  have hj : j ≤ ls.length := by
    have := hnode.le
    rwa [List.length_map] at this
  have hij := hnode.lt
  have hi : i < ls.length := by omega
  have hmem := List.getElem_mem hi
  have hlow := hnode.le_level (by rw [List.length_map]; exact hi)
  rw [List.getElem_map] at hlow
  refine ⟨Nat.lt_of_le_of_lt hlow (h.level_lt _ hmem), h.firstRank_lt hij hj, ?_,
    fun hleaf r hge hlt => ?_, fun hinner => ?_⟩
  · rw [h.numRanks, ← firstRank_length 0]
    exact firstRank_mono hj (Nat.le_refl _)
  · obtain rfl := (h.rangeIsLeaf_iff hij hj).1 hleaf
    have hlevel := hnode.leaf h.complete (by rw [List.length_map]; exact hi)
    rw [List.getElem_map] at hlevel
    rw [firstRank_succ hi] at hlt
    have hp := h.place hi (show r - firstRank ls i < _ by omega)
    rw [Nat.add_sub_cancel' hge] at hp
    have hdepth : leafFlatDepth tree r = leafFlatDepth tree (firstRank ls i) :=
      Nat.pow_right_injective (Nat.le_refl 2) (hp.depth.trans (h.place_first hi).depth.symm)
    refine ⟨hdepth, ?_⟩
    rw [hp.codeLength_eq, hlevel, ← hdepth]
    rfl
  · have hne : i + 1 < j := by
      have hnot : ¬ j = i + 1 := fun heq => by
        rw [(h.rangeIsLeaf_iff hij hj).2 heq] at hinner
        cases hinner
      omega
    obtain ⟨m, hleft, hright⟩ := hnode.split h.complete hne
    have him := hleft.lt
    have hmj := hright.lt
    refine ⟨_, h.split hnode hne hleft hright, h.firstRank_lt him (by omega),
      h.firstRank_lt hmj hj, fun hconst => ?_⟩
    rw [rangeIsConstantLeaf, Bool.and_eq_true, beq_iff_eq] at hconst ⊢
    -- the right child is one leaf, so the left one is, and the left one comes first in its bucket
    have hlast := (h.rangeIsLeaf_iff hmj hj).1 hconst.1
    have hfirst := hnode.sibling h.complete hleft hright hlast
    subst hfirst
    subst hlast
    have hm : i + 1 < ls.length := by omega
    refine ⟨(h.rangeIsLeaf_iff him (by omega)).2 rfl, ?_⟩
    have hlevelRight := hright.leaf h.complete (by rw [List.length_map]; exact hm)
    have hlevelLeft := hleft.leaf h.complete (by rw [List.length_map]; exact hi)
    rw [List.getElem_map] at hlevelRight hlevelLeft
    have hone : ls[i + 1].2.length = 1 := by
      rw [← (h.place_first hm).depth]
      exact (congrArg (2 ^ ·) hconst.2).trans rfl
    have horder := List.pairwise_iff_getElem.1 h.order i (i + 1) hi hm (Nat.lt_succ_self i)
      (hlevelLeft.trans hlevelRight.symm) hone
    have hdepth := (h.place_first hi).depth
    rw [horder] at hdepth
    exact Nat.pow_right_injective (Nat.le_refl 2) (hdepth.trans rfl)

theorem Shape.wellFormed : WellFormed weights tree where
  rank s hs := h.rank_lt hs
  symbol r hr := by
    obtain ⟨i, j, hp⟩ := h.exists_place hr
    exact ⟨h.symbol_ne_zero hr, hp.symbolToRank⟩
  increasing r r' hlt hr' := by
    have hle := h.codeword_add_le hlt hr'
    have hpos := Nat.two_pow_pos (16 - codeLength weights tree r)
    omega
  codeword r hr := by
    obtain ⟨i, j, hp⟩ := h.exists_place hr
    refine ⟨?_, hp.dvd_codeword h.complete⟩
    have hne := h.symbol_ne_zero hr
    rw [codeLength]
    omega
  complete x hx := h.exists_unique_codeword hx
  node level first last hr := h.nodeFits hr

end

/-- **The tree of accepted weights is well formed**, and its builder never runs out of room. -/
theorem build_wellFormed {weights : List UInt8} {tableLog : Nat}
    (haccepted : computeTableLog weights = some tableLog) (ssse3 : Bool) :
    ∃ builder tree, buildLeaves ssse3 weights tableLog = some builder ∧
      (∀ w, 1 ≤ w → w ≤ maxWeight →
        (bucketLeaves builder w).countP (fun leaf => leaf.numSymbols ≠ 1) ≤ w) ∧
      build ssse3 weights tableLog = some tree ∧ tree.tableLog = tableLog ∧
      WellFormed weights tree := by
  obtain ⟨builder, tree, ls, hbuilder, hflat, hbuild, hshape⟩ :=
    build_shape (accepted_of_computeTableLog haccepted) ssse3
  exact ⟨builder, tree, hbuilder, hflat, hbuild, hshape.tableLog_eq, hshape.wellFormed⟩

/-- Three codes of lengths 1, 2 and 2. -/
theorem build_wellFormed_three : ∃ builder tree, buildLeaves true [2, 1, 1] 2 = some builder ∧
    (∀ w, 1 ≤ w → w ≤ maxWeight →
      (bucketLeaves builder w).countP (fun leaf => leaf.numSymbols ≠ 1) ≤ w) ∧
    build true [2, 1, 1] 2 = some tree ∧ tree.tableLog = 2 ∧ WellFormed [2, 1, 1] tree :=
  build_wellFormed (by decide) true

end OpenZL.Codecs.Pivco
