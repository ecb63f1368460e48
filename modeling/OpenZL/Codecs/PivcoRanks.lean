import OpenZL.Codecs.PivcoBuild
import OpenZL.Lib.CanonicalLeaves

/-!
# Ranks and codewords of a PivCo-Huffman tree

`assignRanksAndCodewords` visits the leaves level by level from the root, and gives each symbol the
next rank and each leaf the next codewords of its level.

Principal results: `assignLevel_filled`, `assignRanks_filled`.
-/

namespace OpenZL.Codecs.Pivco

open OpenZL.Lib

/-- A symbol with its depth in its leaf and its codeword, at the top of 16 bits. -/
structure Entry where
  symbol : UInt8
  flatDepth : Nat
  codeword : Nat

/-- The entries of a leaf whose codewords start at `first`. -/
def leafEntries (first level : Nat) (y : List UInt8) : List Entry :=
  y.zipIdx.map fun x =>
    ⟨x.1, y.length.log2, first + x.2 * 2 ^ (16 - (level + y.length.log2))⟩

/-- The entries of leaves one after the other, each with its level. -/
def entries : Nat → List (Nat × List UInt8) → List Entry
  | _, [] => []
  | first, (level, y) :: ls => leafEntries first level y ++ entries (first + Canonical.size 16 level) ls

theorem map_symbol_leafEntries (first level : Nat) (y : List UInt8) :
    (leafEntries first level y).map Entry.symbol = y := by
  rw [leafEntries, List.map_map]
  exact List.zipIdx_map_fst 0 y

theorem map_symbol_entries : ∀ (first : Nat) (ls : List (Nat × List UInt8)),
    (entries first ls).map Entry.symbol = (ls.map Prod.snd).flatten
  | _, [] => rfl
  | first, (level, y) :: ls => by
      rw [entries, List.map_append, map_symbol_leafEntries, map_symbol_entries, List.map_cons,
        List.flatten_cons]

theorem length_entries (first : Nat) (ls : List (Nat × List UInt8)) :
    (entries first ls).length = (ls.map Prod.snd).flatten.length := by
  rw [← map_symbol_entries first, List.length_map]

theorem entries_append : ∀ (first : Nat) (xs ys : List (Nat × List UInt8)),
    entries first (xs ++ ys) =
      entries first xs ++ entries (first + (xs.map fun l => Canonical.size 16 l.1).sum) ys
  | _, [], _ => rfl
  | first, (level, y) :: xs, ys => by
      rw [List.cons_append, entries, entries_append, entries, List.append_assoc, List.map_cons,
        List.sum_cons, Nat.add_assoc]

/-- The arrays of a tree hold these entries, by rank. -/
structure Filled (tree : PivCoHuffmanTree) (es : List Entry) : Prop where
  length_ranks : tree.symbolToRank.length = 256
  length_symbols : tree.rankToSymbol.length = 256
  length_depths : tree.rankToFlatDepth.length = 256
  length_codewords : tree.rankToCodeword.length = 256
  symbols : tree.rankToSymbol.take es.length = es.map Entry.symbol
  depths : tree.rankToFlatDepth.take es.length = es.map Entry.flatDepth
  codewords : tree.rankToCodeword.take es.length = es.map Entry.codeword
  ranks : ∀ r e, es[r]? = some e → tree.symbolToRank.getD e.symbol.toNat 0 = r

theorem take_set_length {α : Type} {l : List α} {n : Nat} (h : n < l.length) (x : α) :
    (l.set n x).take (n + 1) = l.take n ++ [x] := by
  rw [List.take_add_one, List.take_set_of_le (Nat.le_refl n), List.getElem?_set_self h]
  rfl

theorem Filled.snoc {tree : PivCoHuffmanTree} {es : List Entry} (h : Filled tree es) {e : Entry}
    (hlt : es.length < 256) (hnew : e.symbol ∉ es.map Entry.symbol) :
    Filled
      { tree with
        symbolToRank := tree.symbolToRank.set e.symbol.toNat (es.length % 2 ^ 8)
        rankToSymbol := tree.rankToSymbol.set es.length e.symbol
        rankToFlatDepth := tree.rankToFlatDepth.set es.length e.flatDepth
        rankToCodeword := tree.rankToCodeword.set es.length e.codeword } (es ++ [e]) where
  length_ranks := by rw [List.length_set, h.length_ranks]
  length_symbols := by rw [List.length_set, h.length_symbols]
  length_depths := by rw [List.length_set, h.length_depths]
  length_codewords := by rw [List.length_set, h.length_codewords]
  symbols := by
    rw [List.length_append, List.length_singleton,
      take_set_length (by rw [h.length_symbols]; exact hlt), h.symbols, List.map_append]
    rfl
  depths := by
    rw [List.length_append, List.length_singleton,
      take_set_length (by rw [h.length_depths]; exact hlt), h.depths, List.map_append]
    rfl
  codewords := by
    rw [List.length_append, List.length_singleton,
      take_set_length (by rw [h.length_codewords]; exact hlt), h.codewords, List.map_append]
    rfl
  ranks r e' he' := by
    have hsymbol : e.symbol.toNat < tree.symbolToRank.length := by
      rw [h.length_ranks]
      exact e.symbol.toNat_lt
    rcases Nat.lt_or_ge r es.length with hr | hr
    · rw [List.getElem?_append_left hr] at he'
      have hne : e.symbol.toNat ≠ e'.symbol.toNat := fun heq => hnew (by
        rw [UInt8.toNat_inj.1 heq]
        exact List.mem_map_of_mem (List.mem_of_getElem? he'))
      have hold := h.ranks r e' he'
      rw [List.getD] at hold ⊢
      rw [List.getElem?_set_ne hne, hold]
    · rw [List.getElem?_append_right hr, List.getElem?_singleton] at he'
      split at he'
      · obtain rfl := Option.some.inj he'
        rw [List.getD, List.getElem?_set_self hsymbol, Option.getD_some]
        omega
      · cases he'

theorem symbolCodeword_eq {level k c i : Nat} (hbits : level + k ≤ 16) (hc : c < 2 ^ level)
    (hi : i < 2 ^ k) :
    (if level + k = 0 then 0 else (c <<< k + i) <<< (16 - (level + k)) % 2 ^ 16) =
      c * 2 ^ (16 - level) + i * 2 ^ (16 - (level + k)) := by
  have hpow : 2 ^ (16 - level) = 2 ^ k * 2 ^ (16 - (level + k)) := by
    rw [← Nat.pow_add]
    congr 1
    omega
  have hsum : c * 2 ^ (16 - level) + i * 2 ^ (16 - (level + k)) =
      (c * 2 ^ k + i) * 2 ^ (16 - (level + k)) := by
    rw [hpow, Nat.add_mul, Nat.mul_assoc]
  rw [hsum]
  split
  · rename_i hzero
    obtain ⟨rfl, rfl⟩ : level = 0 ∧ k = 0 := by omega
    obtain rfl : c = 0 := by simpa using hc
    obtain rfl : i = 0 := by simpa using hi
    rfl
  · rw [Nat.shiftLeft_eq, Nat.shiftLeft_eq, Nat.mod_eq_of_lt]
    have hlt : c * 2 ^ k + i < 2 ^ (level + k) := by
      rw [Nat.pow_add]
      calc c * 2 ^ k + i < c * 2 ^ k + 2 ^ k := Nat.add_lt_add_left hi _
        _ = (c + 1) * 2 ^ k := (Nat.succ_mul c _).symm
        _ ≤ 2 ^ level * 2 ^ k := Nat.mul_le_mul_right _ hc
    calc (c * 2 ^ k + i) * 2 ^ (16 - (level + k))
        < 2 ^ (level + k) * 2 ^ (16 - (level + k)) :=
          Nat.mul_lt_mul_of_pos_right hlt (Nat.two_pow_pos _)
      _ = 2 ^ 16 := by rw [← Nat.pow_add, Nat.add_sub_cancel' hbits]

theorem assignSymbols_filled {level k c rank : Nat} (hbits : level + k ≤ 16) (hc : c < 2 ^ level) :
    ∀ (symbols : List UInt8) (i : Nat) (tree : PivCoHuffmanTree) (es : List Entry),
    Filled tree es → es.length = rank + i → i + symbols.length ≤ 2 ^ k →
    es.length + symbols.length ≤ 256 → (es.map Entry.symbol ++ symbols).Nodup →
    Filled (assignSymbols level k c rank symbols i tree) (es ++ (symbols.zipIdx i).map fun x =>
      ⟨x.1, k, c * 2 ^ (16 - level) + x.2 * 2 ^ (16 - (level + k))⟩) ∧
      (assignSymbols level k c rank symbols i tree).numLevels = tree.numLevels ∧
      (assignSymbols level k c rank symbols i tree).tableLog = tree.tableLog
  | [], i, tree, es, h, _, _, _, _ => by
      simpa [assignSymbols] using h
  | s :: symbols, i, tree, es, h, hlen, hi, hle, hnodup => by
      rw [List.length_cons] at hi hle
      have hnew : s ∉ es.map Entry.symbol := fun hmem =>
        (List.nodup_append.1 hnodup).2.2 s hmem s List.mem_cons_self rfl
      have hsnoc := h.snoc
        (e := ⟨s, k, c * 2 ^ (16 - level) + i * 2 ^ (16 - (level + k))⟩) (by omega) hnew
      have ih := assignSymbols_filled hbits hc symbols (i + 1) _ _ hsnoc
        (by rw [List.length_append, List.length_singleton, hlen, Nat.add_assoc]) (by omega)
        (by rw [List.length_append, List.length_singleton]; omega)
        (by rwa [List.map_append, List.append_assoc])
      rw [assignSymbols, List.zipIdx_cons, List.map_cons]
      dsimp only at ih ⊢
      rw [symbolCodeword_eq hbits hc (by omega), ← hlen]
      rwa [List.append_assoc] at ih

/-- A stored leaf with the symbols it stands for. -/
def LeafOf (storage : List UInt8) (leaf : PivCoLeaf) (y : List UInt8) : Prop :=
  leaf.numSymbols = y.length ∧ Buffer.read storage leaf.symbolOffset leaf.numSymbols = y

theorem Represents.bucket {weights : List UInt8} {builder : PivCoBuilder} {b : Buckets}
    (h : Represents weights builder b) {w : Nat} (hw : 1 ≤ w) (hw' : w < 14) :
    List.Forall₂ (LeafOf builder.symbolStorage) (bucketLeaves builder w) (b.leaves w) := by
  have hget (i : Nat) (hi : i < (b.leaves w).length) := h.stores.holds w i _
    (List.getElem?_eq_getElem hi)
  have hread : ∀ i, i < (b.leaves w).length → (bucketLeaves builder w)[i]? =
      builder.leaves[offset (seedCount weights) w + i]? := by
    intro i hi
    rw [bucketLeaves, Buffer.read_eq, h.getD_offsets (by omega), h.counts w hw hw',
      List.getElem?_take_of_lt hi, List.getElem?_drop]
  have hlength : (bucketLeaves builder w).length = (b.leaves w).length := by
    refine Nat.le_antisymm ?_ ?_
    · rw [bucketLeaves, Buffer.read_eq, List.length_take, h.counts w hw hw']
      exact Nat.min_le_left _ _
    · rcases Nat.eq_zero_or_pos (b.leaves w).length with h0 | hpos
      · omega
      · have hlast := hread ((b.leaves w).length - 1) (by omega)
        obtain ⟨off, hleaf, -, -⟩ := hget ((b.leaves w).length - 1) (by omega)
        rw [hleaf] at hlast
        have := (List.getElem?_eq_some_iff.1 hlast).1
        omega
  refine List.forall₂_iff_get.2 ⟨hlength, fun i hi hi' => ?_⟩
  obtain ⟨off, hleaf, -, hsymbols⟩ := hget i hi'
  have hith := hread i hi'
  rw [hleaf, List.getElem?_eq_getElem hi] at hith
  rw [List.get_eq_getElem, List.get_eq_getElem, Option.some.inj hith]
  exact ⟨rfl, hsymbols⟩

theorem assignLevel_filled {builder : PivCoBuilder} {level : Nat} :
    ∀ {leaves : List PivCoLeaf} {ys : List (List UInt8)} (c : Nat) (tree : PivCoHuffmanTree)
      (es : List Entry), List.Forall₂ (LeafOf builder.symbolStorage) leaves ys → Filled tree es →
    (∀ y ∈ ys, ∃ k, y.length = 2 ^ k ∧ level + k ≤ 16) → c + ys.length ≤ 2 ^ level →
    es.length + ys.flatten.length ≤ 256 → (es.map Entry.symbol ++ ys.flatten).Nodup →
    ∃ tree', assignLevel level builder leaves c es.length tree =
        some (c + ys.length, es.length + ys.flatten.length, tree') ∧
      Filled tree' (es ++ entries (c * 2 ^ (16 - level)) (ys.map (level, ·))) ∧
      tree'.numLevels = tree.numLevels ∧ tree'.tableLog = tree.tableLog
    := by
  intro leaves ys c tree es hleaves
  induction hleaves generalizing c tree es with
  | nil => exact fun h _ _ _ _ => ⟨tree, rfl, by simpa [entries] using h, rfl, rfl⟩
  | @cons leaf y leaves ys hleaf hleaves ih =>
      intro h hys hc hle hnodup
      obtain ⟨hnum, hread⟩ := hleaf
      obtain ⟨k, hk, hbits⟩ := hys y List.mem_cons_self
      have hlog : y.length.log2 = k := by rw [hk, Nat.log2_two_pow]
      rw [List.length_cons] at hc
      rw [List.flatten_cons] at hnodup hle
      rw [List.length_append] at hle
      rw [← List.append_assoc] at hnodup
      obtain ⟨hfilled, hlevels, htable⟩ := @assignSymbols_filled level k c es.length hbits
        (show c < 2 ^ level by omega) y 0 tree es h rfl (by omega) (by omega)
        (List.nodup_append.1 hnodup).1
      have hentries : y.zipIdx.map (fun x =>
          (⟨x.1, k, c * 2 ^ (16 - level) + x.2 * 2 ^ (16 - (level + k))⟩ : Entry)) =
          leafEntries (c * 2 ^ (16 - level)) level y := by
        rw [leafEntries, hlog]
      rw [hentries] at hfilled
      have hlength : (es ++ leafEntries (c * 2 ^ (16 - level)) level y).length =
          es.length + y.length := by
        rw [List.length_append, leafEntries, List.length_map, List.length_zipIdx]
      obtain ⟨tree', hrun, hfilled', hlevels', htable'⟩ := ih (c + 1) _ _ hfilled
        (fun z hz => hys z (List.mem_cons_of_mem y hz)) (by omega)
        (by rw [hlength]; omega)
        (by rwa [List.map_append, map_symbol_leafEntries])
      refine ⟨tree', ?_, ?_, hlevels'.trans hlevels, htable'.trans htable⟩
      · rw [assignLevel, hread, hnum, hlog, if_pos ⟨hbits, show _ ≤ 256 by omega⟩]
        rw [← hlength, hrun, hlength, List.length_cons, List.flatten_cons, List.length_append,
          Nat.add_assoc, Nat.add_assoc, Nat.add_comm 1]
      · rw [List.map_cons, entries, ← List.append_assoc, Canonical.size]
        rwa [Nat.succ_mul] at hfilled'

/-- The leaves in the order of the visit: `n` levels from `level` on. -/
def listing (ls : Nat → List (List UInt8)) (tableLog : Nat) : Nat → Nat → List (Nat × List UInt8)
  | 0, _ => []
  | n + 1, level => (ls (tableLog + 1 - level)).map (level, ·) ++ listing ls tableLog n (level + 1)

theorem sum_size_level (level : Nat) (ys : List (List UInt8)) :
    ((ys.map (level, ·)).map fun l => Canonical.size 16 l.1).sum =
      ys.length * 2 ^ (16 - level) := by
  simp [Canonical.size, Function.comp_def]

/-- **All levels.** Each symbol of the leaves gets a rank. -/
theorem assignRanks_filled {builder : PivCoBuilder} {ls : Nat → List (List UInt8)} {tableLog : Nat}
    (htable : tableLog < 13)
    (hbucket : ∀ w, 1 ≤ w → w < 14 →
      List.Forall₂ (LeafOf builder.symbolStorage) (bucketLeaves builder w) (ls w))
    (hdepth : ∀ w, ∀ y ∈ ls w, ∃ k, y.length = 2 ^ k ∧ k < w) :
    ∀ (n level c : Nat) (tree : PivCoHuffmanTree) (es : List Entry), Filled tree es →
    tree.tableLog = tableLog → level + (n + 1) = tree.numLevels → tree.numLevels ≤ tableLog + 1 →
    c * 2 ^ (16 - level) +
      ((listing ls tableLog (n + 1) level).map fun l => Canonical.size 16 l.1).sum = 2 ^ 16 →
    es.length + ((listing ls tableLog (n + 1) level).map Prod.snd).flatten.length ≤ 256 →
    (es.map Entry.symbol ++ ((listing ls tableLog (n + 1) level).map Prod.snd).flatten).Nodup →
    ∃ tree', assignRanksAndCodewords builder (n + 1) level c es.length tree = some tree' ∧
      Filled tree'
        (es ++ entries (c * 2 ^ (16 - level)) (listing ls tableLog (n + 1) level)) ∧
      tree'.numRanks =
        (es ++ entries (c * 2 ^ (16 - level)) (listing ls tableLog (n + 1) level)).length ∧
      tree'.numLevels = tree.numLevels ∧ tree'.tableLog = tree.tableLog
  | n, level, c, tree, es, h, ht, hlevel, hnum, hsum, hle, hnodup => by
      have hlisting : listing ls tableLog (n + 1) level =
          (ls (tableLog + 1 - level)).map (level, ·) ++ listing ls tableLog n (level + 1) := rfl
      have hsnd : ((ls (tableLog + 1 - level)).map (level, ·)).map Prod.snd =
          ls (tableLog + 1 - level) := by
        rw [List.map_map]
        exact List.map_id _
      rw [hlisting, List.map_append, List.sum_append, sum_size_level] at hsum
      rw [hlisting, List.map_append, List.flatten_append, hsnd] at hle hnodup
      rw [List.length_append] at hle
      rw [← List.append_assoc] at hnodup
      rw [hlisting, entries_append, sum_size_level, ← Nat.add_mul, ← List.append_assoc]
      rw [← Nat.add_assoc, ← Nat.add_mul] at hsum
      have hpow : 2 ^ 16 = 2 ^ level * 2 ^ (16 - level) := by
        rw [← Nat.pow_add, Nat.add_sub_cancel' (by omega)]
      have hc : c + (ls (tableLog + 1 - level)).length ≤ 2 ^ level := by
        refine Nat.le_of_mul_le_mul_right ?_ (Nat.two_pow_pos (16 - level))
        rw [← hpow, ← hsum]
        exact Nat.le_add_right _ _
      obtain ⟨tree₁, hrun, hfilled, hlevels, htab⟩ := assignLevel_filled c tree es
        (hbucket (tableLog + 1 - level) (by omega) (by omega)) h
        (fun y hy => by
          obtain ⟨k, hk, hlt⟩ := hdepth _ y hy
          exact ⟨k, hk, by omega⟩) hc (by omega) (List.nodup_append.1 hnodup).1
      have hlength : (es ++ entries (c * 2 ^ (16 - level))
          ((ls (tableLog + 1 - level)).map (level, ·))).length =
          es.length + (ls (tableLog + 1 - level)).flatten.length := by
        rw [List.length_append, length_entries, hsnd]
      rw [assignRanksAndCodewords]
      simp only [ht, hrun, bind, Option.bind, hlevels]
      cases n with
      | zero =>
          -- the deepest level leaves no codeword
          rw [listing, List.map_nil, List.sum_nil, Nat.add_zero, hpow] at hsum
          have hfull : c + (ls (tableLog + 1 - level)).length = 2 ^ level :=
            Nat.eq_of_mul_eq_mul_right (Nat.two_pow_pos _) hsum
          rw [if_neg (show ¬ level + 1 < tree.numLevels by omega), assignRanksAndCodewords, hlevels,
            if_pos]
          · refine ⟨_, rfl, ?_, ?_, rfl, htab.trans ht⟩
            · rw [listing, entries, List.append_nil]
              exact ⟨hfilled.1, hfilled.2, hfilled.3, hfilled.4, hfilled.5, hfilled.6, hfilled.7,
                hfilled.8⟩
            · rw [listing, entries, List.append_nil, hlength]
          · refine ⟨?_, show _ ≤ 256 by omega⟩
            rw [hfull, Nat.shiftLeft_eq, Nat.one_mul]
            congr 1
            omega
      | succ n =>
          have hshift : (c + (ls (tableLog + 1 - level)).length) <<< 1 * 2 ^ (16 - (level + 1)) =
              (c + (ls (tableLog + 1 - level)).length) * 2 ^ (16 - level) := by
            rw [Nat.shiftLeft_eq, Nat.pow_one, Nat.mul_assoc, ← Nat.pow_succ']
            congr 2
            omega
          rw [if_pos (show level + 1 < tree.numLevels by omega), ← hlength]
          obtain ⟨tree', hrun', hfilled', hranks', hlevels', htab'⟩ :=
            assignRanks_filled htable hbucket hdepth n (level + 1) _ tree₁ _ hfilled
              (htab.trans ht) (by omega) (by omega) (by rw [hshift]; exact hsum)
              (by rw [hlength]; omega)
              (by rw [List.map_append, map_symbol_entries, hsnd]; exact hnodup)
          rw [hshift] at hfilled' hranks'
          exact ⟨tree', hrun', hfilled', hranks', hlevels'.trans hlevels,
            htab'.trans (htab.trans ht)⟩

end OpenZL.Codecs.Pivco
