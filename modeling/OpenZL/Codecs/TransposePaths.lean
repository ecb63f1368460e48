import OpenZL.Codecs.TransposeKernel
import Mathlib.Data.List.GetD

/-!
# The two ways to transpose

The vector code and the portable loops fill the same buffers with the same bytes.

Principal results: `encodeImpl_spec`, `encodeBlocks_spec`, `decodeImpl_spec`, `decodeBlocks_spec`,
`splitTransposeEncode_spec`, `splitTransposeDecode_spec`.
-/

namespace OpenZL.Codecs.Transpose

open OpenZL.Lib OpenZL.Lib.Shuffles OpenZL.Codecs.Copy

theorem store_spec {goal buf xs : List UInt8} {cells cells' : Nat → Prop} {pos k : Nat}
    (h : Settled goal buf cells) (hfits : pos + xs.length ≤ goal.length)
    (hxs : ∀ j < k, xs[j]? = goal[pos + j]?)
    (hcells : ∀ i, cells' i → pos ≤ i ∧ i < pos + k ∧ k ≤ xs.length ∨
      cells i ∧ (i < pos ∨ pos + xs.length ≤ i)) :
    ∃ buf', Buffer.store buf pos xs = some buf' ∧ Settled goal buf' cells' :=
  ⟨_, Buffer.store_of_le (h.length_eq ▸ hfits), h.write hfits hxs hcells⟩

/-- The cells of each buffer in a set are those of the goal. -/
structure Streams (goal dst : List (List UInt8)) (cells : Nat → Nat → Prop) : Prop where
  length_eq : dst.length = goal.length
  settled : ∀ r < goal.length, Settled (goal.getD r []) (dst.getD r []) (cells r)

section Streams

variable {goal dst : List (List UInt8)} {cells cells' : Nat → Nat → Prop} {r pos k : Nat}
  {xs : List UInt8}

variable (h : Streams goal dst cells)

include h

theorem Streams.mono
    (himp : ∀ r < goal.length, ∀ i < (goal.getD r []).length, cells' r i → cells r i) :
    Streams goal dst cells' :=
  ⟨h.length_eq, fun r hr => (h.settled r hr).mono (himp r hr)⟩

theorem Streams.eq (hall : ∀ r < goal.length, ∀ i < (goal.getD r []).length, cells r i) :
    dst = goal := by
  refine List.ext_getElem h.length_eq fun r hr hr' => ?_
  have heq := (h.settled r hr').eq (hall r hr')
  rwa [List.getD_eq_getElem _ _ hr, List.getD_eq_getElem _ _ hr'] at heq

theorem storeAt_spec (hr : r < goal.length) (hfits : pos + xs.length ≤ (goal.getD r []).length)
    (hxs : ∀ j < k, xs[j]? = (goal.getD r [])[pos + j]?)
    (hcells : ∀ i, cells' r i → pos ≤ i ∧ i < pos + k ∧ k ≤ xs.length ∨
      cells r i ∧ (i < pos ∨ pos + xs.length ≤ i))
    (hother : ∀ q ≠ r, ∀ i, cells' q i → cells q i) :
    ∃ dst', storeAt dst r pos xs = some dst' ∧ Streams goal dst' cells' := by
  have hdst : r < dst.length := h.length_eq ▸ hr
  have hset := h.settled r hr
  refine ⟨dst.set r (Buffer.write (dst.getD r []) pos xs), ?_, ?_, fun q hq => ?_⟩
  · have hget : dst[r]? = some (dst.getD r []) := by
      rw [List.getElem?_eq_getElem hdst, List.getD_eq_getElem _ _ hdst]
    have hstore := Buffer.store_of_le (hset.length_eq ▸ hfits)
    rw [storeAt]
    simp only [hget, Option.bind_eq_bind, Option.bind_some, hstore]
  · rw [List.length_set, h.length_eq]
  · by_cases hqr : r = q
    · subst hqr
      have hnew : (dst.set r (Buffer.write (dst.getD r []) pos xs)).getD r [] =
          Buffer.write (dst.getD r []) pos xs := by
        rw [List.getD_eq_getElem?_getD, List.getElem?_set_self hdst, Option.getD_some]
      rw [hnew]
      exact hset.write hfits hxs hcells
    · have hsame : (dst.set r (Buffer.write (dst.getD r []) pos xs)).getD q [] = dst.getD q [] := by
        rw [List.getD_eq_getElem?_getD, List.getElem?_set_ne hqr, List.getD_eq_getElem?_getD]
      rw [hsame]
      exact (h.settled q hq).mono fun i _ hi => hother q (Ne.symm hqr) i hi

theorem storeAt_spec_all (hr : r < goal.length) (hlen : xs.length = (goal.getD r []).length)
    (hxs : ∀ j < xs.length, xs[j]? = (goal.getD r [])[j]?) :
    ∃ dst', storeAt dst r 0 xs = some dst' ∧
      Streams goal dst' fun q i => q = r ∧ i < xs.length ∨ cells q i ∧ q ≠ r := by
  refine storeAt_spec (k := xs.length) h hr (by omega) (fun j hj => ?_) (fun i hi => ?_)
    fun q hq i hi => ?_
  · rw [Nat.zero_add, hxs j hj]
  · rcases hi with ⟨-, hi⟩ | ⟨-, hne⟩
    · exact Or.inl ⟨Nat.zero_le i, by omega, Nat.le_refl _⟩
    · exact absurd rfl hne
  · rcases hi with ⟨hq', -⟩ | ⟨hi, -⟩
    · exact absurd hq' hq
    · exact hi

end Streams

/-! ## Generic way -/

/-- The streams of the bytes of each rank. -/
structure Ranks (nbElts eltWidth : Nat) (src : List UInt8) (goal : List (List UInt8)) : Prop where
  length_eq : goal.length = eltWidth
  length_stream : ∀ r < eltWidth, (goal.getD r []).length = nbElts
  length_src : src.length = nbElts * eltWidth
  getElem?_eq : ∀ r < eltWidth, ∀ e < nbElts, (goal.getD r [])[e]? = src[e * eltWidth + r]?

section Impl

variable {nbElts eltWidth n : Nat} {src dst : List UInt8} {goal streams : List (List UInt8)}

theorem encodeImpl_spec (hranks : Ranks nbElts eltWidth src goal) (hn : n ≤ nbElts)
    (h : Streams goal streams fun _ _ => False) :
    ∃ streams', encodeImpl streams src n eltWidth = some streams' ∧
      Streams goal streams' fun _ i => i < n := by
  refine foldlM_range (P := fun elt streams => Streams goal streams fun _ i => i < elt)
    (h.mono fun _ _ i _ hi => absurd hi (Nat.not_lt_zero i)) fun elt helt streams h => ?_
  have helt' : elt < nbElts := by omega
  obtain ⟨streams', hrun, h'⟩ := foldlM_range (n := eltWidth)
    (f := fun dst pos => do
      let byte ← Buffer.load src (elt * eltWidth + pos) 1
      storeAt dst pos elt byte)
    (P := fun pos streams => Streams goal streams fun r i => i < elt ∨ i = elt ∧ r < pos)
    (h.mono fun _ _ i _ hi => hi.resolve_right fun hi => Nat.not_lt_zero _ hi.2)
    fun pos hpos streams h => by
      have hle : elt * eltWidth + pos + 1 ≤ src.length := by
        rw [hranks.length_src]
        exact row_lt helt' hpos
      have hgoal := hranks.length_stream pos hpos
      have hlen := Buffer.length_read hle
      simp only [Buffer.load_of_le hle, Option.bind_eq_bind, Option.bind_some]
      refine storeAt_spec (k := 1) h (by rwa [hranks.length_eq]) (by rw [hlen, hgoal]; omega)
        (fun j hj => ?_) (fun i hi => ?_) fun q hq i hi => ?_
      · obtain rfl : j = 0 := by omega
        rw [getElem?_read, if_pos hj, Nat.add_zero, Nat.add_zero,
          hranks.getElem?_eq pos hpos elt helt']
      · rw [hlen]
        omega
      · omega
  exact ⟨streams', hrun, h'.mono fun r hr i _ hi => by
    rw [hranks.length_eq] at hr
    omega⟩

theorem loadAt_spec {r pos k : Nat} (hr : r < streams.length)
    (hfits : pos + k ≤ (streams.getD r []).length) :
    loadAt streams r pos k = some (Buffer.read (streams.getD r []) pos k) := by
  rw [loadAt, List.getElem?_eq_getElem hr, ← List.getD_eq_getElem _ [] hr]
  exact Buffer.load_of_le hfits

theorem decodeImpl_spec (hranks : Ranks nbElts eltWidth src streams) (hn : n ≤ nbElts)
    (h : Settled src dst fun _ => False) :
    ∃ dst', decodeImpl dst streams n eltWidth = some dst' ∧
      Settled src dst' fun i => i < n * eltWidth := by
  refine foldlM_range (P := fun elt dst => Settled src dst fun i => i < elt * eltWidth)
    (h.mono fun i _ hi => absurd hi (by omega)) fun elt helt dst h => ?_
  have helt' : elt < nbElts := by omega
  obtain ⟨dst', hrun, h'⟩ := foldlM_range (n := eltWidth)
    (f := fun dst pos => do
      let byte ← loadAt streams pos elt 1
      Buffer.store dst (elt * eltWidth + pos) byte)
    (P := fun pos dst => Settled src dst fun i => i < elt * eltWidth + pos) h
    fun pos hpos dst h => by
      have hstream := hranks.length_stream pos hpos
      have hle : elt + 1 ≤ (streams.getD pos []).length := by omega
      have hlen := Buffer.length_read hle
      have hfits : elt * eltWidth + pos + 1 ≤ src.length := by
        rw [hranks.length_src]
        exact row_lt helt' hpos
      have hstore : Buffer.store dst (elt * eltWidth + pos)
          (Buffer.read (streams.getD pos []) elt 1) = some _ :=
        Buffer.store_of_le (by rwa [hlen, h.length_eq])
      refine ⟨_, ?_, h.write (k := 1) (by rwa [hlen]) (fun j hj => ?_) fun i hi => ?_⟩
      · rw [loadAt_spec (by rwa [hranks.length_eq]) hle]
        exact hstore
      · obtain rfl : j = 0 := by omega
        rw [getElem?_read, if_pos hj, Nat.add_zero, Nat.add_zero,
          hranks.getElem?_eq pos hpos elt helt']
      · rw [hlen]
        omega
  exact ⟨dst', hrun, h'.mono fun i _ hi => by rwa [Nat.succ_mul] at hi⟩

end Impl

/-! ## Blocks of registers -/

/-- Register code for bytes of any kind. -/
abbrev Block := ∀ (α : Type) [Lane α], List (List α) → List (Nat × List α)

/-- Register code that does not look at the bytes. -/
def Natural (block : Block) : Prop :=
  ∀ (α β : Type) [Lane α] [Lane β] (f : α → β), Lane.Hom f → ∀ regs : List (List α),
    (block α regs).map (Prod.map id (List.map f)) = block β (regs.map (List.map f))

/-- Registers of bytes with names in order. -/
def namedRegs (size : Nat) : Nat → Nat → List (List Names)
  | _, 0 => []
  | start, n + 1 => named start size :: namedRegs size (start + size) n

/-- The stores of a round of an encoder: each stream gets its bytes. -/
def Encodes (eltWidth kEltsPerIter : Nat) (stores : List (Nat × List Names)) : Prop :=
  (∀ p ∈ stores, p.1 < eltWidth ∧
    p.2 = (List.range kEltsPerIter).map fun e => [e * eltWidth + p.1]) ∧
  ∀ r < eltWidth, ∃ p ∈ stores, p.1 = r

instance (eltWidth kEltsPerIter : Nat) (stores : List (Nat × List Names)) :
    Decidable (Encodes eltWidth kEltsPerIter stores) := inferInstanceAs (Decidable (_ ∧ _))

/-- The stores of a round of a decoder: each byte comes from the stream of its rank. -/
def Decodes (eltWidth kEltsPerIter : Nat) (stores : List (Nat × List Names)) : Prop :=
  (∀ p ∈ stores, p.1 + p.2.length ≤ kEltsPerIter * eltWidth ∧
    p.2 = (List.range p.2.length).map fun j =>
      [(p.1 + j) % eltWidth * kEltsPerIter + (p.1 + j) / eltWidth]) ∧
  ∀ i < kEltsPerIter * eltWidth, ∃ p ∈ stores, p.1 ≤ i ∧ i < p.1 + p.2.length

instance (eltWidth kEltsPerIter : Nat) (stores : List (Nat × List Names)) :
    Decidable (Decodes eltWidth kEltsPerIter stores) := inferInstanceAs (Decidable (_ ∧ _))

theorem encodes_encodeBlock2 : Encodes 2 32 (encodeBlock2 (namedRegs 32 0 2)) := by decide +kernel

theorem encodes_encodeBlock3 : Encodes 3 16 (encodeBlock3 (namedRegs 16 0 3)) := by decide +kernel

theorem encodes_encodeBlock4 : Encodes 4 32 (encodeBlock4 (namedRegs 32 0 4)) := by decide +kernel

theorem encodes_encodeBlock8 : Encodes 8 32 (encodeBlock8 (namedRegs 32 0 8)) := by decide +kernel

theorem decodes_decodeBlock3 : Decodes 3 16 (decodeBlock3 (namedRegs 16 0 3)) := by decide +kernel

theorem decodes_decodeBlock8 : Decodes 8 32 (decodeBlock8 (namedRegs 32 0 8)) := by decide +kernel

section Naturality

variable {α β : Type} {f : α → β}

theorem map_eachReg {n : Nat} {op : Nat → List α → List α} (op' : Nat → List β → List β)
    (h : ∀ i v, (op i v).map f = op' i (v.map f)) (ymm : List (List α)) :
    (eachReg n op ymm).map (List.map f) = eachReg n op' (ymm.map (List.map f)) := by
  rw [eachReg, eachReg, List.map_map]
  refine List.map_congr_left fun i _ => ?_
  rw [Function.comp_apply, h, map_getD_nil]

theorem map_blends {op : List α → List α → List α} (op' : List β → List β → List β)
    (h : ∀ v w, (op v w).map f = op' (v.map f) (w.map f)) (ymm : List (List α))
    (pairs : List (Nat × Nat)) :
    (blends op ymm pairs).map (List.map f) = blends op' (ymm.map (List.map f)) pairs := by
  rw [blends, blends, List.map_map]
  refine List.map_congr_left fun p _ => ?_
  rw [Function.comp_apply, h, map_getD_nil, map_getD_nil]

theorem map_joinThree [Lane α] [Lane β] (hf : Lane.Hom f) (mask : Nat → List Nat)
    (xmm : List (List α)) :
    (joinThree mask xmm).map f = joinThree mask (xmm.map (List.map f)) := by
  simp only [joinThree, map_orSi hf, map_shuffle128 hf, map_getD_nil]

end Naturality

theorem natural_encodeBlock2 : Natural fun α _ => @encodeBlock2 α _ := by
  intro α β _ _ f hf ymm
  simp only [encodeBlock2, List.map_cons, List.map_nil, Prod.map_apply, id_eq, map_permutevar8x32,
    map_blendEpi32, map_shuffle256 hf, map_getD_nil]

theorem natural_encodeBlock3 : Natural fun α _ => @encodeBlock3 α _ := by
  intro α β _ _ f hf xmm
  simp only [encodeBlock3, List.map_map, Function.comp_def, Prod.map_apply, id_eq,
    map_joinThree hf]

theorem natural_encodeBlock4 : Natural fun α _ => @encodeBlock4 α _ := by
  intro α β _ _ f hf ymm
  simp only [encodeBlock4, List.map_cons, List.map_nil, Prod.map_apply, id_eq, map_getD_nil]
  rw [map_eachReg (fun i v => permutevar8x32 v (perm32Masks.getD i [])) fun i v =>
      map_permutevar8x32 f v _,
    map_blends (blendEpi32 · · 0xCC) fun v w => map_blendEpi32 f v w _,
    map_blends (blendEpi32 · · 0xAA) fun v w => map_blendEpi32 f v w _,
    map_eachReg (fun i v => shuffle256 v (group4Masks.getD i [])) fun i v => map_shuffle256 hf v _]

theorem natural_encodeBlock8 : Natural fun α _ => @encodeBlock8 α _ := by
  intro α β _ _ f hf ymm
  simp only [encodeBlock8, List.map_cons, List.map_nil, Prod.map_apply, id_eq, map_getD_nil]
  rw [map_eachReg (fun _ v => shuffle256 v group32Mask) fun _ v => map_shuffle256 hf v _,
    map_eachReg (fun i v => permutevar8x32 v (perm32Masks.getD (if i < 4 then i else 0) []))
      fun i v => map_permutevar8x32 f v _,
    map_eachReg (fun i v => if i < 4 then v else shuffle256 v (evenShuffleMasks.getD (i - 4) []))
      fun i v => by rw [apply_ite (List.map f), map_shuffle256 hf],
    map_blends (blendEpi32 · · 0xCC) fun v w => map_blendEpi32 f v w _,
    map_blends (blendEpi32 · · 0xAA) fun v w => map_blendEpi32 f v w _,
    map_blends (blendvEpi8 · · group4Mask) fun v w => map_blendvEpi8 f v w _,
    map_eachReg (fun i v => shuffle256 v (group2Masks.getD i [])) fun i v => map_shuffle256 hf v _]

theorem natural_decodeBlock3 : Natural fun α _ => @decodeBlock3 α _ := by
  intro α β _ _ f hf xmm
  simp only [decodeBlock3, List.map_map, Function.comp_def, Prod.map_apply, id_eq,
    map_joinThree hf]

theorem natural_decodeBlock8 : Natural fun α _ => @decodeBlock8 α _ := by
  intro α β _ _ f hf ymm
  simp only [decodeBlock8, List.map_cons, List.map_nil, Prod.map_apply, id_eq, map_getD_nil,
    List.map_append]
  rw [map_blends (fun v w => blendEpi32 v (slliEpi64 w 4) 170) fun v w => by
      rw [map_blendEpi32, map_slliEpi64 hf],
    map_blends (fun v w => blendEpi32 (srliEpi64 v 4) w 170) fun v w => by
      rw [map_blendEpi32, map_srliEpi64 hf],
    map_eachReg (fun _ v => permutevar8x32 v permuteMask) fun _ v => map_permutevar8x32 f v _,
    List.map_append, map_blends (unpacklo 2) fun v w => map_unpacklo f 2 v w,
    map_blends (unpackhi 2) fun v w => map_unpackhi f 2 v w, List.map_append,
    map_blends (unpacklo 1) fun v w => map_unpacklo f 1 v w,
    map_blends (unpackhi 1) fun v w => map_unpackhi f 1 v w]

/-! ## Rounds -/

section Rounds

variable {block : Block} {nbElts eltWidth kEltsPerIter elt : Nat} {src dst : List UInt8}
  {goal streams : List (List UInt8)}

theorem load_named (bytes : List UInt8) {start size : Nat} (h : start + size ≤ bytes.length) :
    (named start size).map (Names.value bytes) = Buffer.read bytes start size :=
  map_value_named bytes h

theorem loadRegs_spec (pos size : Nat) : ∀ (n start : Nat), pos + start + n * size ≤ src.length →
    loadRegs src (pos + start) size n =
      some ((namedRegs size start n).map (List.map (Names.value (src.drop pos))))
  | 0, _, _ => rfl
  | n + 1, start, h => by
      rw [Nat.succ_mul] at h
      have hreg : Buffer.read src (pos + start) size =
          (named start size).map (Names.value (src.drop pos)) := by
        rw [load_named _ (by rw [List.length_drop]; omega), Buffer.read_eq, Buffer.read_eq,
          List.drop_drop]
      rw [loadRegs, Buffer.load_of_le (by omega), Nat.add_assoc,
        loadRegs_spec pos size n _ (by omega), namedRegs, List.map_cons, ← hreg]
      rfl

/-- The bytes of one round of a decoder, stream after stream. -/
def roundBytes (streams : List (List UInt8)) (elt size n : Nat) : List UInt8 :=
  (List.range n).flatMap fun r => Buffer.read (streams.getD r []) elt size

theorem loadEach_spec {size w : Nat} (hlen : streams.length = w)
    (h : ∀ r < w, elt + size ≤ (streams.getD r []).length) : ∀ (n r : Nat), r + n = w →
    loadEach streams elt size r n =
      some ((namedRegs size (r * size) n).map
        (List.map (Names.value (roundBytes streams elt size w))))
  | 0, _, _ => rfl
  | n + 1, r, hr => by
      have hf : ∀ q < w, (Buffer.read (streams.getD q []) elt size).length = size := fun q hq =>
        Buffer.length_read (h q hq)
      have hbytes : (roundBytes streams elt size w).length = w * size := length_flatMap_range hf
      have hreg : Buffer.read (streams.getD r []) elt size =
          (named (r * size) size).map (Names.value (roundBytes streams elt size w)) := by
        have hread := read_flatMap_range hf (by omega : r < w) (by omega : 0 + size ≤ size)
        rw [Nat.add_zero] at hread
        rw [load_named _ (by rw [hbytes]; exact row_le (by omega) (Nat.le_refl size)), roundBytes,
          hread, Buffer.read_of_start, List.take_of_length_le (Nat.le_of_eq (hf r (by omega)))]
      rw [loadEach, loadAt_spec (by omega) (h r (by omega)), Option.bind_eq_bind, Option.bind_some,
        loadEach_spec hlen h n (r + 1) (by omega), namedRegs, List.map_cons, ← hreg, Nat.succ_mul]
      rfl

theorem getElem?_named {bytes : List UInt8} {K : Nat} {name : Nat → Nat}
    (hname : ∀ j < K, name j < bytes.length) {j : Nat} (hj : j < K) :
    (((List.range K).map fun j => [name j]).map (Names.value bytes))[j]? = bytes[name j]? := by
  rw [List.getElem?_map, List.getElem?_map, List.getElem?_range hj, Option.map_some,
    Option.map_some, Names.value_singleton, List.getD_eq_getElem _ _ (hname j hj),
    List.getElem?_eq_getElem (hname j hj)]

theorem encodeRound_spec (hnatural : Natural block)
    (hblock : Encodes eltWidth kEltsPerIter (block Names (namedRegs kEltsPerIter 0 eltWidth)))
    (hranks : Ranks nbElts eltWidth src goal) (helt : elt + kEltsPerIter ≤ nbElts)
    (h : Streams goal streams fun _ i => i < elt) :
    ∃ streams',
      (do
        let regs ← loadRegs src (elt * eltWidth) kEltsPerIter eltWidth
        (block UInt8 regs).foldlM (fun dst p => storeAt dst p.1 elt p.2) streams) =
          some streams' ∧
      Streams goal streams' fun _ i => i < elt + kEltsPerIter := by
  have hsrc : elt * eltWidth + kEltsPerIter * eltWidth ≤ src.length := by
    rw [hranks.length_src, ← Nat.add_mul]
    exact Nat.mul_le_mul_right eltWidth helt
  have hload := loadRegs_spec (elt * eltWidth) kEltsPerIter eltWidth 0
    (by rwa [Nat.add_zero, Nat.mul_comm eltWidth])
  rw [Nat.add_zero] at hload
  rw [hload, Option.bind_eq_bind, Option.bind_some,
    ← hnatural Names UInt8 _ (Names.hom_value (src.drop (elt * eltWidth))) _]
  obtain ⟨hstores, hall⟩ := hblock
  generalize block Names (namedRegs kEltsPerIter 0 eltWidth) = stores at hstores hall
  have hstep : ∀ p ∈ stores.map
      (Prod.map id (List.map (Names.value (src.drop (elt * eltWidth))))),
      ∀ (done : List (Nat × List UInt8)) (streams : List (List UInt8)),
        (Streams goal streams fun r i =>
          i < elt ∨ i < elt + kEltsPerIter ∧ ∃ p ∈ done, p.1 = r) →
        ∃ streams', storeAt streams p.1 elt p.2 = some streams' ∧
          Streams goal streams' fun r i =>
            i < elt ∨ i < elt + kEltsPerIter ∧ ∃ p' ∈ done ++ [p], p'.1 = r := by
      intro p hp done streams h
      obtain ⟨q, hq, rfl⟩ := List.mem_map.1 hp
      obtain ⟨hr, hnames⟩ := hstores q hq
      have hgoal := hranks.length_stream q.1 hr
      have hname : ∀ e < kEltsPerIter,
          e * eltWidth + q.1 < (src.drop (elt * eltWidth)).length := by
        intro e he
        have := row_lt he hr
        rw [List.length_drop]
        omega
      have hlen : (q.2.map (Names.value (src.drop (elt * eltWidth)))).length = kEltsPerIter := by
        rw [hnames, List.length_map, List.length_map, List.length_range]
      refine storeAt_spec (k := kEltsPerIter) h (by rwa [hranks.length_eq]) ?_ (fun j hj => ?_)
        (fun i hi => ?_) fun r hne i hi => ?_
      · rw [Prod.map_snd, Prod.map_fst, id_eq, hlen, hgoal]
        exact helt
      · rw [Prod.map_snd, Prod.map_fst, id_eq, hnames, getElem?_named hname hj,
          List.getElem?_drop, hranks.getElem?_eq q.1 hr (elt + j) (by omega), Nat.add_mul,
          Nat.add_assoc]
      · rw [Prod.map_snd, hlen]
        rcases hi with hi | ⟨hi, -⟩ <;> omega
      · refine hi.imp_right fun ⟨hi, p, hp, hpr⟩ => ⟨hi, p, ?_, hpr⟩
        rcases List.mem_append.1 hp with hp | hp
        · exact hp
        · rw [List.mem_singleton.1 hp] at hpr
          exact absurd hpr.symm hne
  obtain ⟨streams', hrun, h'⟩ := foldlM_list hstep _ [] streams (fun _ hp => hp)
    (h.mono fun r _ i _ hi => by simpa using hi)
  refine ⟨streams', hrun, h'.mono fun r hr i _ hi => Or.inr ⟨hi, ?_⟩⟩
  obtain ⟨p, hp, hpr⟩ := hall r (by rwa [hranks.length_eq] at hr)
  exact ⟨_, List.mem_append_right _ (List.mem_map_of_mem hp), hpr⟩

theorem decodeRound_spec (hpos : 0 < eltWidth) (hnatural : Natural block)
    (hblock : Decodes eltWidth kEltsPerIter (block Names (namedRegs kEltsPerIter 0 eltWidth)))
    (hranks : Ranks nbElts eltWidth src streams) (helt : elt + kEltsPerIter ≤ nbElts)
    (h : Settled src dst fun i => i < elt * eltWidth) :
    ∃ dst',
      (do
        let regs ← loadEach streams elt kEltsPerIter 0 eltWidth
        (block UInt8 regs).foldlM (fun dst p => Buffer.store dst (eltWidth * elt + p.1) p.2) dst) =
          some dst' ∧
      Settled src dst' fun i => i < (elt + kEltsPerIter) * eltWidth := by
  have hstream : ∀ r < eltWidth, elt + kEltsPerIter ≤ (streams.getD r []).length := fun r hr => by
    rwa [hranks.length_stream r hr]
  have hsrc : elt * eltWidth + kEltsPerIter * eltWidth ≤ src.length := by
    rw [hranks.length_src, ← Nat.add_mul]
    exact Nat.mul_le_mul_right eltWidth helt
  have hload := loadEach_spec hranks.length_eq hstream eltWidth 0 (Nat.zero_add eltWidth)
  have hread : ∀ r < eltWidth,
      (Buffer.read (streams.getD r []) elt kEltsPerIter).length = kEltsPerIter := fun r hr =>
    Buffer.length_read (hstream r hr)
  have hbytes : (roundBytes streams elt kEltsPerIter eltWidth).length =
      eltWidth * kEltsPerIter := length_flatMap_range hread
  rw [Nat.zero_mul] at hload
  rw [hload, Option.bind_eq_bind, Option.bind_some,
    ← hnatural Names UInt8 _ (Names.hom_value (roundBytes streams elt kEltsPerIter eltWidth)) _]
  obtain ⟨hstores, hall⟩ := hblock
  generalize block Names (namedRegs kEltsPerIter 0 eltWidth) = stores at hstores hall
  have hstep : ∀ p ∈ stores.map
      (Prod.map id (List.map (Names.value (roundBytes streams elt kEltsPerIter eltWidth)))),
      ∀ (done : List (Nat × List UInt8)) (dst : List UInt8),
        (Settled src dst fun i => i < elt * eltWidth ∨ ∃ p ∈ done,
          elt * eltWidth + p.1 ≤ i ∧ i < elt * eltWidth + p.1 + p.2.length) →
        ∃ dst', Buffer.store dst (eltWidth * elt + p.1) p.2 = some dst' ∧
          Settled src dst' fun i => i < elt * eltWidth ∨ ∃ p' ∈ done ++ [p],
            elt * eltWidth + p'.1 ≤ i ∧ i < elt * eltWidth + p'.1 + p'.2.length := by
      intro p hp done dst h
      obtain ⟨q, hq, rfl⟩ := List.mem_map.1 hp
      obtain ⟨hfits, hnames⟩ := hstores q hq
      have hname : ∀ j < q.2.length,
          (q.1 + j) % eltWidth * kEltsPerIter + (q.1 + j) / eltWidth <
            (roundBytes streams elt kEltsPerIter eltWidth).length := by
        intro j hj
        rw [hbytes]
        exact row_lt (Nat.mod_lt _ hpos)
          (Nat.div_lt_of_lt_mul (by rw [Nat.mul_comm]; omega))
      have hlen : (q.2.map (Names.value (roundBytes streams elt kEltsPerIter eltWidth))).length =
          q.2.length := List.length_map _
      refine ⟨_, Buffer.store_of_le ?_,
        h.write (k := q.2.length) ?_ (fun j hj => ?_) fun i hi => ?_⟩
      · rw [Prod.map_snd, Prod.map_fst, id_eq, hlen, h.length_eq, Nat.mul_comm eltWidth]
        omega
      · rw [Prod.map_snd, Prod.map_fst, id_eq, hlen, Nat.mul_comm eltWidth]
        omega
      · have hdiv : (q.1 + j) / eltWidth < kEltsPerIter :=
          Nat.div_lt_of_lt_mul (by rw [Nat.mul_comm]; omega)
        have hmod := Nat.mod_lt (q.1 + j) hpos
        have hplace : (elt + (q.1 + j) / eltWidth) * eltWidth + (q.1 + j) % eltWidth =
            eltWidth * elt + q.1 + j := by
          rw [Nat.add_mul, Nat.add_assoc, Nat.div_add_mod', Nat.mul_comm elt, Nat.add_assoc]
        rw [Prod.map_snd, Prod.map_fst, id_eq, hnames, getElem?_named hname hj, roundBytes,
          getElem?_flatMap_range hread hmod hdiv, getElem?_read, if_pos hdiv,
          hranks.getElem?_eq _ hmod _ (by omega), hplace]
      · rw [Prod.map_snd, Prod.map_fst, id_eq, hlen, Nat.mul_comm eltWidth]
        rcases hi with hi | ⟨p, hp, hlow, hhigh⟩
        · omega
        · rcases List.mem_append.1 hp with hp | hp
          · by_cases hin : elt * eltWidth + q.1 ≤ i ∧ i < elt * eltWidth + q.1 + q.2.length
            · exact Or.inl ⟨hin.1, hin.2, Nat.le_refl _⟩
            · exact Or.inr ⟨Or.inr ⟨p, hp, hlow, hhigh⟩, by omega⟩
          · rw [List.mem_singleton.1 hp, Prod.map_fst, id_eq] at hlow
            rw [List.mem_singleton.1 hp, Prod.map_fst, Prod.map_snd, id_eq, hlen] at hhigh
            exact Or.inl ⟨hlow, hhigh, Nat.le_refl _⟩
  obtain ⟨dst', hrun, h'⟩ := foldlM_list hstep _ [] dst (fun _ hp => hp)
    (h.mono fun i _ hi => by simpa using hi)
  refine ⟨dst', hrun, h'.mono fun i _ hi => ?_⟩
  by_cases hold : i < elt * eltWidth
  · exact Or.inl hold
  · rw [Nat.add_mul] at hi
    obtain ⟨p, hp, hlow, hhigh⟩ := hall (i - elt * eltWidth) (by omega)
    refine Or.inr ⟨_, List.mem_append_right _ (List.mem_map_of_mem hp), ?_⟩
    rw [Prod.map_fst, Prod.map_snd, id_eq, List.length_map]
    omega

theorem scalarElts_add (nbElts kEltsPerIter : Nat) :
    scalarElts nbElts kEltsPerIter + nbElts / kEltsPerIter * kEltsPerIter = nbElts :=
  Nat.sub_add_cancel (Nat.div_mul_le_self nbElts kEltsPerIter)

/-- **An encoder in blocks** fills its streams. -/
theorem encodeBlocks_spec (hK : 0 < kEltsPerIter) (hnatural : Natural block)
    (hblock : Encodes eltWidth kEltsPerIter (block Names (namedRegs kEltsPerIter 0 eltWidth)))
    (hranks : Ranks nbElts eltWidth src goal) (h : Streams goal streams fun _ _ => False) :
    encodeBlocks (block UInt8) eltWidth kEltsPerIter streams src nbElts = some goal := by
  have hadd := scalarElts_add nbElts kEltsPerIter
  have hfirst : ∃ streams',
      encodeFirst streams src (scalarElts nbElts kEltsPerIter) eltWidth = some streams' ∧
      Streams goal streams' fun _ i => i < scalarElts nbElts kEltsPerIter := by
    rw [encodeFirst]
    split
    · exact encodeImpl_spec hranks (by omega) h
    · rename_i hzero
      exact ⟨streams, rfl, h.mono fun _ _ i _ hi => absurd hi (by omega)⟩
  obtain ⟨streams', hscalar, h'⟩ := hfirst
  obtain ⟨streams'', hrun, h''⟩ := blockLoop_spec
    (P := fun elt streams => Streams goal streams fun _ i => i < elt) hK
    (fun elt streams helt h => encodeRound_spec hnatural hblock hranks helt h) (nbElts + 1)
    (by omega) hadd h'
  rw [encodeBlocks]
  simp only [hscalar, Option.bind_eq_bind, Option.bind_some] at hrun ⊢
  rw [← h''.eq fun r hr i hi => by
    rwa [hranks.length_stream r (by rwa [← hranks.length_eq])] at hi]
  exact hrun

/-- **A decoder in blocks** fills its buffer. -/
theorem decodeBlocks_spec (hK : 0 < kEltsPerIter) (hpos : 0 < eltWidth) (hnatural : Natural block)
    (hblock : Decodes eltWidth kEltsPerIter (block Names (namedRegs kEltsPerIter 0 eltWidth)))
    (hranks : Ranks nbElts eltWidth src streams) (h : Settled src dst fun _ => False) :
    decodeBlocks (block UInt8) eltWidth kEltsPerIter dst streams nbElts = some src := by
  have hadd := scalarElts_add nbElts kEltsPerIter
  have hfirst : ∃ dst',
      decodeFirst dst streams (scalarElts nbElts kEltsPerIter) eltWidth = some dst' ∧
      Settled src dst' fun i => i < scalarElts nbElts kEltsPerIter * eltWidth := by
    rw [decodeFirst]
    split
    · exact decodeImpl_spec hranks (by omega) h
    · rename_i hzero
      rw [not_not] at hzero
      exact ⟨dst, rfl, h.mono fun i _ hi => by rw [hzero] at hi; omega⟩
  obtain ⟨dst', hscalar, h'⟩ := hfirst
  obtain ⟨dst'', hrun, h''⟩ := blockLoop_spec
    (P := fun elt dst => Settled src dst fun i => i < elt * eltWidth) hK
    (fun elt dst helt h => decodeRound_spec hpos hnatural hblock hranks helt h) (nbElts + 1)
    (by omega) hadd h'
  rw [decodeBlocks]
  simp only [hscalar, Option.bind_eq_bind, Option.bind_some] at hrun ⊢
  rw [← h''.eq fun i hi => by rwa [hranks.length_src] at hi]
  exact hrun

end Rounds

/-! ## Entry points -/

section EntryPoints

variable {nbElts eltWidth : Nat} {src dst : List UInt8} {streams goal : List (List UInt8)}

theorem splitTransposeEncode_spec (avx2 : Bool) (hpos : 0 < eltWidth)
    (hranks : Ranks nbElts eltWidth src goal) (h : Streams goal streams fun _ _ => False) :
    splitTransposeEncode avx2 streams src nbElts eltWidth = some goal := by
  have himpl : encodeImpl streams src nbElts eltWidth = some goal := by
    obtain ⟨streams', hrun, h'⟩ := encodeImpl_spec hranks (Nat.le_refl nbElts) h
    rw [hrun, h'.eq fun r hr i hi => by
      rwa [hranks.length_stream r (by rwa [← hranks.length_eq])] at hi]
  rw [splitTransposeEncode]
  split_ifs with h1 h2 h3 h4 h8
  · subst h1
    have hlen := hranks.length_src
    have hle : 0 + nbElts ≤ src.length := by omega
    have hread := Buffer.length_read hle
    have hstream := hranks.length_stream 0 Nat.one_pos
    obtain ⟨streams', hrun, h'⟩ := storeAt_spec_all h (r := 0)
      (by rw [hranks.length_eq]; exact Nat.one_pos) (hread.trans hstream.symm) fun j hj => by
        rw [getElem?_read, if_pos (by omega), Nat.zero_add,
          hranks.getElem?_eq 0 Nat.one_pos j (by omega), Nat.mul_one, Nat.add_zero]
    simp only [Buffer.load_of_le hle, Option.bind_eq_bind, Option.bind_some]
    rw [hrun, h'.eq fun r hr i hi => by
      rw [hranks.length_eq] at hr
      obtain rfl : r = 0 := by omega
      exact Or.inl ⟨rfl, by omega⟩]
  · obtain ⟨-, rfl⟩ := h2
    exact encodeBlocks_spec (by decide) natural_encodeBlock2 encodes_encodeBlock2 hranks h
  · obtain ⟨-, rfl⟩ := h3
    exact encodeBlocks_spec (by decide) natural_encodeBlock3 encodes_encodeBlock3 hranks h
  · obtain ⟨-, rfl⟩ := h4
    exact encodeBlocks_spec (by decide) natural_encodeBlock4 encodes_encodeBlock4 hranks h
  · obtain ⟨-, rfl⟩ := h8
    exact encodeBlocks_spec (by decide) natural_encodeBlock8 encodes_encodeBlock8 hranks h
  · exact himpl

theorem splitTransposeDecode_spec (avx2 : Bool) (hpos : 0 < eltWidth)
    (hranks : Ranks nbElts eltWidth src streams) (h : Settled src dst fun _ => False) :
    splitTransposeDecode avx2 dst streams nbElts eltWidth = some src := by
  have himpl : decodeImpl dst streams nbElts eltWidth = some src := by
    obtain ⟨dst', hrun, h'⟩ := decodeImpl_spec hranks (Nat.le_refl nbElts) h
    rw [hrun, h'.eq fun i hi => by rwa [hranks.length_src] at hi]
  have hloop : splitTransposeDecodeLoop eltWidth dst streams nbElts = some src := by
    simp only [decodeImpl, Nat.mul_comm _ eltWidth] at himpl
    exact himpl
  rw [splitTransposeDecode]
  split_ifs with h1 h2 h3 h4 h8
  · subst h1
    have hlen := hranks.length_src
    have hstream := hranks.length_stream 0 Nat.one_pos
    have hle : 0 + nbElts ≤ (streams.getD 0 []).length := by omega
    have hread := Buffer.length_read hle
    rw [loadAt_spec (by rw [hranks.length_eq]; exact Nat.one_pos) hle, Option.bind_eq_bind,
      Option.bind_some, Buffer.store_of_le (by rw [hread, h.length_eq]; omega)]
    have h' : Settled src (Buffer.write dst 0 (Buffer.read (streams.getD 0 []) 0 nbElts))
        fun i => i < nbElts := by
      refine h.write (k := nbElts) (by rw [hread]; omega) (fun j hj => ?_) fun i hi => ?_
      · rw [getElem?_read, if_pos hj, Nat.zero_add, hranks.getElem?_eq 0 Nat.one_pos j hj,
          Nat.mul_one, Nat.add_zero]
      · exact Or.inl ⟨Nat.zero_le i, by omega, Nat.le_of_eq hread.symm⟩
    exact congrArg some (h'.eq fun i hi => by omega)
  · obtain ⟨-, rfl⟩ := h2
    exact hloop
  · obtain ⟨-, rfl⟩ := h3
    exact decodeBlocks_spec (by decide) hpos natural_decodeBlock3 decodes_decodeBlock3 hranks h
  · obtain ⟨-, rfl⟩ := h4
    exact hloop
  · obtain ⟨-, rfl⟩ := h8
    exact decodeBlocks_spec (by decide) hpos natural_decodeBlock8 decodes_decodeBlock8 hranks h
  · exact himpl

theorem ranks_columns (hsrc : src.length = nbElts * eltWidth) :
    Ranks nbElts eltWidth src (columns eltWidth nbElts src 0 (List.replicate eltWidth 1)) := by
  have hget : ∀ r < eltWidth, (columns eltWidth nbElts src 0 (List.replicate eltWidth 1)).getD r []
      = column eltWidth nbElts src r 1 := by
    intro r hr
    rw [getD_columns _ _ _ (by rwa [List.length_replicate]), List.take_replicate,
      Nat.min_eq_left (Nat.le_of_lt hr), List.getD_eq_getElem _ _ (by rwa [List.length_replicate]),
      List.getElem_replicate]
    simp
  refine ⟨?_, fun r hr => ?_, hsrc, fun r hr e he => ?_⟩
  · rw [length_columns, List.length_replicate]
  · rw [hget r hr, length_column hsrc (by omega), Nat.mul_one]
  · have hcol := getElem?_column hsrc (by omega : r + 1 ≤ eltWidth) he Nat.one_pos
    rw [Nat.mul_one, Nat.add_zero, Nat.add_zero] at hcol
    rw [hget r hr, hcol]

end EntryPoints

end OpenZL.Codecs.Transpose
