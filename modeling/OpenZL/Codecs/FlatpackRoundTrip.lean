import OpenZL.Codecs.FlatpackPaths

/-!
# Round trip of flatpack

The encoder maps each byte to its index among the bytes that occur, and both packers write the same
bytes: the fields of the indices, and one bit above them.

Principal results: `packLoop_eq`, `packBmi2_eq`, `flatpackEncode_eq`, `flatpack_iff`.
-/

namespace OpenZL.Codecs.Flatpack

open OpenZL.Lib
open OpenZL.Codecs.Bitpack (readLE64 readLE64_eq or_shiftLeft_mod toLE_commit shiftRight_lt)

/-- The map gives the index of each symbol of the alphabet. -/
def Mapped (symbolMap : UInt8 → UInt8) (alphabet : List UInt8) : Prop :=
  ∀ s ∈ alphabet, (symbolMap s).toNat < alphabet.length ∧
    alphabet.getD (symbolMap s).toNat 0 = s

theorem Mapped.push {symbolMap : UInt8 → UInt8} {alphabet : List UInt8} {s : UInt8}
    (h : Mapped symbolMap alphabet) (hs : s ∉ alphabet) (hlen : alphabet.length < 256) :
    Mapped (Function.update symbolMap s (UInt8.ofNat alphabet.length)) (alphabet ++ [s]) := by
  intro t ht
  rw [List.length_append, List.length_singleton]
  by_cases hts : t = s
  · subst hts
    have hto : (UInt8.ofNat alphabet.length).toNat = alphabet.length := by
      rw [UInt8.toNat_ofNat', Nat.mod_eq_of_lt hlen]
    rw [Function.update_self, hto, List.getD_append_right _ _ _ _ (Nat.le_refl _), Nat.sub_self]
    exact ⟨Nat.lt_succ_self _, rfl⟩
  · have ht : t ∈ alphabet := by
      rcases List.mem_append.1 ht with ht | ht
      · exact ht
      · exact absurd (List.mem_singleton.1 ht) hts
    obtain ⟨hlt, hget⟩ := h t ht
    rw [Function.update_of_ne hts, List.getD_append _ _ _ _ hlt]
    exact ⟨by omega, hget⟩

theorem buildAlphabet_spec (present : UInt8 → Bool) (alphabetCapacity : Nat) :
    ∀ (symbols : List UInt8) (symbolMap : UInt8 → UInt8) (alphabet : List UInt8),
      Mapped symbolMap alphabet → (alphabet ++ symbols).Nodup →
        alphabet.length + symbols.length ≤ 256 →
          (∃ symbolMap', Mapped symbolMap' (alphabet ++ symbols.filter present) ∧
            buildAlphabet present alphabetCapacity symbols symbolMap alphabet =
              .ok (symbolMap', alphabet ++ symbols.filter present)) ∧
              (alphabet ++ symbols.filter present).length ≤ max alphabet.length alphabetCapacity ∨
          buildAlphabet present alphabetCapacity symbols symbolMap alphabet = .error kError ∧
            alphabetCapacity < (alphabet ++ symbols.filter present).length
  | [], symbolMap, alphabet, hmap, _, _ => by
    refine Or.inl ⟨⟨symbolMap, ?_, ?_⟩, ?_⟩
    · rwa [List.filter_nil, List.append_nil]
    · rw [List.filter_nil, List.append_nil, buildAlphabet]
    · rw [List.filter_nil, List.append_nil]
      exact le_max_left _ _
  | s :: symbols, symbolMap, alphabet, hmap, hnodup, hlen => by
    rw [List.length_cons] at hlen
    by_cases hs : present s = true
    · rw [List.filter_cons_of_pos hs, buildAlphabet, if_pos hs]
      by_cases hfull : alphabet.length ≥ alphabetCapacity
      · refine Or.inr ⟨if_pos hfull, ?_⟩
        rw [List.length_append, List.length_cons]
        omega
      · have hnew : s ∉ alphabet := fun hmem =>
          (List.nodup_append.1 hnodup).2.2 s hmem s List.mem_cons_self rfl
        have hjoin : alphabet ++ [s] ++ symbols = alphabet ++ s :: symbols :=
          List.append_cons _ _ _ |>.symm
        have hrest := buildAlphabet_spec present alphabetCapacity symbols _ (alphabet ++ [s])
          (hmap.push hnew (by omega)) (by rwa [hjoin])
          (by rw [List.length_append, List.length_singleton]; omega)
        rw [← List.append_cons] at hrest
        rw [if_neg hfull]
        rcases hrest with ⟨hok, hle⟩ | herror
        · refine Or.inl ⟨hok, hle.trans ?_⟩
          rw [List.length_append, List.length_singleton]
          omega
        · exact Or.inr herror
    · rw [List.filter_cons_of_neg hs, buildAlphabet, if_neg hs]
      refine buildAlphabet_spec present alphabetCapacity symbols symbolMap alphabet hmap ?_
        (by omega)
      exact hnodup.sublist (List.Sublist.append_left (List.sublist_cons_self s symbols) alphabet)

theorem nodup_allSymbols : allSymbols.Nodup := by
  refine List.Nodup.map_on ?_ List.nodup_range
  intro x hx y hy heq
  rw [List.mem_range] at hx hy
  have h := congrArg UInt8.toNat heq
  rwa [UInt8.toNat_ofNat', UInt8.toNat_ofNat', Nat.mod_eq_of_lt hx, Nat.mod_eq_of_lt hy] at h

theorem mem_allSymbols (s : UInt8) : s ∈ allSymbols :=
  List.mem_map.2 ⟨s.toNat, List.mem_range.2 (UInt8.toNat_lt s), UInt8.ofNat_toNat⟩

/-- The bytes that occur in a string, in order. -/
def alphabetOf (src : List UInt8) : List UInt8 := allSymbols.filter (src.contains ·)

theorem mem_alphabetOf {src : List UInt8} {s : UInt8} : s ∈ alphabetOf src ↔ s ∈ src := by
  rw [alphabetOf, List.mem_filter, List.contains_iff_mem]
  exact and_iff_right (mem_allSymbols s)

theorem length_alphabetOf_le (src : List UInt8) : (alphabetOf src).length ≤ 256 := by
  have h := List.length_filter_le (src.contains ·) allSymbols
  rwa [allSymbols, List.length_map, List.length_range] at h

/-- The bytes that are packed for indices: their fields, and one bit above them. -/
def packedBytes (nbBits : Nat) (indices : List Nat) : List UInt8 :=
  toLE (1 + nbBits * indices.length / 8) (Nat.ofDigits (2 ^ nbBits) (indices ++ [1]))

section Packing

variable {symbolMap : UInt8 → UInt8} {nbBits : Nat} {src : List UInt8}

/-- The indices of the bytes of a string. -/
def indicesOf (symbolMap : UInt8 → UInt8) (src : List UInt8) : List Nat :=
  src.map fun s => (symbolMap s).toNat

theorem packLoop_eq (hn : nbBits ≤ 8) : ∀ (src : List UInt8) (bits state : Nat),
    (∀ idx ∈ indicesOf symbolMap src, idx < 2 ^ nbBits) → state < 2 ^ bits → bits < 8 →
      packLoop symbolMap nbBits src bits state =
        toLE ((bits + (src.length * nbBits + 1) + 7) / 8)
          (state + 2 ^ bits * Nat.ofDigits (2 ^ nbBits) (indicesOf symbolMap src ++ [1]))
  | [], bits, state, _, hs, hb => by
    have hsize : (bits + (([] : List UInt8).length * nbBits + 1) + 7) / 8 = 1 := by
      rw [List.length_nil, Nat.zero_mul]
      omega
    rw [packLoop, or_shiftLeft hs, hsize, indicesOf, List.map_nil, List.nil_append,
      Nat.ofDigits_singleton]
    rfl
  | s :: src, bits, state, hsrc, hs, hb => by
    have hidx : (symbolMap s).toNat < 2 ^ nbBits := hsrc _ List.mem_cons_self
    have hrest : ∀ idx ∈ indicesOf symbolMap src, idx < 2 ^ nbBits := fun idx h =>
      hsrc idx (List.mem_cons_of_mem _ h)
    have hlt := add_mul_lt hs hidx
    have hcons : indicesOf symbolMap (s :: src) ++ [1] =
        (symbolMap s).toNat :: (indicesOf symbolMap src ++ [1]) := rfl
    have hsize : bits + ((s :: src).length * nbBits + 1) + 7 =
        bits + nbBits + (src.length * nbBits + 1) + 7 := by
      rw [List.length_cons]
      ring
    rw [packLoop, or_shiftLeft hs, hcons, add_ofDigits_cons, hsize]
    split
    · rename_i hfull
      rw [toLE_commit (m := 1) hfull,
        packLoop_eq hn src _ _ hrest (shiftRight_lt (m := 1) hlt hfull) (by omega)]
      rfl
    · rename_i hless
      exact packLoop_eq hn src _ _ hrest hlt (by omega)

theorem packGeneric_eq (hn : nbBits ≤ 8)
    (hsrc : ∀ idx ∈ indicesOf symbolMap src, idx < 2 ^ nbBits) :
    packGeneric symbolMap nbBits (1 + nbBits * src.length / 8) src =
      some (packedBytes nbBits (indicesOf symbolMap src)) := by
  have hloop := packLoop_eq hn src 0 0 hsrc Nat.one_pos (by decide)
  have hsize : (0 + (src.length * nbBits + 1) + 7) / 8 = 1 + nbBits * src.length / 8 := by
    rw [Nat.mul_comm nbBits]
    omega
  rw [hsize, Nat.pow_zero, Nat.one_mul, Nat.zero_add] at hloop
  rw [packGeneric, hloop, length_toLE, if_pos rfl, packedBytes, indicesOf, List.length_map]

theorem packedBytes_append {first rest : List Nat} (hlen : first.length = 8)
    (hfirst : ∀ idx ∈ first, idx < 2 ^ nbBits) :
    packedBytes nbBits (first ++ rest) =
      toLE nbBits (Nat.ofDigits (2 ^ nbBits) first) ++ packedBytes nbBits rest := by
  have hsize : 1 + nbBits * (first ++ rest).length / 8 =
      nbBits + (1 + nbBits * rest.length / 8) := by
    rw [List.length_append, hlen, Nat.mul_add]
    omega
  have hpow : (2 ^ nbBits) ^ 8 = 256 ^ nbBits := by
    rw [pow256, ← Nat.pow_mul, Nat.mul_comm]
  have hlt := ofDigits_lt hfirst
  rw [hlen, ← pow256] at hlt
  rw [packedBytes, hsize, List.append_assoc, Nat.ofDigits_append, hlen, hpow, toLE_add,
    Nat.add_mul_div_left _ _ (by positivity), Nat.div_eq_of_lt hlt, Nat.zero_add, ← toLE_mod,
    Nat.add_mul_mod_self_left, toLE_mod]
  rfl

theorem write_toLE (X : Nat) (hn : nbBits ≤ 8) (rest : List UInt8)
    (hrest : 8 ≤ nbBits + rest.length) :
    Buffer.write (toLE 8 X) nbBits rest = toLE nbBits X ++ rest := by
  have hsplit := toLE_add nbBits (8 - nbBits) X
  rw [Nat.add_sub_cancel' hn] at hsplit
  rw [Buffer.write, List.drop_eq_nil_of_le (by rw [length_toLE]; omega), List.append_nil, hsplit,
    List.take_left' (length_toLE _ _)]

/-- **The packer with BMI2** writes the same bytes. -/
theorem packBmi2_eq (hn : nbBits ≤ 8) (src : List UInt8)
    (hsrc : ∀ idx ∈ indicesOf symbolMap src, idx < 2 ^ nbBits) :
    packBmi2 symbolMap nbBits (1 + nbBits * src.length / 8) src =
      some (packedBytes nbBits (indicesOf symbolMap src)) := by
  induction hlen : src.length using Nat.strong_induction_on generalizing src with
  | h n ih =>
    subst hlen
    rw [packBmi2]
    split
    · rename_i hmore
      have hle : 8 ≤ src.length := by
        by_contra hlt
        have hmul : nbBits * src.length ≤ nbBits * 7 := Nat.mul_le_mul_left _ (by omega)
        omega
      have hsplit : indicesOf symbolMap src =
          indicesOf symbolMap (src.take 8) ++ indicesOf symbolMap (src.drop 8) := by
        rw [indicesOf, indicesOf, indicesOf, ← List.map_append, List.take_append_drop]
      have hfirst : ∀ idx ∈ indicesOf symbolMap (src.take 8), idx < 2 ^ nbBits := fun idx h =>
        hsrc idx (by rw [hsplit]; exact List.mem_append_left _ h)
      have hrest : ∀ idx ∈ indicesOf symbolMap (src.drop 8), idx < 2 ^ nbBits := fun idx h =>
        hsrc idx (by rw [hsplit]; exact List.mem_append_right _ h)
      have hlen8 : (indicesOf symbolMap (src.take 8)).length = 8 := by
        rw [indicesOf, List.length_map, List.length_take, Nat.min_eq_left hle]
      have hdrop : (src.drop 8).length = src.length - 8 := List.length_drop
      have hmul : nbBits * src.length = nbBits * (src.length - 8) + nbBits * 8 := by
        rw [← Nat.mul_add, Nat.sub_add_cancel hle]
      have hsize : 1 + nbBits * src.length / 8 - nbBits =
          1 + nbBits * (src.drop 8).length / 8 := by
        rw [hdrop]
        omega
      have hread : readLE64 ((src.take 8).map symbolMap) =
          Nat.ofDigits (2 ^ 8) (indicesOf symbolMap (src.take 8)) := by
        rw [readLE64, List.take_of_length_le (by rw [List.length_map, List.length_take]; omega),
          ofLE, List.map_map]
        rfl
      have hstore := write_toLE (Nat.ofDigits (2 ^ nbBits) (indicesOf symbolMap (src.take 8))) hn
        (packedBytes nbBits (indicesOf symbolMap (src.drop 8))) (by
          rw [packedBytes, length_toLE, indicesOf, List.length_map]
          omega)
      rw [dif_neg (by omega), hsize, ih _ (by omega) _ hrest rfl]
      simp only [hread, pext_byteMask hn hlen8 hfirst, Option.map_some]
      rw [hsplit, packedBytes_append hlen8 hfirst, hstore]
    · exact packGeneric_eq hn hsrc

theorem pack_eq (hasBmi2 : Bool) (hn : nbBits ≤ 8)
    (hsrc : ∀ idx ∈ indicesOf symbolMap src, idx < 2 ^ nbBits) :
    pack hasBmi2 symbolMap nbBits (1 + nbBits * src.length / 8) src =
      some (packedBytes nbBits (indicesOf symbolMap src)) := by
  rw [pack]
  split
  · exact packBmi2_eq hn src hsrc
  · exact packGeneric_eq hn hsrc

end Packing

theorem buildAlphabet_alphabetOf (src : List UInt8) (alphabetCapacity : Nat)
    (symbolMap : UInt8 → UInt8) :
    (∃ symbolMap', Mapped symbolMap' (alphabetOf src) ∧
      buildAlphabet (src.contains ·) alphabetCapacity allSymbols symbolMap [] =
        .ok (symbolMap', alphabetOf src)) ∧ (alphabetOf src).length ≤ alphabetCapacity ∨
    buildAlphabet (src.contains ·) alphabetCapacity allSymbols symbolMap [] = .error kError ∧
      alphabetCapacity < (alphabetOf src).length := by
  have h := buildAlphabet_spec (src.contains ·) alphabetCapacity allSymbols symbolMap []
    (fun s hs => nomatch hs) (by rw [List.nil_append]; exact nodup_allSymbols)
    (by rw [allSymbols, List.length_map, List.length_range]; decide)
  rwa [List.nil_append, ← alphabetOf, List.length_nil, Nat.zero_max] at h

theorem exists_mapped (src : List UInt8) : ∃ symbolMap, Mapped symbolMap (alphabetOf src) := by
  rcases buildAlphabet_alphabetOf src 256 (fun _ => 0) with ⟨⟨symbolMap, hmap, -⟩, -⟩ | ⟨-, hlt⟩
  · exact ⟨symbolMap, hmap⟩
  · exact absurd (length_alphabetOf_le src) (by omega)

theorem symbolsOf_indicesOf {src : List UInt8} {symbolMap : UInt8 → UInt8}
    (hmap : Mapped symbolMap (alphabetOf src)) :
    symbolsOf (alphabetOf src) (indicesOf symbolMap src) = src ∧
      ∀ idx ∈ indicesOf symbolMap src, idx < (alphabetOf src).length := by
  constructor
  · rw [symbolsOf, indicesOf, List.map_map]
    conv_rhs => rw [← List.map_id src]
    exact List.map_congr_left fun s hs => (hmap s (mem_alphabetOf.2 hs)).2
  · intro idx hidx
    obtain ⟨s, hs, rfl⟩ := List.mem_map.1 hidx
    exact (hmap s (mem_alphabetOf.2 hs)).1

/-- **The encoder** gives the bytes that occur and the indices of the string there, if there is
room for both. -/
theorem flatpackEncode_eq {src : List UInt8} (hsrc : src ≠ []) (alphabetCapacity
    packedCapacity : Nat) :
    ∃ indices, symbolsOf (alphabetOf src) indices = src ∧
      (∀ idx ∈ indices, idx < (alphabetOf src).length) ∧
      ∀ hasBmi2, flatpackEncode hasBmi2 alphabetCapacity packedCapacity src =
        some (if (alphabetOf src).length ≤ alphabetCapacity ∧
            packedSize (alphabetOf src).length src.length ≤ packedCapacity then
          .ok (alphabetOf src, packedBytes (nbBits (alphabetOf src).length) indices)
        else .error kError) := by
  have hlen : src.length ≠ 0 := fun h => hsrc (List.length_eq_zero_iff.1 h)
  have hbuild := buildAlphabet_alphabetOf src alphabetCapacity
    fun s => if src.contains s then 1 else 0
  rcases hbuild with ⟨⟨symbolMap, hmap, hok⟩, hle⟩ | ⟨herror, hlt⟩
  · obtain ⟨hsymbols, hindices⟩ := symbolsOf_indicesOf hmap
    refine ⟨indicesOf symbolMap src, hsymbols, hindices, fun hasBmi2 => ?_⟩
    have hfields : ∀ idx ∈ indicesOf symbolMap src, idx < 2 ^ nbBits (alphabetOf src).length :=
      fun idx h => (hindices idx h).trans_le (le_two_pow_nbBits _)
    have hsize : packedSize (alphabetOf src).length src.length =
        1 + nbBits (alphabetOf src).length * src.length / 8 := if_neg hlen
    rw [flatpackEncode, if_neg hlen, hok]
    simp only [hle, true_and]
    by_cases hroom : packedSize (alphabetOf src).length src.length ≤ packedCapacity
    · rw [if_neg (by omega), if_pos hroom, hsize,
        pack_eq hasBmi2 (nbBits_le (by decide) (length_alphabetOf_le src)) hfields]
      rfl
    · rw [if_pos (by omega), if_neg hroom]
  · -- the indices are those of any map, since none is returned
    obtain ⟨symbolMap, hmap⟩ := exists_mapped src
    obtain ⟨hsymbols, hindices⟩ := symbolsOf_indicesOf hmap
    refine ⟨indicesOf symbolMap src, hsymbols, hindices, fun hasBmi2 => ?_⟩
    rw [flatpackEncode, if_neg hlen, herror, if_neg (by omega)]

section Decoding

variable {alphabet : List UInt8} {indices : List Nat}

theorem ofLE_packedBytes {nbBits : Nat} (h : ∀ idx ∈ indices, idx < 2 ^ nbBits) :
    ofLE (packedBytes nbBits indices) =
      Nat.ofDigits (2 ^ nbBits) indices + 2 ^ (nbBits * indices.length) := by
  have hlt := ofDigits_lt h
  have hdigits : Nat.ofDigits (2 ^ nbBits) (indices ++ [1]) =
      Nat.ofDigits (2 ^ nbBits) indices + 2 ^ (nbBits * indices.length) := by
    rw [Nat.ofDigits_append, Nat.ofDigits_singleton, Nat.mul_one, ← Nat.pow_mul]
  have hpow : 2 ^ (nbBits * indices.length + 1) ≤ 2 ^ (8 * (1 + nbBits * indices.length / 8)) :=
    Nat.pow_le_pow_right Nat.two_pos (by omega)
  rw [Nat.mul_comm indices.length] at hlt
  rw [Nat.pow_succ] at hpow
  rw [packedBytes, ofLE_toLE, pow256, hdigits, Nat.mod_eq_of_lt (by omega)]

theorem toNat_getLastD (packed : List UInt8) (q : Nat) (h : packed.length = q + 1) :
    (packed.getLastD 0).toNat = ofLE packed / 256 ^ q := by
  have hne : packed ≠ [] := by
    rintro rfl
    cases h
  obtain ⟨front, b, rfl⟩ := (List.eq_nil_or_concat packed).resolve_left hne
  rw [List.concat_eq_append] at h ⊢
  rw [List.length_append, List.length_singleton, Nat.add_right_cancel_iff] at h
  have hlt := ofLE_lt front
  rw [h] at hlt
  rw [List.getLastD_concat, ofLE_append, h, Nat.add_mul_div_left _ _ (by positivity),
    Nat.div_eq_of_lt hlt, Nat.zero_add, ofLE_cons, ofLE_nil, Nat.mul_zero, Nat.add_zero]

theorem log2_lastByte {nbBits : Nat} (h : ∀ idx ∈ indices, idx < 2 ^ nbBits) :
    (((packedBytes nbBits indices).getLastD 0).toNat ||| 1).log2 =
      nbBits * indices.length % 8 := by
  have hvalue := ofLE_packedBytes h
  have hlt := ofDigits_lt h
  rw [Nat.mul_comm indices.length] at hlt
  have hlast := toNat_getLastD (packedBytes nbBits indices)
    (nbBits * indices.length / 8) (by rw [packedBytes, length_toLE, Nat.add_comm])
  generalize nbBits * indices.length = size at hlt hvalue hlast ⊢
  have hpow : 2 ^ size = 2 ^ (size % 8) * 256 ^ (size / 8) := by
    rw [pow256, ← Nat.pow_add, Nat.mod_add_div]
  have hlow : 2 ^ (size % 8) ≤ ofLE (packedBytes nbBits indices) / 256 ^ (size / 8) := by
    rw [Nat.le_div_iff_mul_le (by positivity), ← hpow, hvalue]
    omega
  have hhigh : ofLE (packedBytes nbBits indices) / 256 ^ (size / 8) < 2 ^ (size % 8 + 1) := by
    rw [Nat.div_lt_iff_lt_mul (by positivity), Nat.pow_succ', Nat.mul_assoc, ← hpow, hvalue]
    omega
  rw [hlast]
  have hor := Nat.or_lt_two_pow hhigh (Nat.one_lt_two_pow (Nat.succ_ne_zero _) : 1 < _)
  have hle : ofLE (packedBytes nbBits indices) / 256 ^ (size / 8) ≤
      ofLE (packedBytes nbBits indices) / 256 ^ (size / 8) ||| 1 := Nat.left_le_or
  exact (Nat.log2_eq_iff (by omega)).2 ⟨hlow.trans hle, hor⟩

theorem nbElts_packedBytes (hpos : 0 < alphabet.length) (hle : alphabet.length ≤ 256)
    (h : ∀ idx ∈ indices, idx < alphabet.length) :
    nbElts alphabet.length (packedBytes (nbBits alphabet.length) indices) = indices.length := by
  have hfields : ∀ idx ∈ indices, idx < 2 ^ nbBits alphabet.length := fun idx hidx =>
    (h idx hidx).trans_le (le_two_pow_nbBits _)
  have hlen : (packedBytes (nbBits alphabet.length) indices).length =
      1 + nbBits alphabet.length * indices.length / 8 := length_toLE _ _
  obtain ⟨hclz, -⟩ := clz32_lastByte ((packedBytes (nbBits alphabet.length) indices).getLastD 0)
  rw [nbElts, if_neg (by omega)]
  simp only [hclz, log2_lastByte hfields, hlen]
  have hbits : 8 * (1 + nbBits alphabet.length * indices.length / 8) -
      (7 - nbBits alphabet.length * indices.length % 8 + 1) =
        nbBits alphabet.length * indices.length := by
    omega
  rw [hbits, Nat.mul_div_cancel_left _ (nbBits_pos hpos)]

theorem accepts_packedBytes {nbBits : Nat} (h : ∀ idx ∈ indices, idx < alphabet.length)
    (hfields : ∀ idx ∈ indices, idx < 2 ^ nbBits) :
    Accepts alphabet.length nbBits indices.length (ofLE (packedBytes nbBits indices))
        (8 * (packedBytes nbBits indices).length) ∧
      fields nbBits indices.length (ofLE (packedBytes nbBits indices)) = indices := by
  have hlen : (packedBytes nbBits indices).length = 1 + nbBits * indices.length / 8 :=
    length_toLE _ _
  have hlt := ofDigits_lt hfields
  have hsame : fields nbBits indices.length (ofLE (packedBytes nbBits indices)) = indices := by
    have hone := fields_add_mul nbBits indices.length (Nat.ofDigits (2 ^ nbBits) indices) 1
    rw [Nat.mul_one, fields_ofDigits hfields] at hone
    rw [ofLE_packedBytes hfields, hone]
  refine ⟨⟨by omega, by rwa [hsame], ?_, by omega⟩, hsame⟩
  rw [Nat.mul_comm] at hlt
  rw [ofLE_packedBytes hfields, Nat.add_div_right _ (Nat.two_pow_pos _), Nat.div_eq_of_lt hlt]

end Decoding

theorem fastSymbols_le {alphabetSize : Nat} {packed : List UInt8} (hpos : 0 < alphabetSize)
    (hle : alphabetSize ≤ 256) (hpacked : packed ≠ []) :
    fastSymbols alphabetSize packed.length ≤ nbElts alphabetSize packed := by
  have hbits := nbBits_pos hpos
  have hn : nbBits alphabetSize ≤ 8 := nbBits_le (by decide) hle
  obtain ⟨-, hsize⟩ := nbElts_bounds hpos hle hpacked
  rw [fastSymbols]
  split
  · exact rounds_le hbits hn (by ring) (by decide) hsize
  · exact rounds_le hbits hn (Nat.mul_comm _ _) (by decide) hsize

theorem indicesSeen_of_accepts {alphabetSize : Nat} {packed : List UInt8} (hpos : 0 < alphabetSize)
    (hle : alphabetSize ≤ 256) (hpacked : packed ≠ [])
    (h : Accepts alphabetSize (nbBits alphabetSize) (nbElts alphabetSize packed) (ofLE packed)
      (8 * packed.length)) : IndicesSeen alphabetSize packed := by
  obtain ⟨m, hm⟩ := Nat.exists_eq_add_of_le (fastSymbols_le hpos hle hpacked)
  have hfit := (nbElts_bounds hpos hle hpacked).1
  rw [hm, Nat.mul_add] at hfit
  rw [hm, accepts_add_iff (by omega)] at h
  exact Or.inl h.1

theorem flatpackDecode_packedBytes {alphabet : List UInt8} {indices : List Nat}
    (hpos : 0 < alphabet.length) (hle : alphabet.length ≤ 256)
    (h : ∀ idx ∈ indices, idx < alphabet.length) (hasNeededExts : Bool) {dstCapacity : Nat}
    (hroom : indices.length ≤ dstCapacity) :
    flatpackDecode hasNeededExts dstCapacity alphabet
        (packedBytes (nbBits alphabet.length) indices) =
      some (.ok (symbolsOf alphabet indices)) := by
  have hfields : ∀ idx ∈ indices, idx < 2 ^ nbBits alphabet.length := fun idx hidx =>
    (h idx hidx).trans_le (le_two_pow_nbBits _)
  have hlen : (packedBytes (nbBits alphabet.length) indices).length =
      1 + nbBits alphabet.length * indices.length / 8 := length_toLE _ _
  have hne : packedBytes (nbBits alphabet.length) indices ≠ [] := fun heq => by
    rw [heq, List.length_nil] at hlen
    omega
  obtain ⟨haccepts, hsame⟩ := accepts_packedBytes h hfields
  have hplain : flatpackDecode false dstCapacity alphabet
      (packedBytes (nbBits alphabet.length) indices) = some (.ok (symbolsOf alphabet indices)) := by
    rw [flatpackDecode, if_neg (by omega)]
    simp only [nbElts_packedBytes hpos hle h, Bool.false_eq_true, if_false]
    rw [if_neg (by omega), decodeEnd_eq alphabet _ (nbBits_le (by decide) hle), if_pos haccepts,
      hsame]
  cases hasNeededExts with
  | false => exact hplain
  | true =>
    refine ((flatpackDecode_agrees_iff dstCapacity hle).2 ?_).trans hplain
    refine Or.inr (Or.inr (Or.inr (indicesSeen_of_accepts hpos hle hne ?_)))
    rwa [nbElts_packedBytes hpos hle h]

/-- A string comes back from its alphabet and its packed bytes, whichever packer wrote them and
whichever decoder reads them. -/
structure RoundTrips (src : List UInt8) : Prop where
  samePacked : ∀ alphabetCapacity packedCapacity : Nat,
    flatpackEncode true alphabetCapacity packedCapacity src =
      flatpackEncode false alphabetCapacity packedCapacity src
  encodes : ∀ alphabetCapacity packedCapacity : Nat, 256 ≤ alphabetCapacity →
    src.length + 1 ≤ packedCapacity →
      ∃ alphabet packed, flatpackEncode false alphabetCapacity packedCapacity src =
        some (.ok (alphabet, packed))
  regenerates : ∀ (alphabetCapacity packedCapacity : Nat) (alphabet packed : List UInt8),
    flatpackEncode false alphabetCapacity packedCapacity src = some (.ok (alphabet, packed)) →
      ∀ (hasNeededExts : Bool) (dstCapacity : Nat), src.length ≤ dstCapacity →
        flatpackDecode hasNeededExts dstCapacity alphabet packed = some (.ok src)

theorem roundTrips_nil : RoundTrips [] where
  samePacked _ _ := (if_pos rfl).trans (if_pos rfl).symm
  encodes _ _ _ _ := ⟨[], [], if_pos rfl⟩
  regenerates _ _ _ _ h _ _ _ := by
    rw [flatpackEncode, if_pos List.length_nil] at h
    cases h
    exact if_pos (Or.inl rfl)

theorem roundTrips (src : List UInt8) : RoundTrips src := by
  by_cases hsrc : src = []
  · subst hsrc
    exact roundTrips_nil
  have hle := length_alphabetOf_le src
  have hpos : 0 < (alphabetOf src).length := by
    obtain ⟨s, hs⟩ := List.exists_mem_of_ne_nil src hsrc
    exact List.length_pos_of_mem (mem_alphabetOf.2 hs)
  refine ⟨fun a p => ?_, fun a p ha hp => ?_, fun a p alphabet packed h exts dst hdst => ?_⟩
  · obtain ⟨indices, -, -, hencode⟩ := flatpackEncode_eq hsrc a p
    rw [hencode, hencode]
  · obtain ⟨indices, -, -, hencode⟩ := flatpackEncode_eq hsrc a p
    have hbits : nbBits (alphabetOf src).length * src.length ≤ 8 * src.length :=
      Nat.mul_le_mul_right _ (nbBits_le (by decide) hle)
    have hsize : packedSize (alphabetOf src).length src.length ≤ src.length + 1 := by
      rw [packedSize]
      split <;> omega
    rw [hencode, if_pos ⟨by omega, by omega⟩]
    exact ⟨_, _, rfl⟩
  · obtain ⟨indices, hsymbols, hindices, hencode⟩ := flatpackEncode_eq hsrc a p
    rw [hencode] at h
    split at h
    · cases h
      have hlen : indices.length = src.length := by
        conv_rhs => rw [← hsymbols]
        rw [symbolsOf, List.length_map]
      have hdecode := flatpackDecode_packedBytes hpos hle hindices exts (hlen.trans_le hdst)
      rwa [hsymbols] at hdecode
    · cases h

/-- **Flatpack**: every string comes back, on every build; and the builds of the decoder agree on an
input exactly if it is refused for its size or no field of the rounds is outside of the alphabet
unnoticed. -/
theorem flatpack_iff (src alphabet packed : List UInt8) (dstCapacity : Nat)
    (hle : alphabet.length ≤ 256) :
    RoundTrips src ∧
      (flatpackDecode true dstCapacity alphabet packed =
          flatpackDecode false dstCapacity alphabet packed ↔
        packed = [] ∨ alphabet = [] ∨ dstCapacity < nbElts alphabet.length packed ∨
          IndicesSeen alphabet.length packed) :=
  ⟨roundTrips src, flatpackDecode_agrees_iff dstCapacity hle⟩

/-- An input whose first field is outside of the alphabet. -/
theorem flatpack_iff_three :
    RoundTrips [5, 7, 5] ∧
      (flatpackDecode true 64 [1, 2, 3] (3 :: List.replicate 15 0 ++ [1]) =
          flatpackDecode false 64 [1, 2, 3] (3 :: List.replicate 15 0 ++ [1]) ↔
        (3 :: List.replicate 15 0 ++ [1] : List UInt8) = [] ∨ ([1, 2, 3] : List UInt8) = [] ∨
          64 < nbElts 3 (3 :: List.replicate 15 0 ++ [1]) ∨
            IndicesSeen 3 (3 :: List.replicate 15 0 ++ [1])) :=
  flatpack_iff [5, 7, 5] [1, 2, 3] (3 :: List.replicate 15 0 ++ [1]) 64 (by decide)

/-- The fast decoder writes a symbol for the first field of an input that the plain one refuses. -/
theorem flatpackDecode_depends_on_cpu :
    ¬∀ (alphabet packed : List UInt8) (dstCapacity : Nat), alphabet.length ≤ 256 →
      flatpackDecode true dstCapacity alphabet packed =
        flatpackDecode false dstCapacity alphabet packed := by
  intro h
  have hsame := h [1, 2, 3] (3 :: List.replicate 15 0 ++ [1]) 64 (by decide)
  rw [flatpackDecode_agrees_iff 64 (by decide)] at hsame
  revert hsame
  decide +kernel

end OpenZL.Codecs.Flatpack
