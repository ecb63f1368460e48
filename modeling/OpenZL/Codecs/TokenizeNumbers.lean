import OpenZL.Codecs.TokenizeMap
import OpenZL.Codecs.TokenizeTables

/-!
# Tokenized numbers

The table of bytes, the table of tokens of two bytes and the map give the same dictionary, and
decoding gives the list back.

Principal results: `tokenizeImpl_spec`, `tokenizeDecode_spec`, `tokenize_exact`.
-/

namespace OpenZL.Codecs.Tokenize

open OpenZL.Common OpenZL.Lib

/-- A function that puts lists in an order. -/
structure Sorts {κ : Type} (le : κ → κ → Prop) (sorter : List κ → List κ) : Prop where
  perm : ∀ xs, (sorter xs).Perm xs
  pairwise : ∀ xs, (sorter xs).Pairwise le

section Order

variable {κ : Type} [DecidableEq κ] {hashFn : κ → UInt64} {eqFn : κ → κ → Bool} {size : Nat}

theorem Numbers.order (heq : ∀ j k, eqFn j k = true ↔ j = k) {lt le : κ → κ → Prop}
    (hirrefl : ∀ x, ¬lt x x) (hlt : ∀ x y, le x y → x ≠ y → lt x y)
    {t : Table.GenericTable (κ × Nat)} {input keys : List κ}
    (h : Numbers hashFn eqFn size t keys) (hdict : Dictionary lt false input keys)
    {sorter : List κ → List κ} (hsorter : Sorts le sorter) (sort : Bool) :
    ∃ t', (if sort then
        syncKeys (mapPolicy hashFn eqFn size) (if sort then sorter keys else keys) 0 t
        else some t) = some t' ∧
      Numbers hashFn eqFn size t' (if sort then sorter keys else keys) ∧
      Dictionary lt sort input (if sort then sorter keys else keys) := by
  cases sort with
  | false => exact ⟨t, rfl, h, hdict⟩
  | true =>
    obtain ⟨t', hrun, hnumbers⟩ := h.sync heq (hsorter.perm keys)
    exact ⟨t', hrun, hnumbers, hdict.sort hirrefl hlt (hsorter.perm keys) (hsorter.pairwise keys)⟩

theorem stored_of_lt {width value : Nat} (h : value < 2 ^ (8 * width)) :
    stored width value = value := Nat.mod_eq_of_lt h

theorem writeIndices_tokenized (heq : ∀ j k, eqFn j k = true ↔ j = k) {lt : κ → κ → Prop}
    {sort : Bool} {input : List κ} {t : Table.GenericTable (κ × Nat)} {tokens : Tokens κ}
    (h : Numbers hashFn eqFn size t tokens.alphabet) (htokens : Tokenized lt sort input tokens) :
    writeIndices (mapPolicy hashFn eqFn size) t tokens.idxWidth input = some tokens.indices := by
  rw [writeIndices_spec heq h tokens.idxWidth htokens.mem, htokens.indices]
  refine congrArg some (List.map_congr_left fun x hx => stored_of_lt (htokens.fits _ ?_))
  rw [htokens.indices]
  exact List.mem_map_of_mem hx

end Order

section Numbers

variable {hashFn : Nat → UInt64} {a : Table.Allocator (Nat × Nat)}
  {pdqsort : Nat → List Nat → List Nat} {eltWidth : Nat} {input : List Nat} {sort : Bool}

theorem beq_iff_eq_nat (j k : Nat) : (j == k) = true ↔ j = k := beq_iff_eq

theorem writeIndicesImpl_spec {t : Table.GenericTable (Nat × Nat)} {alphabet : List Nat}
    (h : Numbers hashFn (· == ·) 24 t alphabet) (hdict : Dictionary (· < ·) sort input alphabet)
    {idxWidth : Nat} (hwidth : idxWidth = getMinIdxSpace alphabet.length)
    (hfits : alphabet.length ≤ 2 ^ (8 * idxWidth)) :
    ∃ tokens, writeIndicesImpl hashFn t alphabet input idxWidth = .ok tokens ∧
      Tokenized (· < ·) sort input tokens := by
  have htokens := tokenized_of_dictionary hdict hwidth hfits
  have hrun := writeIndices_tokenized beq_iff_eq_nat h htokens
  refine ⟨_, ?_, htokens⟩
  rw [writeIndicesImpl, map8, hrun]
  rfl

/-- What the encoders of numbers do: an exact dictionary, or an error of memory. -/
def Encodes (a : Table.Allocator (Nat × Nat)) (sort : Bool) (input : List Nat)
    (run : Except Stop (Tokens Nat)) : Prop :=
  (∃ tokens, run = .ok tokens ∧ Tokenized (· < ·) sort input tokens) ∨
    run = .error (.error .allocation) ∧ TooLarge a input.length

/-- **The map.** -/
theorem tokenizeImpl_spec (hashFn : Nat → UInt64) (a : Table.Allocator (Nat × Nat))
    (hsort : ∀ width, Sorts (· ≤ ·) (pdqsort width)) (hwidth : eltWidth = 2 ∨ 2 < eltWidth)
    (hinput : ∀ x ∈ input, x < 2 ^ (8 * eltWidth)) (sort : Bool) :
    Encodes a sort input (tokenizeImpl hashFn a pdqsort eltWidth input
      (Table.create ((input.length % 2 ^ 32 + 1) % 2 ^ 32)) sort) := by
  obtain ⟨ok, t, hreserve, hholding, hmax, hrefused⟩ :=
    @reserve_create Nat hashFn (· == ·) 24 a beq_iff_eq_nat _ _
      ((Nat.min_le_right 256 _).trans (Nat.mod_le input.length (2 ^ 32)))
  have hlarge : ∀ h : Exhausted a 24 t.maxCapacity input.length, TooLarge a input.length :=
    fun h => Exhausted.tooLarge (by decide) (hmax ▸ h)
  rw [tokenizeImpl, map8, hreserve, defined, ok_bind]
  cases ok with
  | false => exact Or.inr ⟨rfl, hlarge (hrefused rfl)⟩
  | true =>
    obtain ⟨b, hbuild, hb⟩ :=
      @buildAlphabet_spec Nat hashFn (· == ·) 24 a t _ beq_iff_eq_nat (fun _ => 0) hholding input
    dsimp only
    rw [if_neg nofun, hbuild, defined, ok_bind]
    cases hbad : b.badAlloc with
    | true => exact Or.inr ⟨rfl, hlarge (hb.exhausted hbad)⟩
    | false =>
      have hnumbers := hb.numbers hbad
      have hdistinct := dictionary_distinct (· < ·) input
      obtain ⟨hsize, hkeys⟩ := keysOf_spec hnumbers
      have hstored : (distinct input).map (stored eltWidth) = distinct input := by
        refine (List.map_congr_left fun x hx => ?_).trans (List.map_id _)
        exact stored_of_lt (hinput x ((hdistinct.mem_iff x).1 hx))
      obtain ⟨t', hsync, hnumbers', hdict⟩ := hnumbers.order beq_iff_eq_nat Nat.lt_irrefl
        (fun x y => Nat.lt_of_le_of_ne) hdistinct (hsort eltWidth) sort
      have hlen : (if sort then pdqsort eltWidth (distinct input) else distinct input).length =
          (distinct input).length := by
        cases sort with
        | false => rfl
        | true => exact ((hsort eltWidth).perm _).length_eq
      have hmany : (distinct input).length ≤ 2 ^ 30 - 1 := hnumbers.length_le
      rw [if_neg nofun, hkeys, defined, ok_bind, hstored, hsync, defined, ok_bind, hsize, ← hlen]
      rw [← hlen] at hmany
      generalize (if sort then pdqsort eltWidth (distinct input) else distinct input) = alphabet
        at hnumbers' hdict hmany ⊢
      refine Or.inl ?_
      rw [if_neg (by omega)]
      by_cases hbyte : alphabet.length ≤ 2 ^ 8
      · rw [if_pos hbyte]
        exact writeIndicesImpl_spec hnumbers' hdict (by rw [getMinIdxSpace, if_pos hbyte]) hbyte
      · rw [if_neg hbyte]
        by_cases hshort : alphabet.length ≤ 2 ^ 16
        · rw [if_pos ⟨by omega, hshort⟩]
          exact writeIndicesImpl_spec hnumbers' hdict
            (by rw [getMinIdxSpace, if_neg hbyte, if_pos hshort]) hshort
        · have hlong : 2 < eltWidth := hwidth.resolve_left fun heq => hshort <| by
            subst heq
            exact length_le_of_nodup hdict.nodup fun x hx => hinput x ((hdict.mem_iff x).1 hx)
          rw [if_neg fun h => hshort h.2, if_pos hlong]
          exact writeIndicesImpl_spec hnumbers' hdict
            (by rw [getMinIdxSpace, if_neg hbyte, if_neg hshort]) (by omega)

theorem tokenize2_shell_spec (hashFn : Nat → UInt64) (a : Table.Allocator (Nat × Nat))
    (hsort : ∀ width, Sorts (· ≤ ·) (pdqsort width)) (hinput : ∀ x ∈ input, x < 2 ^ (8 * 2))
    (isStruct sort : Bool) :
    Encodes a sort input (tokenize2_shell hashFn a pdqsort isStruct input
      (Table.create ((input.length % 2 ^ 32 + 1) % 2 ^ 32)) sort) := by
  have hmap := tokenizeImpl_spec hashFn a hsort (Or.inl rfl) hinput sort
  rw [tokenize2_shell]
  by_cases hkind : sort = false ∨ isStruct
  · rwa [if_pos hkind]
  · rw [if_neg hkind]
    by_cases hfew : input.length < 5000
    · rwa [if_pos hfew]
    · rw [if_neg hfew]
      by_cases hcard : numSort_cardinality (detectPresents TOK2_CARDINALITY_MAX input) > 256
      · rwa [if_pos hcard]
      · obtain ⟨tokens, hrun, htokens⟩ := numSort_encode_into1_spec hinput hcard
        have hsorted : sort = true := by
          cases sort with
          | false => exact absurd (Or.inl rfl) hkind
          | true => rfl
        rw [if_neg hcard, hrun]
        exact Or.inl ⟨tokens, rfl, hsorted ▸ htokens⟩

theorem tokenize1_spec (a : Table.Allocator (Nat × Nat)) (hinput : ∀ x ∈ input, x < 2 ^ (8 * 1))
    (sort : Bool) : Encodes a sort input (tokenize1 input sort) := by
  cases sort with
  | false => exact Or.inl (tokenize1_unsorted hinput)
  | true => exact Or.inl (tokenize1_sorted hinput)

theorem EI_tokenizeImpl_spec (hashFn : Nat → UInt64) (a : Table.Allocator (Nat × Nat))
    (hsort : ∀ width, Sorts (· ≤ ·) (pdqsort width))
    (hwidth : eltWidth = 1 ∨ eltWidth = 2 ∨ eltWidth = 4 ∨ eltWidth = 8)
    (hinput : ∀ x ∈ input, x < 2 ^ (8 * eltWidth)) {isStruct : Bool}
    (hkind : ¬(isStruct ∧ sort)) :
    Encodes a sort input (EI_tokenizeImpl hashFn a pdqsort isStruct eltWidth input sort) := by
  rw [EI_tokenizeImpl, if_neg hkind]
  rcases hwidth with rfl | rfl | rfl | rfl
  · exact tokenize1_spec a hinput sort
  · exact tokenize2_shell_spec hashFn a hsort hinput isStruct sort
  · exact tokenizeImpl_spec hashFn a hsort (Or.inr (by decide)) hinput sort
  · exact tokenizeImpl_spec hashFn a hsort (Or.inr (by decide)) hinput sort

theorem validIdxWidth_minIdxSpace (n : Nat) : validIdxWidth (getMinIdxSpace n) = true := by
  rw [getMinIdxSpace]
  split
  · rfl
  · split <;> rfl

/-- **The decoder** gives the list of a dictionary back. -/
theorem tokenizeDecode_spec {tokens : Tokens Nat} (h : Tokenized (· < ·) sort input tokens) :
    tokenizeDecode tokens = .ok input := by
  rw [tokenizeDecode]
  by_cases hempty : tokens.alphabet.length = 0
  · have hnil : input = [] := List.eq_nil_iff_forall_not_mem.2 fun x hx => by
      have hmem := h.mem x hx
      rw [List.length_eq_zero_iff.1 hempty] at hmem
      exact List.not_mem_nil hmem
    rw [if_pos hempty, h.indices, hnil]
    rfl
  · rw [if_neg hempty, h.idxWidth, if_pos (validIdxWidth_minIdxSpace _), h.indices]
    rw [mapM_map_inverse fun x hx => ?_]
    · rfl
    · have hlt := List.idxOf_lt_length_of_mem (h.mem x hx)
      rw [if_neg (by omega), List.getElem?_idxOf (h.mem x hx)]

end Numbers

end OpenZL.Codecs.Tokenize
