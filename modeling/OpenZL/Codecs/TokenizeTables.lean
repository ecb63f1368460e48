import Mathlib.Data.List.GetD
import OpenZL.Codecs.Tokenize

/-!
# Tables of all tokens

For tokens of one and two bytes a table has a cell for each token there can be.

Principal results: `numSort_encode_into1_spec`, `tokenize1_sorted`, `tokenize1_unsorted`.
-/

namespace OpenZL.Codecs.Tokenize

open OpenZL.Lib

variable {input : List Nat}

/-- An exact dictionary: the elements of a list without repetition, sorted or in the order of their
first occurrence, and the list as their indices, in the least width of 1, 2 and 4 bytes that has an
index for each. -/
structure Tokenized {κ : Type} [DecidableEq κ] (lt : κ → κ → Prop) (sort : Bool) (input : List κ)
    (tokens : Tokens κ) : Prop where
  dictionary : Dictionary lt sort input tokens.alphabet
  indices : tokens.indices = input.map tokens.alphabet.idxOf
  idxWidth : tokens.idxWidth = getMinIdxSpace tokens.alphabet.length
  fits : ∀ index ∈ tokens.indices, index < 2 ^ (8 * tokens.idxWidth)

section Tokenized

variable {κ : Type} [DecidableEq κ] {lt : κ → κ → Prop} {sort : Bool} {input alphabet : List κ}
  {tokens : Tokens κ}

theorem Tokenized.mem (h : Tokenized lt sort input tokens) :
    ∀ x ∈ input, x ∈ tokens.alphabet := fun x hx => (h.dictionary.mem_iff x).2 hx

theorem Tokenized.lt_length (h : Tokenized lt sort input tokens) :
    ∀ index ∈ tokens.indices, index < tokens.alphabet.length := fun index hindex => by
  rw [h.indices] at hindex
  obtain ⟨x, hx, rfl⟩ := List.mem_map.1 hindex
  exact List.idxOf_lt_length_of_mem (h.mem x hx)

theorem Tokenized.lookup (h : Tokenized lt sort input tokens) :
    tokens.indices.mapM (fun i => tokens.alphabet[i]?) = some input := by
  rw [h.indices]
  exact mapM_idxOf h.mem

theorem tokenized_of_dictionary (h : Dictionary lt sort input alphabet) {idxWidth : Nat}
    (hwidth : idxWidth = getMinIdxSpace alphabet.length)
    (hfits : alphabet.length ≤ 2 ^ (8 * idxWidth)) :
    Tokenized lt sort input ⟨alphabet, input.map alphabet.idxOf, idxWidth⟩ := by
  refine ⟨h, rfl, hwidth, fun index hindex => ?_⟩
  obtain ⟨x, hx, rfl⟩ := List.mem_map.1 hindex
  exact (List.idxOf_lt_length_of_mem ((h.mem_iff x).2 hx)).trans_le hfits

theorem tokenized_bytes (h : Dictionary lt sort input alphabet) (hsmall : alphabet.length ≤ 256) :
    Tokenized lt sort input ⟨alphabet, input.map alphabet.idxOf, 1⟩ :=
  tokenized_of_dictionary h
    (by rw [getMinIdxSpace, if_pos (show alphabet.length ≤ 2 ^ 8 from hsmall)]) hsmall

end Tokenized

/-- The numbers below `k` that a table marks. -/
def marked (present : List Nat) (k : Nat) : List Nat :=
  (List.range k).filter fun i => decide (present.getD i 0 ≠ 0)

theorem marked_succ (present : List Nat) (k : Nat) :
    marked present (k + 1) =
      if present.getD k 0 ≠ 0 then marked present k ++ [k] else marked present k := by
  rw [marked, List.range_succ, List.filter_append, List.filter_cons, List.filter_nil, marked]
  by_cases h : present.getD k 0 ≠ 0
  · rw [if_pos h, decide_eq_true h, if_pos rfl]
  · rw [if_neg h, decide_eq_false h, if_neg nofun, List.append_nil]

theorem mem_marked {present : List Nat} {k x : Nat} :
    x ∈ marked present k ↔ x < k ∧ present.getD x 0 ≠ 0 := by
  rw [marked, List.mem_filter, List.mem_range, decide_eq_true_iff]

theorem pairwise_marked (present : List Nat) (k : Nat) : (marked present k).Pairwise (· < ·) :=
  List.pairwise_lt_range.filter _

theorem length_marked_le (present : List Nat) (k : Nat) : (marked present k).length ≤ k :=
  (List.length_filter_le _ _).trans (List.length_range).le

theorem length_marked_mono (present : List Nat) {j k : Nat} (h : j ≤ k) :
    (marked present j).length ≤ (marked present k).length := by
  induction k, h using Nat.le_induction with
  | base => exact Nat.le_refl _
  | succ k _ ih =>
    rw [marked_succ]
    split
    · rw [List.length_append]
      omega
    · exact ih

/-- A table marks the numbers of a list. -/
structure Marks (present input : List Nat) (cardinalityMax : Nat) : Prop where
  length : present.length = cardinalityMax
  getD : ∀ x < cardinalityMax, present.getD x 0 = if x ∈ input then 1 else 0

theorem detectPresents_marks {cardinalityMax : Nat} (input : List Nat)
    (h : ∀ x ∈ input, x < cardinalityMax) :
    Marks (detectPresents cardinalityMax input) input cardinalityMax := by
  induction input using List.reverseRecOn with
  | nil =>
    refine ⟨List.length_replicate, fun x hx => ?_⟩
    rw [if_neg List.not_mem_nil, detectPresents, List.foldl_nil, List.getD_replicate _ hx]
  | append_singleton input y ih =>
    have ih := ih fun x hx => h x (List.mem_append_left _ hx)
    have hy : y < cardinalityMax := h y (List.mem_append_right _ List.mem_cons_self)
    have hset : detectPresents cardinalityMax (input ++ [y]) =
        (detectPresents cardinalityMax input).set y 1 := by
      rw [detectPresents, List.foldl_append, List.foldl_cons, List.foldl_nil, detectPresents]
    rw [hset]
    refine ⟨(List.length_set ..).trans ih.length, fun x hx => ?_⟩
    have hget := ih.getD x hx
    rw [List.getD_eq_getElem?_getD] at hget ⊢
    by_cases hxy : y = x
    · subst hxy
      rw [List.getElem?_set_self (by rw [ih.length]; exact hy),
        if_pos (List.mem_append_right _ List.mem_cons_self)]
      rfl
    · rw [List.getElem?_set_ne hxy, hget]
      simp only [List.mem_append, List.mem_singleton, Ne.symm hxy, or_false]

theorem Marks.mem_iff {present input : List Nat} {n : Nat} (h : Marks present input n)
    (hinput : ∀ x ∈ input, x < n) (x : Nat) : x ∈ marked present n ↔ x ∈ input := by
  rw [mem_marked]
  constructor
  · rintro ⟨hx, hne⟩
    by_contra hmem
    rw [h.getD x hx, if_neg hmem] at hne
    exact hne rfl
  · intro hx
    refine ⟨hinput x hx, ?_⟩
    rw [h.getD x (hinput x hx), if_pos hx]
    exact Nat.one_ne_zero

theorem Marks.dictionary {present input : List Nat} {n : Nat} (h : Marks present input n)
    (hinput : ∀ x ∈ input, x < n) : Dictionary (· < ·) true input (marked present n) :=
  dictionary_of_pairwise Nat.lt_irrefl (h.mem_iff hinput) (pairwise_marked present n)

theorem Marks.cardinality {present input : List Nat} {n : Nat} (h : Marks present input n) :
    numSort_cardinality present = (marked present n).length := by
  have hsum : ∀ k ≤ n, (present.take k).sum = (marked present k).length := fun k hk => by
    induction k with
    | zero => rfl
    | succ k ih =>
      have hlt : k < present.length := by
        rw [h.length]
        omega
      have hget := h.getD k (by omega)
      rw [List.getD_eq_getElem _ _ hlt] at hget
      rw [marked_succ, List.take_succ_eq_append_getElem hlt, List.sum_append, List.sum_singleton,
        ih (by omega), List.getD_eq_getElem _ _ hlt, hget]
      split
      · rw [if_pos Nat.one_ne_zero, List.length_append, List.length_singleton]
      · rw [if_neg fun hne => hne rfl, Nat.add_zero]
  rw [numSort_cardinality, ← List.sum_eq_foldl, ← hsum n (Nat.le_refl n),
    List.take_of_length_le h.length.le]

/-- After the numbers below `k`: those that are marked have their number, the others are as they
were. -/
structure Numbered (present : List Nat) (k : Nat) (s : List Nat × List Nat) : Prop where
  length : s.1.length = present.length
  alphabet : s.2 = marked present k
  before : ∀ x ∈ marked present k, s.1.getD x 0 = (marked present k).idxOf x % 2 ^ 8
  behind : ∀ x, k ≤ x → s.1.getD x 0 = present.getD x 0

theorem Numbered.step {present : List Nat} {k capacity : Nat} {s : List Nat × List Nat}
    (h : Numbered present k s) (hk : k < present.length)
    (hcap : (marked present (k + 1)).length ≤ capacity) :
    ∃ s', writeSymbol capacity s k = some s' ∧ Numbered present (k + 1) s' := by
  have hget := h.behind k (Nat.le_refl k)
  have hfresh : k ∉ marked present k := fun hmem => Nat.lt_irrefl k (mem_marked.1 hmem).1
  rw [writeSymbol, hget]
  by_cases hne : present.getD k 0 ≠ 0
  · have hmarked : marked present (k + 1) = marked present k ++ [k] := by
      rw [marked_succ, if_pos hne]
    rw [hmarked, List.length_append, List.length_singleton] at hcap
    rw [if_pos hne, if_pos (by rw [h.alphabet]; omega)]
    refine ⟨_, rfl, (List.length_set ..).trans h.length, ?_, fun x hx => ?_, fun x hx => ?_⟩
    · rw [hmarked, h.alphabet]
    · rw [hmarked] at hx ⊢
      rw [List.getD_eq_getElem?_getD]
      rcases List.mem_append.1 hx with hx | hx
      · have hxk : k ≠ x := fun heq => hfresh (heq ▸ hx)
        rw [List.getElem?_set_ne hxk, ← List.getD_eq_getElem?_getD, h.before x hx,
          List.idxOf_append_of_mem hx]
      · rw [List.mem_singleton] at hx
        subst hx
        rw [List.getElem?_set_self (by rw [h.length]; exact hk),
          List.idxOf_append_of_notMem hfresh, List.idxOf_cons_self, h.alphabet]
        rfl
    · rw [List.getD_eq_getElem?_getD, List.getElem?_set_ne (by omega),
        ← List.getD_eq_getElem?_getD, h.behind x (by omega)]
  · have hmarked : marked present (k + 1) = marked present k := by rw [marked_succ, if_neg hne]
    rw [if_neg hne]
    refine ⟨s, rfl, h.length, ?_, fun x hx => ?_, fun x hx => h.behind x (by omega)⟩
    · rw [hmarked, h.alphabet]
    · rw [hmarked] at hx ⊢
      exact h.before x hx

theorem numbered {present : List Nat} {n capacity : Nat} (hlen : present.length = n)
    (hcap : (marked present n).length ≤ capacity) :
    ∃ s, (List.range n).foldlM (writeSymbol capacity) (present, []) = some s ∧
      Numbered present n s := by
  have hrun : ∀ k ≤ n, ∃ s,
      (List.range k).foldlM (writeSymbol capacity) (present, []) = some s ∧
        Numbered present k s := fun k hk => by
    induction k with
    | zero => exact ⟨_, rfl, rfl, rfl, nofun, fun _ _ => rfl⟩
    | succ k ih =>
      obtain ⟨s, hs, hnumbered⟩ := ih (by omega)
      obtain ⟨s', hs', hnumbered'⟩ :=
        hnumbered.step (by omega) ((length_marked_mono present hk).trans hcap)
      refine ⟨s', ?_, hnumbered'⟩
      rw [List.range_succ, List.foldlM_append, hs]
      simp only [Option.bind_eq_bind, Option.bind_some, List.foldlM_cons, List.foldlM_nil, hs']
      rfl
  exact hrun n (Nat.le_refl n)

theorem writeAlphabet_spec {n capacity : Nat} (h : ∀ x ∈ input, x < n)
    (hcap : (marked (detectPresents n input) n).length ≤ capacity)
    (hsmall : (marked (detectPresents n input) n).length ≤ 256) :
    ∃ indexes, writeAlphabet n capacity (detectPresents n input) =
        some (indexes, marked (detectPresents n input) n) ∧
      writeIndexes input indexes =
        input.map (marked (detectPresents n input) n).idxOf := by
  have hmarks := detectPresents_marks input h
  obtain ⟨⟨indexes, alphabet⟩, hrun, hnumbered⟩ := numbered hmarks.length hcap
  obtain rfl := hnumbered.alphabet
  refine ⟨indexes, ?_, List.map_congr_left fun x hx => ?_⟩
  · simp only [writeAlphabet, hrun, Option.bind_eq_bind, Option.bind_some, if_pos hsmall]
  · have hmem := (hmarks.mem_iff h x).2 hx
    have hlt := List.idxOf_lt_length_of_mem hmem
    rw [hnumbered.before x hmem, Nat.mod_eq_of_lt (by omega)]

/-- **The table of all tokens of two bytes**, for a list of at most 256 of them. -/
theorem numSort_encode_into1_spec (h : ∀ x ∈ input, x < TOK2_CARDINALITY_MAX)
    (hcard : ¬ numSort_cardinality (detectPresents TOK2_CARDINALITY_MAX input) > 256) :
    ∃ tokens, numSort_encode_into1
        (numSort_cardinality (detectPresents TOK2_CARDINALITY_MAX input)) input
        (detectPresents TOK2_CARDINALITY_MAX input) = some tokens ∧
      Tokenized (· < ·) true input tokens := by
  have hmarks : Marks (detectPresents TOK2_CARDINALITY_MAX input) input TOK2_CARDINALITY_MAX :=
    detectPresents_marks input h
  have hsmall := Nat.not_lt.1 hcard
  obtain ⟨indexes, hrun, hindexes⟩ := writeAlphabet_spec h hmarks.cardinality.ge
    (hmarks.cardinality.ge.trans hsmall)
  refine ⟨⟨marked (detectPresents TOK2_CARDINALITY_MAX input) TOK2_CARDINALITY_MAX,
    writeIndexes input indexes, 1⟩, ?_, ?_⟩
  · rw [numSort_encode_into1, hrun]
    rfl
  · rw [hindexes]
    exact tokenized_bytes (hmarks.dictionary h) (hmarks.cardinality.ge.trans hsmall)

/-- **The table of all bytes.** -/
theorem tokenize1_sorted (h : ∀ x ∈ input, x < 2 ^ 8) :
    ∃ tokens, tokenize1 input true = .ok tokens ∧ Tokenized (· < ·) true input tokens := by
  have hbytes : ∀ x ∈ input, x < 256 := h
  have hmarks : Marks (detectPresents 256 input) input 256 := detectPresents_marks input hbytes
  have hsmall := length_marked_le (detectPresents 256 input) 256
  obtain ⟨indexes, hrun, hindexes⟩ := writeAlphabet_spec hbytes hsmall hsmall
  refine ⟨⟨marked (detectPresents 256 input) 256, writeIndexes input indexes, 1⟩, ?_, ?_⟩
  · rw [tokenize1, if_pos rfl, hrun]
    rfl
  · rw [hindexes]
    exact tokenized_bytes (hmarks.dictionary h) hsmall

theorem length_le_of_nodup {xs : List Nat} {n : Nat} (h : xs.Nodup) (hlt : ∀ x ∈ xs, x < n) :
    xs.length ≤ n := by
  have hsub : xs.Subperm (List.range n) :=
    List.subperm_of_subset h fun x hx => List.mem_range.2 (hlt x hx)
  exact hsub.length_le.trans List.length_range.le

/-- After the bytes of `done`: those that were seen have their number, the others -1. -/
structure Seen (done : List Nat) (s : List Int × List Nat × List Nat) : Prop where
  length : s.1.length = 256
  alphabet : s.2.1 = distinct done
  seen : ∀ x ∈ distinct done, s.1.getD x 0 = (distinct done).idxOf x
  unseen : ∀ x < 256, x ∉ distinct done → s.1.getD x 0 = -1
  indices : s.2.2 = done.map fun x => (distinct done).idxOf x % 2 ^ 8

theorem Seen.step {done : List Nat} {s : List Int × List Nat × List Nat} (h : Seen done s)
    {x : Nat} (hx : x < 256) : Seen (done ++ [x]) (tokenize1Step s x) := by
  obtain ⟨reverse, alphabet, indices⟩ := s
  obtain rfl : alphabet = distinct done := h.alphabet
  obtain rfl : indices = done.map fun x => (distinct done).idxOf x % 2 ^ 8 := h.indices
  have hdone := (dictionary_distinct (· < ·) done).mem_iff
  by_cases hmem : x ∈ distinct done
  · have hsame : distinct (done ++ [x]) = distinct done := by
      rw [distinct_append_singleton, addNew, if_pos hmem]
    have hget : reverse.getD x 0 = (distinct done).idxOf x := h.seen x hmem
    have hne : ¬ ((distinct done).idxOf x : Int) = -1 := by omega
    rw [tokenize1Step]
    simp only [hget, if_neg hne]
    refine ⟨h.length, hsame.symm, ?_, ?_, ?_⟩
    · rw [hsame]
      exact h.seen
    · rw [hsame]
      exact h.unseen
    · rw [hsame, List.map_append, List.map_singleton]
      refine congrArg (_ ++ [·]) ?_
      omega
  · have hnew : distinct (done ++ [x]) = distinct done ++ [x] := by
      rw [distinct_append_singleton, addNew, if_neg hmem]
    have hget : reverse.getD x 0 = -1 := h.unseen x hx hmem
    have hidx : ∀ y ∈ distinct done,
        (distinct done ++ [x]).idxOf y = (distinct done).idxOf y := fun y hy =>
      List.idxOf_append_of_mem hy
    have hlast : (distinct done ++ [x]).idxOf x = (distinct done).length := by
      rw [List.idxOf_append_of_notMem hmem, List.idxOf_cons_self, Nat.add_zero]
    have hlen : reverse.length = 256 := h.length
    rw [tokenize1Step]
    simp only [hget, if_true]
    refine ⟨(List.length_set ..).trans h.length, hnew.symm, fun y hy => ?_, fun y hy hy' => ?_, ?_⟩
    · rw [hnew] at hy ⊢
      rw [List.getD_eq_getElem?_getD]
      rcases List.mem_append.1 hy with hy | hy
      · have hxy : x ≠ y := fun heq => hmem (heq ▸ hy)
        rw [List.getElem?_set_ne hxy, ← List.getD_eq_getElem?_getD, hidx y hy]
        exact h.seen y hy
      · rw [List.mem_singleton] at hy
        subst hy
        rw [List.getElem?_set_self (by rw [hlen]; exact hx), hlast]
        rfl
    · rw [hnew, List.mem_append, not_or, List.mem_singleton] at hy'
      rw [List.getD_eq_getElem?_getD, List.getElem?_set_ne (Ne.symm hy'.2),
        ← List.getD_eq_getElem?_getD]
      exact h.unseen y hy hy'.1
    · rw [hnew, List.map_append, List.map_singleton, hlast]
      refine congrArg (· ++ _) (List.map_congr_left fun y hy => ?_)
      rw [hidx y ((hdone y).2 hy)]

theorem seen (h : ∀ x ∈ input, x < 256) :
    Seen input (input.foldl tokenize1Step (List.replicate 256 (-1), [], [])) := by
  induction input using List.reverseRecOn with
  | nil =>
    refine ⟨List.length_replicate, rfl, nofun, fun x hx _ => ?_, rfl⟩
    exact List.getD_replicate _ hx
  | append_singleton input x ih =>
    rw [List.foldl_append]
    exact (ih fun y hy => h y (List.mem_append_left _ hy)).step
      (h x (List.mem_append_right _ List.mem_cons_self))

/-- **Bytes in the order of their first occurrence.** -/
theorem tokenize1_unsorted (h : ∀ x ∈ input, x < 2 ^ 8) :
    ∃ tokens, tokenize1 input false = .ok tokens ∧ Tokenized (· < ·) false input tokens := by
  have hseen := seen h
  have hdistinct := dictionary_distinct (· < ·) input
  have hsmall : (distinct input).length ≤ 256 :=
    length_le_of_nodup hdistinct.nodup fun x hx => h x ((hdistinct.mem_iff x).1 hx)
  rw [tokenize1, if_neg nofun]
  generalize input.foldl tokenize1Step (List.replicate 256 (-1), [], []) = s at hseen ⊢
  obtain ⟨reverse, alphabet, indices⟩ := s
  obtain rfl : alphabet = distinct input := hseen.alphabet
  refine ⟨⟨distinct input, indices, 1⟩, if_pos hsmall, ?_⟩
  have hindices : indices = input.map (distinct input).idxOf := by
    refine hseen.indices.trans (List.map_congr_left fun x hx => ?_)
    have hlt := List.idxOf_lt_length_of_mem ((hdistinct.mem_iff x).2 hx)
    exact Nat.mod_eq_of_lt (hlt.trans_le hsmall)
  rw [hindices]
  exact tokenized_bytes hdistinct hsmall

end OpenZL.Codecs.Tokenize
