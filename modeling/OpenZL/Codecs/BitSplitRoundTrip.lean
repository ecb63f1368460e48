import OpenZL.Codecs.BitSplit

/-!
# The bit-split codec: round trip

The kernels for floating-point layouts do what the plain loop does.  The parts of an element put
together are the element's lowest bits, as many as the widths add up to; and the header and the
number of streams tell whether the last width was left out.

Principal results: `bitSplitEncode_eq`, `bitSplitDecode_eq`; `decodeElement_extract`;
`parseHeader_header`; `bitSplit_roundTrip`.
-/

namespace OpenZL.Codecs.BitSplit

open OpenZL.Lib OpenZL.Shared

variable {bitWidths : List UInt8} {parts : List (Nat × Nat)}

theorem encodeElements_nil (parts : List (Nat × Nat)) (bitPos : Nat) :
    encodeElements [] parts bitPos = parts.map fun _ => [] := by
  induction parts generalizing bitPos with
  | nil => rfl
  | cons part parts ih => rw [encodeElements, ih, List.map_nil, List.map_cons]

/-- **The encoder's kernels** are the plain loop. -/
theorem bitSplitEncode_eq (src : List Nat) (srcEltWidth : Nat) (parts : List (Nat × Nat)) :
    bitSplitEncode src srcEltWidth parts = encodeElements src parts 0 := by
  rw [bitSplitEncode]
  by_cases hnone : src.length = 0
  · rw [if_pos hnone, List.length_eq_zero_iff.1 hnone, encodeElements_nil]
  rw [if_neg hnone]
  by_cases hbf16 : isBf16Pattern srcEltWidth parts = true
  · rw [if_pos hbf16, (of_decide_eq_true hbf16).2]
    rfl
  rw [if_neg hbf16]
  by_cases hfp16 : isFp16Pattern srcEltWidth parts = true
  · rw [if_pos hfp16, (of_decide_eq_true hfp16).2]
    rfl
  rw [if_neg hfp16]
  by_cases hfp32 : isFp32Pattern srcEltWidth parts = true
  · rw [if_pos hfp32, (of_decide_eq_true hfp32).2]
    rfl
  rw [if_neg hfp32]
  by_cases hfp64 : isFp64Pattern srcEltWidth parts = true
  · rw [if_pos hfp64, (of_decide_eq_true hfp64).2]
    rfl
  rw [if_neg hfp64]

theorem store_or (eltWidth a b : Nat) :
    store eltWidth (a ||| b) = store eltWidth a ||| store eltWidth b := Nat.or_mod_two_pow

theorem store_store {narrow wide : Nat} (h : narrow ≤ wide) (value : Nat) :
    store narrow (store wide value) = store narrow value :=
  Nat.mod_mod_of_dvd _ (Nat.pow_dvd_pow 2 (by omega))

theorem store_three {eltWidth : Nat} (h : eltWidth ≤ 8) (a b c i j k : Nat) :
    store eltWidth (store eltWidth (store eltWidth a ||| b <<< i) ||| c <<< (i + j)) =
      store eltWidth (decodeElement [(a, i), (b, j), (c, k)] 0 0) := by
  simp only [decodeElement, store_or, store_store h, store_store (Nat.le_refl _), Nat.zero_add,
    Nat.shiftLeft_zero, Nat.zero_or]

theorem map_store_three {eltWidth nbElts : Nat} {srcs : List (List Nat)} (h : eltWidth ≤ 8)
    (hlen : srcs.length = 3) (i j k : Nat) (hparts : parts.map Prod.snd = [i, j, k]) :
    ((List.range nbElts).map fun e =>
      store eltWidth (store eltWidth (store eltWidth (partAt srcs 0 e) ||| partAt srcs 1 e <<< i) |||
        partAt srcs 2 e <<< (i + j))) = decodeElements eltWidth nbElts srcs parts := by
  match srcs, hlen with
  | [a, b, c], _ =>
      rw [decodeElements, hparts]
      refine List.map_congr_left fun e _ => ?_
      exact store_three h _ _ _ i j k

/-- **The decoder's kernels** are the plain loop. -/
theorem bitSplitDecode_eq (dstEltWidth nbElts : Nat) {srcs : List (List Nat)}
    (hlen : srcs.length = parts.length) :
    bitSplitDecode dstEltWidth nbElts srcs parts =
      decodeElements dstEltWidth nbElts srcs parts := by
  rw [bitSplitDecode]
  by_cases hnone : nbElts = 0
  · rw [if_pos hnone, hnone]
    rfl
  rw [if_neg hnone]
  by_cases hbf16 : isBf16Pattern dstEltWidth parts = true
  · obtain ⟨rfl, rfl⟩ := of_decide_eq_true hbf16
    rw [if_pos hbf16]
    exact map_store_three (by decide) hlen 7 8 1 rfl
  rw [if_neg hbf16]
  by_cases hfp16 : isFp16Pattern dstEltWidth parts = true
  · obtain ⟨rfl, rfl⟩ := of_decide_eq_true hfp16
    rw [if_pos hfp16]
    exact map_store_three (by decide) hlen 10 5 1 rfl
  rw [if_neg hfp16]
  by_cases hfp32 : isFp32Pattern dstEltWidth parts = true
  · obtain ⟨rfl, rfl⟩ := of_decide_eq_true hfp32
    rw [if_pos hfp32]
    exact map_store_three (by decide) hlen 23 8 1 rfl
  rw [if_neg hfp32]
  by_cases hfp64 : isFp64Pattern dstEltWidth parts = true
  · obtain ⟨rfl, rfl⟩ := of_decide_eq_true hfp64
    rw [if_pos hfp64]
    exact map_store_three (by decide) hlen 52 11 1 rfl
  rw [if_neg hfp64]

/-- The parts of one element. -/
def extract (value : Nat) : List (Nat × Nat) → Nat → List Nat
  | [], _ => []
  | (dstEltWidth, width) :: parts, bitPos =>
      store dstEltWidth ((value >>> bitPos) &&& maskOf width) ::
        extract value parts (bitPos + width)

/-- The widths of the parts, added up. -/
def sumOf (parts : List (Nat × Nat)) : Nat := (parts.map Prod.snd).sum

theorem sumOf_cons (part : Nat × Nat) (parts : List (Nat × Nat)) :
    sumOf (part :: parts) = part.2 + sumOf parts := by
  rw [sumOf, List.map_cons, List.sum_cons, sumOf]

theorem map_getD_encodeElements {src : List Nat} {e : Nat} (h : e < src.length)
    (parts : List (Nat × Nat)) (bitPos : Nat) :
    (encodeElements src parts bitPos).map (fun dst => dst.getD e 0) =
      extract src[e] parts bitPos := by
  induction parts generalizing bitPos with
  | nil => rfl
  | cons part parts ih =>
      rw [encodeElements, extract, List.map_cons, ih, List.getD_eq_getElem?_getD, List.getElem?_map,
        List.getElem?_eq_getElem h]
      rfl

theorem and_maskOf {width : Nat} (h : width ≤ 64) (x : Nat) : x &&& maskOf width = x % 2 ^ width := by
  rw [maskOf]
  split
  · obtain rfl : width = 64 := by omega
    exact Nat.and_two_pow_sub_one_eq_mod x 64
  · rw [Nat.one_shiftLeft]
    exact Nat.and_two_pow_sub_one_eq_mod x width

theorem shiftLeft_lt {x width bitPos n : Nat} (hx : x < 2 ^ width) (h : width + bitPos ≤ n) :
    x <<< bitPos < 2 ^ n := by
  rw [Nat.shiftLeft_eq]
  calc x * 2 ^ bitPos < 2 ^ width * 2 ^ bitPos :=
        Nat.mul_lt_mul_of_pos_right hx (Nat.two_pow_pos bitPos)
    _ = 2 ^ (width + bitPos) := (Nat.pow_add 2 width bitPos).symm
    _ ≤ 2 ^ n := Nat.pow_le_pow_right (by decide) h

theorem or_parts (x bitPos width rest : Nat) :
    (x % 2 ^ width) <<< bitPos ||| (x >>> width % 2 ^ rest) <<< (bitPos + width) =
      (x % 2 ^ (width + rest)) <<< bitPos := by
  refine Nat.eq_of_testBit_eq fun i => ?_
  simp only [Nat.testBit_or, Nat.testBit_shiftLeft, Nat.testBit_mod_two_pow, Nat.testBit_shiftRight]
  by_cases hpos : bitPos ≤ i
  · by_cases hwidth : bitPos + width ≤ i
    · have hlow : ¬i - bitPos < width := by omega
      have hindex : width + (i - (bitPos + width)) = i - bitPos := by omega
      have hrest : i - (bitPos + width) < rest ↔ i - bitPos < width + rest := by omega
      simp [hpos, hwidth, hlow, hindex, hrest]
    · have hlow : i - bitPos < width := by omega
      have hsum : i - bitPos < width + rest := by omega
      simp [hwidth, hlow, hsum]
  · have hwidth : ¬bitPos + width ≤ i := by omega
    simp [hpos, hwidth]

/-- **The parts put together** are the lowest bits. -/
theorem decodeElement_extract (value : Nat) (parts : List (Nat × Nat)) (bitPos acc : Nat)
    (hwidths : ∀ part ∈ parts, part.2 ≤ 8 * part.1) (hsum : bitPos + sumOf parts ≤ 64) :
    decodeElement ((extract value parts bitPos).zip (parts.map Prod.snd)) bitPos acc =
      acc ||| (value >>> bitPos % 2 ^ sumOf parts) <<< bitPos := by
  induction parts generalizing bitPos acc with
  | nil =>
      rw [sumOf, List.map_nil, List.sum_nil, Nat.pow_zero, Nat.mod_one, Nat.zero_shiftLeft,
        Nat.or_zero]
      rfl
  | cons part parts ih =>
      obtain ⟨dstEltWidth, width⟩ := part
      rw [List.forall_mem_cons] at hwidths
      rw [sumOf_cons] at hsum
      have hstore : store dstEltWidth ((value >>> bitPos) &&& maskOf width) =
          value >>> bitPos % 2 ^ width := by
        rw [and_maskOf (by omega), store, Nat.mod_eq_of_lt]
        exact Nat.lt_of_lt_of_le (Nat.mod_lt _ (Nat.two_pow_pos width))
          (Nat.pow_le_pow_right (by decide) hwidths.1)
      have hshift : store 8 ((value >>> bitPos % 2 ^ width) <<< bitPos) =
          (value >>> bitPos % 2 ^ width) <<< bitPos := by
        rw [store, Nat.mod_eq_of_lt]
        exact shiftLeft_lt (Nat.mod_lt _ (Nat.two_pow_pos width)) (by omega)
      rw [extract, List.map_cons, List.zip_cons_cons, decodeElement, ih _ _ hwidths.2 (by omega),
        hstore, hshift, Nat.or_assoc, Nat.shiftRight_add, or_parts, sumOf_cons]

theorem length_encodeElements (src : List Nat) (parts : List (Nat × Nat)) (bitPos : Nat) :
    (encodeElements src parts bitPos).length = parts.length := by
  induction parts generalizing bitPos with
  | nil => rfl
  | cons part parts ih => rw [encodeElements, List.length_cons, List.length_cons, ih]

theorem length_of_mem_encodeElements {src dst : List Nat} {bitPos : Nat}
    (h : dst ∈ encodeElements src parts bitPos) : dst.length = src.length := by
  induction parts generalizing bitPos with
  | nil => exact absurd h List.not_mem_nil
  | cons part parts ih =>
      rw [encodeElements, List.mem_cons] at h
      rcases h with rfl | h
      · exact List.length_map _
      · exact ih h

theorem decodeElements_encodeElements {src : List Nat} {eltWidth : Nat}
    (hwidths : ∀ part ∈ parts, part.2 ≤ 8 * part.1) (hsum : sumOf parts ≤ 8 * eltWidth)
    (helt : eltWidth ≤ 8) (hsrc : ∀ value ∈ src, value < 2 ^ sumOf parts) :
    decodeElements eltWidth src.length (encodeElements src parts 0) parts = src := by
  rw [decodeElements]
  refine List.ext_getElem (by rw [List.length_map, List.length_range]) fun e he he' => ?_
  have hvalue := hsrc _ (List.getElem_mem he')
  have hlt : src[e] < 2 ^ (8 * eltWidth) :=
    Nat.lt_of_lt_of_le hvalue (Nat.pow_le_pow_right (by decide) hsum)
  rw [List.getElem_map, List.getElem_range, map_getD_encodeElements he',
    decodeElement_extract _ _ _ _ hwidths (by omega), Nat.zero_or, Nat.shiftRight_zero,
    Nat.shiftLeft_zero, Nat.mod_eq_of_lt hvalue, store, Nat.mod_eq_of_lt hlt]

theorem sumOf_partsOf (bitWidths : List UInt8) :
    sumOf (partsOf bitWidths) = (bitWidths.map UInt8.toNat).sum := by
  rw [sumOf, partsOf, List.map_map]
  rfl

theorem le_outputEltWidth {width : Nat} (h : width ≤ 64) : width ≤ 8 * outputEltWidth width := by
  rw [outputEltWidth]
  split
  · omega
  · split
    · omega
    · split <;> omega

theorem le_sum_of_mem {width : UInt8} (h : width ∈ bitWidths) :
    width.toNat ≤ (bitWidths.map UInt8.toNat).sum := by
  obtain ⟨low, high, rfl⟩ := List.append_of_mem h
  rw [List.map_append, List.map_cons, List.sum_append, List.sum_cons]
  omega

theorem length_le_sum (h : ∀ width ∈ bitWidths, width ≠ 0) :
    bitWidths.length ≤ (bitWidths.map UInt8.toNat).sum := by
  induction bitWidths with
  | nil => exact Nat.le_refl 0
  | cons width bitWidths ih =>
      rw [List.forall_mem_cons] at h
      have hpos : width.toNat ≠ 0 := fun hzero => h.1 (UInt8.toNat_inj.1 hzero)
      have := ih h.2
      rw [List.length_cons, List.map_cons, List.sum_cons]
      omega

theorem checkStreams_ok {nbElts : Nat} {dsts : List (List Nat)}
    (hwidths : ∀ width ∈ bitWidths, width.toNat ≤ 64) (hdsts : ∀ dst ∈ dsts, dst.length = nbElts) :
    checkStreams nbElts bitWidths
      ((bitWidths.map fun width => outputEltWidth width.toNat).zip dsts) = .ok () := by
  induction bitWidths generalizing dsts with
  | nil => rfl
  | cons width bitWidths ih =>
      cases dsts with
      | nil => rfl
      | cons dst dsts =>
          rw [List.forall_mem_cons] at hwidths hdsts
          have hle := le_outputEltWidth hwidths.1
          rw [List.map_cons, List.zip_cons_cons, checkStreams,
            failWhen_of_not _ (not_not.2 hdsts.1), ok_bind, failWhen_of_not _ (by omega), ok_bind,
            failWhen_of_not _ (not_not.2 rfl), ok_bind, ih hwidths.2 hdsts.2]

theorem le_eight {eltWidth : Nat} (h : eltWidth ∈ [1, 2, 4, 8]) : eltWidth ≤ 8 :=
  (by decide : ∀ eltWidth ∈ [1, 2, 4, 8], eltWidth ≤ 8) eltWidth h

/-- The widths in the header. -/
def storedWidthsOf (eltWidth : Nat) (bitWidths : List UInt8) : List UInt8 :=
  if (bitWidths.map UInt8.toNat).sum = eltWidth * 8 then bitWidths.take (bitWidths.length - 1)
  else bitWidths

/-- **The header** and the number of streams give back the widths. -/
theorem parseHeader_header {eltWidth : Nat} (helt : eltWidth ∈ [1, 2, 4, 8])
    (hnone : bitWidths ≠ []) (hpos : ∀ width ∈ bitWidths, width ≠ 0)
    (hsum : (bitWidths.map UInt8.toNat).sum ≤ eltWidth * 8) :
    parseHeader (UInt8.ofNat eltWidth :: storedWidthsOf eltWidth bitWidths) bitWidths.length =
      .ok (eltWidth, bitWidths) := by
  have hto : (UInt8.ofNat eltWidth).toNat = eltWidth := by
    have hle := le_eight helt
    rw [UInt8.toNat_ofNat', Nat.mod_eq_of_lt (by omega)]
  have hany : ∀ {widths : List UInt8}, (∀ width ∈ widths, width ≠ 0) →
      ¬widths.any (· = 0) = true := by
    intro widths h hany
    exact h 0 (by simpa using hany) rfl
  rw [parseHeader]
  dsimp only
  rw [hto, failWhen_of_not _ (not_not.2 helt), ok_bind]
  by_cases hfull : (bitWidths.map UInt8.toNat).sum = eltWidth * 8
  · obtain ⟨init, last, rfl⟩ : ∃ init last, bitWidths = init ++ [last] :=
      ⟨_, _, (List.dropLast_append_getLast hnone).symm⟩
    have hinit : storedWidthsOf eltWidth (init ++ [last]) = init := by
      rw [storedWidthsOf, if_pos hfull, List.length_append, List.length_singleton,
        Nat.add_sub_cancel, List.take_left' rfl]
    rw [List.map_append, List.sum_append, List.map_singleton, List.sum_singleton] at hfull
    rw [List.forall_mem_append] at hpos
    have hlast : last.toNat ≠ 0 :=
      fun hzero => hpos.2 last List.mem_cons_self (UInt8.toNat_inj.1 hzero)
    have hlastWidth : eltWidth * 8 - (init.map UInt8.toNat).sum = last.toNat := by omega
    rw [hinit, failWhen_of_not _ (hany hpos.1), ok_bind, failWhen_of_not _ (by omega), ok_bind,
      hlastWidth, List.length_append, List.length_singleton, if_neg (by omega), if_pos rfl,
      if_neg hlast, UInt8.ofNat_toNat, ok_bind, failWhen_of_not _ (by simp), ok_bind]
  · have hstored : storedWidthsOf eltWidth bitWidths = bitWidths := by
      rw [storedWidthsOf, if_neg hfull]
    rw [hstored, failWhen_of_not _ (hany hpos), ok_bind, failWhen_of_not _ (by omega), ok_bind,
      if_pos rfl, ok_bind, failWhen_of_not _ (by simpa using hnone), ok_bind]

theorem paramsAreValid_eq_some {inputEltWidthBits sumWidths : Nat} :
    paramsAreValid bitWidths inputEltWidthBits = some sumWidths ↔ (∀ width ∈ bitWidths, width ≠ 0) ∧
        (bitWidths.map UInt8.toNat).sum ≤ inputEltWidthBits ∧
        (bitWidths.map UInt8.toNat).sum = sumWidths := by
  have hany : bitWidths.any (· = 0) = true ↔ ¬∀ width ∈ bitWidths, width ≠ 0 := by simp
  rw [paramsAreValid]
  by_cases hzero : bitWidths.any (· = 0) = true
  · rw [if_pos hzero]
    exact iff_of_false nofun fun h => hany.1 hzero h.1
  · rw [if_neg hzero]
    have hpos := not_not.1 fun h => hzero (hany.2 h)
    by_cases hsum : (bitWidths.map UInt8.toNat).sum > inputEltWidthBits
    · rw [if_pos hsum]
      exact iff_of_false nofun fun h => absurd h.2.1 (Nat.not_le.2 hsum)
    · rw [if_neg hsum, Option.some.injEq]
      exact ⟨fun h => ⟨hpos, by omega, h⟩, fun h => h.2.2⟩

theorem testBit_topMask {sumWidths : Nat} (h : sumWidths ≤ 64) (i : Nat) :
    (2 ^ 64 - 1 - ((1 <<< sumWidths) - 1)).testBit i =
      (decide (i < 64) && decide (sumWidths ≤ i)) := by
  have hlt : 2 ^ sumWidths - 1 < 2 ^ 64 := by
    have := Nat.pow_le_pow_right (show 0 < 2 by decide) h
    omega
  rw [Nat.one_shiftLeft, Nat.sub_sub, Nat.add_comm 1, Nat.testBit_two_pow_sub_succ hlt,
    Nat.testBit_two_pow_sub_one]
  by_cases hi : i < sumWidths
  · rw [decide_eq_true hi, decide_eq_false (Nat.not_le.2 hi)]
    rfl
  · rw [decide_eq_false hi, decide_eq_true (Nat.not_lt.1 hi)]
    rfl

theorem topBitsAreZero_iff {src : List Nat} {srcEltWidth sumWidths : Nat}
    (helt : srcEltWidth ≤ 8) (hsrc : ∀ value ∈ src, value < 2 ^ (8 * srcEltWidth)) :
    topBitsAreZero src srcEltWidth sumWidths = true ↔ ∀ value ∈ src, value < 2 ^ sumWidths := by
  rw [topBitsAreZero]
  by_cases hnone : src.length = 0
  · rw [if_pos hnone, List.length_eq_zero_iff.1 hnone]
    exact iff_of_true rfl nofun
  rw [if_neg hnone]
  by_cases hfull : sumWidths ≥ srcEltWidth * 8
  · rw [if_pos hfull]
    refine iff_of_true rfl fun value hvalue => Nat.lt_of_lt_of_le (hsrc value hvalue) ?_
    exact Nat.pow_le_pow_right (by decide) (by omega)
  rw [if_neg hfull, List.all_eq_true]
  refine forall₂_congr fun value hvalue => ?_
  have hlt := hsrc value hvalue
  rw [decide_eq_true_eq]
  constructor
  · intro hand
    refine Nat.lt_pow_two_of_testBit _ fun i hi => ?_
    by_cases hbit : i < 64
    · have := congrArg (fun x => x.testBit i) hand
      simp only [Nat.testBit_and, testBit_topMask (show sumWidths ≤ 64 by omega), Nat.zero_testBit,
        decide_eq_true hbit, decide_eq_true hi, Bool.and_true] at this
      exact this
    · refine Nat.testBit_lt_two_pow (Nat.lt_of_lt_of_le hlt ?_)
      exact Nat.pow_le_pow_right (by decide) (by omega)
  · intro hvalue
    refine Nat.eq_of_testBit_eq fun i => ?_
    rw [Nat.testBit_and, testBit_topMask (by omega), Nat.zero_testBit]
    by_cases hi : sumWidths ≤ i
    · rw [Nat.testBit_lt_two_pow (Nat.lt_of_lt_of_le hvalue (Nat.pow_le_pow_right (by decide) hi)),
        Bool.false_and]
    · rw [decide_eq_false hi, Bool.and_false, Bool.and_false]

/-- The bit widths that the encoder accepts for an element width. -/
def Accepts (eltWidth : Nat) (bitWidths : List UInt8) : Prop :=
  bitWidths ≠ [] ∧ (∀ width ∈ bitWidths, width ≠ 0) ∧
    (bitWidths.map UInt8.toNat).sum ≤ eltWidth * 8

section

variable {input : NumericStream} (h : Accepts input.eltWidth bitWidths)
  (hsrc : ∀ value ∈ input.elts, value < 2 ^ (bitWidths.map UInt8.toNat).sum)

include h hsrc

theorem EI_bitSplit_ok :
    EI_bitSplit_withWidths input bitWidths =
      .ok (UInt8.ofNat input.eltWidth :: storedWidthsOf input.eltWidth bitWidths,
        (bitWidths.map fun width => outputEltWidth width.toNat).zip
          (encodeElements input.elts (partsOf bitWidths) 0)) := by
  obtain ⟨hnone, hpos, hsum⟩ := h
  have helt := le_eight input.width_mem
  have hlen := length_le_sum hpos
  have hne := List.length_pos_iff.2 hnone
  have htop := (topBitsAreZero_iff helt input.elts_lt).2 hsrc
  have hparams := paramsAreValid_eq_some.2 ⟨hpos, hsum, rfl⟩
  rw [EI_bitSplit_withWidths, failWhen_of_not _ (by omega), ok_bind, failWhen_of_not _ (by omega),
    ok_bind]
  dsimp only
  rw [hparams]
  dsimp only
  rw [failWhen_of_not _ (fun h => h.2 htop), ok_bind, bitSplitEncode_eq, storedWidthsOf]

theorem DI_bitSplit_ok :
    DI_bitSplit (UInt8.ofNat input.eltWidth :: storedWidthsOf input.eltWidth bitWidths)
      ((bitWidths.map fun width => outputEltWidth width.toNat).zip
        (encodeElements input.elts (partsOf bitWidths) 0)) =
      .ok (input.eltWidth, input.elts) := by
  obtain ⟨hnone, hpos, hsum⟩ := h
  have helt := le_eight input.width_mem
  have hwidths : ∀ width ∈ bitWidths, width.toNat ≤ 64 := fun width hmem =>
    (le_sum_of_mem hmem).trans (by omega)
  have hlen := length_encodeElements input.elts (partsOf bitWidths) 0
  rw [partsOf, List.length_map, ← partsOf] at hlen
  have hsnd : (((bitWidths.map fun width => outputEltWidth width.toNat).zip
      (encodeElements input.elts (partsOf bitWidths) 0)).map Prod.snd) =
      encodeElements input.elts (partsOf bitWidths) 0 :=
    List.map_snd_zip (by rw [hlen, List.length_map])
  have hcount : ((bitWidths.map fun width => outputEltWidth width.toNat).zip
      (encodeElements input.elts (partsOf bitWidths) 0)).length = bitWidths.length := by
    rw [List.length_zip, hlen, List.length_map, Nat.min_self]
  have hnb : ((encodeElements input.elts (partsOf bitWidths) 0).headD []).length =
      input.elts.length := by
    have hne := List.length_pos_iff.2 hnone
    cases hdsts : encodeElements input.elts (partsOf bitWidths) 0 with
    | nil =>
        rw [hdsts, List.length_nil] at hlen
        omega
    | cons dst dsts =>
        exact length_of_mem_encodeElements (hdsts ▸ List.mem_cons_self)
  rw [DI_bitSplit, hcount, parseHeader_header input.width_mem hnone hpos hsum, ok_bind]
  dsimp only
  rw [hsnd, hnb, checkStreams_ok hwidths fun dst hdst => length_of_mem_encodeElements hdst, ok_bind,
    bitSplitDecode_eq _ _ (by rw [hlen, partsOf, List.length_map]),
    decodeElements_encodeElements]
  · intro part hpart
    obtain ⟨width, hmem, rfl⟩ := List.mem_map.1 hpart
    exact le_outputEltWidth (hwidths width hmem)
  · rw [sumOf_partsOf]
    omega
  · exact helt
  · rwa [sumOf_partsOf]

end

theorem EI_bitSplit_refuses {input : NumericStream} {value i : Nat} (hvalue : value ∈ input.elts)
    (hi : (bitWidths.map UInt8.toNat).sum ≤ i) (hbit : value.testBit i = true) :
    ∃ e, EI_bitSplit_withWidths input bitWidths = .error e := by
  cases hrun : EI_bitSplit_withWidths input bitWidths with
  | error e => exact ⟨e, rfl⟩
  | ok result =>
      exfalso
      rw [EI_bitSplit_withWidths] at hrun
      obtain ⟨-, -, hrun⟩ := bind_eq_ok.1 hrun
      obtain ⟨-, -, hrun⟩ := bind_eq_ok.1 hrun
      cases hparams : paramsAreValid bitWidths (input.eltWidth * 8) with
      | none =>
          dsimp only at hrun
          rw [hparams] at hrun
          exact absurd hrun nofun
      | some sumWidths =>
          dsimp only at hrun
          rw [hparams] at hrun
          obtain ⟨_, hcheck, -⟩ := bind_eq_ok.1 hrun
          rw [failWhen_eq_ok] at hcheck
          obtain ⟨-, hsum, rfl⟩ := paramsAreValid_eq_some.1 hparams
          have hbits : i < input.eltWidth * 8 := by
            by_contra hge
            have hlt := input.elts_lt value hvalue
            rw [Nat.testBit_lt_two_pow (Nat.lt_of_lt_of_le hlt
              (Nat.pow_le_pow_right (by decide) (by omega)))] at hbit
            exact absurd hbit (by decide)
          refine hcheck ⟨by omega, fun htop => ?_⟩
          have hlt := (topBitsAreZero_iff (le_eight input.width_mem) input.elts_lt).1 htop value hvalue
          rw [Nat.testBit_lt_two_pow (Nat.lt_of_lt_of_le hlt (Nat.pow_le_pow_right (by decide) hi))]
            at hbit
          exact absurd hbit (by decide)

/-- **The codec**: the kernels for floating-point layouts are the plain loops; for accepted widths
and elements without a bit above them, the header gives back the widths, the streams have the widths
that the decoder requires, and every element comes back; any other element is refused. -/
theorem bitSplit_roundTrip :
    (∀ (src : List Nat) (srcEltWidth : Nat) (parts : List (Nat × Nat)),
      bitSplitEncode src srcEltWidth parts = encodeElements src parts 0) ∧
    (∀ (dstEltWidth nbElts : Nat) (srcs : List (List Nat)) (parts : List (Nat × Nat)),
      srcs.length = parts.length →
      bitSplitDecode dstEltWidth nbElts srcs parts =
        decodeElements dstEltWidth nbElts srcs parts) ∧
    (∀ (input : NumericStream) (bitWidths : List UInt8), Accepts input.eltWidth bitWidths →
      (∀ value ∈ input.elts, value < 2 ^ (bitWidths.map UInt8.toNat).sum) →
      ∃ header streams, EI_bitSplit_withWidths input bitWidths = .ok (header, streams) ∧
        parseHeader header streams.length = .ok (input.eltWidth, bitWidths) ∧
        streams.map Prod.fst = bitWidths.map (fun width => outputEltWidth width.toNat) ∧
        DI_bitSplit header streams = .ok (input.eltWidth, input.elts)) ∧
    ∀ (input : NumericStream) (bitWidths : List UInt8) (value i : Nat), value ∈ input.elts →
      (bitWidths.map UInt8.toNat).sum ≤ i → value.testBit i = true →
      ∃ e, EI_bitSplit_withWidths input bitWidths = .error e := by
  refine ⟨bitSplitEncode_eq, fun dstEltWidth nbElts srcs parts => bitSplitDecode_eq dstEltWidth nbElts,
    fun input bitWidths h hsrc => ⟨_, _, EI_bitSplit_ok h hsrc, ?_, ?_, DI_bitSplit_ok h hsrc⟩,
    fun input bitWidths value i => EI_bitSplit_refuses⟩
  · have hlen := length_encodeElements input.elts (partsOf bitWidths) 0
    rw [partsOf, List.length_map, ← partsOf] at hlen
    rw [List.length_zip, hlen, List.length_map, Nat.min_self]
    exact parseHeader_header input.width_mem h.1 h.2.1 h.2.2
  · have hlen := length_encodeElements input.elts (partsOf bitWidths) 0
    rw [partsOf, List.length_map, ← partsOf] at hlen
    exact List.map_fst_zip (by rw [hlen, List.length_map])

theorem bitSplit_roundTrip_half :
    bitSplitDecode 2 1 [[1], [15], [0]] [(2, 10), (1, 5), (1, 1)] =
        decodeElements 2 1 [[1], [15], [0]] [(2, 10), (1, 5), (1, 1)] ∧
      (∃ header streams,
        EI_bitSplit_withWidths ⟨2, [0x3C01], by decide, by decide⟩ [10, 5, 1] =
          .ok (header, streams) ∧ DI_bitSplit header streams = .ok (2, [0x3C01])) ∧
      ∃ e, EI_bitSplit_withWidths ⟨2, [0x3C01], by decide, by decide⟩ [10] = .error e := by
  obtain ⟨-, hkernel, hround, hrefuse⟩ := bitSplit_roundTrip
  obtain ⟨header, streams, hencode, -, -, hdecode⟩ :=
    hround ⟨2, [0x3C01], by decide, by decide⟩ [10, 5, 1] ⟨by decide, by simp, by decide⟩
      (by decide)
  exact ⟨hkernel 2 1 [[1], [15], [0]] [(2, 10), (1, 5), (1, 1)] rfl,
    ⟨header, streams, hencode, hdecode⟩,
    hrefuse ⟨2, [0x3C01], by decide, by decide⟩ [10] 0x3C01 10 (by decide) (by decide) (by decide)⟩

end OpenZL.Codecs.BitSplit
