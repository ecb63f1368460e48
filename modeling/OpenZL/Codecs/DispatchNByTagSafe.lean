import Mathlib.Algebra.BigOperators.Fin
import OpenZL.Codecs.DispatchNByTag

/-!
# The dispatch codec: what the checks are worth

The decoder's kernel stays inside its buffers and consumes every source when the segment sizes of
every source add up to its size.

Principal results: `dispatchN_byTag_decode_join`, `dispatchN_byTag_distribute`,
`dispatchN_byTag_iff`.
-/

namespace OpenZL.Codecs.DispatchN

open OpenZL.Lib OpenZL.Lib.Interleave OpenZL.Shared

/-- **The decoder's kernel** joins the sources if their sizes are the totals. -/
theorem dispatchN_byTag_decode_join {dstCapacity : Nat} {segments : List (Nat × Nat)}
    {srcs : Nat → List UInt8} {dst : List UInt8}
    (htotals : ∀ name, totalOf name segments = (srcs name).length)
    (hcap : dst.length + total segments ≤ dstCapacity) :
    dispatchN_byTag_decode dstCapacity segments srcs dst =
      some (dst ++ join segments srcs, fun _ => []) := by
  induction segments generalizing srcs dst with
  | nil =>
      have hsrcs : srcs = fun _ => [] :=
        funext fun name => List.length_eq_zero_iff.1 (htotals name).symm
      rw [dispatchN_byTag_decode, join, List.append_nil, hsrcs]
  | cons segment segments ih =>
      rw [total_cons] at hcap
      obtain ⟨hsize, hrest⟩ := totalOf_tail htotals
      have hlen := List.length_take_of_le hsize
      rw [dispatchN_byTag_decode, if_pos ⟨hsize, by omega⟩,
        ih hrest (by rw [List.length_append, hlen]; omega), join, List.append_assoc]

theorem totalOf_le_of_decode {dstCapacity : Nat} {segments : List (Nat × Nat)}
    {srcs rest : Nat → List UInt8} {dst out : List UInt8}
    (h : dispatchN_byTag_decode dstCapacity segments srcs dst = some (out, rest)) (name : Nat) :
    totalOf name segments ≤ (srcs name).length := by
  induction segments generalizing srcs dst with
  | nil => exact Nat.zero_le _
  | cons segment segments ih =>
      obtain ⟨size, tag⟩ := segment
      rw [dispatchN_byTag_decode] at h
      by_cases hfits : size ≤ (srcs tag).length ∧ dst.length + size ≤ dstCapacity
      · rw [if_pos hfits] at h
        have hle := ih h
        rw [totalOf]
        by_cases hname : tag = name
        · subst hname
          rw [Function.update_self, List.length_drop] at hle
          rw [if_pos rfl]
          omega
        · rw [Function.update_of_ne (Ne.symm hname)] at hle
          rwa [if_neg hname]
      · rw [if_neg hfits] at h
        cases h

/-- **The encoder's kernel** distributes the input over buffers that are large enough. -/
theorem dispatchN_byTag_distribute {outSizes : Nat → Nat} {segments : List (Nat × Nat)}
    {src : List UInt8} {dstBuffers : Nat → List UInt8} (hsrc : total segments ≤ src.length)
    (hsizes : ∀ name, (dstBuffers name).length + totalOf name segments ≤ outSizes name) :
    dispatchN_byTag outSizes segments src dstBuffers =
      some fun name => dstBuffers name ++ distribute segments src name := by
  induction segments generalizing src dstBuffers with
  | nil =>
      rw [dispatchN_byTag]
      simp only [distribute, List.append_nil]
  | cons segment segments ih =>
      obtain ⟨size, tag⟩ := segment
      rw [total_cons] at hsrc
      have htag := hsizes tag
      rw [totalOf, if_pos rfl] at htag
      have hlen := List.length_take_of_le (l := src) (show size ≤ src.length by omega)
      rw [dispatchN_byTag, if_pos ⟨by omega, by omega⟩, ih (by rw [List.length_drop]; omega)]
      · refine congrArg some (funext fun name => ?_)
        rw [distribute]
        by_cases hname : tag = name
        · subst hname
          rw [Function.update_self, if_pos rfl, List.append_assoc]
        · rw [Function.update_of_ne (Ne.symm hname), if_neg hname]
      · intro name
        have := hsizes name
        rw [totalOf] at this
        by_cases hname : tag = name
        · subst hname
          rw [Function.update_self, List.length_append, hlen]
          omega
        · rw [if_neg hname] at this
          rwa [Function.update_of_ne (Ne.symm hname)]

theorem total_le_of_dispatch {outSizes : Nat → Nat} {segments : List (Nat × Nat)}
    {src : List UInt8} {dstBuffers out : Nat → List UInt8}
    (h : dispatchN_byTag outSizes segments src dstBuffers = some out) :
    total segments ≤ src.length := by
  induction segments generalizing src dstBuffers with
  | nil => exact Nat.zero_le _
  | cons segment segments ih =>
      obtain ⟨size, tag⟩ := segment
      rw [dispatchN_byTag] at h
      by_cases hfits : size ≤ src.length ∧ (dstBuffers tag).length + size ≤ outSizes tag
      · rw [if_pos hfits] at h
        have hle := ih h
        rw [List.length_drop] at hle
        rw [total_cons]
        omega
      · rw [if_neg hfits] at h
        exact absurd h nofun

theorem sizes_byTags_eq (segments : List (Nat × Nat)) {outSizes : Nat → Nat} {name : Nat}
    (h : outSizes name < 2 ^ 64) :
    sizes_byTags segments outSizes name = (outSizes name + totalOf name segments) % 2 ^ 64 := by
  induction segments generalizing outSizes with
  | nil =>
      rw [sizes_byTags, totalOf, Nat.add_zero, Nat.mod_eq_of_lt h]
  | cons segment segments ih =>
      obtain ⟨size, tag⟩ := segment
      rw [sizes_byTags, totalOf]
      by_cases hname : tag = name
      · subst hname
        have hlt := Nat.mod_lt (outSizes tag + size) (Nat.two_pow_pos 64)
        rw [ih (by rwa [Function.update_self]), Function.update_self, if_pos rfl, Nat.mod_add_mod,
          Nat.add_assoc]
      · rw [ih (by rwa [Function.update_of_ne (Ne.symm hname)]),
          Function.update_of_ne (Ne.symm hname), if_neg hname]

theorem sizes_byTags_zero (segments : List (Nat × Nat)) (name : Nat) :
    (sizes_byTags segments fun _ => 0) name = totalOf name segments % 2 ^ 64 := by
  rw [sizes_byTags_eq segments (by decide), Nat.zero_add]

/-- The segments that the decoder reads. -/
def segmentsOf (tags segSizes : NumericStream) : List (Nat × Nat) := segSizes.elts.zip tags.elts

/-- The inputs that the decoder's checks refuse. -/
def DecodeRefuses (formatVersion : Nat) (tags segSizes : NumericStream)
    (inVariable : List VariableInput) : Prop :=
  tags.elts.length ≠ segSizes.elts.length ∨
    inVariable.length ≥ maxTags formatVersion ∨
    (tags.eltWidth > if formatVersion < 20 then 1 else 2) ∨
    (∃ input ∈ inVariable, input.type ≠ .serial) ∨
    (∃ tag ∈ tags.elts, inVariable.length ≤ tag) ∨
    ∃ n < inVariable.length,
      totalOf n (segmentsOf tags segSizes) % 2 ^ 64 ≠ (srcsOf inVariable n).length

/-- If the checks pass, the kernel stays inside its buffers, fills the output exactly, and consumes
every source completely and in order. -/
def DecodeSafe (formatVersion : Nat) (tags segSizes : NumericStream)
    (inVariable : List VariableInput) : Prop :=
  ∀ result, DI_dispatchN_byTag formatVersion tags segSizes inVariable = .ok result →
    ∃ out, result = some (out, fun _ => []) ∧
      out.length = (inVariable.map fun input => input.content.length).sum ∧
      distribute (segmentsOf tags segSizes) out = srcsOf inVariable

theorem DI_dispatchN_byTag_eq_ok {formatVersion : Nat} {tags segSizes : NumericStream}
    {inVariable : List VariableInput} {result : Option (List UInt8 × (Nat → List UInt8))} :
    DI_dispatchN_byTag formatVersion tags segSizes inVariable = .ok result ↔
      ¬DecodeRefuses formatVersion tags segSizes inVariable ∧
        dispatchN_byTag_decode (inVariable.map fun input => input.content.length).sum
          (segmentsOf tags segSizes) (srcsOf inVariable) [] = result := by
  simp only [DI_dispatchN_byTag, DecodeRefuses, segmentsOf, bind_eq_ok, failWhen_eq_ok,
    underLimit_iff, sizes_byTags_zero, not_or, exists_const, and_assoc, Except.ok.injEq]

theorem sum_srcsOf (inVariable : List VariableInput) :
    ∑ n ∈ Finset.range inVariable.length, (srcsOf inVariable n).length =
      (inVariable.map fun input => input.content.length).sum := by
  rw [Finset.sum_range, ← Fin.sum_univ_fun_getElem]
  refine Finset.sum_congr rfl fun n _ => ?_
  rw [srcsOf, List.getElem?_eq_getElem n.isLt]

theorem totalOf_eq_of_not_refuses {formatVersion : Nat} {tags segSizes : NumericStream}
    {inVariable : List VariableInput}
    (h : ¬DecodeRefuses formatVersion tags segSizes inVariable)
    (hlt : ∀ n < inVariable.length, totalOf n (segmentsOf tags segSizes) < 2 ^ 64) :
    (∀ segment ∈ segmentsOf tags segSizes, segment.2 < inVariable.length) ∧
      ∀ n, totalOf n (segmentsOf tags segSizes) = (srcsOf inVariable n).length := by
  simp only [DecodeRefuses, not_or, not_exists, not_and, not_not] at h
  obtain ⟨-, -, -, -, htags, hsizes⟩ := h
  have hnames : ∀ segment ∈ segmentsOf tags segSizes, segment.2 < inVariable.length :=
    fun segment hmem => Nat.lt_of_not_le (htags _ (List.of_mem_zip hmem).2)
  refine ⟨hnames, fun n => ?_⟩
  by_cases hn : n < inVariable.length
  · rw [← hsizes n hn, Nat.mod_eq_of_lt (hlt n hn)]
  · have hnone : srcsOf inVariable n = [] := by
      rw [srcsOf, List.getElem?_eq_none (Nat.le_of_not_lt hn)]
    rw [hnone, totalOf_eq_zero fun segment hmem heq => hn (by rw [← heq]; exact hnames segment hmem)]
    rfl

theorem decodeSafe_iff (formatVersion : Nat) (tags segSizes : NumericStream)
    (inVariable : List VariableInput) :
    DecodeSafe formatVersion tags segSizes inVariable ↔
      DecodeRefuses formatVersion tags segSizes inVariable ∨
        ∀ n < inVariable.length, totalOf n (segmentsOf tags segSizes) < 2 ^ 64 := by
  by_cases hrefuses : DecodeRefuses formatVersion tags segSizes inVariable
  · exact iff_of_true (fun result h => absurd hrefuses (DI_dispatchN_byTag_eq_ok.1 h).1)
      (Or.inl hrefuses)
  · rw [or_iff_right hrefuses]
    constructor
    · intro h n hn
      obtain ⟨out, hrun, -, -⟩ := h _ (DI_dispatchN_byTag_eq_ok.2 ⟨hrefuses, rfl⟩)
      have hle := totalOf_le_of_decode hrun n
      simp only [DecodeRefuses, not_or, not_exists, not_and, not_not] at hrefuses
      rw [← hrefuses.2.2.2.2.2 n hn] at hle
      exact Nat.lt_of_le_of_lt hle (Nat.mod_lt _ (Nat.two_pow_pos 64))
    · intro h result hresult
      obtain ⟨hnames, htotals⟩ := totalOf_eq_of_not_refuses hrefuses h
      have htotal := sum_totalOf hnames
      rw [Finset.sum_congr rfl fun n _ => htotals n, sum_srcsOf] at htotal
      refine ⟨join (segmentsOf tags segSizes) (srcsOf inVariable), ?_, ?_, ?_⟩
      · rw [← (DI_dispatchN_byTag_eq_ok.1 hresult).2, dispatchN_byTag_decode_join htotals]
        · rfl
        · rw [htotal, List.length_nil, Nat.zero_add]
      · rw [length_join _ _ htotals, htotal]
      · exact distribute_join _ _ htotals

/-- The instructions that the encoder's checks refuse. -/
def EncodeRefuses (formatVersion : Nat) (si : DispatchInstructions) (inputSize : Nat) : Prop :=
  si.nbTags ≥ maxTags formatVersion ∨ (∃ size ∈ si.segmentSizes, inputSize < size) ∨
    si.segmentSizes.sum % 2 ^ 64 ≠ inputSize ∨ ∃ tag ∈ si.tags, si.nbTags ≤ tag

/-- If the instructions are accepted, the encoder stays inside its buffers and the decoder returns
the input. -/
def RoundTrips (formatVersion : Nat) (params : DispatchParams) (input : List UInt8) : Prop :=
  ∀ result, EI_dispatchN_byTag formatVersion params input = .ok result →
    ∃ out, result = some out ∧
      DI_dispatchN_byTag formatVersion out.tags out.segSizes
        (out.segments.map fun content => ⟨.serial, content⟩) = .ok (some (input, fun _ => []))

theorem DispatchInstructions.tagsWidth_mem (si : DispatchInstructions) :
    (if si.nbTags = 0 then 1 else numericWidthForValue (si.nbTags - 1)) ∈ [1, 2, 4, 8] :=
  DispatchN.tagsWidth_mem si.nbTags

theorem DispatchInstructions.segSizesWidth_mem (si : DispatchInstructions) :
    numericWidthForValue (findMaxST si.segmentSizes) ∈ [1, 2, 4, 8] :=
  numericWidthForValue_mem _

/-- What the encoder creates from the distributed input. -/
def outputOf (si : DispatchInstructions) (dstBuffers : Nat → List UInt8) : DispatchOutput where
  tags := writeNumerics _ si.tagsWidth_mem si.tags
  segSizes := writeNumerics _ si.segSizesWidth_mem si.segmentSizes
  segments := (List.range si.nbTags).map dstBuffers

theorem EI_dispatchN_byTag_eq_ok {formatVersion : Nat} {params : DispatchParams}
    {input : List UInt8} {result : Option DispatchOutput} :
    EI_dispatchN_byTag formatVersion params input = .ok result ↔
      ∃ si, getSplitInstructions params input = .ok si ∧
        ¬EncodeRefuses formatVersion si input.length ∧
        (dispatchN_byTag (sizes_byTags si.segments fun _ => 0) si.segments input fun _ => []).map
          (outputOf si) = result := by
  have hmax : ∀ si : DispatchInstructions, findMaxST si.segmentSizes > input.length ↔
      ∃ size ∈ si.segmentSizes, input.length < size := by
    intro si
    rw [gt_iff_lt, ← not_iff_not, Nat.not_lt, findMaxST_le]
    simp only [not_exists, not_and, Nat.not_lt]
  simp only [EI_dispatchN_byTag, EncodeRefuses, bind_eq_ok, failWhen_eq_ok, underLimit_iff, hmax,
    sumArrayST_eq, not_or, exists_const, and_assoc, Except.ok.injEq]
  rfl

theorem segmentsOf_outputOf {formatVersion inputSize : Nat} {si : DispatchInstructions}
    (h : ¬EncodeRefuses formatVersion si inputSize) (dstBuffers : Nat → List UInt8) :
    (outputOf si dstBuffers).tags.elts = si.tags ∧
      (outputOf si dstBuffers).segSizes.elts = si.segmentSizes := by
  simp only [EncodeRefuses, not_or, not_exists, not_and, not_not, Nat.not_lt, Nat.not_le] at h
  obtain ⟨hnb, hsizes, hsum, htags⟩ := h
  have hlimit : maxTags formatVersion ≤ 2 ^ 16 := by
    rw [maxTags]
    split <;> omega
  constructor
  · refine elts_writeNumerics fun tag hmem => ?_
    have htag := htags tag hmem
    rw [if_neg (by omega)]
    exact Nat.lt_of_le_of_lt (by omega)
      (@lt_numericWidthForValue (si.nbTags - 1) (by omega))
  · refine elts_writeNumerics fun size hmem => ?_
    have hmax := findMaxST_le.2 hsizes
    exact Nat.lt_of_le_of_lt (findMaxST_le.1 (Nat.le_refl _) size hmem)
      (lt_numericWidthForValue (by omega))

theorem tagsWidth_le {formatVersion nbTags : Nat} (h : nbTags < maxTags formatVersion) :
    (if nbTags = 0 then 1 else numericWidthForValue (nbTags - 1)) ≤
      if formatVersion < 20 then 1 else 2 := by
  rw [maxTags] at h
  rw [numericWidthForValue]
  split at h <;> rename_i hver
  · rw [if_pos hver]
    split
    · exact Nat.le_refl 1
    · rw [if_pos (by omega)]
  · rw [if_neg hver]
    split
    · decide
    · split
      · decide
      · rw [if_pos (by omega)]

theorem total_segments (si : DispatchInstructions) : total si.segments = si.segmentSizes.sum := by
  rw [total, DispatchInstructions.segments, List.map_fst_zip (Nat.le_of_eq si.length_eq.symm)]

theorem DI_outputOf {formatVersion : Nat} {si : DispatchInstructions} {input : List UInt8}
    (h : ¬EncodeRefuses formatVersion si input.length)
    (hsum : si.segmentSizes.sum = input.length) :
    DI_dispatchN_byTag formatVersion (outputOf si (distribute si.segments input)).tags
      (outputOf si (distribute si.segments input)).segSizes
      ((outputOf si (distribute si.segments input)).segments.map fun content => ⟨.serial, content⟩) =
        .ok (some (input, fun _ => [])) := by
  obtain ⟨htagElts, hsizeElts⟩ := segmentsOf_outputOf h (distribute si.segments input)
  simp only [EncodeRefuses, not_or, not_exists, not_and, not_not, Nat.not_lt, Nat.not_le] at h
  obtain ⟨hnb, hsizes, hmod, htags⟩ := h
  have htotal := total_segments si
  have hnames : ∀ segment ∈ si.segments, segment.2 < si.nbTags :=
    fun segment hmem => htags _ (List.of_mem_zip hmem).2
  generalize hinputs : ((outputOf si (distribute si.segments input)).segments.map
    fun content => (⟨.serial, content⟩ : VariableInput)) = inVariable
  have hlen : inVariable.length = si.nbTags := by
    rw [← hinputs, List.length_map, outputOf, List.length_map, List.length_range]
  have hlengths : ∀ n, (distribute si.segments input n).length = totalOf n si.segments :=
    fun n => length_distribute _ _ _ (by omega)
  have hsrcs : srcsOf inVariable = distribute si.segments input := by
    funext n
    by_cases hn : n < si.nbTags
    · rw [srcsOf, ← hinputs, outputOf, List.map_map, List.getElem?_map, List.getElem?_range hn]
      rfl
    · have hnone := hlengths n
      rw [totalOf_eq_zero fun segment hmem heq => hn (by rw [← heq]; exact hnames segment hmem),
        List.length_eq_zero_iff] at hnone
      rw [srcsOf, List.getElem?_eq_none (by omega), hnone]
  have hsegments : segmentsOf (outputOf si (distribute si.segments input)).tags
      (outputOf si (distribute si.segments input)).segSizes = si.segments := by
    rw [segmentsOf, htagElts, hsizeElts, DispatchInstructions.segments]
  rw [DI_dispatchN_byTag_eq_ok]
  refine ⟨?_, ?_⟩
  · simp only [DecodeRefuses, not_or, not_exists, not_and, not_not, hsegments, htagElts, hsizeElts,
      hsrcs, hlengths]
    refine ⟨si.length_eq, by rwa [hlen, ge_iff_le, Nat.not_le], ?_, ?_, ?_, fun n _ => ?_⟩
    · exact Nat.not_lt.2 (tagsWidth_le hnb)
    · rw [← hinputs]
      intro input hmem
      obtain ⟨content, -, rfl⟩ := List.mem_map.1 hmem
      rfl
    · rw [hlen]
      exact fun tag hmem => Nat.not_le.2 (htags tag hmem)
    · have := totalOf_le_total n si.segments
      rw [Nat.mod_eq_of_lt (by omega)]
  · rw [hsegments, ← sum_srcsOf, hsrcs, dispatchN_byTag_decode_join]
    · rw [join_distribute _ _ (by omega), List.nil_append]
    · exact fun n => (hlengths n).symm
    · rw [Finset.sum_congr rfl fun n _ => hlengths n, hlen, sum_totalOf hnames, List.length_nil,
        Nat.zero_add]

theorem dispatchRoundTrips_iff (formatVersion : Nat) (params : DispatchParams) (input : List UInt8) :
    RoundTrips formatVersion params input ↔
      ∀ si, getSplitInstructions params input = .ok si →
        EncodeRefuses formatVersion si input.length ∨ si.segmentSizes.sum < 2 ^ 64 := by
  constructor
  · intro h si hsi
    by_cases hrefuses : EncodeRefuses formatVersion si input.length
    · exact Or.inl hrefuses
    · refine Or.inr ?_
      obtain ⟨out, hrun, -⟩ := h _ (EI_dispatchN_byTag_eq_ok.2 ⟨si, hsi, hrefuses, rfl⟩)
      obtain ⟨dstBuffers, hkernel, -⟩ := Option.map_eq_some_iff.1 hrun
      have hle := total_le_of_dispatch hkernel
      simp only [EncodeRefuses, not_or, not_not] at hrefuses
      rw [total_segments, ← hrefuses.2.2.1] at hle
      exact Nat.lt_of_le_of_lt hle (Nat.mod_lt _ (Nat.two_pow_pos 64))
  · intro h result hresult
    obtain ⟨si, hsi, hrefuses, hrun⟩ := EI_dispatchN_byTag_eq_ok.1 hresult
    have hlt := (h si hsi).resolve_left hrefuses
    have hsum : si.segmentSizes.sum = input.length := by
      simp only [EncodeRefuses, not_or, not_not] at hrefuses
      rw [← hrefuses.2.2.1, Nat.mod_eq_of_lt hlt]
    have htotal := total_segments si
    have hkernel := @dispatchN_byTag_distribute (sizes_byTags si.segments fun _ => 0) si.segments
      input (fun _ => []) (by omega) fun name => by
        have := totalOf_le_total name si.segments
        rw [sizes_byTags_zero, Nat.mod_eq_of_lt (by omega), List.length_nil, Nat.zero_add]
    simp only [List.nil_append] at hkernel
    rw [hkernel, Option.map_some] at hrun
    exact ⟨_, hrun.symm, DI_outputOf hrefuses hsum⟩

/-- **What the checks are worth**: the decoder is safe if and only if it refuses or no sum of segment
sizes wraps, and the input comes back if and only if the instructions are refused or the sum of the
segment sizes does not wrap. -/
theorem dispatchN_byTag_iff (formatVersion : Nat) :
    (∀ (tags segSizes : NumericStream) (inVariable : List VariableInput),
      DecodeSafe formatVersion tags segSizes inVariable ↔
        DecodeRefuses formatVersion tags segSizes inVariable ∨
          ∀ n < inVariable.length, totalOf n (segmentsOf tags segSizes) < 2 ^ 64) ∧
    ∀ (params : DispatchParams) (input : List UInt8),
      RoundTrips formatVersion params input ↔
        ∀ si, getSplitInstructions params input = .ok si →
          EncodeRefuses formatVersion si input.length ∨ si.segmentSizes.sum < 2 ^ 64 :=
  ⟨decodeSafe_iff formatVersion, dispatchRoundTrips_iff formatVersion⟩

/-- Two segments of one source of a byte, whose sizes add up to `2^64 + 1`, pass the checks, and the
first of them is read past the end of the source. -/
theorem dispatchN_byTag_reads_outside :
    ∃ tags segSizes : NumericStream, tags.eltWidth = 1 ∧ tags.elts = [0, 0] ∧
      segSizes.eltWidth = 8 ∧ segSizes.elts = [2 ^ 64 - 1, 2] ∧
      DI_dispatchN_byTag 21 tags segSizes [⟨.serial, [7]⟩] = .ok none ∧
      ¬DecodeSafe 21 tags segSizes [⟨.serial, [7]⟩] := by
  let tags : NumericStream := ⟨1, [0, 0], by decide, by decide⟩
  let segSizes : NumericStream := ⟨8, [2 ^ 64 - 1, 2], by decide, by decide⟩
  have hrun : DI_dispatchN_byTag 21 tags segSizes [⟨.serial, [7]⟩] = .ok none := by
    rw [DI_dispatchN_byTag_eq_ok]
    refine ⟨?_, rfl⟩
    rw [DecodeRefuses]
    decide
  refine ⟨tags, segSizes, rfl, rfl, rfl, rfl, hrun, fun h => ?_⟩
  obtain ⟨out, hout, -⟩ := h none hrun
  exact absurd hout nofun

end OpenZL.Codecs.DispatchN
