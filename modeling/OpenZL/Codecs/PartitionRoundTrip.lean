import OpenZL.Codecs.PartitionPaths
import OpenZL.Shared.VarintLaws

/-!
# The round trip of the partition codec

Principal result: `partition_roundTrip`.
-/

namespace OpenZL.Codecs.Partition

open OpenZL.Lib OpenZL.Codecs.Bitpack.InMemory OpenZL.Codecs.Pivco

section Decoding

variable {params : PartitionParams}

theorem partitionDecodeLoop_spec (hw : params.Words) (hvalid : params.Valid) {eltWidth : Nat}
    (hwidth : eltWidth ≤ 8) {offsets : List UInt8} (src : List Nat) :
    ∀ {fs : List (Nat × Nat)} {bits : BitDStreamFF}, (∀ v ∈ src, Covers params v) →
      (∀ v ∈ src, v < 2 ^ (8 * eltWidth)) →
      ReadUpTo bits offsets fs (src.map (fieldOf params)) →
      ∃ bits', partitionDecodeLoop eltWidth params.computeBasesU64 params.computeBits
          (src.map (bucketOf params)) bits = some (src, bits') ∧
        ReadUpTo bits' offsets (fs ++ src.map (fieldOf params)) [] := by
  induction src with
  | nil =>
    intro fs bits _ _ h
    exact ⟨bits, rfl, by rwa [List.map_nil, List.append_nil]⟩
  | cons v src ih =>
    intro fs bits hsrc hlt h
    have hin := findBucket_spec hvalid (hsrc v List.mem_cons_self)
    have hn := hin.1
    have hlow := hin.2.1
    have hvlt := hlt v List.mem_cons_self
    have hword : v < 2 ^ 64 := hvlt.trans_le (Nat.pow_le_pow_right Nat.two_pos (by omega))
    have hsize : (fieldOf params v).2 ≤ 64 :=
      computeBits_le hw (fun size hsize => (hw.2 size hsize).le) hn
    have hbits : params.computeBits[bucketOf params v]? = some (fieldOf params v).2 := by
      rw [computeBits_getElem? hw hn, fieldOf, computeBits_getD hw hn]
    have hoffset : (fieldOf params v).1 % 2 ^ (fieldOf params v).2 =
        v - params.base (bucketOf params v) := Nat.mod_eq_of_lt (hin.offset_lt hw)
    obtain ⟨bits₁, bits₂, hread, hreload, h₂⟩ : ∃ bits₁ bits₂,
        readSplit bits (fieldOf params v).2 =
          some ((fieldOf params v).1 % 2 ^ (fieldOf params v).2, bits₁) ∧
        bits₁.reload = some bits₂ ∧
        ReadUpTo bits₂ offsets (fs ++ [fieldOf params v]) (src.map (fieldOf params)) :=
      h.readSplit hsize
    obtain ⟨bits₃, hrest, h₃⟩ := ih (fun v hv => hsrc v (List.mem_cons_of_mem _ hv))
      (fun v hv => hlt v (List.mem_cons_of_mem _ hv)) h₂
    rw [List.append_assoc] at h₃
    refine ⟨bits₃, ?_, h₃⟩
    rw [hoffset] at hread
    rw [List.map_cons, partitionDecodeLoop, hbits]
    simp only [Option.bind_eq_bind, Option.bind_some]
    rw [hread]
    simp only [Option.bind_some]
    rw [hvalid.bases hn]
    simp only [Option.bind_some]
    rw [hreload, Option.bind_some, hrest, Option.bind_some, Nat.add_sub_cancel' hlow,
      Nat.mod_eq_of_lt hword, Nat.mod_eq_of_lt hvlt]

theorem partitionDecode_encoded (hw : params.Words) (hvalid : params.Valid) {eltWidth : Nat}
    (hwidth : eltWidth ≤ 8) {src : List Nat} (hsrc : ∀ v ∈ src, Covers params v)
    (hlt : ∀ v ∈ src, v < 2 ^ (8 * eltWidth)) :
    partitionDecode eltWidth (encoded params src).1 (encoded params src).2 params = .ok src := by
  obtain ⟨bits, hinit, h⟩ := ReadUpTo.init (src.map (fieldOf params))
  obtain ⟨bits', hrun, h'⟩ := partitionDecodeLoop_spec hw hvalid hwidth src hsrc hlt h
  have hfinish := h'.finish
  rw [partitionDecode, if_pos ((PartitionParams.validate_iff hw).2 hvalid), encoded]
  rw [hinit]
  simp only [defined, ok_bind]
  rw [hrun]
  simp only [ok_bind]
  cases hbits : bits'.finish with
  | none => exact absurd hbits hfinish
  | some r => rfl

end Decoding

section Flags

variable {eltWidth : Nat}

/-- Element widths. -/
def IsWidth (eltWidth : Nat) : Prop :=
  eltWidth = 1 ∨ eltWidth = 2 ∨ eltWidth = 4 ∨ eltWidth = 8

theorem flags_preset (h : IsWidth eltWidth) {preset : Preset} (hpreset : preset ≠ .custom) :
    let flags := (UInt8.ofNat (nextPow2 eltWidth % 2 ^ 8 ||| HEADER_IS_PRESET_BIT |||
      preset.toNat <<< 3)).toNat
    1 <<< (flags &&& 0x3) = eltWidth ∧ flags &&& HEADER_IS_PRESET_BIT ≠ 0 ∧
      flags >>> 3 = preset.toNat := by
  rcases h with rfl | rfl | rfl | rfl <;> cases preset <;>
    first
    | exact absurd rfl hpreset
    | decide

/-- What the flags of a header without a preset say. -/
structure FlagsOf (flags eltWidth : Nat) (first pow2 : Prop) : Prop where
  width : 1 <<< (flags &&& 0x3) = eltWidth
  custom : ¬flags &&& HEADER_IS_PRESET_BIT ≠ 0
  first : flags &&& HEADER_IS_FIRST_VALUE_ZERO_BIT ≠ 0 ↔ first
  pow2 : flags &&& HEADER_IS_POW2_BIT ≠ 0 ↔ pow2

theorem flags_varint (h : IsWidth eltWidth) (startValue : Nat) :
    FlagsOf (UInt8.ofNat (if startValue = 0 then
      nextPow2 eltWidth % 2 ^ 8 ||| HEADER_IS_FIRST_VALUE_ZERO_BIT
      else nextPow2 eltWidth % 2 ^ 8)).toNat eltWidth (startValue = 0) False := by
  by_cases hzero : startValue = 0
  · rw [if_pos hzero]
    rcases h with rfl | rfl | rfl | rfl <;>
      exact ⟨by decide, by decide, iff_of_true (by decide) hzero, iff_of_false (by decide) id⟩
  · rw [if_neg hzero]
    rcases h with rfl | rfl | rfl | rfl <;>
      exact ⟨by decide, by decide, iff_of_false (by decide) hzero, iff_of_false (by decide) id⟩

theorem flags_pow2 (h : IsWidth eltWidth) (startValue : Nat) {numBits : Nat} (hmin : 3 ≤ numBits)
    (hmax : numBits ≤ 6) :
    let flags := (UInt8.ofNat ((if startValue = 0 then
      nextPow2 eltWidth % 2 ^ 8 ||| HEADER_IS_FIRST_VALUE_ZERO_BIT
      else nextPow2 eltWidth % 2 ^ 8) ||| HEADER_IS_POW2_BIT ||| (numBits - 3) <<< 6)).toNat
    FlagsOf flags eltWidth (startValue = 0) True ∧ flags >>> 6 + 3 = numBits := by
  by_cases hzero : startValue = 0
  · rw [if_pos hzero]
    rcases h with rfl | rfl | rfl | rfl <;> interval_cases numBits <;>
      exact ⟨⟨by decide, by decide, iff_of_true (by decide) hzero,
        iff_of_true (by decide) trivial⟩, by decide⟩
  · rw [if_neg hzero]
    rcases h with rfl | rfl | rfl | rfl <;> interval_cases numBits <;>
      exact ⟨⟨by decide, by decide, iff_of_false (by decide) hzero,
        iff_of_true (by decide) trivial⟩, by decide⟩

end Flags

section Logarithms

/-- The fields of the logarithms, and the sentinel. -/
def logFields (numBits : Nat) (bits : List Nat) : List (Nat × Nat) :=
  bits.map fun b => (b, numBits)

theorem fieldsSize_logFields (numBits : Nat) (bits : List Nat) :
    fieldsSize (logFields numBits bits) = numBits * bits.length := by
  induction bits with
  | nil => rfl
  | cons b bits ih =>
    rw [logFields, List.map_cons, fieldsSize_cons, List.length_cons, Nat.mul_succ, ← ih, logFields]
    omega

theorem writeLog2Sizes_spec {numBits room : Nat} (hfew : numBits ≤ 56) (bs : List Nat) :
    ∀ {fs : List (Nat × Nat)} {bits : BitCStreamFF}, Written bits room fs →
      fieldsSize (fs ++ logFields numBits bs ++ [(1, 1)]) ≤ 8 * room →
      ∃ bits', writeLog2Sizes numBits bs bits = some bits' ∧
        Writing bits' room room (fieldsSize (fs ++ logFields numBits bs ++ [(1, 1)]))
          (fieldsCode (fs ++ logFields numBits bs ++ [(1, 1)])) := by
  induction bs with
  | nil =>
    intro fs bits h hroom
    rw [logFields, List.map_nil, List.append_nil] at hroom ⊢
    rw [fieldsSize_append] at hroom
    have hfit := h.writing.fits h.flushed (k := 1) hroom (by decide)
    have hwrite := h.writing.write (k := 1) 1 (by omega)
    refine ⟨bits.write 1 1, by rw [writeLog2Sizes, if_pos hfit], ?_⟩
    rw [fieldsSize_append, fieldsCode_append]
    exact hwrite
  | cons b bs ih =>
    intro fs bits h hroom
    have hcons : fs ++ logFields numBits (b :: bs) = fs ++ [(b, numBits)] ++ logFields numBits bs := by
      rw [logFields, List.map_cons, List.append_assoc, List.singleton_append, logFields]
    rw [hcons] at hroom ⊢
    have hfront : fieldsSize (fs ++ [(b, numBits)]) ≤ 8 * room := by
      rw [List.append_assoc, fieldsSize_append] at hroom
      omega
    have hfield : b % 2 ^ numBits = fieldsCode [(b, numBits)] := by
      rw [fieldsCode, fieldsCode, Nat.mul_zero, Nat.add_zero]
    obtain ⟨bits₁, hrun, h₁⟩ := h.writeFlush hfield rfl hfew hfront
    obtain ⟨bits₂, hrest, h₂⟩ := ih h₁ hroom
    exact ⟨bits₂, by rw [writeLog2Sizes, hrun, Option.bind_eq_bind, Option.bind_some, hrest], h₂⟩

theorem readLog2Sizes_spec {numBits : Nat} (hfew : numBits ≤ 57) {hdr : List UInt8}
    {gs : List (Nat × Nat)} (bs : List Nat) : ∀ {fs : List (Nat × Nat)} {bits : BitDStreamFF},
      (∀ b ∈ bs, b < 2 ^ numBits) → ReadUpTo bits hdr fs (logFields numBits bs ++ gs) →
      ∃ bits', readLog2Sizes numBits bs.length bits = some (bs.map fun b => 2 ^ b, bits') ∧
        ReadUpTo bits' hdr (fs ++ logFields numBits bs) gs := by
  induction bs with
  | nil =>
    intro fs bits _ h
    rw [logFields, List.map_nil, List.nil_append] at h
    exact ⟨bits, rfl, by rwa [logFields, List.map_nil, List.append_nil]⟩
  | cons b bs ih =>
    intro fs bits hlt h
    rw [logFields, List.map_cons, List.cons_append] at h
    obtain ⟨hpeek, bits₁, hreload, h₁⟩ := h.read hfew
    obtain ⟨bits₂, hrest, h₂⟩ := ih (fun b hb => hlt b (List.mem_cons_of_mem _ hb)) h₁
    rw [Nat.mod_eq_of_lt (hlt b List.mem_cons_self)] at hpeek
    rw [List.append_assoc, List.singleton_append] at h₂
    refine ⟨bits₂, ?_, h₂⟩
    rw [List.length_cons, readLog2Sizes]
    rw [hreload, hpeek]
    simp only [Option.bind_eq_bind, Option.bind_some]
    rw [hrest, Option.bind_some, Nat.one_shiftLeft, List.map_cons]

theorem getLast?_sentinel (fs : List (Nat × Nat)) :
    ∃ last, (bytesOfFields (fs ++ [(1, 1)])).getLast? = some last ∧ last ≠ 0 ∧
      last.toNat.log2 = fieldsSize fs % 8 ∧
      (bytesOfFields (fs ++ [(1, 1)])).length = fieldsSize fs / 8 + 1 := by
  have hsize : fieldsSize (fs ++ [(1, 1)]) = fieldsSize fs + 1 := fieldsSize_append _ _
  have hcode : fieldsCode (fs ++ [(1, 1)]) = fieldsCode fs + 2 ^ fieldsSize fs :=
    (fieldsCode_append fs [(1, 1)]).trans (by rw [show fieldsCode [(1, 1)] = 1 from rfl, Nat.mul_one])
  have hlt := fieldsCode_lt fs
  have hbytes : (fieldsSize fs + 1 + 7) / 8 = fieldsSize fs / 8 + 1 := by omega
  have hpow : 2 ^ fieldsSize fs = 256 ^ (fieldsSize fs / 8) * 2 ^ (fieldsSize fs % 8) := by
    rw [pow256, ← Nat.pow_add, Nat.div_add_mod]
  have hlow : 2 ^ (fieldsSize fs % 8) ≤
      fieldsCode (fs ++ [(1, 1)]) / 256 ^ (fieldsSize fs / 8) := by
    rw [Nat.le_div_iff_mul_le (by positivity), Nat.mul_comm, ← hpow, hcode]
    exact Nat.le_add_left _ _
  have hhigh : fieldsCode (fs ++ [(1, 1)]) / 256 ^ (fieldsSize fs / 8) <
      2 ^ (fieldsSize fs % 8 + 1) := by
    rw [Nat.div_lt_iff_lt_mul (by positivity), Nat.pow_succ, Nat.mul_right_comm,
      Nat.mul_comm (2 ^ _) (256 ^ _), ← hpow, hcode]
    omega
  have hbyte : 2 ^ (fieldsSize fs % 8 + 1) ≤ 2 ^ 8 := Nat.pow_le_pow_right Nat.two_pos (by omega)
  refine ⟨UInt8.ofNat (fieldsCode (fs ++ [(1, 1)]) / 256 ^ (fieldsSize fs / 8)), ?_, ?_, ?_, ?_⟩
  · rw [bytesOfFields, hsize, hbytes, toLE_add]
    exact List.getLast?_concat
  · intro hzero
    have hnat := congrArg UInt8.toNat hzero
    rw [UInt8.toNat_ofNat', Nat.mod_eq_of_lt (by omega)] at hnat
    have : (0 : UInt8).toNat = 0 := rfl
    omega
  · rw [UInt8.toNat_ofNat', Nat.mod_eq_of_lt (by omega)]
    exact (Nat.log2_eq_iff (by omega)).2 ⟨hlow, hhigh⟩
  · rw [length_bytesOfFields, hsize, hbytes]

theorem parseLog2Sizes_spec {flags numBits : Nat} (hflags : flags >>> 6 + 3 = numBits)
    (hfew : numBits ≤ 57) {bs : List Nat} (hlt : ∀ b ∈ bs, b < 2 ^ numBits)
    (hmany : bs.length ≤ maxPartitions) :
    parseLog2Sizes flags (bytesOfFields (logFields numBits bs ++ [(1, 1)])) =
      .ok (bs.map fun b => 2 ^ b) := by
  have hpos : 0 < numBits := by omega
  obtain ⟨last, hlast, hne, hlog, hlen⟩ := getLast?_sentinel (logFields numBits bs)
  obtain ⟨bits, hinit, h⟩ := ReadUpTo.init (logFields numBits bs ++ [(1, 1)])
  obtain ⟨bits', hrun, h'⟩ := readLog2Sizes_spec hfew bs hlt h
  have hfinish := h'.finish
  have htotal : 8 * (bytesOfFields (logFields numBits bs ++ [(1, 1)])).length -
      (8 - last.toNat.log2) = bs.length * numBits := by
    rw [hlen, hlog, fieldsSize_logFields, Nat.mul_comm numBits]
    generalize bs.length * numBits = n
    omega
  rw [parseLog2Sizes, hlast]
  simp only [hflags, if_neg hne, htotal, Nat.mul_mod_left, ne_eq, not_true_eq_false, if_false,
    Nat.mul_div_cancel _ hpos, gt_iff_lt, if_neg (Nat.not_lt.2 hmany), hinit, defined, ok_bind,
    hrun]
  cases hbits : bits'.finish with
  | none => exact absurd hbits hfinish
  | some r => rfl

end Logarithms

theorem varintDecode_varintEncode {v : Nat} (h : v < 2 ^ 64) (rest : List UInt8) :
    varintDecode (Shared.varintEncode v ++ rest) = .ok (v, rest) := by
  rw [varintDecode, Shared.varintDecode_reads h rest]

theorem length_varintEncode_bounds {v : Nat} (h : v < 2 ^ 64) :
    0 < (Shared.varintEncode v).length ∧ (Shared.varintEncode v).length ≤ 10 := by
  have hlog : v.log2 < 64 := by
    by_cases hzero : v = 0
    · rw [hzero]
      decide
    · exact (Nat.log2_lt hzero).2 h
  rw [Shared.length_varintEncode h, Shared.varintSize_eq]
  omega

theorem parseSizes_spec (sizes : List Nat) : ∀ {fuel n : Nat}, (∀ size ∈ sizes, size < 2 ^ 64) →
    n + sizes.length ≤ maxPartitions → sizes.length < fuel →
      parseSizes fuel n (sizes.flatMap Shared.varintEncode) = .ok sizes := by
  induction sizes with
  | nil =>
    intro fuel n _ _ hfuel
    obtain ⟨fuel, rfl⟩ : ∃ f, fuel = f + 1 := ⟨fuel - 1, by rw [List.length_nil] at hfuel; omega⟩
    rw [List.flatMap_nil, parseSizes, if_pos rfl]
  | cons size sizes ih =>
    intro fuel n hlt hmany hfuel
    rw [List.length_cons] at hmany hfuel
    obtain ⟨fuel, rfl⟩ : ∃ f, fuel = f + 1 := ⟨fuel - 1, by omega⟩
    have hsize := hlt size List.mem_cons_self
    have hne : Shared.varintEncode size ++ sizes.flatMap Shared.varintEncode ≠ [] :=
      List.append_ne_nil_of_left_ne_nil
        (List.ne_nil_of_length_pos (length_varintEncode_bounds hsize).1) _
    rw [List.flatMap_cons, parseSizes, if_neg hne, if_neg (by omega),
      varintDecode_varintEncode hsize, ok_bind]
    dsimp only
    rw [ih (fun s hs => hlt s (List.mem_cons_of_mem _ hs)) (by omega) (by omega), ok_bind]

section Header

variable {params : PartitionParams} {eltWidth : Nat}

/-- The bytes of the start value. -/
def firstBytes (params : PartitionParams) : List UInt8 :=
  if params.startValue ≠ 0 then Shared.varintEncode params.startValue else []

theorem parseHeader_custom (hw : params.Words) (hvalid : params.validate = true) {flag : UInt8}
    {rest : List UInt8} {pow2 : Prop}
    (hflags : FlagsOf flag.toNat eltWidth (params.startValue = 0) pow2)
    (hsizes : (if flag.toNat &&& HEADER_IS_POW2_BIT ≠ 0 then parseLog2Sizes flag.toNat rest
      else parseSizes (maxPartitions + 1) 0 rest) = .ok params.partitionSizes) :
    parseHeader (flag :: (firstBytes params ++ rest)) = .ok (params, eltWidth) := by
  have hfirst : (if flag.toNat &&& HEADER_IS_FIRST_VALUE_ZERO_BIT ≠ 0 then
        .ok (0, firstBytes params ++ rest)
      else varintDecode (firstBytes params ++ rest) : Except Stop (Nat × List UInt8)) =
      .ok (params.startValue, rest) := by
    by_cases hzero : params.startValue = 0
    · rw [if_pos (hflags.first.2 hzero), firstBytes, if_neg (not_not.2 hzero), hzero,
        List.nil_append]
    · rw [if_neg fun h => hzero (hflags.first.1 h), firstBytes, if_pos hzero,
        varintDecode_varintEncode hw.1]
  rw [parseHeader]
  dsimp only
  rw [if_neg hflags.custom, hfirst, ok_bind]
  by_cases hbit : flag.toNat &&& HEADER_IS_POW2_BIT ≠ 0
  · rw [if_pos hbit] at hsizes ⊢
    rw [hsizes, ok_bind, if_pos hvalid, hflags.width]
  · rw [if_neg hbit] at hsizes ⊢
    rw [hsizes, ok_bind, if_pos hvalid, hflags.width]

theorem computeBits_pow2 (hw : params.Words) (hvalid : params.Valid)
    (hpow2 : params.areAllSizesPow2 = true) :
    (params.computeBits.map fun b => 2 ^ b) = params.partitionSizes ∧
      ∀ b ∈ params.computeBits, b < 64 := by
  have hsize : ∀ size ∈ params.partitionSizes, nextPow2 size < 64 ∧ 2 ^ nextPow2 size = size := by
    intro size hsize
    have hne := hvalid.sizes size hsize
    have heq := (isPow2_iff hne).1 (List.all_eq_true.1 hpow2 size hsize)
    have hlog : size.log2 < 64 := (Nat.log2_lt hne).2 (hw.2 size hsize)
    have hle : nextPow2 size ≤ size.log2 := nextPow2_le heq.le
    refine ⟨by omega, Nat.le_antisymm ?_ (le_two_pow_nextPow2 size)⟩
    calc 2 ^ nextPow2 size ≤ 2 ^ size.log2 := Nat.pow_le_pow_right Nat.two_pos hle
      _ = size := heq.symm
  constructor
  · rw [PartitionParams.computeBits, List.map_map]
    conv_rhs => rw [← List.map_id params.partitionSizes]
    refine List.map_congr_left fun size hmem => ?_
    obtain ⟨hlt, heq⟩ := hsize size hmem
    rw [Function.comp_apply, Nat.mod_eq_of_lt (by omega), heq, id]
  · intro b hb
    obtain ⟨size, hmem, rfl⟩ := List.mem_map.1 hb
    exact (Nat.mod_le _ _).trans_lt (hsize size hmem).1

theorem sendHeader_custom_pow2 {fill : Nat → UInt8} {bits : List Nat} {numBits room bitSize : Nat}
    {bitstream : BitCStreamFF} {dst : List UInt8} (hpow2 : params.areAllSizesPow2 = true)
    (hn : max (nextPow2 (bits.foldl max 0 + 1)) 3 = numBits) (hmost : numBits ≤ 6)
    (hroom : 1 + 10 + (numBits * params.numPartitions + 1 + 7) / 8 -
      (1 + (firstBytes params).length) = room)
    (hrun : writeLog2Sizes numBits bits (BitCStreamFF.init ((List.range room).map fill) room) =
      some bitstream)
    (hfinish : bitstream.finish = some (bitSize, dst)) :
    sendHeader fill params bits .custom eltWidth =
      .ok (UInt8.ofNat ((if params.startValue = 0 then
          nextPow2 eltWidth % 2 ^ 8 ||| HEADER_IS_FIRST_VALUE_ZERO_BIT
          else nextPow2 eltWidth % 2 ^ 8) ||| HEADER_IS_POW2_BIT ||| (numBits - 3) <<< 6) ::
            (firstBytes params ++ dst.take bitSize)) := by
  rw [firstBytes] at hroom ⊢
  rw [sendHeader, if_neg (not_not.2 rfl)]
  dsimp only
  rw [if_pos hpow2, hn, if_pos hmost, hroom, hrun, defined, ok_bind, hfinish]

theorem parseHeader_sendHeader_custom (hw : params.Words) (hvalid : params.Valid)
    (hwidth : IsWidth eltWidth) (fill : Nat → UInt8) :
    ∃ hdr, sendHeader fill params params.computeBits .custom eltWidth = .ok hdr ∧
      parseHeader hdr = .ok (params, eltWidth) := by
  have hvalidate := (PartitionParams.validate_iff hw).2 hvalid
  have hcount : params.computeBits.length = params.numPartitions := List.length_map _
  have hle := hvalid.le
  by_cases hpow2 : params.areAllSizesPow2 = true
  · obtain ⟨hmap, hlt⟩ := computeBits_pow2 hw hvalid hpow2
    have hmax : params.computeBits.foldl max 0 + 1 ≤ 2 ^ 6 := by
      rcases foldl_max_mem params.computeBits 0 with hzero | hmem
      · rw [hzero]
        decide
      · exact hlt _ hmem
    have hnum : nextPow2 (params.computeBits.foldl max 0 + 1) ≤ 6 := nextPow2_le hmax
    have hfits : ∀ b ∈ params.computeBits,
        b < 2 ^ max (nextPow2 (params.computeBits.foldl max 0 + 1)) 3 := by
      intro b hb
      have hb := (le_foldl_max params.computeBits 0).2 b hb
      have hpow := le_two_pow_nextPow2 (params.computeBits.foldl max 0 + 1)
      have hmono := Nat.pow_le_pow_right Nat.two_pos
        (Nat.le_max_left (nextPow2 (params.computeBits.foldl max 0 + 1)) 3)
      omega
    generalize hn : max (nextPow2 (params.computeBits.foldl max 0 + 1)) 3 = numBits at hfits
    have hmin : 3 ≤ numBits := by omega
    have hmost : numBits ≤ 6 := by omega
    obtain ⟨hflags, hshift⟩ := flags_pow2 hwidth params.startValue hmin hmost
    have hfirst : (firstBytes params).length ≤ 10 := by
      rw [firstBytes]
      split
      · exact (length_varintEncode_bounds hw.1).2
      · exact Nat.zero_le _
    generalize hroom : 1 + 10 + (numBits * params.numPartitions + 1 + 7) / 8 -
      (1 + (firstBytes params).length) = room
    have hsize : fieldsSize (logFields numBits params.computeBits ++ [(1, 1)]) ≤ 8 * room := by
      rw [fieldsSize_append, fieldsSize_logFields, hcount, fieldsSize_cons, fieldsSize_nil]
      omega
    have hinit := Written.init ((List.range room).map fill)
    rw [List.length_map, List.length_range] at hinit
    obtain ⟨bits, hrun, hwriting⟩ := writeLog2Sizes_spec (by omega) params.computeBits hinit hsize
    obtain ⟨dst, hfinish, hbytes⟩ := hwriting.finish_fields hsize
    rw [sendHeader_custom_pow2 hpow2 hn hmost hroom hrun hfinish, hbytes]
    refine ⟨_, rfl, parseHeader_custom hw hvalidate hflags ?_⟩
    rw [if_pos (hflags.pow2.2 trivial), ← hmap]
    exact parseLog2Sizes_spec hshift (by omega) hfits (by omega)
  · have hflags := flags_varint hwidth params.startValue
    rw [sendHeader, if_neg (not_not.2 rfl)]
    rw [if_neg hpow2]
    refine ⟨_, rfl, parseHeader_custom hw hvalidate hflags ?_⟩
    rw [if_neg fun h => hflags.pow2.1 h]
    exact parseSizes_spec params.partitionSizes hw.2 (by rw [Nat.zero_add]; exact hle)
      (Nat.lt_succ_of_le hle)

theorem parseHeader_sendHeader_preset (hwidth : IsWidth eltWidth) (fill : Nat → UInt8)
    {preset : Preset} (hne : preset ≠ .custom) (hpreset : getPreset preset.toNat = some params) :
    ∃ hdr, sendHeader fill params params.computeBits preset eltWidth = .ok hdr ∧
      parseHeader hdr = .ok (params, eltWidth) := by
  obtain ⟨hw, hbit, hnum⟩ := flags_preset hwidth hne
  rw [sendHeader, if_pos hne]
  refine ⟨_, rfl, ?_⟩
  rw [parseHeader]
  rw [if_pos hbit, hnum, hpreset, hw]

end Header

/-- **The partition codec** takes the lists whose values are all in partitions, writes the same
whichever way it takes, and gives them back. -/
theorem partition_roundTrip {params : PartitionParams} (hw : params.Words)
    (hvalidate : params.validate = true) {eltWidth : Nat} (hwidth : IsWidth eltWidth)
    {src : List Nat} (hlt : ∀ v ∈ src, v < 2 ^ (8 * eltWidth)) {bitsDst : List UInt8}
    (hroom : bitsCapacity params src.length ≤ bitsDst.length) (fill : Nat → UInt8)
    {preset : Preset} (hpreset : preset = .custom ∨ getPreset preset.toNat = some params) :
    ((∃ r, partitionEncode bitsDst src eltWidth params = .ok r) ↔
      ∀ v ∈ src, params.startValue ≤ v ∧ v < params.startValue + params.partitionSizes.sum) ∧
    (∀ r, partitionEncode bitsDst src eltWidth params = .ok r ↔
      partitionEncode_generic bitsDst src params = .ok r) ∧
    (eltWidth = 2 → params.getLargestPartitionSize ≤ MAX_PARTITION_SIZE_FOR_UNROLL4 →
      ∀ r, partitionEncodeU16 bitsDst src params = .ok r ↔
        partitionEncode_generic bitsDst src params = .ok r) ∧
    (eltWidth = 4 → params.getLargestPartitionSize ≤ MAX_PARTITION_SIZE_FOR_UNROLL2 →
      canUseHybridLUT params = true → ∀ r, partitionEncodeU32 bitsDst src params = .ok r ↔
        partitionEncode_generic bitsDst src params = .ok r) ∧
    ∀ buckets bits, partitionEncode bitsDst src eltWidth params = .ok (buckets, bits) →
      ∃ hdr params' eltWidth',
        sendHeader fill params params.computeBits preset eltWidth = .ok hdr ∧
          parseHeader hdr = .ok (params', eltWidth') ∧ params' = params ∧ eltWidth' = eltWidth ∧
          partitionDecode eltWidth' buckets bits params' = .ok src := by
  have hvalid := (PartitionParams.validate_iff hw).1 hvalidate
  have hsize := fieldsSize_le_bitsCapacity src hroom
  have hcovers : (∀ v ∈ src, Covers params v) ↔ ∀ v ∈ src, params.startValue ≤ v ∧
      v < params.startValue + params.partitionSizes.sum := by
    rw [← PartitionParams.base_end]
    rfl
  obtain ⟨e, hencode⟩ := partitionEncode_spec hw hvalid hlt hsize
  have hgeneric := partitionEncode_generic_spec hw hvalid hsize
  have hsame : ∀ {run : Except Stop (List Nat × List UInt8)} {e : PartitionError},
      (run = if ∀ v ∈ src, Covers params v then .ok (encoded params src) else .error (.error e)) →
        ∀ r, run = .ok r ↔ partitionEncode_generic bitsDst src params = .ok r := by
    intro run e hrun r
    rw [hrun, hgeneric]
    by_cases hsrc : ∀ v ∈ src, Covers params v
    · rw [if_pos hsrc, if_pos hsrc]
    · rw [if_neg hsrc, if_neg hsrc]
      exact iff_of_false nofun nofun
  refine ⟨?_, hsame hencode, ?_, ?_, ?_⟩
  · rw [hencode, ← hcovers]
    by_cases hsrc : ∀ v ∈ src, Covers params v
    · rw [if_pos hsrc]
      exact iff_of_true ⟨_, rfl⟩ hsrc
    · rw [if_neg hsrc]
      exact iff_of_false nofun hsrc
  · rintro rfl hlargest
    exact hsame (partitionEncodeU16_spec hw hvalid hlargest hlt hsize)
  · rintro rfl hlargest hhybrid
    exact hsame (partitionEncodeU32_spec hw hvalid hlargest hhybrid hlt hsize)
  · intro buckets bits hrun
    have hheader : ∃ hdr, sendHeader fill params params.computeBits preset eltWidth = .ok hdr ∧
        parseHeader hdr = .ok (params, eltWidth) := by
      by_cases hcustom : preset = .custom
      · rw [hcustom]
        exact parseHeader_sendHeader_custom hw hvalid hwidth fill
      · exact parseHeader_sendHeader_preset hwidth fill hcustom (hpreset.resolve_left hcustom)
    obtain ⟨hdr, hsend, hparse⟩ := hheader
    refine ⟨hdr, params, eltWidth, hsend, hparse, rfl, rfl, ?_⟩
    have hle : eltWidth ≤ 8 := by
      rcases hwidth with rfl | rfl | rfl | rfl <;> decide
    rw [hencode] at hrun
    by_cases hsrc : ∀ v ∈ src, Covers params v
    · rw [if_pos hsrc] at hrun
      have hpair := Except.ok.inj hrun
      have hdecode := partitionDecode_encoded hw hvalid hle hsrc hlt
      rwa [hpair] at hdecode
    · rw [if_neg hsrc] at hrun
      cases hrun

/-- Values of partitions that end at 2^64, and of the preset for 16-bit values. -/
theorem partition_roundTrip_words :
    (∃ r, partitionEncode (List.replicate 24 0xAA) [2 ^ 64 - 1, 3, 2] 8 ⟨2, [2, 2 ^ 64 - 4]⟩ =
      .ok r) ∧
    ∃ r, partitionEncode (List.replicate 6 0) [0, 17, 60000] 2 varbyte16Params = .ok r := by
  have hwords : PartitionParams.Words ⟨2, [2, 2 ^ 64 - 4]⟩ := ⟨by decide, by decide⟩
  have hvarbyte : PartitionParams.Words varbyte16Params := ⟨by decide, by decide⟩
  have hpreset : Preset.varbyte16 = .custom ∨
      getPreset Preset.varbyte16.toNat = some varbyte16Params := Or.inr rfl
  refine ⟨?_, ?_⟩
  · exact (partition_roundTrip hwords (by decide) (Or.inr (Or.inr (Or.inr rfl))) (by decide)
      (by decide) (fun _ => 0) (Or.inl rfl)).1.2 (by decide)
  · exact (partition_roundTrip hvarbyte (by decide) (Or.inr (Or.inl rfl)) (by decide) (by decide)
      (fun _ => 0) hpreset).1.2 (by decide)

end OpenZL.Codecs.Partition
