import OpenZL.Compress.EncodeFrameHeader
import OpenZL.Decompress.DecodeFrameHeader

/-!
# Frame header round trip

`writeFrameHeader_internal` and `DFH_FrameInfo_decodeFrameHeader` are separate code over the same
bytes.

* `decodeInputTypes_reads`, `decodeOutputSizes_reads` — fields are read back in every layout.
* `decodeFrameHeader_written`, `frameHeader_roundtrip` — so is the header.
-/

namespace OpenZL.Wire

open OpenZL.Lib OpenZL.Shared OpenZL.Compress OpenZL.Decompress

variable {ts : List DataType} {v : Nat}

/-! ## The decoded header -/

/-- The properties a version can carry in its frame header. -/
def frameProperties (v : Nat) (fprop : FrameProperties) : FrameProperties :=
  if v ≥ CHUNK_VERSION_MIN then
    { hasContentChecksum := fprop.hasContentChecksum
      hasCompressedChecksum := fprop.hasCompressedChecksum
      hasComment := v ≥ COMMENT_VERSION_MIN ∧ fprop.hasComment
      hasBundleID := v ≥ MATERIALIZED_DICT_VERSION_MIN ∧ fprop.hasBundleID }
  else noProperties

/-- The element count decoded for an input. -/
def decodedNumElts (d : InputDesc) : Nat :=
  match d.type with
  | .serial => d.byteSize
  | .struct => 0
  | .numeric => 0
  | .string => d.numElts

/-- The frame information decoded from the header of `fip`, `headerSize` bytes long. -/
def decodedFrameInfo (v : Nat) (fip : EFHFrameInfo) (headerSize : Nat) : FrameInfo where
  formatVersion := v
  properties := frameProperties v fip.fprop
  types := fip.types
  decompressedSizes := fip.inputDescs.map (·.byteSize)
  numElts := if v < CHUNK_VERSION_MIN then none else some (fip.inputDescs.map decodedNumElts)
  frameHeaderSize := if v ≥ CHUNK_VERSION_MIN then headerSize else 0
  comment := if v ≥ COMMENT_VERSION_MIN ∧ fip.fprop.hasComment then fip.comment else []
  bundleID :=
    if v ≥ MATERIALIZED_DICT_VERSION_MIN ∧ fip.fprop.hasBundleID then fip.bundleID
    else UniqueID.zero

/-- What a caller of the encoder provides: at least one input, counts and sizes that fit a
`uint64_t` (sizes short of its last value), and no empty comment. -/
structure FrameWellFormed (v : Nat) (fip : EFHFrameInfo) : Prop where
  inputs_pos : 1 ≤ fip.numInputs
  byteSize_lt : ∀ d ∈ fip.inputDescs, d.byteSize < 2 ^ 64 - 1
  numElts_lt : ∀ d ∈ fip.inputDescs, d.numElts < 2 ^ 64
  comment_ne : v ≥ COMMENT_VERSION_MIN → fip.fprop.hasComment = true → fip.comment ≠ []

theorem frameFlags_bits (content compressed comment bundle : Bool) :
    let flags := (UInt8.ofNat ((if content then 1 else 0) ||| (if compressed then 2 else 0) |||
      (if comment then 4 else 0) ||| (if bundle then 8 else 0))).toNat
    decide (flags &&& 1 ≠ 0) = content ∧ decide (flags &&& 2 ≠ 0) = compressed ∧
      decide (flags &&& 4 ≠ 0) = comment ∧ decide (flags &&& 8 ≠ 0) = bundle := by
  revert content compressed comment bundle
  decide

theorem decodeFrameFlags_reads (v : Nat) (fprop : FrameProperties) :
    Reads (decodeFrameFlags v) (encodeFrameFlags v fprop) (frameProperties v fprop) := by
  unfold decodeFrameFlags encodeFrameFlags frameProperties
  split
  · refine (Reads.popByte _ _).bind_pure ?_
    obtain ⟨h1, h2, h4, h8⟩ := frameFlags_bits fprop.hasContentChecksum
      fprop.hasCompressedChecksum (v ≥ COMMENT_VERSION_MIN ∧ fprop.hasComment)
      (v ≥ MATERIALIZED_DICT_VERSION_MIN ∧ fprop.hasBundleID)
    simp only [decide_eq_true_eq] at h1 h2 h4 h8
    have h8' : decide (v ≥ MATERIALIZED_DICT_VERSION_MIN ∧ (UInt8.ofNat (
        (if fprop.hasContentChecksum then 1 else 0) |||
        (if fprop.hasCompressedChecksum then 2 else 0) |||
        (if v ≥ COMMENT_VERSION_MIN ∧ fprop.hasComment then 4 else 0) |||
        (if v ≥ MATERIALIZED_DICT_VERSION_MIN ∧ fprop.hasBundleID then 8 else 0))).toNat &&& 8 ≠ 0)
        = decide (v ≥ MATERIALIZED_DICT_VERSION_MIN ∧ fprop.hasBundleID = true) := by
      rw [Bool.decide_and, h8, Bool.decide_and, ← Bool.and_assoc, Bool.and_self]
    simp only [h1, h2, h4, h8']
    exact Reads.pure _
  · exact Reads.pure _

/-! ## Bundle and types -/

theorem decodeBundleID_reads {fip : EFHFrameInfo} {bundle : List UInt8}
    (h : encodeBundleID v fip = .ok bundle) :
    Reads (decodeBundleID (frameProperties v fip.fprop)) bundle
      (if v ≥ MATERIALIZED_DICT_VERSION_MIN ∧ fip.fprop.hasBundleID then fip.bundleID
        else UniqueID.zero) := by
  have hflag : (frameProperties v fip.fprop).hasBundleID = true ↔
      (v ≥ MATERIALIZED_DICT_VERSION_MIN ∧ fip.fprop.hasBundleID = true) := by
    unfold frameProperties
    by_cases hv : v ≥ CHUNK_VERSION_MIN
    · simp [hv]
    · have hd : ¬ v ≥ MATERIALIZED_DICT_VERSION_MIN := by
        unfold MATERIALIZED_DICT_VERSION_MIN
        unfold CHUNK_VERSION_MIN at hv
        omega
      simp [hv, hd, noProperties]
  unfold encodeBundleID at h
  unfold decodeBundleID
  by_cases hb : v ≥ MATERIALIZED_DICT_VERSION_MIN ∧ fip.fprop.hasBundleID = true
  · rw [if_pos hb] at h ⊢
    rw [if_pos (hflag.2 hb)]
    simp only at h
    split at h
    · cases h
    · rename_i hsig
      cases h
      have hle := fip.bundleID.significantBytes_le
      have hbyte : (UInt8.ofNat fip.bundleID.significantBytes).toNat =
          fip.bundleID.significantBytes := by
        rw [UInt8.toNat_ofNat']
        unfold UNIQUE_ID_SIZE at hle
        omega
      have hlen : (fip.bundleID.bytes.take fip.bundleID.significantBytes).length =
          fip.bundleID.significantBytes := by
        rw [List.length_take, fip.bundleID.length_eq]
        omega
      refine (Reads.popByte _ _).bind (t := fip.bundleID.bytes.take _) ?_
      rw [hbyte]
      refine (Reads.failIf (by omega)).bind_nil ((Reads.failIf (by omega)).bind_nil ?_)
      have hpop := Reads.popBytes ErrorCode.corruption
        (fip.bundleID.bytes.take fip.bundleID.significantBytes)
      rw [hlen] at hpop
      refine hpop.bind_pure ?_
      rw [fip.bundleID.ofSignificant_take]
      refine (Reads.failIf ?_).bind_nil (Reads.pure _)
      rw [UniqueID.isValid_of_significantBytes hsig]
      decide
  · rw [if_neg hb] at h ⊢
    rw [if_neg (hflag.not.2 hb)]
    cases h
    exact Reads.pure _

@[simp] theorem decodeType_encodeType (t : DataType) : decodeType (encodeType t) = t := by
  cases t <;> rfl

theorem tokenTypes_eq_fields (token shift n : Nat) :
    tokenTypes token shift n = (fields 2 n (token >>> shift)).map decodeType := by
  induction n generalizing shift with
  | zero => rfl
  | succ n ih =>
    have hstep : tokenTypes token shift (n + 1) =
        decodeType (token >>> shift &&& 3) :: tokenTypes token (shift + 2) n := by
      unfold tokenTypes
      rw [List.range_succ_eq_map, List.map_cons, List.map_map, Nat.zero_mul, Nat.zero_add]
      congr 2
      funext i
      simp only [Function.comp]
      congr 3
      omega
    have hmask : token >>> shift &&& 3 = (token >>> shift) % 2 ^ 2 :=
      Nat.and_two_pow_sub_one_eq_mod _ 2
    rw [hstep, ih, fields, List.map_cons, hmask, Nat.shiftRight_add,
      Nat.shiftRight_eq_div_pow (token >>> shift) 2]

theorem fields_typesNumber (ts : List DataType) :
    (fields 2 ts.length (typesNumber ts)).map decodeType = ts := by
  have hlt : ∀ x ∈ ts.map encodeType, x < 2 ^ 2 := by
    intro x hx
    obtain ⟨t, -, rfl⟩ := List.mem_map.1 hx
    exact encodeType_lt t
  have h := fields_ofDigits hlt
  rw [List.length_map] at h
  rw [typesNumber, h, List.map_map]
  exact (List.map_congr_left fun t _ => decodeType_encodeType t).trans (List.map_id ts)

theorem tokenTypes_of {token shift k : Nat}
    (h : token >>> shift = typesNumber ts + 2 ^ (2 * ts.length) * k) :
    tokenTypes token shift ts.length = ts := by
  rw [tokenTypes_eq_fields, h, fields_add_mul, fields_typesNumber]

theorem flatMap_tokenTypes (bs : List UInt8) :
    (bs.flatMap fun b => tokenTypes b.toNat 0 4) =
      (fields 2 (4 * bs.length) (ofLE bs)).map decodeType := by
  induction bs with
  | nil => rfl
  | cons b bs ih =>
    have hb := b.toNat_lt
    have hlow : fields 2 4 (b.toNat + 256 * ofLE bs) = fields 2 4 b.toNat := by
      have h := fields_add_mul 2 4 b.toNat (ofLE bs)
      norm_num at h
      exact h
    have hhigh : (b.toNat + 256 * ofLE bs) / 2 ^ (2 * 4) = ofLE bs := by
      omega
    rw [List.flatMap_cons, ih, tokenTypes_eq_fields, List.length_cons, Nat.mul_add, Nat.mul_one,
      Nat.add_comm (4 * bs.length) 4, fields_append, ofLE_cons, hlow, hhigh, List.map_append]
    rfl

theorem bitmapTypes_typeBitmap (ts : List DataType) :
    bitmapTypes (typeBitmap ts) ts.length = ts := by
  have hsplit : 4 * ((ts.length + 3) / 4) =
      ts.length + (4 * ((ts.length + 3) / 4) - ts.length) := by omega
  rw [typeBitmap_eq, bitmapTypes, flatMap_tokenTypes, length_toLE, ofLE_toLE, hsplit,
    fields_append, List.map_append, List.take_append_of_le_length (by simp),
    List.take_of_length_le (by simp), pow256, fields_mod_of_le (by omega), fields_typesNumber]

theorem decodeTypeBitmap_reads (ts : List DataType) :
    Reads (decodeTypeBitmap ts.length) (typeBitmap ts) ts := by
  have hlen : (typeBitmap ts).length = (ts.length + 3) / 4 := by
    rw [typeBitmap_eq, length_toLE]
  have hpop := Reads.popBytes ErrorCode.srcSize_tooSmall (typeBitmap ts)
  rw [hlen] at hpop
  refine hpop.bind_pure ?_
  rw [bitmapTypes_typeBitmap]
  exact Reads.pure _

theorem typesNumber_split {w k : Nat} (h : ts.length ≤ w) :
    typesNumber ts + 2 ^ (2 * w) * k =
      typesNumber ts + 2 ^ (2 * ts.length) * (2 ^ (2 * (w - ts.length)) * k) := by
  rw [← Nat.mul_assoc, ← Nat.pow_add]
  congr 4
  omega

theorem typesNumber_lt_of_le {w : Nat} (h : ts.length ≤ w) :
    typesNumber ts < 2 ^ (2 * w) :=
  lt_of_lt_of_le (typesNumber_lt ts) (Nat.pow_le_pow_right (by decide) (by omega))

theorem decodeInputTypes21_small (hn : ts.length < 15) :
    ∃ t : OutputTokens, t.nbOutputs = ts.length ∧
      t.token1 = ts.length + 2 ^ 4 * typesNumber (ts.take 2) ∧
      Reads decodeNbOutputs21 [UInt8.ofNat (packTypes 4 (ts.take 2) ts.length)] t := by
  have hlt := typesNumber_lt_of_le (List.length_take_le 2 ts)
  have htoken : packTypes 4 (ts.take 2) ts.length =
      ts.length + 2 ^ 4 * typesNumber (ts.take 2) := by
    rw [packTypes_eq, or_shiftLeft (by omega)]
  have hbyte : (UInt8.ofNat (packTypes 4 (ts.take 2) ts.length)).toNat =
      ts.length + 2 ^ 4 * typesNumber (ts.take 2) := by
    rw [UInt8.toNat_ofNat', htoken]
    omega
  have hmask : (ts.length + 2 ^ 4 * typesNumber (ts.take 2)) &&& 15 = ts.length := by
    have h := Nat.and_two_pow_sub_one_eq_mod (ts.length + 2 ^ 4 * typesNumber (ts.take 2)) 4
    norm_num at h ⊢
    omega
  refine ⟨⟨ts.length, ts.length + 2 ^ 4 * typesNumber (ts.take 2), 0⟩, rfl, rfl, ?_⟩
  refine (Reads.popByte _ _).bind_pure ?_
  simp only [hbyte, hmask]
  rw [if_neg (by omega)]
  exact Reads.pure _

theorem decodeInputTypes21_large {n : Nat} (hn : 15 ≤ n) (hmax : n ≤ ENCODER_INPUT_LIMIT) :
    ∃ t : OutputTokens, t.nbOutputs = n ∧
      Reads decodeNbOutputs21 [UInt8.ofNat (((n - 15) <<< 4) % 256 ||| 15),
        UInt8.ofNat ((n - 15) >>> 4)] t := by
  unfold ENCODER_INPUT_LIMIT at hmax
  have hlow : ((n - 15) <<< 4) % 256 ||| 15 = 15 + 16 * ((n - 15) % 16) := by
    have h16 : ((n - 15) <<< 4) % 256 = ((n - 15) % 16) <<< 4 := by
      rw [Nat.shiftLeft_eq, Nat.shiftLeft_eq]
      omega
    rw [h16, Nat.or_comm, or_shiftLeft (by norm_num)]
    norm_num
  have hb1 : (UInt8.ofNat (((n - 15) <<< 4) % 256 ||| 15)).toNat = 15 + 16 * ((n - 15) % 16) := by
    rw [UInt8.toNat_ofNat', hlow]
    omega
  have hb2 : (UInt8.ofNat ((n - 15) >>> 4)).toNat = (n - 15) / 16 := by
    rw [UInt8.toNat_ofNat', Nat.shiftRight_eq_div_pow]
    omega
  have hmask : (15 + 16 * ((n - 15) % 16)) &&& 15 = 15 := by
    have h := Nat.and_two_pow_sub_one_eq_mod (15 + 16 * ((n - 15) % 16)) 4
    norm_num at h ⊢
    omega
  have hcount : ((n - 15) / 16) <<< 4 + (15 + 16 * ((n - 15) % 16)) >>> 4 + 15 = n := by
    rw [Nat.shiftLeft_eq, Nat.shiftRight_eq_div_pow]
    omega
  refine ⟨⟨((n - 15) / 16) <<< 4 + (15 + 16 * ((n - 15) % 16)) >>> 4 + 15,
    15 + 16 * ((n - 15) % 16), (n - 15) / 16⟩, hcount, ?_⟩
  refine (Reads.popByte _ _).bind (t := [_]) ?_
  simp only [hb1, hmask, if_true]
  refine (Reads.popByte _ _).bind_pure ?_
  simp only [hb2]
  exact Reads.pure _

theorem decodeInputTypes21_reads (hv : v ≥ CHUNK_VERSION_MIN)
    (hmax : ts.length ≤ ENCODER_INPUT_LIMIT) :
    ∃ (t : OutputTokens) (w₁ w₂ : List UInt8), t.nbOutputs = ts.length ∧
      encodeInputTypes21 ts = w₁ ++ w₂ ∧ Reads decodeNbOutputs21 w₁ t ∧
      Reads (decoderOutputTypes v t) w₂ ts := by
  have h14 : ¬ v < 14 := by
    unfold CHUNK_VERSION_MIN at hv
    omega
  have h21 : ¬ v < CHUNK_VERSION_MIN := by omega
  unfold encodeInputTypes21
  by_cases hn : ts.length < 15
  · obtain ⟨t, hcount, htoken, hreads⟩ := decodeInputTypes21_small hn
    refine ⟨t, _, typeBitmap (ts.drop 2), hcount, if_pos hn, hreads, ?_⟩
    have hfirst : tokenTypes t.token1 4 (min 2 t.nbOutputs) = ts.take 2 := by
      rw [hcount, ← List.length_take]
      apply tokenTypes_of (k := 0)
      rw [htoken, Nat.shiftRight_eq_div_pow, Nat.mul_zero, Nat.add_zero,
        Nat.add_mul_div_left _ _ (by norm_num), Nat.div_eq_of_lt (by omega), Nat.zero_add]
    unfold decoderOutputTypes
    rw [if_neg h14, if_neg h21, if_pos (by omega)]
    simp only [hfirst]
    split
    · rename_i htwo
      rw [hcount] at htwo
      have hdrop : ts.drop 2 = [] := List.drop_of_length_le htwo
      rw [hdrop, List.take_of_length_le htwo]
      exact Reads.pure ts
    · have hbitmap := decodeTypeBitmap_reads (ts.drop 2)
      rw [List.length_drop, ← hcount] at hbitmap
      refine hbitmap.bind_pure ?_
      rw [List.take_append_drop]
      exact Reads.pure ts
  · obtain ⟨t, hcount, hreads⟩ := decodeInputTypes21_large (Nat.le_of_not_lt hn) hmax
    refine ⟨t, _, typeBitmap ts, hcount, if_neg hn, hreads, ?_⟩
    unfold decoderOutputTypes
    rw [if_neg h14, if_neg h21, if_neg (by omega), hcount]
    exact decodeTypeBitmap_reads ts

theorem toNat_packToken {w k : Nat} (hlen : ts.length ≤ w) (hk : 2 ^ (2 * w) * (k + 1) ≤ 256) :
    (UInt8.ofNat (packTypes 0 ts (k <<< (2 * w)))).toNat = typesNumber ts + 2 ^ (2 * w) * k := by
  have hlt := typesNumber_lt_of_le hlen
  have hmul : 2 ^ (2 * w) * (k + 1) = 2 ^ (2 * w) * k + 2 ^ (2 * w) := Nat.mul_succ _ _
  rw [UInt8.toNat_ofNat', packTypes_eq, Nat.shiftLeft_zero, Nat.or_comm, or_shiftLeft hlt,
    Nat.mod_eq_of_lt]
  omega

theorem packToken_count {w : Nat} (hlen : ts.length ≤ w) (k : Nat) :
    (typesNumber ts + 2 ^ (2 * w) * k) >>> (2 * w) = k := by
  rw [Nat.shiftRight_eq_div_pow, Nat.add_mul_div_left _ _ (by positivity),
    Nat.div_eq_of_lt (typesNumber_lt_of_le hlen), Nat.zero_add]

theorem packToken_types {w : Nat} (hlen : ts.length ≤ w) (k : Nat) :
    tokenTypes (typesNumber ts + 2 ^ (2 * w) * k) 0 ts.length = ts := by
  apply tokenTypes_of (k := 2 ^ (2 * (w - ts.length)) * k)
  rw [Nat.shiftRight_zero, typesNumber_split hlen]

/-- The tokens of versions 15 to 20 that `decoderOutputTypes` finds the types of `ts` in. -/
structure Tokens15 (ts : List DataType) (t : OutputTokens) : Prop where
  count : t.nbOutputs = ts.length
  first : ∃ k, t.token1 = typesNumber (ts.take 3) + 2 ^ (2 * 3) * k
  second : 3 < ts.length → ∃ k, t.token2 = typesNumber ((ts.drop 3).take 2) + 2 ^ (2 * 2) * k

theorem decodeOutputTokens15_reads (hpos : 1 ≤ ts.length) (hmax : ts.length ≤ ENCODER_INPUT_LIMIT) :
    ∃ t, Tokens15 ts t ∧ Reads decodeOutputTokens15 (inputTokens15 ts) t := by
  unfold ENCODER_INPUT_LIMIT at hmax
  have hl1 : (ts.take 3).length ≤ 3 := List.length_take_le _ _
  have hl2 : ((ts.drop 3).take 2).length ≤ 2 := List.length_take_le _ _
  unfold inputTokens15 decodeOutputTokens15
  by_cases h4 : ts.length < 4
  · have hb1 := toNat_packToken (k := ts.length - 1) hl1 (by norm_num; omega)
    have hc1 := packToken_count hl1 (ts.length - 1)
    refine ⟨⟨ts.length, _, 0⟩, ⟨rfl, ⟨ts.length - 1, rfl⟩, fun h => by omega⟩, ?_⟩
    simp only [if_pos h4, if_neg (show ¬ ts.length > 3 by omega),
      if_neg (show ¬ ts.length > 18 by omega), if_neg (show ¬ ts.length > 273 by omega)]
    refine (Reads.popByte _ _).bind_pure ?_
    simp only [hb1, hc1]
    rw [if_neg (by omega), Nat.sub_add_cancel hpos]
    exact Reads.pure _
  have hb1 := toNat_packToken (k := 3) hl1 (by norm_num)
  have hc1 := packToken_count hl1 3
  simp only [if_neg h4, if_pos (show ts.length > 3 by omega)]
  by_cases h19 : ts.length < 19
  · have hb2 := toNat_packToken (k := ts.length - 4) hl2 (by norm_num; omega)
    have hc2 := packToken_count hl2 (ts.length - 4)
    refine ⟨⟨ts.length, _, _⟩, ⟨rfl, ⟨3, rfl⟩, fun _ => ⟨ts.length - 4, rfl⟩⟩, ?_⟩
    simp only [if_pos h19, if_neg (show ¬ ts.length > 18 by omega),
      if_neg (show ¬ ts.length > 273 by omega)]
    refine (Reads.popByte _ _).bind ?_
    simp only [hb1, hc1]
    refine (Reads.popByte _ _).bind_pure ?_
    simp only [hb2, hc2, Nat.sub_add_cancel (Nat.le_of_not_lt h4)]
    rw [if_neg (by omega)]
    exact Reads.pure _
  have hb2 := toNat_packToken (k := 15) hl2 (by norm_num)
  have hc2 := packToken_count hl2 15
  refine ⟨⟨ts.length, _, _⟩, ⟨rfl, ⟨3, rfl⟩, fun _ => ⟨15, rfl⟩⟩, ?_⟩
  simp only [if_neg h19, if_pos (show ts.length > 18 by omega)]
  refine (Reads.popByte _ _).bind ?_
  simp only [hb1, hc1]
  refine (Reads.popByte _ _).bind ?_
  simp only [hb2, hc2]
  refine (Reads.popByte _ _).bind ?_
  by_cases h274 : ts.length < 274
  · have hb3 : (UInt8.ofNat (ts.length - 19)).toNat = ts.length - 19 := by
      rw [UInt8.toNat_ofNat']
      omega
    simp only [if_neg (show ¬ ts.length > 273 by omega), hb3,
      Nat.sub_add_cancel (Nat.le_of_not_lt h19)]
    rw [if_neg (by omega)]
    exact Reads.pure _
  · have hle16 : ofLE (toLE 2 (ts.length - 274)) = ts.length - 274 := by
      rw [ofLE_toLE, Nat.mod_eq_of_lt]
      omega
    have hpop := Reads.popBytes ErrorCode.srcSize_tooSmall (toLE 2 (ts.length - 274))
    rw [length_toLE] at hpop
    simp only [if_pos (show ts.length > 273 by omega)]
    refine hpop.bind_pure ?_
    rw [hle16, Nat.sub_add_cancel (Nat.le_of_not_lt h274)]
    exact Reads.pure _

theorem decoderOutputTypes15_reads {t : OutputTokens} (h14 : ¬ v < 14) (h21 : v < CHUNK_VERSION_MIN)
    (ht : Tokens15 ts t) :
    Reads (decoderOutputTypes v t) (if ts.length > 5 then typeBitmap (ts.drop 5) else []) ts := by
  obtain ⟨hcount, ⟨k₁, hfirst⟩, hsecond⟩ := ht
  have htypes1 : tokenTypes t.token1 0 (min ts.length 3) = ts.take 3 := by
    have hlen : min ts.length 3 = (ts.take 3).length := by rw [List.length_take, Nat.min_comm]
    rw [hfirst, hlen]
    exact packToken_types (List.length_take_le _ _) _
  have htypes2 : (if ts.length > 3 then tokenTypes t.token2 0 (min ts.length 5 - 3) else []) =
      (ts.drop 3).take 2 := by
    split
    · rename_i h3
      obtain ⟨k₂, htoken⟩ := hsecond h3
      have hlen : min ts.length 5 - 3 = ((ts.drop 3).take 2).length := by
        rw [List.length_take, List.length_drop]
        omega
      rw [htoken, hlen]
      exact packToken_types (List.length_take_le _ _) _
    · rw [List.drop_of_length_le (by omega), List.take_nil]
  have hfive : ts.take 3 ++ (ts.drop 3).take 2 = ts.take 5 := (List.take_add (i := 3) (j := 2)).symm
  unfold decoderOutputTypes
  rw [if_neg h14, if_pos h21]
  simp only [hcount, htypes1, htypes2, hfive]
  split
  · have hbitmap := decodeTypeBitmap_reads (ts.drop 5)
    rw [List.length_drop] at hbitmap
    refine hbitmap.bind_pure ?_
    rw [List.take_append_drop]
    exact Reads.pure ts
  · rw [List.take_of_length_le (by omega)]
    exact Reads.pure ts

/-- **The number and the types of the inputs** are read back in every layout.  Versions 15 to 20
want four more bytes after the tokens, which the sizes always provide. -/
theorem decodeInputTypes_reads {types : List UInt8} (h : encodeInputTypes v ts = .ok types)
    (hpos : 1 ≤ ts.length) (hmax : ts.length ≤ ENCODER_INPUT_LIMIT) :
    ∃ (t : OutputTokens) (w₁ w₂ : List UInt8), t.nbOutputs = ts.length ∧
      ts.length ≤ runtimeInputLimit v ∧ types = w₁ ++ w₂ ∧
      (∀ rest, (v < CHUNK_VERSION_MIN → 4 ≤ rest.length) →
        decodeNbOutputs v (w₁ ++ rest) = .ok (t, rest)) ∧
      Reads (decoderOutputTypes v t) w₂ ts := by
  unfold encodeInputTypes at h
  by_cases h21 : v ≥ CHUNK_VERSION_MIN
  · rw [if_pos h21] at h
    cases h
    obtain ⟨t, w₁, w₂, hcount, hsplit, hreads, htypes⟩ := decodeInputTypes21_reads h21 hmax
    unfold CHUNK_VERSION_MIN at h21
    refine ⟨t, w₁, w₂, hcount, ?_, hsplit, fun rest _ => ?_, htypes⟩
    · rw [runtimeInputLimit, if_neg (by omega)]
      exact hmax
    · rw [decodeNbOutputs, if_neg (by omega), if_neg (by unfold CHUNK_VERSION_MIN; omega)]
      exact hreads rest
  rw [if_neg h21] at h
  by_cases h15 : v ≥ 15
  · rw [if_pos h15, encodeInputTypes15, if_neg (by omega)] at h
    cases h
    obtain ⟨t, ht, hreads⟩ := decodeOutputTokens15_reads hpos hmax
    refine ⟨t, _, _, ht.count, ?_, rfl, fun rest hrest => ?_,
      decoderOutputTypes15_reads (by omega) (by omega) ht⟩
    · rw [runtimeInputLimit, if_neg (by omega)]
      exact hmax
    · have hfour := hrest (by omega)
      have hlen : 1 ≤ (inputTokens15 ts).length := by
        simp [inputTokens15]
      rw [decodeNbOutputs, if_neg (by omega), if_pos (by omega), decodeNbOutputs15,
        run_bind_of_ok (run_avail _),
        run_bind_of_ok (run_failIf_of_not (by rw [List.length_append]; omega) _)]
      exact hreads rest
  rw [if_neg h15] at h
  split at h
  · cases h
  · rename_i hone
    obtain ⟨t, rfl⟩ : ∃ t, ts = [t] := List.length_eq_one_iff.1 (by omega)
    have hlimit : [t].length ≤ runtimeInputLimit v := by
      rw [runtimeInputLimit, if_pos (by omega)]
      simp
    split at h
    · rename_i hv14
      cases h
      have hbyte : (UInt8.ofNat (encodeType t)).toNat = encodeType t := by cases t <;> rfl
      refine ⟨⟨1, encodeType t, 0⟩, [UInt8.ofNat (encodeType t)], [], rfl, hlimit, rfl,
        fun rest _ => ?_, ?_⟩
      · rw [decodeNbOutputs, if_pos (by omega), if_pos hv14, List.singleton_append,
          run_bind_of_ok (run_popByte_cons _ _ _), hbyte]
        rfl
      · rw [decoderOutputTypes, if_neg (by omega), if_pos (by omega)]
        have htype : tokenTypes (encodeType t) 0 1 = [t] := by cases t <;> rfl
        simp only [Nat.min_eq_left (show 1 ≤ 3 by omega), htype]
        exact Reads.pure [t]
    · split at h
      · cases h
      · rename_i hv14 hserial
        cases h
        have ht : t = .serial := by
          cases t <;> simp [encodeType] at hserial ⊢
        refine ⟨⟨1, 0, 0⟩, [], [], rfl, hlimit, rfl, fun rest _ => ?_, ?_⟩
        · rw [decodeNbOutputs, if_pos (by omega), if_neg hv14]
          rfl
        · rw [decoderOutputTypes, if_pos (by omega), ht]
          exact Reads.pure _

/-! ## Sizes and comment -/

theorem writeVarints_ok : ∀ {nums : List Nat} {avail : Nat} {bytes : List UInt8},
    writeVarints avail nums = .ok bytes → bytes = nums.flatMap varintEncode
  | [], _, _, h => by
    cases h
    rfl
  | num :: nums, avail, bytes, h => by
    rw [writeVarints] at h
    split at h
    · cases h
    · simp only at h
      cases hrec : writeVarints (avail - (varintEncode num).length) nums with
      | error e =>
        rw [hrec] at h
        cases h
      | ok tail =>
        rw [hrec] at h
        cases h
        rw [writeVarints_ok hrec, List.flatMap_cons]

theorem varintEncode_head (hv : v ≠ 0) :
    ∃ b bs, varintEncode v = b :: bs ∧ b ≠ 0 := by
  rw [varintEncode, varintEncodeLoop]
  split
  · refine ⟨_, _, rfl, fun h0 => ?_⟩
    have h := toNat_continuation v
    rw [h0, UInt8.toNat_zero] at h
    omega
  · refine ⟨_, _, rfl, fun h0 => hv ?_⟩
    have h := toNat_last (n := v) (by omega)
    rw [h0] at h
    exact h.symm

theorem flatMap_strings (inDesc : List InputDesc) :
    ((inDesc.filter (·.type = .string)).map (·.numElts)).flatMap varintEncode =
      inDesc.flatMap fun d => if d.type = .string then varintEncode d.numElts else [] := by
  induction inDesc with
  | nil => rfl
  | cons d inDesc ih =>
    rw [List.filter_cons, List.flatMap_cons, ← ih]
    by_cases hd : d.type = .string
    · simp [hd]
    · simp [hd]

theorem decodeNumElts_reads {d : InputDesc} (hnum : d.numElts < 2 ^ 64) :
    Reads (decodeNumElts (d.type, d.byteSize))
      (if d.type = .string then varintEncode d.numElts else []) (decodedNumElts d) := by
  unfold decodeNumElts decodedNumElts
  cases hd : d.type with
  | string => exact varintDecode_reads hnum
  | serial => exact Reads.pure _
  | struct => exact Reads.pure _
  | numeric => exact Reads.pure _

theorem popSize21_reads {d : InputDesc} (hsize : d.byteSize < 2 ^ 64 - 1) :
    Reads popSize21 (varintEncode ((d.byteSize + 1) % 2 ^ 64)) d.byteSize := by
  rw [Nat.mod_eq_of_lt (by omega)]
  refine (varintDecode_reads (by omega)).bind_pure ?_
  exact (Reads.failIf (by omega)).bind_nil (Reads.pure _)

theorem decodeOutputSizes21_reads {inDesc : List InputDesc} {avail : Nat} {sizes : List UInt8}
    (h : writeVarints avail (sizeNumbers21 inDesc) = .ok sizes) (hpos : 1 ≤ inDesc.length)
    (hsize : ∀ d ∈ inDesc, d.byteSize < 2 ^ 64 - 1) (hnum : ∀ d ∈ inDesc, d.numElts < 2 ^ 64) :
    Reads (decodeOutputSizes21 (inDesc.map (·.type))) sizes
      (inDesc.map (·.byteSize), some (inDesc.map decodedNumElts)) := by
  have hsizes := writeVarints_ok h
  rw [sizeNumbers21, List.flatMap_append, flatMap_strings, List.flatMap_map] at hsizes
  subst hsizes
  have hread : Reads (Parser.many (inDesc.map (·.type)).length popSize21)
      (inDesc.flatMap fun d => varintEncode ((d.byteSize + 1) % 2 ^ 64))
      (inDesc.map (·.byteSize)) := by
    rw [List.length_map]
    exact Reads.many fun d hd => popSize21_reads (hsize d hd)
  have hcounts : Reads (((inDesc.map (·.type)).zip (inDesc.map (·.byteSize))).mapM decodeNumElts)
      (inDesc.flatMap fun d => if d.type = .string then varintEncode d.numElts else [])
      (inDesc.map decodedNumElts) := by
    rw [List.zip_map']
    exact Reads.mapM (g := fun d : InputDesc => (d.type, d.byteSize)) fun d hd =>
      decodeNumElts_reads (hnum d hd)
  have htail := hcounts.bind_pure (f := fun numElts => pure (inDesc.map (·.byteSize), some numElts))
    (Reads.pure _)
  have hall := hread.bind (f := fun dSizes => do
    let numElts ← ((inDesc.map (·.type)).zip dSizes).mapM decodeNumElts
    return (dSizes, some numElts)) htail
  -- the first byte is looked at twice
  intro rest
  obtain ⟨d, ds, hd⟩ : ∃ d ds, inDesc = d :: ds := List.exists_cons_of_length_pos hpos
  have hfirst := hsize d (by rw [hd]; simp)
  obtain ⟨b, bs, hb, hb0⟩ := varintEncode_head (v := (d.byteSize + 1) % 2 ^ 64)
    (by rw [Nat.mod_eq_of_lt (by omega)]; omega)
  have hcheck : checkFirstSize (((inDesc.flatMap fun d =>
      varintEncode ((d.byteSize + 1) % 2 ^ 64)) ++ inDesc.flatMap fun d =>
        if d.type = .string then varintEncode d.numElts else []) ++ rest) =
      .ok ((), ((inDesc.flatMap fun d =>
      varintEncode ((d.byteSize + 1) % 2 ^ 64)) ++ inDesc.flatMap fun d =>
        if d.type = .string then varintEncode d.numElts else []) ++ rest) := by
    rw [hd, List.flatMap_cons, hb]
    exact checkFirstSize_of hb0 _
  rw [decodeOutputSizes21, run_bind_of_ok hcheck]
  exact hall rest

theorem decodeOutputSizes20_reads {inDesc : List InputDesc} {avail : Nat} {sizes : List UInt8}
    (h : encodeInputSizes20 avail inDesc = .ok sizes) :
    Reads (decodeOutputSizes20 inDesc.length) sizes (inDesc.map (·.byteSize), none) ∧
      sizes.length = 4 * inDesc.length := by
  unfold encodeInputSizes20 at h
  split at h
  · cases h
  · split at h
    · cases h
    · rename_i hfit
      cases h
      have hlt : ∀ d ∈ inDesc, d.byteSize < UINT32_MAX := by
        intro d hd
        by_contra hge
        exact hfit (List.any_eq_true.2 ⟨d, hd, by simpa using hge⟩)
      have hlen : (inDesc.flatMap fun d => toLE 4 d.byteSize).length = 4 * inDesc.length := by
        rw [List.length_flatMap]
        simp [Nat.mul_comm]
      have hreads : Reads (Parser.many inDesc.length popLE32)
          (inDesc.flatMap fun d => toLE 4 d.byteSize) (inDesc.map (·.byteSize)) := by
        refine Reads.many fun d hd => ?_
        have hpop := Reads.popBytes ErrorCode.srcSize_tooSmall (toLE 4 d.byteSize)
        rw [length_toLE] at hpop
        refine hpop.bind_pure ?_
        have hd32 := hlt d hd
        unfold UINT32_MAX at hd32
        rw [ofLE_toLE, Nat.mod_eq_of_lt (by norm_num; omega)]
        exact Reads.pure _
      exact ⟨Reads.availCheck (hreads.bind_pure (Reads.pure _)) (by rw [hlen]), hlen⟩

/-- **The sizes** are read back, and from version 21 on the counts of strings.  They take at
least four bytes before that version. -/
theorem decodeOutputSizes_reads {v avail : Nat} {fip : EFHFrameInfo} {sizes : List UInt8}
    (h : encodeInputSizes v avail fip.inputDescs = .ok sizes) (hwf : FrameWellFormed v fip) :
    Reads (decodeOutputSizes v fip.types) sizes
        (fip.inputDescs.map (·.byteSize),
          if v < CHUNK_VERSION_MIN then none else some (fip.inputDescs.map decodedNumElts)) ∧
      (v < CHUNK_VERSION_MIN → 4 ≤ sizes.length) := by
  have hpos : 1 ≤ fip.inputDescs.length := hwf.inputs_pos
  unfold encodeInputSizes at h
  unfold decodeOutputSizes
  by_cases hv : v < CHUNK_VERSION_MIN
  · rw [if_pos (by unfold CHUNK_VERSION_MIN at hv; omega)] at h
    obtain ⟨hreads, hlen⟩ := decodeOutputSizes20_reads h
    rw [if_pos hv, if_pos hv, EFHFrameInfo.types, List.length_map]
    exact ⟨hreads, fun _ => by omega⟩
  · rw [if_neg (by unfold CHUNK_VERSION_MIN at hv; omega)] at h
    rw [if_neg hv, if_neg hv]
    exact ⟨decodeOutputSizes21_reads h hpos hwf.byteSize_lt hwf.numElts_lt, fun hlt => absurd hlt hv⟩

theorem decodeComment_reads {fip : EFHFrameInfo} {comment : List UInt8}
    (h : encodeComment v fip = .ok comment) (hwf : FrameWellFormed v fip) :
    Reads (decodeComment v (frameProperties v fip.fprop)) comment
      (if v ≥ COMMENT_VERSION_MIN ∧ fip.fprop.hasComment then fip.comment else []) := by
  have hflag : (v ≥ COMMENT_VERSION_MIN ∧ (frameProperties v fip.fprop).hasComment = true) ↔
      (v ≥ COMMENT_VERSION_MIN ∧ fip.fprop.hasComment = true) := by
    refine and_congr_right fun hv => ?_
    have hchunk : v ≥ CHUNK_VERSION_MIN := le_trans (by decide) hv
    simp [frameProperties, hchunk, hv]
  unfold encodeComment at h
  unfold decodeComment
  by_cases hc : v ≥ COMMENT_VERSION_MIN ∧ fip.fprop.hasComment = true
  · rw [if_pos hc] at h ⊢
    rw [if_pos (hflag.2 hc)]
    split at h
    · cases h
    · rename_i hle
      cases h
      have hne := hwf.comment_ne hc.1 hc.2
      have hlen : fip.comment.length ≠ 0 := fun h0 => hne (List.length_eq_zero_iff.1 h0)
      unfold MAX_HEADER_COMMENT_SIZE_LIMIT at hle
      refine (varintDecode_reads (by omega)).bind ?_
      refine (Reads.failIf hlen).bind_nil ((Reads.failIf ?_).bind_nil (Reads.popBytes _ _))
      unfold MAX_HEADER_COMMENT_SIZE_LIMIT
      exact hle
  · rw [if_neg hc] at h ⊢
    rw [if_neg (hflag.not.2 hc)]
    cases h
    exact Reads.pure _

/-! ## The whole header -/

theorem checkHeaderChecksum_reads (xxh3 : List UInt8 → Nat) {fprop : FrameProperties}
    {zfi : FrameInfo} (hv : zfi.formatVersion = v) (hp : zfi.properties = frameProperties v fprop)
    (out : List UInt8) :
    Reads (checkHeaderChecksum xxh3 zfi out) (headerChecksum xxh3 v fprop out) () := by
  unfold checkHeaderChecksum headerChecksum
  rw [hv, hp]
  by_cases hchunk : v ≥ CHUNK_VERSION_MIN
  · have hflag : (frameProperties v fprop).hasCompressedChecksum = fprop.hasCompressedChecksum := by
      simp [frameProperties, hchunk]
    rw [hflag]
    split
    · refine (Reads.popByte _ _).bind_pure (Reads.failIf ?_)
      have hbyte : xxh3 out &&& 255 < 256 := by
        have h := Nat.and_two_pow_sub_one_eq_mod (xxh3 out) 8
        norm_num at h
        omega
      rw [UInt8.toNat_ofNat', Nat.mod_eq_of_lt hbyte]
      exact not_not.2 rfl
    · exact Reads.pure _
  · rw [if_neg fun h => hchunk h.1, if_neg fun h => hchunk h.1]
    exact Reads.pure _

theorem getFormatVersionFromFrame_written (hv : isFormatVersionSupported v) (rest : List UInt8) :
    getFormatVersionFromFrame (toLE 4 (getMagicNumber v) ++ rest) = .ok v := by
  have hmax := hv.2
  unfold MAX_FORMAT_VERSION at hmax
  have hlen := length_toLE 4 (getMagicNumber v)
  have hmagic : getMagicNumber v % 256 ^ 4 = getMagicNumber v := by
    apply Nat.mod_eq_of_lt
    unfold getMagicNumber MAGIC_NUMBER_BASE
    omega
  rw [getFormatVersionFromFrame, if_neg (by simp), List.take_append_of_le_length (by omega),
    List.take_of_length_le (by omega), ofLE_toLE, hmagic,
    getFormatVersionFromMagic_getMagicNumber hv]

theorem decodeFrameFields_reads {v avail : Nat} {fip : EFHFrameInfo}
    {bundle types sizes comment : List UInt8} (hwf : FrameWellFormed v fip)
    (hmax : fip.numInputs ≤ ENCODER_INPUT_LIMIT)
    (hbundle : encodeBundleID v fip = .ok bundle) (htypes : encodeInputTypes v fip.types = .ok types)
    (hsizes : encodeInputSizes v avail fip.inputDescs = .ok sizes)
    (hcomment : encodeComment v fip = .ok comment) {rest : List UInt8} :
    decodeFrameFields v
        ((encodeFrameFlags v fip.fprop ++ (bundle ++ (types ++ (sizes ++ comment)))) ++ rest) =
      .ok ({ decodedFrameInfo v fip 0 with frameHeaderSize := 0 }, rest) := by
  have hlen : fip.types.length = fip.numInputs := List.length_map _
  have hpos := hwf.inputs_pos
  obtain ⟨t, w₁, w₂, hcount, hlimit, rfl, hnb, hts⟩ :=
    decodeInputTypes_reads htypes (by omega) (by omega)
  obtain ⟨hsz, hfour⟩ := decodeOutputSizes_reads hsizes hwf
  have hrest : v < CHUNK_VERSION_MIN → 4 ≤ (w₂ ++ (sizes ++ (comment ++ rest))).length := by
    intro h21
    have := hfour h21
    simp only [List.length_append]
    omega
  simp only [List.append_assoc]
  rw [decodeFrameFields, run_bind_of_ok (decodeFrameFlags_reads v fip.fprop _),
    run_bind_of_ok (decodeBundleID_reads hbundle _), run_bind_of_ok (hnb _ hrest),
    run_bind_of_ok (run_failIf_of_not (by omega) _),
    run_bind_of_ok (run_failIf_of_not (by omega) _), run_bind_of_ok (hts _),
    run_bind_of_ok (hsz _)]
  simp only
  rw [run_bind_of_ok (decodeComment_reads hcomment hwf _), run_pure]
  simp [decodedFrameInfo]

theorem decodeFrameHeader_written {xxh3 : List UInt8 → Nat} {v dstCapacity : Nat}
    {fip : EFHFrameInfo} {out : List UInt8} (hv : isFormatVersionSupported v)
    (hw : writeFrameHeader xxh3 v dstCapacity fip = .ok out) (hwf : FrameWellFormed v fip)
    (rest : List UInt8) :
    decodeFrameHeader xxh3 (out ++ rest) = .ok (decodedFrameInfo v fip out.length, rest) := by
  obtain ⟨hmax, bundle, types, avail, sizes, comment, hbundle, htypes, hsizes, hcomment, hout⟩ :=
    writeFrameHeader_ok hw
  have hfields := @decodeFrameFields_reads v avail fip bundle types sizes comment hwf hmax hbundle
    htypes hsizes hcomment
  generalize encodeFrameFlags v fip.fprop ++ (bundle ++ (types ++ (sizes ++ comment))) = body
    at hout hfields
  set start := toLE 4 (getMagicNumber v) ++ body with hstart
  have hmagic := length_toLE 4 (getMagicNumber v)
  have hsrc : out ++ rest = toLE 4 (getMagicNumber v) ++
      (body ++ (headerChecksum xxh3 v fip.fprop start ++ rest)) := by
    rw [hout, hstart]
    simp only [List.append_assoc]
  have hversion : getFormatVersionFromFrame (out ++ rest) = .ok v := by
    rw [hsrc]
    exact getFormatVersionFromFrame_written hv _
  have hdrop : (out ++ rest).drop 4 = body ++ (headerChecksum xxh3 v fip.fprop start ++ rest) := by
    rw [hsrc, List.drop_append_of_le_length (by omega), List.drop_of_length_le (by omega),
      List.nil_append]
  have htake : (out ++ rest).take ((out ++ rest).length -
      (headerChecksum xxh3 v fip.fprop start ++ rest).length) = start := by
    rw [hout, List.append_assoc, List.length_append, Nat.add_sub_cancel, List.take_left]
  have hread := @hfields (headerChecksum xxh3 v fip.fprop start ++ rest)
  rw [← hdrop] at hread
  have hcheck : checkHeaderChecksum xxh3 { decodedFrameInfo v fip 0 with frameHeaderSize := 0 } start
      (headerChecksum xxh3 v fip.fprop start ++ rest) = .ok ((), rest) :=
    checkHeaderChecksum_reads xxh3 rfl rfl start rest
  rw [decodeFrameHeader_of hversion hread htake hcheck, List.length_append, Nat.add_sub_cancel]
  rfl

/-- **Frame header round trip**: the outputs with their types and sizes, the comment and the
bundle ID, the counts of strings and the flags a version carries. -/
theorem frameHeader_roundtrip {xxh3 : List UInt8 → Nat} {v dstCapacity : Nat}
    {fip : EFHFrameInfo} {out : List UInt8} (hv : isFormatVersionSupported v)
    (hw : writeFrameHeader xxh3 v dstCapacity fip = .ok out) (hwf : FrameWellFormed v fip)
    (rest : List UInt8) :
    ∃ zfi, decodeFrameHeader xxh3 (out ++ rest) = .ok (zfi, rest) ∧
      zfi.nbOutputs = fip.numInputs ∧ zfi.types = fip.types ∧
      zfi.decompressedSizes = fip.inputDescs.map (·.byteSize) ∧
      (v ≥ CHUNK_VERSION_MIN → ∃ numElts, zfi.numElts = some numElts ∧
        numElts.length = fip.numInputs ∧
        ∀ (i : Nat) (d : InputDesc), fip.inputDescs[i]? = some d → d.type = .string →
          numElts[i]? = some d.numElts) ∧
      zfi.comment = (if v ≥ COMMENT_VERSION_MIN ∧ fip.fprop.hasComment = true then fip.comment
        else []) ∧
      zfi.bundleID = (if v ≥ MATERIALIZED_DICT_VERSION_MIN ∧ fip.fprop.hasBundleID = true then
        fip.bundleID else UniqueID.zero) ∧
      (v ≥ CHUNK_VERSION_MIN →
        zfi.properties.hasContentChecksum = fip.fprop.hasContentChecksum ∧
        zfi.properties.hasCompressedChecksum = fip.fprop.hasCompressedChecksum ∧
        (zfi.properties.hasComment = true ↔
          v ≥ COMMENT_VERSION_MIN ∧ fip.fprop.hasComment = true) ∧
        (zfi.properties.hasBundleID = true ↔
          v ≥ MATERIALIZED_DICT_VERSION_MIN ∧ fip.fprop.hasBundleID = true)) := by
  refine ⟨_, decodeFrameHeader_written hv hw hwf rest, List.length_map _, rfl, rfl, ?_, rfl, rfl,
    ?_⟩
  · intro hchunk
    refine ⟨_, if_neg (Nat.not_lt.2 hchunk), List.length_map _, ?_⟩
    intro i d hd hstring
    simp [List.getElem?_map, hd, decodedNumElts, hstring]
  · intro hchunk
    simp [decodedFrameInfo, frameProperties, hchunk]

/-! ## Headers of three inputs and of one -/

/-- Three inputs, a comment, a bundle ID and both checksums. -/
def threeInputs : EFHFrameInfo where
  fprop := ⟨true, true, true, true⟩
  inputDescs := [⟨.string, 300, 7⟩, ⟨.numeric, 16, 4⟩, ⟨.struct, 6, 2⟩]
  comment := [104, 105]
  bundleID := UniqueID.ofSignificant [5, 0, 9]

theorem threeInputs_wellFormed : FrameWellFormed 25 threeInputs where
  inputs_pos := by decide
  byteSize_lt := by decide
  numElts_lt := by decide
  comment_ne := by decide

theorem threeInputs_written : writeFrameHeader List.length 25 1000 threeInputs =
    .ok [217, 165, 177, 215, 15, 3, 5, 0, 9, 179, 1, 173, 2, 17, 7, 7, 2, 104, 105, 19] := by
  decide

theorem frameHeader_roundtrip_threeInputs :
    ∃ zfi, decodeFrameHeader List.length
        ([217, 165, 177, 215, 15, 3, 5, 0, 9, 179, 1, 173, 2, 17, 7, 7, 2, 104, 105, 19] ++ [1, 2])
          = .ok (zfi, [1, 2]) ∧
      zfi.nbOutputs = 3 ∧ zfi.types = [.string, .numeric, .struct] ∧
      zfi.decompressedSizes = [300, 16, 6] ∧
      (∃ numElts, zfi.numElts = some numElts ∧ numElts[0]? = some 7) ∧
      zfi.comment = [104, 105] ∧ zfi.bundleID = UniqueID.ofSignificant [5, 0, 9] ∧
      zfi.properties.hasContentChecksum = true := by
  obtain ⟨zfi, hdec, hn, htypes, hsizes, hcounts, hcomment, hbundle, hflags⟩ :=
    frameHeader_roundtrip (by decide) threeInputs_written threeInputs_wellFormed [1, 2]
  obtain ⟨numElts, hsome, -, hget⟩ := hcounts (by decide)
  exact ⟨zfi, hdec, hn, htypes, hsizes, ⟨numElts, hsome, hget 0 ⟨.string, 300, 7⟩ rfl rfl⟩,
    hcomment, hbundle, (hflags (by decide)).1⟩

/-- One input of strings. -/
def oneStringInput (numElts : Nat) : EFHFrameInfo where
  fprop := ⟨false, false, false, false⟩
  inputDescs := [⟨.string, 12, numElts⟩]
  comment := []
  bundleID := UniqueID.zero

theorem oneStringInput_wellFormed {numElts : Nat} (h : numElts < 2 ^ 64) :
    FrameWellFormed 20 (oneStringInput numElts) where
  inputs_pos := Nat.le_refl 1
  byteSize_lt := by simp [oneStringInput]
  numElts_lt := by simpa [oneStringInput] using h
  comment_ne := fun hv => absurd hv (by decide)

theorem threeStrings_written : writeFrameHeader List.length 20 100 (oneStringInput 3) =
    .ok [212, 165, 177, 215, 3, 12, 0, 0, 0] := by
  decide

/-- Before version 21 the header says nothing about the number of strings: two inputs that differ
only there have the same header, and the decoder leaves the count unset. -/
theorem frameHeader_stringCount_lost :
    FrameWellFormed 20 (oneStringInput 3) ∧ FrameWellFormed 20 (oneStringInput 5) ∧
      writeFrameHeader List.length 20 100 (oneStringInput 3) =
        .ok [212, 165, 177, 215, 3, 12, 0, 0, 0] ∧
      writeFrameHeader List.length 20 100 (oneStringInput 5) =
        .ok [212, 165, 177, 215, 3, 12, 0, 0, 0] ∧
      ∃ zfi, decodeFrameHeader List.length [212, 165, 177, 215, 3, 12, 0, 0, 0] = .ok (zfi, []) ∧
        zfi.numElts = none :=
  ⟨oneStringInput_wellFormed (by decide), oneStringInput_wellFormed (by decide),
    threeStrings_written, by decide, _,
    decodeFrameHeader_written (by decide) threeStrings_written
      (oneStringInput_wellFormed (by decide)) [], rfl⟩

end OpenZL.Wire
