import OpenZL.Compress.EncodeChunkHeader

/-!
# Writing a frame header (`encode_frameheader.c`)

`writeFrameHeader_internal`: magic number, properties, optional bundle ID, number and types of
the inputs in one of four version-dependent layouts, sizes, optional comment, and one byte of
checksum.  `XXH3_64bits` is a parameter.

Principal results: `writeFrameHeader_ok`, `typeWords_take`.
-/

namespace OpenZL.Compress

open OpenZL.Lib OpenZL.Shared

/-- `InputDesc`. -/
structure InputDesc where
  type : DataType
  byteSize : Nat
  numElts : Nat
  deriving DecidableEq, Repr

/-- `EFH_FrameInfo`. -/
structure EFHFrameInfo where
  fprop : FrameProperties
  inputDescs : List InputDesc
  comment : List UInt8
  bundleID : UniqueID
  deriving DecidableEq, Repr

namespace EFHFrameInfo

def numInputs (fip : EFHFrameInfo) : Nat := fip.inputDescs.length
def types (fip : EFHFrameInfo) : List DataType := fip.inputDescs.map (·.type)

end EFHFrameInfo

/-- `encodeType`. -/
def encodeType : DataType → Nat
  | .serial => 0
  | .struct => 1
  | .numeric => 2
  | .string => 3

/-- The loops `token |= encodeType(type) << shift`, two bits at a time. -/
def packTypes : Nat → List DataType → Nat → Nat
  | _, [], acc => acc
  | shift, t :: ts, acc => packTypes (shift + 2) ts (acc ||| encodeType t <<< shift)

/-- The loops that write types by words of 32, little endian; at most `n` words. -/
def typeWords : Nat → List DataType → List UInt8
  | 0, _ => []
  | n + 1, ts =>
    if ts.length = 0 then []
    else toLE 8 (packTypes 0 (ts.take 32) 0) ++ typeWords n (ts.drop 32)

/-- A bitmap of types: whole words are written, but only the bytes needed are kept. -/
def typeBitmap (ts : List DataType) : List UInt8 :=
  (typeWords ts.length ts).take ((ts.length + 3) / 4)

/-- Version 21 and later: the count is in one token below 15 inputs, in two above. -/
def encodeInputTypes21 (ts : List DataType) : List UInt8 :=
  if ts.length < 15 then
    UInt8.ofNat (packTypes 4 (ts.take 2) ts.length) :: typeBitmap (ts.drop 2)
  else
    UInt8.ofNat (((ts.length - 15) <<< 4) % 256 ||| 15) ::
      UInt8.ofNat ((ts.length - 15) >>> 4) :: typeBitmap ts

/-- The one to four tokens of versions 15 to 20: the count, with the five first types. -/
def inputTokens15 (ts : List DataType) : List UInt8 :=
  let n := ts.length
  let token1 := [UInt8.ofNat (packTypes 0 (ts.take 3) ((if n < 4 then n - 1 else 3) <<< 6))]
  let token2 := if n > 3 then
    [UInt8.ofNat (packTypes 0 ((ts.drop 3).take 2) ((if n < 19 then n - 4 else 15) <<< 4))] else []
  let token3 := if n > 18 then [UInt8.ofNat (if n > 273 then 255 else n - 19)] else []
  let token4 := if n > 273 then toLE 2 (n - 274) else []
  token1 ++ (token2 ++ (token3 ++ token4))

/-- Versions 15 to 20: the tokens, then the types from the sixth on. -/
def encodeInputTypes15 (ts : List DataType) : Except ErrorCode (List UInt8) :=
  if ts.length > 273 ∧ ts.length > ENCODER_INPUT_LIMIT then .error .userBuffers_invalidNum
  else .ok (inputTokens15 ts ++ if ts.length > 5 then typeBitmap (ts.drop 5) else [])

/-- The part of `writeFrameHeader_internal` about inputs. -/
def encodeInputTypes (formatVersion : Nat) (ts : List DataType) : Except ErrorCode (List UInt8) :=
  if formatVersion ≥ CHUNK_VERSION_MIN then .ok (encodeInputTypes21 ts)
  else if formatVersion ≥ 15 then encodeInputTypes15 ts
  else if ts.length > 1 then .error .graph_invalidNumInputs
  else if formatVersion = 14 then .ok (ts.map fun t => UInt8.ofNat (encodeType t))
  else if ts.any (encodeType · ≠ 0) then .error .streamType_incorrect
  else .ok []

/-- `EFH_encodeInputSizes_v20`, with `avail` bytes left in the destination. -/
def encodeInputSizes20 (avail : Nat) (inDesc : List InputDesc) : Except ErrorCode (List UInt8) :=
  if avail < inDesc.length * 4 then .error .dstCapacity_tooSmall
  else if inDesc.any (·.byteSize ≥ UINT32_MAX) then .error .srcSize_tooLarge
  else .ok (inDesc.flatMap fun d => toLE 4 d.byteSize)

/-- `EFH_writeVarint` for each number in turn: ten bytes must be available every time. -/
def writeVarints : Nat → List Nat → Except ErrorCode (List UInt8)
  | _, [] => .ok []
  | avail, num :: nums =>
    if avail < 10 then .error .dstCapacity_tooSmall
    else
      let bytes := varintEncode num
      (writeVarints (avail - bytes.length) nums).map (bytes ++ ·)

/-- The numbers written by `EFH_encodeInputSizes_v21`: sizes plus one, then counts of strings. -/
def sizeNumbers21 (inDesc : List InputDesc) : List Nat :=
  inDesc.map (fun d => (d.byteSize + 1) % 2 ^ 64) ++
    (inDesc.filter (·.type = .string)).map (·.numElts)

/-- `EFH_encodeInputSizes`. -/
def encodeInputSizes (formatVersion avail : Nat) (inDesc : List InputDesc) :
    Except ErrorCode (List UInt8) :=
  if formatVersion ≤ 20 then encodeInputSizes20 avail inDesc
  else writeVarints avail (sizeNumbers21 inDesc)

/-- The properties byte of version 21 and later. -/
def encodeFrameFlags (formatVersion : Nat) (fprop : FrameProperties) : List UInt8 :=
  if formatVersion ≥ CHUNK_VERSION_MIN then
    [UInt8.ofNat ((if fprop.hasContentChecksum then 1 else 0) |||
      (if fprop.hasCompressedChecksum then 2 else 0) |||
      (if formatVersion ≥ COMMENT_VERSION_MIN ∧ fprop.hasComment then 4 else 0) |||
      (if formatVersion ≥ MATERIALIZED_DICT_VERSION_MIN ∧ fprop.hasBundleID then 8 else 0))]
  else []

/-- The bundle ID: its significant bytes behind their number. -/
def encodeBundleID (formatVersion : Nat) (fip : EFHFrameInfo) : Except ErrorCode (List UInt8) :=
  if formatVersion ≥ MATERIALIZED_DICT_VERSION_MIN ∧ fip.fprop.hasBundleID then
    let sigBytes := fip.bundleID.significantBytes
    if sigBytes = 0 then .error .nodeParameter_invalid
    else .ok (UInt8.ofNat sigBytes :: fip.bundleID.bytes.take sigBytes)
  else .ok []

/-- The comment field. -/
def encodeComment (formatVersion : Nat) (fip : EFHFrameInfo) : Except ErrorCode (List UInt8) :=
  if formatVersion ≥ COMMENT_VERSION_MIN ∧ fip.fprop.hasComment then
    if fip.comment.length > MAX_HEADER_COMMENT_SIZE_LIMIT then .error .graph_invalid
    else .ok (varintEncode fip.comment.length ++ fip.comment)
  else .ok []

/-- The bound checked against the destination's capacity. -/
def frameHeaderBound (formatVersion : Nat) (fip : EFHFrameInfo) : Except ErrorCode Nat := do
  let hsBound ← computeFHBound fip.numInputs 0 0 0
  return hsBound + (if fip.comment.length ≠ 0 then 4 + fip.comment.length else 0) +
    (if formatVersion ≥ MATERIALIZED_DICT_VERSION_MIN ∧ fip.fprop.hasBundleID then
      1 + UNIQUE_ID_SIZE else 0)

/-- One byte of `XXH3_64bits` over everything written so far. -/
def headerChecksum (xxh3 : List UInt8 → Nat) (formatVersion : Nat) (fprop : FrameProperties)
    (out : List UInt8) : List UInt8 :=
  if formatVersion ≥ CHUNK_VERSION_MIN ∧ fprop.hasCompressedChecksum then
    [UInt8.ofNat (xxh3 out &&& 255)]
  else []

/-- `writeFrameHeader_internal`. -/
def writeFrameHeader (xxh3 : List UInt8 → Nat) (formatVersion dstCapacity : Nat)
    (fip : EFHFrameInfo) : Except ErrorCode (List UInt8) := do
  let hsBound ← frameHeaderBound formatVersion fip
  failWhen (dstCapacity < hsBound) .dstCapacity_tooSmall
  let bundle ← encodeBundleID formatVersion fip
  let types ← encodeInputTypes formatVersion fip.types
  let start := toLE 4 (getMagicNumber formatVersion) ++
    (encodeFrameFlags formatVersion fip.fprop ++ (bundle ++ types))
  let sizes ← encodeInputSizes formatVersion (dstCapacity - start.length) fip.inputDescs
  let comment ← encodeComment formatVersion fip
  let out := toLE 4 (getMagicNumber formatVersion) ++
    (encodeFrameFlags formatVersion fip.fprop ++ (bundle ++ (types ++ (sizes ++ comment))))
  return out ++ headerChecksum xxh3 formatVersion fip.fprop out

theorem computeFHBound_ok {numInputs nbTransforms nbBuffs nbRegens bound : Nat}
    (h : computeFHBound numInputs nbTransforms nbBuffs nbRegens = .ok bound) :
    numInputs ≤ ENCODER_INPUT_LIMIT := by
  unfold computeFHBound at h
  split at h
  · cases h
  · omega

theorem writeFrameHeader_ok {xxh3 : List UInt8 → Nat} {v dstCapacity : Nat} {fip : EFHFrameInfo}
    {out : List UInt8} (h : writeFrameHeader xxh3 v dstCapacity fip = .ok out) :
    fip.numInputs ≤ ENCODER_INPUT_LIMIT ∧ ∃ bundle types avail sizes comment,
      encodeBundleID v fip = .ok bundle ∧ encodeInputTypes v fip.types = .ok types ∧
      encodeInputSizes v avail fip.inputDescs = .ok sizes ∧ encodeComment v fip = .ok comment ∧
      out = (toLE 4 (getMagicNumber v) ++ (encodeFrameFlags v fip.fprop ++
        (bundle ++ (types ++ (sizes ++ comment))))) ++ headerChecksum xxh3 v fip.fprop
          (toLE 4 (getMagicNumber v) ++ (encodeFrameFlags v fip.fprop ++
            (bundle ++ (types ++ (sizes ++ comment))))) := by
  unfold writeFrameHeader frameHeaderBound at h
  obtain ⟨hsBound, hbound, h⟩ := bind_eq_ok.1 h
  obtain ⟨bound, hb, -⟩ := bind_eq_ok.1 hbound
  obtain ⟨-, -, h⟩ := bind_eq_ok.1 h
  obtain ⟨bundle, hbundle, h⟩ := bind_eq_ok.1 h
  obtain ⟨types, htypes, h⟩ := bind_eq_ok.1 h
  obtain ⟨sizes, hsizes, h⟩ := bind_eq_ok.1 h
  obtain ⟨comment, hcomment, h⟩ := bind_eq_ok.1 h
  exact ⟨computeFHBound_ok hb, bundle, types, _, sizes, comment, hbundle, htypes, hsizes,
    hcomment, (pure_eq_ok.1 h).symm⟩

theorem encodeType_lt (t : DataType) : encodeType t < 2 ^ 2 := by
  cases t <;> decide

/-- The types as one number, two bits each. -/
def typesNumber (ts : List DataType) : Nat := Nat.ofDigits (2 ^ 2) (ts.map encodeType)

theorem typesNumber_lt (ts : List DataType) : typesNumber ts < 2 ^ (2 * ts.length) := by
  have h := Nat.ofDigits_lt_base_pow_length (b := 2 ^ 2) (l := ts.map encodeType) (by norm_num)
    (by
      intro x hx
      obtain ⟨t, -, rfl⟩ := List.mem_map.1 hx
      exact encodeType_lt t)
  rwa [List.length_map, ← Nat.pow_mul] at h

theorem packTypes_eq : ∀ (ts : List DataType) (shift acc : Nat),
    packTypes shift ts acc = acc ||| typesNumber ts <<< shift
  | [], shift, acc => by simp [packTypes, typesNumber]
  | t :: ts, shift, acc => by
    have hcons : typesNumber (t :: ts) = encodeType t ||| typesNumber ts <<< 2 := by
      rw [or_shiftLeft (encodeType_lt t), typesNumber, List.map_cons, Nat.ofDigits_cons]
      rfl
    rw [packTypes, packTypes_eq ts, hcons, Nat.shiftLeft_or_distrib, ← Nat.or_assoc,
      ← Nat.shiftLeft_add, Nat.add_comm shift 2]

theorem packTypes_zero (ts : List DataType) : packTypes 0 ts 0 = typesNumber ts := by
  simp [packTypes_eq]

theorem typesNumber_append (as bs : List DataType) :
    typesNumber (as ++ bs) = typesNumber as + 2 ^ (2 * as.length) * typesNumber bs := by
  rw [typesNumber, List.map_append, Nat.ofDigits_append, List.length_map, ← Nat.pow_mul]
  rfl

theorem typeWords_take : ∀ (n : Nat) (ts : List DataType), ts.length ≤ 32 * n →
    (typeWords n ts).take ((ts.length + 3) / 4) = toLE ((ts.length + 3) / 4) (typesNumber ts)
  | 0, ts, h => by
    have hnil : ts = [] := List.length_eq_zero_iff.1 (by omega)
    simp [hnil, typeWords, toLE]
  | n + 1, ts, h => by
    rw [typeWords]
    split
    · rename_i h0
      simp [h0, toLE]
    · rw [packTypes_zero]
      by_cases hle : ts.length ≤ 32
      · have htake : ts.take 32 = ts := List.take_of_length_le hle
        have hbytes : 8 = (ts.length + 3) / 4 + (8 - (ts.length + 3) / 4) := by omega
        rw [htake]
        conv_lhs => rw [hbytes, toLE_add]
        rw [List.append_assoc, List.take_append_of_le_length (by rw [length_toLE]),
          List.take_of_length_le (by rw [length_toLE])]
      · have hlen : (ts.take 32).length = 32 := by
          rw [List.length_take]
          omega
        have hrest : (ts.drop 32).length = ts.length - 32 := List.length_drop
        have hcount : (ts.length + 3) / 4 = 8 + ((ts.drop 32).length + 3) / 4 := by
          rw [hrest]
          omega
        have hnum : typesNumber ts =
            typesNumber (ts.take 32) + 256 ^ 8 * typesNumber (ts.drop 32) := by
          conv_lhs => rw [← List.take_append_drop 32 ts, typesNumber_append, hlen]
          norm_num
        have hlt : typesNumber (ts.take 32) < 256 ^ 8 := by
          have := typesNumber_lt (ts.take 32)
          rw [hlen] at this
          norm_num at this ⊢
          exact this
        have hlow : toLE 8 (typesNumber ts) = toLE 8 (typesNumber (ts.take 32)) := by
          rw [hnum, ← toLE_mod, Nat.add_mul_mod_self_left, toLE_mod]
        have hhigh : typesNumber ts / 256 ^ 8 = typesNumber (ts.drop 32) := by
          rw [hnum, Nat.add_mul_div_left _ _ (by positivity), Nat.div_eq_of_lt hlt, Nat.zero_add]
        rw [hcount, toLE_add, hlow, hhigh, ← typeWords_take n (ts.drop 32) (by omega)]
        have hl8 := length_toLE 8 (typesNumber (ts.take 32))
        rw [List.take_append, hl8, List.take_of_length_le (by rw [hl8]; omega),
          Nat.add_sub_cancel_left]

theorem typeBitmap_eq (ts : List DataType) :
    typeBitmap ts = toLE ((ts.length + 3) / 4) (typesNumber ts) :=
  typeWords_take ts.length ts (by omega)

end OpenZL.Compress
