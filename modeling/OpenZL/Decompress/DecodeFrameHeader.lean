import OpenZL.Common.WireFormat
import OpenZL.Lib.Result
import OpenZL.Shared.Varint

/-!
# Reading a frame header (`decode_frameheader.c`)

`DFH_FrameInfo_decodeFrameHeader`. `XXH3_64bits` is a parameter.

Principal results: `decodeFrameHeader_local`, `decodeFrameHeader_ok`.
-/

namespace OpenZL.Decompress

open OpenZL.Lib OpenZL.Shared

/-- `struct ZL_FrameInfo`; `numElts` is left unset before version 21. -/
structure FrameInfo where
  formatVersion : Nat
  properties : FrameProperties
  types : List DataType
  decompressedSizes : List Nat
  numElts : Option (List Nat)
  frameHeaderSize : Nat
  comment : List UInt8
  bundleID : UniqueID
  deriving DecidableEq, Repr

/-- Number of outputs of a parsed frame. -/
def FrameInfo.nbOutputs (zfi : FrameInfo) : Nat := zfi.types.length

/-- `decodeType`. -/
def decodeType (et : Nat) : DataType :=
  match et with
  | 0 => .serial
  | 1 => .struct
  | 2 => .numeric
  | 3 => .string
  | _ => .serial

/-- The properties of a frame whose header has no flags. -/
def noProperties : FrameProperties := ⟨false, false, false, false⟩

/-- The properties byte of version 21 and later. -/
def decodeFrameFlags (formatVersion : Nat) : Parser ErrorCode FrameProperties :=
  if formatVersion ≥ CHUNK_VERSION_MIN then do
    let flags ← Parser.popByte .srcSize_tooSmall
    return {
      hasContentChecksum := flags.toNat &&& 1 ≠ 0
      hasCompressedChecksum := flags.toNat &&& 2 ≠ 0
      hasComment := flags.toNat &&& 4 ≠ 0
      hasBundleID := formatVersion ≥ MATERIALIZED_DICT_VERSION_MIN ∧ flags.toNat &&& 8 ≠ 0 }
  else pure noProperties

/-- The bundle ID, when declared. -/
def decodeBundleID (properties : FrameProperties) : Parser ErrorCode UniqueID :=
  if properties.hasBundleID then do
    let encLen ← Parser.popByte .corruption
    Parser.failIf (encLen.toNat = 0) .corruption
    Parser.failIf (encLen.toNat > UNIQUE_ID_SIZE) .corruption
    let bs ← Parser.popBytes .corruption encLen.toNat
    Parser.failIf ((UniqueID.ofSignificant bs).isValid = false) .corruption
    return UniqueID.ofSignificant bs
  else pure UniqueID.zero

/-- What `DFH_decodeNbOutputs` leaves for `DFH_decoderOutputTypes`: the count and the tokens
it was read from. -/
structure OutputTokens where
  nbOutputs : Nat
  token1 : Nat
  token2 : Nat

/-- The one to four tokens of versions 15 to 20. -/
def decodeOutputTokens15 : Parser ErrorCode OutputTokens := do
  let token1 ← Parser.popByte .srcSize_tooSmall
  let nbOutputs := token1.toNat >>> 6 + 1
  if nbOutputs = 4 then
    let token2 ← Parser.popByte .srcSize_tooSmall
    let nbOutputs := token2.toNat >>> 4 + 4
    if nbOutputs = 19 then
      let token3 ← Parser.popByte .srcSize_tooSmall
      let nbOutputs := token3.toNat + 19
      if nbOutputs = 274 then
        let token4 ← Parser.popBytes .srcSize_tooSmall 2
        return ⟨ofLE token4 + 274, token1.toNat, token2.toNat⟩
      else return ⟨nbOutputs, token1.toNat, token2.toNat⟩
    else return ⟨nbOutputs, token1.toNat, token2.toNat⟩
  else return ⟨nbOutputs, token1.toNat, 0⟩

/-- `DFH_decodeNbOutputs` from version 15 to version 20; the size check covers all tokens. -/
def decodeNbOutputs15 : Parser ErrorCode OutputTokens := do
  let avail ← Parser.avail
  Parser.failIf (avail < 1 + 4) .srcSize_tooSmall
  decodeOutputTokens15

/-- `DFH_decodeNbOutputs` from version 21 on. -/
def decodeNbOutputs21 : Parser ErrorCode OutputTokens := do
  let token1 ← Parser.popByte .srcSize_tooSmall
  if token1.toNat &&& 15 = 15 then
    let token2 ← Parser.popByte .srcSize_tooSmall
    return ⟨token2.toNat <<< 4 + token1.toNat >>> 4 + 15, token1.toNat, token2.toNat⟩
  else return ⟨token1.toNat &&& 15, token1.toNat, 0⟩

/-- `DFH_decodeNbOutputs`. -/
def decodeNbOutputs (formatVersion : Nat) : Parser ErrorCode OutputTokens :=
  if formatVersion ≤ 14 then
    if formatVersion = 14 then do
      let token1 ← Parser.popByte .srcSize_tooSmall
      return ⟨1, token1.toNat, 0⟩
    else pure ⟨1, 0, 0⟩
  else if formatVersion < CHUNK_VERSION_MIN then decodeNbOutputs15
  else decodeNbOutputs21

/-- The types held by a token, two bits each from bit `shift` on. -/
def tokenTypes (token shift n : Nat) : List DataType :=
  (List.range n).map fun i => decodeType ((token >>> (i * 2 + shift)) &&& 3)

/-- The types of a bitmap, four per byte. -/
def bitmapTypes (bs : List UInt8) (n : Nat) : List DataType :=
  (bs.flatMap fun b => tokenTypes b.toNat 0 4).take n

/-- `n` types read from a bitmap of their own. -/
def decodeTypeBitmap (n : Nat) : Parser ErrorCode (List DataType) := do
  let bs ← Parser.popBytes .srcSize_tooSmall ((n + 3) / 4)
  return bitmapTypes bs n

/-- `DFH_decoderOutputTypes`. -/
def decoderOutputTypes (formatVersion : Nat) (t : OutputTokens) :
    Parser ErrorCode (List DataType) :=
  if formatVersion < 14 then pure [.serial]
  else if formatVersion < CHUNK_VERSION_MIN then
    let first := tokenTypes t.token1 0 (min t.nbOutputs 3)
    let second := if t.nbOutputs > 3 then tokenTypes t.token2 0 (min t.nbOutputs 5 - 3) else []
    if t.nbOutputs > 5 then do
      let others ← decodeTypeBitmap (t.nbOutputs - 5)
      return first ++ second ++ others
    else pure (first ++ second)
  else if t.nbOutputs ≤ 14 then
    let first := tokenTypes t.token1 4 (min 2 t.nbOutputs)
    if t.nbOutputs ≤ 2 then pure first
    else do
      let others ← decodeTypeBitmap (t.nbOutputs - 2)
      return first ++ others
  else decodeTypeBitmap t.nbOutputs

/-- One little-endian 32-bit size. -/
def popLE32 : Parser ErrorCode Nat := do
  let bs ← Parser.popBytes .srcSize_tooSmall 4
  return ofLE bs

/-- One size of version 21 and later; zero stands for an unknown size. -/
def popSize21 : Parser ErrorCode Nat := do
  let v64 ← varintDecode
  Parser.failIf (v64 = 0) .temporaryLibraryLimitation
  return v64 - 1

/-- The number of elements of one output: only a count of strings is transmitted. -/
def decodeNumElts (typeAndSize : DataType × Nat) : Parser ErrorCode Nat :=
  match typeAndSize.1 with
  | .struct => pure 0
  | .numeric => pure 0
  | .serial => pure typeAndSize.2
  | .string => varintDecode

/-- `DFH_decodeOutputSizes_v20`. -/
def decodeOutputSizes20 (nbOutputs : Nat) : Parser ErrorCode (List Nat × Option (List Nat)) := do
  let avail ← Parser.avail
  Parser.failIf (avail < 4 * nbOutputs) .srcSize_tooSmall
  let dSizes ← Parser.many nbOutputs popLE32
  return (dSizes, none)

/-- The test on the first byte in `DFH_decodeOutputSizes_v21`, which does not consume it. -/
def checkFirstSize : Parser ErrorCode Unit := fun
  | [] => .error .srcSize_tooSmall
  | b :: bs => if b = 0 then .error .temporaryLibraryLimitation else .ok ((), b :: bs)

/-- `DFH_decodeOutputSizes_v21`. -/
def decodeOutputSizes21 (types : List DataType) :
    Parser ErrorCode (List Nat × Option (List Nat)) := do
  checkFirstSize
  let dSizes ← Parser.many types.length popSize21
  let numElts ← (types.zip dSizes).mapM decodeNumElts
  return (dSizes, some numElts)

/-- `DFH_decodeOutputSizes`. -/
def decodeOutputSizes (formatVersion : Nat) (types : List DataType) :
    Parser ErrorCode (List Nat × Option (List Nat)) :=
  if formatVersion < CHUNK_VERSION_MIN then decodeOutputSizes20 types.length
  else decodeOutputSizes21 types

/-- The comment field. -/
def decodeComment (formatVersion : Nat) (properties : FrameProperties) :
    Parser ErrorCode (List UInt8) :=
  if formatVersion ≥ COMMENT_VERSION_MIN ∧ properties.hasComment then do
    let commentSize ← varintDecode
    Parser.failIf (commentSize = 0) .corruption
    Parser.failIf (commentSize > MAX_HEADER_COMMENT_SIZE_LIMIT) .corruption
    Parser.popBytes .corruption commentSize
  else pure []

/-- `DFH_FrameInfo_decodeFrameHeader` between the magic number and the header checksum. -/
def decodeFrameFields (formatVersion : Nat) : Parser ErrorCode FrameInfo := do
  let properties ← decodeFrameFlags formatVersion
  let bundleID ← decodeBundleID properties
  let tokens ← decodeNbOutputs formatVersion
  Parser.failIf (tokens.nbOutputs > runtimeInputLimit formatVersion) .outputs_tooNumerous
  Parser.failIf (tokens.nbOutputs = 0) .GENERIC
  let types ← decoderOutputTypes formatVersion tokens
  let (decompressedSizes, numElts) ← decodeOutputSizes formatVersion types
  let comment ← decodeComment formatVersion properties
  return {
    formatVersion, properties, types, decompressedSizes, numElts, comment, bundleID
    frameHeaderSize := 0 }

/-- The header checksum, over the `consumed` first bytes. -/
def checkHeaderChecksum (xxh3 : List UInt8 → Nat) (zfi : FrameInfo) (header : List UInt8) :
    Parser ErrorCode Unit :=
  if zfi.formatVersion ≥ CHUNK_VERSION_MIN ∧ zfi.properties.hasCompressedChecksum then do
    let rhchk ← Parser.popByte .srcSize_tooSmall
    Parser.failIf (xxh3 header &&& 255 ≠ rhchk.toNat) .corruption
  else pure ()

/-- `DFH_FrameInfo_decodeFrameHeader`. -/
def decodeFrameHeader (xxh3 : List UInt8 → Nat) : Parser ErrorCode FrameInfo := fun cSrc => do
  let formatVersion ← getFormatVersionFromFrame cSrc
  let (zfi, rest) ← decodeFrameFields formatVersion (cSrc.drop 4)
  let ((), rest) ← checkHeaderChecksum xxh3 zfi (cSrc.take (cSrc.length - rest.length)) rest
  let frameHeaderSize := if formatVersion ≥ CHUNK_VERSION_MIN then cSrc.length - rest.length else 0
  return ({ zfi with frameHeaderSize }, rest)

theorem decodeFrameFlags_local (v : Nat) : Local (decodeFrameFlags v) :=
  Local.ite ((Local.popByte _).bind fun _ => Local.pure _) (Local.pure _)

theorem decodeBundleID_local (properties : FrameProperties) : Local (decodeBundleID properties) :=
  Local.ite ((Local.popByte _).bind fun _ => (Local.failIf _ _).bind fun _ =>
    (Local.failIf _ _).bind fun _ => (Local.popBytes _ _).bind fun _ =>
      (Local.failIf _ _).bind fun _ => Local.pure _) (Local.pure _)

theorem decodeOutputTokens15_local : Local decodeOutputTokens15 :=
  (Local.popByte _).bind fun _ =>
    Local.ite ((Local.popByte _).bind fun _ =>
      Local.ite ((Local.popByte _).bind fun _ =>
        Local.ite ((Local.popBytes _ _).bind fun _ => Local.pure _) (Local.pure _))
        (Local.pure _)) (Local.pure _)

theorem decodeNbOutputs15_local : Local decodeNbOutputs15 :=
  Local.availCheck _ _ decodeOutputTokens15_local

theorem decodeNbOutputs21_local : Local decodeNbOutputs21 :=
  (Local.popByte _).bind fun _ =>
    Local.ite ((Local.popByte _).bind fun _ => Local.pure _) (Local.pure _)

theorem decodeNbOutputs_local (v : Nat) : Local (decodeNbOutputs v) :=
  Local.ite (Local.ite ((Local.popByte _).bind fun _ => Local.pure _) (Local.pure _))
    (Local.ite decodeNbOutputs15_local decodeNbOutputs21_local)

theorem decodeTypeBitmap_local (n : Nat) : Local (decodeTypeBitmap n) :=
  (Local.popBytes _ _).bind fun _ => Local.pure _

theorem decoderOutputTypes_local (v : Nat) (t : OutputTokens) :
    Local (decoderOutputTypes v t) :=
  Local.ite (Local.pure _) <|
    Local.ite (Local.ite ((decodeTypeBitmap_local _).bind fun _ => Local.pure _) (Local.pure _)) <|
      Local.ite (Local.ite (Local.pure _) ((decodeTypeBitmap_local _).bind fun _ => Local.pure _))
        (decodeTypeBitmap_local _)

theorem popLE32_local : Local popLE32 := (Local.popBytes _ _).bind fun _ => Local.pure _

theorem popSize21_local : Local popSize21 :=
  varintDecode_local.bind fun _ => (Local.failIf _ _).bind fun _ => Local.pure _

theorem decodeNumElts_local (ts : DataType × Nat) : Local (decodeNumElts ts) := by
  unfold decodeNumElts
  split
  · exact Local.pure _
  · exact Local.pure _
  · exact Local.pure _
  · exact varintDecode_local

theorem checkFirstSize_ok {s s' : List UInt8} {u : Unit} (h : checkFirstSize s = .ok (u, s')) :
    ∃ b bs, s = b :: bs ∧ b ≠ 0 ∧ s' = s := by
  cases s with
  | nil => cases h
  | cons b bs =>
    simp only [checkFirstSize] at h
    split at h
    · cases h
    · rename_i hb
      exact ⟨b, bs, rfl, hb, (Prod.mk.inj (Except.ok.inj h)).2.symm⟩

theorem checkFirstSize_of {b : UInt8} (hb : b ≠ 0) (bs : List UInt8) :
    checkFirstSize (b :: bs) = .ok ((), b :: bs) := by
  rw [checkFirstSize, if_neg hb]

theorem checkFirstSize_local : Local checkFirstSize := by
  intro s u s' h
  obtain ⟨b, bs, rfl, hb, rfl⟩ := checkFirstSize_ok h
  exact ⟨List.suffix_rfl, fun more => checkFirstSize_of hb (bs ++ more)⟩

theorem decodeOutputSizes_local (v : Nat) (types : List DataType) :
    Local (decodeOutputSizes v types) :=
  Local.ite
    (Local.availCheck _ _ ((Local.many popLE32_local _).bind fun _ => Local.pure _))
    (checkFirstSize_local.bind fun _ => (Local.many popSize21_local _).bind fun _ =>
      (Local.mapM decodeNumElts_local _).bind fun _ => Local.pure _)

theorem decodeComment_local (v : Nat) (properties : FrameProperties) :
    Local (decodeComment v properties) :=
  Local.ite (varintDecode_local.bind fun _ => (Local.failIf _ _).bind fun _ =>
    (Local.failIf _ _).bind fun _ => Local.popBytes _ _) (Local.pure _)

theorem decodeFrameFields_local (v : Nat) : Local (decodeFrameFields v) :=
  (decodeFrameFlags_local v).bind fun _ => (decodeBundleID_local _).bind fun _ =>
    (decodeNbOutputs_local v).bind fun _ => (Local.failIf _ _).bind fun _ =>
      (Local.failIf _ _).bind fun _ => (decoderOutputTypes_local _ _).bind fun _ =>
        (decodeOutputSizes_local _ _).bind fun _ => (decodeComment_local _ _).bind fun _ =>
          Local.pure _

theorem checkHeaderChecksum_local (xxh3 : List UInt8 → Nat) (zfi : FrameInfo)
    (header : List UInt8) : Local (checkHeaderChecksum xxh3 zfi header) :=
  Local.ite ((Local.popByte _).bind fun _ => Local.failIf _ _) (Local.pure _)

theorem decodeFrameFields_ok {v : Nat} {s mid : List UInt8} {zfi : FrameInfo}
    (h : decodeFrameFields v s = .ok (zfi, mid)) :
    zfi.formatVersion = v ∧ ∃ s₁ s₂ t s₃ s₄ s₅,
      decodeFrameFlags v s = .ok (zfi.properties, s₁) ∧
      decodeBundleID zfi.properties s₁ = .ok (zfi.bundleID, s₂) ∧
      decodeNbOutputs v s₂ = .ok (t, s₃) ∧ t.nbOutputs ≠ 0 ∧
      decoderOutputTypes v t s₃ = .ok (zfi.types, s₄) ∧
      decodeOutputSizes v zfi.types s₄ = .ok ((zfi.decompressedSizes, zfi.numElts), s₅) := by
  obtain ⟨properties, s₁, hflags, h⟩ := run_bind_eq_ok.1 h
  obtain ⟨bundleID, s₂, hbundle, h⟩ := run_bind_eq_ok.1 h
  obtain ⟨t, s₃, hnb, h⟩ := run_bind_eq_ok.1 h
  obtain ⟨_, _, hlimit, h⟩ := run_bind_eq_ok.1 h
  obtain ⟨_, _, hzero, h⟩ := run_bind_eq_ok.1 h
  obtain ⟨types, s₄, htypes, h⟩ := run_bind_eq_ok.1 h
  obtain ⟨⟨sizes, numElts⟩, s₅, hsizes, h⟩ := run_bind_eq_ok.1 h
  obtain ⟨comment, s₆, -, h⟩ := run_bind_eq_ok.1 h
  obtain ⟨rfl, -⟩ := run_pure_eq_ok.1 h
  obtain ⟨-, rfl⟩ := run_failIf_eq_ok.1 hlimit
  obtain ⟨hne, rfl⟩ := run_failIf_eq_ok.1 hzero
  exact ⟨rfl, s₁, s₂, t, s₃, s₄, s₅, hflags, hbundle, hnb, hne, htypes, hsizes⟩

theorem decodeFrameHeader_ok {xxh3 : List UInt8 → Nat} {cSrc rest : List UInt8} {zfi : FrameInfo}
    (h : decodeFrameHeader xxh3 cSrc = .ok (zfi, rest)) :
    ∃ v fields mid, getFormatVersionFromFrame cSrc = .ok v ∧
      decodeFrameFields v (cSrc.drop 4) = .ok (fields, mid) ∧
      checkHeaderChecksum xxh3 fields (cSrc.take (cSrc.length - mid.length)) mid =
        .ok ((), rest) ∧
      zfi = { fields with frameHeaderSize :=
        if v ≥ CHUNK_VERSION_MIN then cSrc.length - rest.length else 0 } := by
  unfold decodeFrameHeader at h
  obtain ⟨v, hv, h⟩ := bind_eq_ok.1 h
  obtain ⟨⟨fields, mid⟩, hf, h⟩ := bind_eq_ok.1 h
  obtain ⟨⟨u, rest'⟩, hc, h⟩ := bind_eq_ok.1 h
  have heq := pure_eq_ok.1 h
  simp only [Prod.mk.injEq] at heq
  obtain ⟨rfl, rfl⟩ := heq
  exact ⟨v, fields, mid, hv, hf, hc, rfl⟩

theorem decodeFrameHeader_of {xxh3 : List UInt8 → Nat} {cSrc mid rest header : List UInt8} {v : Nat}
    {fields : FrameInfo} (hv : getFormatVersionFromFrame cSrc = .ok v)
    (hf : decodeFrameFields v (cSrc.drop 4) = .ok (fields, mid))
    (hheader : cSrc.take (cSrc.length - mid.length) = header)
    (hc : checkHeaderChecksum xxh3 fields header mid = .ok ((), rest)) :
    decodeFrameHeader xxh3 cSrc = .ok ({ fields with frameHeaderSize :=
      if v ≥ CHUNK_VERSION_MIN then cSrc.length - rest.length else 0 }, rest) := by
  rw [decodeFrameHeader, hv, ok_bind, hf, ok_bind]
  simp only [hheader]
  rw [hc, ok_bind]
  rfl

theorem getFormatVersionFromFrame_ok {src : List UInt8} {v : Nat}
    (h : getFormatVersionFromFrame src = .ok v) :
    4 ≤ src.length ∧ isFormatVersionSupported v ∧ ofLE (src.take 4) = getMagicNumber v := by
  unfold getFormatVersionFromFrame at h
  split at h
  · cases h
  · exact ⟨by omega, getFormatVersionFromMagic_supported h⟩

theorem getFormatVersionFromFrame_append {src : List UInt8} {v : Nat}
    (h : getFormatVersionFromFrame src = .ok v) (more : List UInt8) :
    getFormatVersionFromFrame (src ++ more) = .ok v := by
  obtain ⟨hlen, -, -⟩ := getFormatVersionFromFrame_ok h
  unfold getFormatVersionFromFrame at h ⊢
  rw [if_neg (by omega)] at h
  rw [if_neg (by simp; omega), List.take_append_of_le_length hlen, h]

/-- **Locality**: a frame header is decided by the bytes it consumes. -/
theorem decodeFrameHeader_local (xxh3 : List UInt8 → Nat) : Local (decodeFrameHeader xxh3) := by
  intro s zfi s' h
  obtain ⟨v, fields, mid, hv, hf, hc, rfl⟩ := decodeFrameHeader_ok h
  obtain ⟨hlen, -, -⟩ := getFormatVersionFromFrame_ok hv
  have hmid := (decodeFrameFields_local v).suffix hf
  have hrest := (checkHeaderChecksum_local xxh3 fields _).suffix hc
  refine ⟨(hrest.trans hmid).trans (List.drop_suffix _ _), fun more => ?_⟩
  have htake : (s ++ more).take ((s ++ more).length - (mid ++ more).length) =
      s.take (s.length - mid.length) := by
    rw [List.length_append, List.length_append, Nat.add_sub_add_right,
      List.take_append_of_le_length (by omega)]
  have hsize : (s ++ more).length - (s' ++ more).length = s.length - s'.length := by
    rw [List.length_append, List.length_append, Nat.add_sub_add_right]
  have hf' := (decodeFrameFields_local v).extend hf more
  have hc' := (checkHeaderChecksum_local xxh3 fields _).extend hc more
  rw [← List.drop_append_of_le_length hlen] at hf'
  rw [decodeFrameHeader_of (getFormatVersionFromFrame_append hv more) hf' htake hc', hsize]

end OpenZL.Decompress
