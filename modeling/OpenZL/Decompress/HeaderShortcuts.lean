import OpenZL.Decompress.DecodeFrameHeader

/-!
# Reading one field of a frame header (`decode_frameheader.c`)

`ZL_getOutputType` and `ZL_getDecompressedSize` find the type and the size of a single output
without parsing the header: they compute the offset of the token and test the number of outputs
through bits of that token.

Principal results: `getOutputType_chunk_eq_ok`, `getDecompressedSize_chunk_eq_ok`,
`shortcuts_agree_iff`.
-/

namespace OpenZL.Decompress

open OpenZL.Lib OpenZL.Shared

variable {properties : FrameProperties} {s s' : List UInt8}

/-- `((const uint8_t*)src)[i]`, read after a size check. -/
def byteAt (src : List UInt8) (i : Nat) : Nat := (src[i]?.getD 0).toNat

/-- `bundleIDFieldLen`, computed alike by both shortcuts. -/
def bundleIDFieldLen (formatVersion : Nat) (src : List UInt8) : Nat :=
  if formatVersion ≥ MATERIALIZED_DICT_VERSION_MIN ∧ byteAt src 4 &&& 8 ≠ 0 then
    1 + byteAt src 5
  else 0

/-- Position of the token that holds the number of outputs. -/
def tokenOffset (formatVersion : Nat) (src : List UInt8) : Nat :=
  4 + (if formatVersion ≥ CHUNK_VERSION_MIN then 1 else 0) + bundleIDFieldLen formatVersion src

/-- `ZL_getOutputType` below version 21. -/
def getOutputType14 (cSrc : List UInt8) : Except ErrorCode DataType := do
  failWhen (cSrc.length < 5) .srcSize_tooSmall
  failWhen (byteAt cSrc 4 > 3) .invalidRequest_singleOutputFrameOnly
  return decodeType (byteAt cSrc 4)

/-- `ZL_getOutputType` from version 21 on. -/
def getOutputType21 (formatVersion : Nat) (cSrc : List UInt8) : Except ErrorCode DataType := do
  failWhen (cSrc.length < 6) .srcSize_tooSmall
  failWhen (cSrc.length < tokenOffset formatVersion cSrc + 1) .srcSize_tooSmall
  let typeEncoded := byteAt cSrc (tokenOffset formatVersion cSrc)
  failWhen (typeEncoded &&& 15 ≠ 1) .invalidRequest_singleOutputFrameOnly
  return decodeType ((typeEncoded >>> 4) &&& 3)

/-- `ZL_getOutputType`. -/
def getOutputType (cSrc : List UInt8) : Except ErrorCode DataType := do
  let formatVersion ← getFormatVersionFromFrame cSrc
  if formatVersion ≤ 13 then return .serial
  else if formatVersion < CHUNK_VERSION_MIN then getOutputType14 cSrc
  else getOutputType21 formatVersion cSrc

/-- The size of version 21 and later; the last test is against `SIZE_MAX`. -/
def readSize21 (field : List UInt8) : Except ErrorCode Nat := do
  let (oSize, _) ← varintDecode field
  failWhen (oSize = 0) .temporaryLibraryLimitation
  failWhen (oSize ≥ 2 ^ 64 - 1) .GENERIC
  return oSize - 1

/-- `hSize` of `getDecompressedSizeV3orMore`: where the sizes of a single output start. -/
def singleSizeOffset (formatVersion : Nat) (src : List UInt8) : Nat :=
  4 + (if formatVersion > 13 then 1 else 0) + (if formatVersion ≥ CHUNK_VERSION_MIN then 1 else 0) +
    bundleIDFieldLen formatVersion src

/-- `getDecompressedSizeV3orMore`. -/
def getDecompressedSizeV3orMore (formatVersion : Nat) (src : List UInt8) :
    Except ErrorCode Nat := do
  failWhen (src.length < 5) .srcSize_tooSmall
  failWhen ((formatVersion ≥ MATERIALIZED_DICT_VERSION_MIN ∧ byteAt src 4 &&& 8 ≠ 0) ∧
    src.length < 6) .srcSize_tooSmall
  let hSize := singleSizeOffset formatVersion src
  failWhen (src.length < hSize + 4) .srcSize_tooSmall
  failWhen (formatVersion > 14 ∧ byteAt src (tokenOffset formatVersion src) ≥ 64)
    .invalidRequest_singleOutputFrameOnly
  if formatVersion < CHUNK_VERSION_MIN then return ofLE ((src.drop hSize).take 4)
  else readSize21 (src.drop hSize)

/-- `ZL_getDecompressedSize`. -/
def getDecompressedSize (cSrc : List UInt8) : Except ErrorCode Nat := do
  let formatVersion ← getFormatVersionFromFrame cSrc
  getDecompressedSizeV3orMore formatVersion cSrc

/-! ## Shortcuts -/

theorem byteAt_of_drop {src t : List UInt8} {i : Nat} {b : UInt8} (h : src.drop i = b :: t) :
    byteAt src i = b.toNat := by
  have hget : src[i]? = some b := by
    have := congrArg List.head? h
    rwa [List.head?_drop] at this
  rw [byteAt, hget, Option.getD_some]

theorem length_of_drop {src t : List UInt8} {i : Nat} (h : src.drop i = t) (ht : t ≠ []) :
    src.length = i + t.length := by
  have hlen := congrArg List.length h
  rw [List.length_drop] at hlen
  have hpos : 0 < t.length := List.length_pos_iff.2 ht
  omega

/-- A varint that can stand for the size of an output follows the token. -/
def SizeAfterToken (formatVersion : Nat) (src : List UInt8) (n : Nat) : Prop :=
  (∃ rest, varintDecode (src.drop (tokenOffset formatVersion src + 1)) = .ok (n + 1, rest)) ∧
    n + 1 < 2 ^ 64 - 1

theorem readSize21_eq_ok {field : List UInt8} {n : Nat} :
    readSize21 field = .ok n ↔
      (∃ rest, varintDecode field = .ok (n + 1, rest)) ∧ n + 1 < 2 ^ 64 - 1 := by
  unfold readSize21
  constructor
  · intro h
    obtain ⟨⟨oSize, rest⟩, hv, h⟩ := bind_eq_ok.1 h
    obtain ⟨_, hzero, h⟩ := bind_eq_ok.1 h
    obtain ⟨_, hmax, h⟩ := bind_eq_ok.1 h
    have hzero := failWhen_eq_ok.1 hzero
    have hmax := failWhen_eq_ok.1 hmax
    have hn := pure_eq_ok.1 h
    have hoSize : oSize = n + 1 := by omega
    subst hoSize
    exact ⟨⟨rest, hv⟩, by omega⟩
  · rintro ⟨⟨rest, hv⟩, hlt⟩
    rw [hv, ok_bind]
    simp only
    rw [failWhen_of_not _ (by omega), ok_bind, failWhen_of_not _ (by omega), ok_bind]
    rfl

section chunk

variable {v : Nat} {cSrc : List UInt8} (hv : getFormatVersionFromFrame cSrc = .ok v)
  (h21 : v ≥ CHUNK_VERSION_MIN)

include hv h21

theorem getOutputType_chunk_eq_ok (hlen : tokenOffset v cSrc + 1 ≤ cSrc.length) {ty : DataType} :
    getOutputType cSrc = .ok ty ↔ byteAt cSrc (tokenOffset v cSrc) &&& 15 = 1 ∧
      decodeType ((byteAt cSrc (tokenOffset v cSrc) >>> 4) &&& 3) = ty := by
  have hmin : 6 ≤ tokenOffset v cSrc + 1 := by
    rw [tokenOffset, if_pos h21]
    omega
  have hge : 21 ≤ v := h21
  rw [getOutputType, hv, ok_bind, if_neg (by omega), if_neg (by omega), getOutputType21,
    failWhen_of_not _ (by omega), ok_bind, failWhen_of_not _ (by omega), ok_bind]
  simp only
  constructor
  · intro h
    obtain ⟨_, hone, h⟩ := bind_eq_ok.1 h
    exact ⟨not_not.1 (failWhen_eq_ok.1 hone), pure_eq_ok.1 h⟩
  · rintro ⟨hone, rfl⟩
    rw [failWhen_of_not _ (not_not.2 hone), ok_bind]
    rfl

theorem getDecompressedSize_chunk_eq_ok {n : Nat} :
    getDecompressedSize cSrc = .ok n ↔ tokenOffset v cSrc + 5 ≤ cSrc.length ∧
      byteAt cSrc (tokenOffset v cSrc) < 64 ∧ SizeAfterToken v cSrc n := by
  have hge : 21 ≤ v := h21
  have hoffset : singleSizeOffset v cSrc = tokenOffset v cSrc + 1 := by
    rw [singleSizeOffset, tokenOffset, if_pos (by omega), if_pos h21]
    omega
  have hmin : 6 ≤ tokenOffset v cSrc + 1 := by
    rw [tokenOffset, if_pos h21]
    omega
  rw [getDecompressedSize, hv, ok_bind, getDecompressedSizeV3orMore, hoffset]
  constructor
  · intro h
    obtain ⟨_, -, h⟩ := bind_eq_ok.1 h
    obtain ⟨_, -, h⟩ := bind_eq_ok.1 h
    obtain ⟨_, hlen, h⟩ := bind_eq_ok.1 h
    obtain ⟨_, htoken, h⟩ := bind_eq_ok.1 h
    have hlen := failWhen_eq_ok.1 hlen
    have htoken := failWhen_eq_ok.1 htoken
    rw [if_neg (by omega)] at h
    refine ⟨by omega, ?_, readSize21_eq_ok.1 h⟩
    by_contra hc
    exact htoken ⟨by omega, by omega⟩
  · rintro ⟨hlen, htoken, hsize⟩
    rw [failWhen_of_not _ (by omega), ok_bind, failWhen_of_not _ (by omega), ok_bind]
    simp only
    rw [failWhen_of_not _ (by omega), ok_bind, failWhen_of_not _ (by omega), ok_bind,
      if_neg (by omega)]
    exact readSize21_eq_ok.2 hsize

end chunk

/-! ## The parser -/

theorem length_tokenTypes (token shift n : Nat) : (tokenTypes token shift n).length = n := by
  simp [tokenTypes]

theorem decodeTypeBitmap_length {n : Nat} {types : List DataType}
    (h : decodeTypeBitmap n s = .ok (types, s')) : types.length = n := by
  obtain ⟨bs, s₁, hpop, h⟩ := run_bind_eq_ok.1 h
  obtain ⟨rfl, rfl⟩ := run_pure_eq_ok.1 h
  unfold Parser.popBytes at hpop
  split at hpop
  · cases hpop
  · rename_i hlen
    have hbs : s.take ((n + 3) / 4) = bs := (Prod.mk.inj (Except.ok.inj hpop)).1
    have hcount : (bs.flatMap fun b => tokenTypes b.toNat 0 4).length = 4 * bs.length := by
      rw [List.length_flatMap]
      simp [length_tokenTypes, Nat.mul_comm]
    have hbytes : bs.length = (n + 3) / 4 := by
      rw [← hbs, List.length_take]
      omega
    rw [bitmapTypes, List.length_take, hcount, hbytes]
    omega

theorem decoderOutputTypes_length {v : Nat} {t : OutputTokens} {types : List DataType}
    (h : decoderOutputTypes v t s = .ok (types, s')) (h14 : v < 14 → t.nbOutputs = 1) :
    types.length = t.nbOutputs := by
  unfold decoderOutputTypes at h
  split at h
  · rename_i hv
    obtain ⟨rfl, -⟩ := run_pure_eq_ok.1 h
    exact (h14 hv).symm
  · split at h
    · simp only at h
      have hsecond : (if t.nbOutputs > 3 then tokenTypes t.token2 0 (min t.nbOutputs 5 - 3)
          else []).length = min t.nbOutputs 5 - 3 := by
        split
        · exact length_tokenTypes _ _ _
        · rw [List.length_nil]
          omega
      split at h
      · obtain ⟨others, s₁, hothers, h⟩ := run_bind_eq_ok.1 h
        obtain ⟨rfl, -⟩ := run_pure_eq_ok.1 h
        rw [List.length_append, List.length_append, length_tokenTypes, hsecond,
          decodeTypeBitmap_length hothers]
        omega
      · obtain ⟨rfl, -⟩ := run_pure_eq_ok.1 h
        rw [List.length_append, length_tokenTypes, hsecond]
        omega
    · split at h
      · simp only at h
        split at h
        · obtain ⟨rfl, -⟩ := run_pure_eq_ok.1 h
          rw [length_tokenTypes]
          omega
        · obtain ⟨others, s₁, hothers, h⟩ := run_bind_eq_ok.1 h
          obtain ⟨rfl, -⟩ := run_pure_eq_ok.1 h
          rw [List.length_append, length_tokenTypes, decodeTypeBitmap_length hothers]
          omega
      · exact decodeTypeBitmap_length h

theorem decodeFrameFlags_chunk {v : Nat} (h21 : v ≥ CHUNK_VERSION_MIN) {s s₁ : List UInt8}
    (h : decodeFrameFlags v s = .ok (properties, s₁)) :
    ∃ flags, s = flags :: s₁ ∧ (properties.hasBundleID = true ↔
      v ≥ MATERIALIZED_DICT_VERSION_MIN ∧ flags.toNat &&& 8 ≠ 0) := by
  rw [decodeFrameFlags, if_pos h21] at h
  obtain ⟨flags, t, hpop, h⟩ := run_bind_eq_ok.1 h
  obtain ⟨rfl, rfl⟩ := run_pure_eq_ok.1 h
  exact ⟨flags, popByte_ok hpop, by simp⟩

theorem decodeBundleID_ok {s s₁ : List UInt8} {id : UniqueID}
    (h : decodeBundleID properties s = .ok (id, s₁)) :
    (properties.hasBundleID = true ∧ ∃ encLen t, s = encLen :: t ∧ encLen.toNat ≤ t.length ∧
      s₁ = t.drop encLen.toNat) ∨ (properties.hasBundleID = false ∧ s₁ = s) := by
  unfold decodeBundleID at h
  split at h
  · rename_i hbundle
    left
    obtain ⟨encLen, t, hpop, h⟩ := run_bind_eq_ok.1 h
    obtain ⟨_, t₁, hzero, h⟩ := run_bind_eq_ok.1 h
    obtain ⟨_, t₂, hmax, h⟩ := run_bind_eq_ok.1 h
    obtain ⟨bs, t₃, hbytes, h⟩ := run_bind_eq_ok.1 h
    obtain ⟨_, t₄, hvalid, h⟩ := run_bind_eq_ok.1 h
    obtain ⟨-, rfl⟩ := run_pure_eq_ok.1 h
    obtain ⟨-, rfl⟩ := run_failIf_eq_ok.1 hzero
    obtain ⟨-, rfl⟩ := run_failIf_eq_ok.1 hmax
    obtain ⟨-, rfl⟩ := run_failIf_eq_ok.1 hvalid
    refine ⟨hbundle, encLen, t, popByte_ok hpop, ?_⟩
    unfold Parser.popBytes at hbytes
    split at hbytes
    · cases hbytes
    · exact ⟨by omega, (Prod.mk.inj (Except.ok.inj hbytes)).2.symm⟩
  · rename_i hbundle
    right
    obtain ⟨-, rfl⟩ := run_pure_eq_ok.1 h
    exact ⟨by simpa using hbundle, rfl⟩

theorem drop_tokenOffset {v : Nat} {cSrc s₁ s₂ : List UInt8} {id : UniqueID}
    (h21 : v ≥ CHUNK_VERSION_MIN) (hflags : decodeFrameFlags v (cSrc.drop 4) = .ok (properties, s₁))
    (hbundle : decodeBundleID properties s₁ = .ok (id, s₂)) :
    cSrc.drop (tokenOffset v cSrc) = s₂ := by
  obtain ⟨flags, hfour, hhas⟩ := decodeFrameFlags_chunk h21 hflags
  have hfive : cSrc.drop 5 = s₁ := by
    rw [show 5 = 4 + 1 from rfl, ← List.drop_drop, hfour]
    rfl
  rw [← byteAt_of_drop hfour] at hhas
  rw [tokenOffset, if_pos h21, bundleIDFieldLen]
  rcases decodeBundleID_ok hbundle with ⟨hb, encLen, t, hs₁, -, rfl⟩ | ⟨hb, rfl⟩
  · rw [if_pos (hhas.1 hb), byteAt_of_drop (hfive.trans hs₁), ← List.drop_drop, hfive, hs₁,
      Nat.add_comm 1 encLen.toNat, List.drop_succ_cons]
  · rw [if_neg (by rw [← hhas, hb]; decide)]
    exact hfive

theorem decodeNbOutputs21_ok {t : OutputTokens} (h : decodeNbOutputs21 s = .ok (t, s')) :
    ∃ token tail, s = token :: tail ∧ (t.nbOutputs = 1 ↔ token.toNat &&& 15 = 1) ∧
      (token.toNat &&& 15 = 1 → t.token1 = token.toNat ∧ s' = tail) := by
  obtain ⟨token, tail, hpop, h⟩ := run_bind_eq_ok.1 h
  refine ⟨token, tail, popByte_ok hpop, ?_⟩
  split at h
  · rename_i h15
    obtain ⟨token2, s₁, -, h⟩ := run_bind_eq_ok.1 h
    obtain ⟨rfl, rfl⟩ := run_pure_eq_ok.1 h
    rw [h15]
    exact ⟨⟨fun h1 => by simp only at h1; omega, fun h1 => by omega⟩, fun h1 => by omega⟩
  · obtain ⟨rfl, rfl⟩ := run_pure_eq_ok.1 h
    exact ⟨Iff.rfl, fun _ => ⟨rfl, rfl⟩⟩

theorem decodeOutputSizes21_single {ty : DataType} {sizes : List Nat} {numElts : Option (List Nat)}
    (h : decodeOutputSizes21 [ty] s = .ok ((sizes, numElts), s')) :
    ∃ n rest, varintDecode s = .ok (n + 1, rest) ∧ sizes = [n] := by
  obtain ⟨_, s₀, hcheck, hrun⟩ := run_bind_eq_ok.1 h
  obtain ⟨_, _, -, -, rfl⟩ := checkFirstSize_ok hcheck
  obtain ⟨dSizes, s₁, hmany, h⟩ := run_bind_eq_ok.1 hrun
  obtain ⟨_, s₂, -, h⟩ := run_bind_eq_ok.1 h
  obtain ⟨heq, -⟩ := run_pure_eq_ok.1 h
  obtain ⟨size, s₃, hsize, hmany⟩ := run_bind_eq_ok.1 hmany
  obtain ⟨others, s₄, hothers, hmany⟩ := run_bind_eq_ok.1 hmany
  obtain ⟨rfl, -⟩ := run_pure_eq_ok.1 hmany
  obtain ⟨rfl, -⟩ := run_pure_eq_ok.1 hothers
  obtain ⟨v64, s₅, hv64, hsize⟩ := run_bind_eq_ok.1 hsize
  obtain ⟨_, _, hzero, hsize⟩ := run_bind_eq_ok.1 hsize
  obtain ⟨hne, rfl⟩ := run_failIf_eq_ok.1 hzero
  obtain ⟨rfl, -⟩ := run_pure_eq_ok.1 hsize
  refine ⟨v64 - 1, s₅, ?_, (Prod.mk.inj heq).1.symm⟩
  rw [Nat.sub_add_cancel (Nat.pos_of_ne_zero hne)]
  exact hv64

theorem decodeOutputSizes20_single {sizes : List Nat} {numElts : Option (List Nat)}
    (h : decodeOutputSizes20 1 s = .ok ((sizes, numElts), s')) :
    4 ≤ s.length ∧ sizes = [ofLE (s.take 4)] := by
  obtain ⟨_, _, havail, h⟩ := run_bind_eq_ok.1 h
  cases havail
  obtain ⟨_, _, hlen, h⟩ := run_bind_eq_ok.1 h
  obtain ⟨hlen, rfl⟩ := run_failIf_eq_ok.1 hlen
  have hlen4 : ¬ s.length < 4 := by omega
  obtain ⟨dSizes, s₁, hmany, h⟩ := run_bind_eq_ok.1 h
  obtain ⟨heq, -⟩ := run_pure_eq_ok.1 h
  obtain ⟨size, s₃, hsize, hmany⟩ := run_bind_eq_ok.1 hmany
  obtain ⟨others, s₄, hothers, hmany⟩ := run_bind_eq_ok.1 hmany
  obtain ⟨rfl, -⟩ := run_pure_eq_ok.1 hmany
  obtain ⟨rfl, -⟩ := run_pure_eq_ok.1 hothers
  obtain ⟨bs, s₅, hpop, hsize⟩ := run_bind_eq_ok.1 hsize
  obtain ⟨rfl, -⟩ := run_pure_eq_ok.1 hsize
  rw [Parser.popBytes, if_neg hlen4] at hpop
  obtain ⟨rfl, -⟩ := Prod.mk.inj (Except.ok.inj hpop)
  exact ⟨by omega, (Prod.mk.inj heq).1.symm⟩

/-! ## Agreement -/

/-- The shortcuts answer as the parsed header says: the type and the size of a single output,
and an error when there are several.  They are asked as soon as the header parses, also where the
string ends before the frame does. -/
def ShortcutsAgree (cSrc : List UInt8) (zfi : FrameInfo) : Prop :=
  (zfi.nbOutputs = 1 → ∃ ty size, zfi.types = [ty] ∧ zfi.decompressedSizes = [size] ∧
    getOutputType cSrc = .ok ty ∧ getDecompressedSize cSrc = .ok size) ∧
  (2 ≤ zfi.nbOutputs → (∃ e, getOutputType cSrc = .error e) ∧
    ∃ e, getDecompressedSize cSrc = .error e)

/-- When they do.  Versions 14 to 20: a single output has no stray bit in its token.  From version
21 on: the count in the token is one exactly when its two high bits are clear, four bytes follow
it and they start with a size. -/
def ShortcutsCondition (formatVersion : Nat) (src : List UInt8) : Prop :=
  let token := byteAt src (tokenOffset formatVersion src)
  if formatVersion < 14 then True
  else if formatVersion = 14 then token ≤ 3
  else if formatVersion < CHUNK_VERSION_MIN then token ≤ 3 ∨ 64 ≤ token
  else token &&& 15 = 1 ↔ token < 64 ∧ tokenOffset formatVersion src + 5 ≤ src.length ∧
    ∃ n, SizeAfterToken formatVersion src n

theorem not_ok_iff_error {α : Type} {x : Except ErrorCode α} :
    (∃ e, x = .error e) ↔ ∀ a, x ≠ .ok a := by
  cases x with
  | error e => simp
  | ok a => simp

theorem shortcuts_chunk {v : Nat} {cSrc mid : List UInt8} {zfi : FrameInfo}
    (hv : getFormatVersionFromFrame cSrc = .ok v) (h21 : v ≥ CHUNK_VERSION_MIN)
    (hf : decodeFrameFields v (cSrc.drop 4) = .ok (zfi, mid)) :
    ShortcutsAgree cSrc zfi ↔ ShortcutsCondition v cSrc := by
  have hge : 21 ≤ v := h21
  obtain ⟨-, s₁, s₂, t, s₃, s₄, s₅, hflags, hbundle, hnb, hne, htypes, hsizes⟩ :=
    decodeFrameFields_ok hf
  have hdrop := drop_tokenOffset h21 hflags hbundle
  rw [decodeNbOutputs, if_neg (by omega), if_neg (by omega)] at hnb
  obtain ⟨token, tail, rfl, hone, hsingle⟩ := decodeNbOutputs21_ok hnb
  have hbyte := byteAt_of_drop hdrop
  have hlen := length_of_drop hdrop (by simp)
  have htail : cSrc.drop (tokenOffset v cSrc + 1) = tail := by
    rw [← List.drop_drop, hdrop]
    rfl
  have hcount : zfi.nbOutputs = t.nbOutputs :=
    decoderOutputTypes_length htypes (fun h => by omega)
  have hlen1 : tokenOffset v cSrc + 1 ≤ cSrc.length := by
    rw [hlen, List.length_cons]
    omega
  unfold ShortcutsCondition
  rw [if_neg (by omega), if_neg (by omega), if_neg (by omega)]
  by_cases h1 : token.toNat &&& 15 = 1
  · obtain ⟨htoken, rfl⟩ := hsingle h1
    have hn := hone.2 h1
    have hty : zfi.types = [decodeType ((token.toNat >>> 4) &&& 3)] := by
      rw [decoderOutputTypes, if_neg (by omega), if_neg (by omega), hn, if_pos (by omega)] at htypes
      simp only [Nat.min_eq_right (show 1 ≤ 2 by omega), if_pos (show 1 ≤ 2 by omega)] at htypes
      obtain ⟨hty, rfl⟩ := run_pure_eq_ok.1 htypes
      rw [← hty, htoken]
      rfl
    have hs₄ : s₄ = s₃ := by
      rw [decoderOutputTypes, if_neg (by omega), if_neg (by omega), hn, if_pos (by omega)] at htypes
      simp only [Nat.min_eq_right (show 1 ≤ 2 by omega), if_pos (show 1 ≤ 2 by omega)] at htypes
      exact (run_pure_eq_ok.1 htypes).2.symm
    subst hs₄
    rw [decodeOutputSizes, if_neg (by omega), hty] at hsizes
    obtain ⟨n, rest, hvarint, hsize⟩ := decodeOutputSizes21_single hsizes
    have hn1 : zfi.nbOutputs = 1 := hcount.trans hn
    have htypeOk : getOutputType cSrc = .ok (decodeType ((token.toNat >>> 4) &&& 3)) :=
      (getOutputType_chunk_eq_ok hv h21 hlen1).2 (by rw [hbyte]; exact ⟨h1, rfl⟩)
    rw [hbyte]
    constructor
    · rintro ⟨hagree, -⟩
      obtain ⟨ty, size, -, -, -, hds⟩ := hagree hn1
      obtain ⟨hl, hlt, hsz⟩ := (getDecompressedSize_chunk_eq_ok hv h21).1 hds
      rw [hbyte] at hlt
      exact ⟨fun _ => ⟨hlt, hl, size, hsz⟩, fun _ => h1⟩
    · intro hcond
      obtain ⟨hlt, hl, m, ⟨rest', hm⟩, hmax⟩ := hcond.1 h1
      rw [htail, hvarint] at hm
      have hnm : n = m := by
        have := (Prod.mk.inj (Except.ok.inj hm)).1
        omega
      refine ⟨fun _ => ⟨_, n, hty, hsize, htypeOk, ?_⟩, fun h2 => by omega⟩
      refine (getDecompressedSize_chunk_eq_ok hv h21).2 ⟨hl, by rw [hbyte]; exact hlt, ⟨rest, ?_⟩, ?_⟩
      · rw [htail]
        exact hvarint
      · rw [hnm]
        exact hmax
  · have hn : t.nbOutputs ≠ 1 := fun h => h1 (hone.1 h)
    have hseveral : 2 ≤ zfi.nbOutputs := by omega
    have htypeErr : ∃ e, getOutputType cSrc = .error e := not_ok_iff_error.2 fun ty hok =>
      h1 (hbyte ▸ ((getOutputType_chunk_eq_ok hv h21 hlen1).1 hok).1)
    rw [hbyte]
    constructor
    · rintro ⟨-, hagree⟩
      refine ⟨fun h => absurd h h1, fun ⟨hlt, hl, n, hsz⟩ => ?_⟩
      have herr := not_ok_iff_error.1 (hagree hseveral).2 n
      exact absurd ((getDecompressedSize_chunk_eq_ok hv h21).2
        ⟨hl, by rw [hbyte]; exact hlt, hsz⟩) herr
    · intro hcond
      refine ⟨fun h => by omega, fun _ => ⟨htypeErr, not_ok_iff_error.2 fun n hok => ?_⟩⟩
      obtain ⟨hl, hlt, hsz⟩ := (getDecompressedSize_chunk_eq_ok hv h21).1 hok
      rw [hbyte] at hlt
      exact h1 (hcond.2 ⟨hlt, hl, n, hsz⟩)

theorem decodeNbOutputs15_ok {t : OutputTokens} (h : decodeNbOutputs15 s = .ok (t, s')) :
    ∃ token tail, s = token :: tail ∧ 4 ≤ tail.length ∧ (t.nbOutputs = 1 ↔ token.toNat < 64) ∧
      (token.toNat < 64 → t.token1 = token.toNat ∧ s' = tail) := by
  obtain ⟨_, _, havail, h⟩ := run_bind_eq_ok.1 h
  cases havail
  obtain ⟨_, s₁, hcheck, hrun⟩ := run_bind_eq_ok.1 h
  obtain ⟨hlen, rfl⟩ := run_failIf_eq_ok.1 hcheck
  obtain ⟨token, tail, hpop, h⟩ := run_bind_eq_ok.1 hrun
  have hs := popByte_ok hpop
  have hcount : token.toNat >>> 6 = token.toNat / 64 := Nat.shiftRight_eq_div_pow _ 6
  rw [hs, List.length_cons] at hlen
  refine ⟨token, tail, hs, by omega, ?_⟩
  simp only [hcount] at h
  split at h
  · have hbig : 64 ≤ token.toNat := by omega
    have hnb : t.nbOutputs ≠ 1 := by
      obtain ⟨token2, s₂, -, h⟩ := run_bind_eq_ok.1 h
      split at h
      · obtain ⟨token3, s₃, -, h⟩ := run_bind_eq_ok.1 h
        split at h
        · obtain ⟨token4, s₄, -, h⟩ := run_bind_eq_ok.1 h
          obtain ⟨rfl, -⟩ := run_pure_eq_ok.1 h
          simp only
          omega
        · obtain ⟨rfl, -⟩ := run_pure_eq_ok.1 h
          simp only
          omega
      · obtain ⟨rfl, -⟩ := run_pure_eq_ok.1 h
        simp only
        omega
    exact ⟨⟨fun h1 => absurd h1 hnb, fun h1 => by omega⟩, fun h1 => by omega⟩
  · obtain ⟨rfl, rfl⟩ := run_pure_eq_ok.1 h
    exact ⟨⟨fun h1 => by simp only at h1; omega, fun h1 => by simp only; omega⟩,
      fun _ => ⟨rfl, rfl⟩⟩

section beforeChunks

variable {v : Nat} {cSrc : List UInt8} (hold : v < CHUNK_VERSION_MIN)

include hold

theorem bundleIDFieldLen_old : bundleIDFieldLen v cSrc = 0 := by
  have hlt : v < 21 := hold
  rw [bundleIDFieldLen, if_neg]
  unfold MATERIALIZED_DICT_VERSION_MIN
  omega

theorem tokenOffset_old : tokenOffset v cSrc = 4 := by
  rw [tokenOffset, bundleIDFieldLen_old hold, if_neg (by omega)]

theorem singleSizeOffset_old : singleSizeOffset v cSrc = 4 + if v > 13 then 1 else 0 := by
  rw [singleSizeOffset, bundleIDFieldLen_old hold, if_neg (show ¬ v ≥ CHUNK_VERSION_MIN by omega)]
  rfl

theorem getDecompressedSize_old (hv : getFormatVersionFromFrame cSrc = .ok v)
    (hlen : singleSizeOffset v cSrc + 4 ≤ cSrc.length) :
    getDecompressedSize cSrc = if v > 14 ∧ byteAt cSrc 4 ≥ 64 then
      .error .invalidRequest_singleOutputFrameOnly
      else .ok (ofLE ((cSrc.drop (singleSizeOffset v cSrc)).take 4)) := by
  have hfour : 4 ≤ singleSizeOffset v cSrc := by
    rw [singleSizeOffset_old hold]
    omega
  rw [getDecompressedSize, hv, ok_bind, getDecompressedSizeV3orMore, failWhen_of_not _ (by omega),
    ok_bind, failWhen_of_not _ (by unfold MATERIALIZED_DICT_VERSION_MIN; omega), ok_bind]
  simp only
  rw [failWhen_of_not _ (by omega), ok_bind, tokenOffset_old hold, if_pos hold]
  split
  · rename_i hc
    rw [failWhen_of _ hc]
    rfl
  · rename_i hc
    rw [failWhen_of_not _ hc]
    rfl

theorem noFlags_old {s s₁ s₂ : List UInt8} {id : UniqueID}
    (hflags : decodeFrameFlags v s = .ok (properties, s₁))
    (hbundle : decodeBundleID properties s₁ = .ok (id, s₂)) : s₂ = s := by
  rw [decodeFrameFlags, if_neg (by omega)] at hflags
  obtain ⟨rfl, rfl⟩ := run_pure_eq_ok.1 hflags
  rcases decodeBundleID_ok hbundle with ⟨hb, -⟩ | ⟨-, rfl⟩
  · cases hb
  · rfl

theorem shortcuts_before14 {mid : List UInt8} {zfi : FrameInfo} (h14 : v < 14)
    (hv : getFormatVersionFromFrame cSrc = .ok v)
    (hf : decodeFrameFields v (cSrc.drop 4) = .ok (zfi, mid)) :
    ShortcutsAgree cSrc zfi := by
  obtain ⟨-, s₁, s₂, t, s₃, s₄, s₅, hflags, hbundle, hnb, hne, htypes, hsizes⟩ :=
    decodeFrameFields_ok hf
  obtain rfl := noFlags_old hold hflags hbundle
  rw [decodeNbOutputs, if_pos (by omega), if_neg (by omega)] at hnb
  obtain ⟨rfl, rfl⟩ := run_pure_eq_ok.1 hnb
  rw [decoderOutputTypes, if_pos h14] at htypes
  obtain ⟨hty, rfl⟩ := run_pure_eq_ok.1 htypes
  rw [decodeOutputSizes, if_pos hold, ← hty] at hsizes
  obtain ⟨hlen, hsize⟩ := decodeOutputSizes20_single hsizes
  have hoffset : singleSizeOffset v cSrc = 4 := by
    rw [singleSizeOffset_old hold, if_neg (by omega)]
  rw [List.length_drop] at hlen
  refine ⟨fun _ => ⟨_, _, hty.symm, hsize, ?_, ?_⟩, fun h2 => ?_⟩
  · rw [getOutputType, hv, ok_bind, if_pos (by omega)]
    rfl
  · rw [getDecompressedSize_old hold hv (by omega), if_neg (by omega), hoffset]
  · rw [FrameInfo.nbOutputs, ← hty] at h2
    simp at h2

theorem shortcuts_old_single {s₃ s₄ s₅ : List UInt8} {zfi : FrameInfo} {token : UInt8}
    {t : OutputTokens} (h14 : 14 ≤ v) (hv : getFormatVersionFromFrame cSrc = .ok v)
    (hdrop : cSrc.drop 4 = token :: s₃) (hn : t.nbOutputs = 1)
    (htoken : t.token1 = token.toNat)
    (htypes : decoderOutputTypes v t s₃ = .ok (zfi.types, s₄))
    (hsizes : decodeOutputSizes v zfi.types s₄ = .ok ((zfi.decompressedSizes, zfi.numElts), s₅)) :
    ShortcutsAgree cSrc zfi ↔ byteAt cSrc 4 ≤ 3 := by
  have hbyte := byteAt_of_drop hdrop
  have hlen := length_of_drop hdrop (by simp)
  rw [List.length_cons] at hlen
  rw [decoderOutputTypes, if_neg (by omega), if_pos hold, hn] at htypes
  simp only [Nat.min_eq_left (show 1 ≤ 3 by omega), if_neg (show ¬ 1 > 3 by omega),
    if_neg (show ¬ 1 > 5 by omega)] at htypes
  obtain ⟨hty, rfl⟩ := run_pure_eq_ok.1 htypes
  have hty' : zfi.types = [decodeType (token.toNat &&& 3)] := by
    rw [← hty, htoken]
    rfl
  rw [decodeOutputSizes, if_pos hold, hty'] at hsizes
  obtain ⟨hlen4, hsize⟩ := decodeOutputSizes20_single hsizes
  have hoffset : singleSizeOffset v cSrc = 5 := by
    rw [singleSizeOffset_old hold, if_pos (by omega)]
  have hfive : cSrc.drop 5 = s₃ := by
    rw [show 5 = 4 + 1 from rfl, ← List.drop_drop, hdrop]
    rfl
  have hone : zfi.nbOutputs = 1 := by
    rw [FrameInfo.nbOutputs, hty']
    rfl
  have htype : getOutputType cSrc =
      (do failWhen (byteAt cSrc 4 > 3) .invalidRequest_singleOutputFrameOnly
          return decodeType (byteAt cSrc 4)) := by
    rw [getOutputType, hv, ok_bind, if_neg (by omega), if_pos hold, getOutputType14,
      failWhen_of_not _ (by omega), ok_bind]
  constructor
  · rintro ⟨hagree, -⟩
    obtain ⟨ty, size, -, -, hok, -⟩ := hagree hone
    rw [htype] at hok
    obtain ⟨_, hle, -⟩ := bind_eq_ok.1 hok
    have hle := failWhen_eq_ok.1 hle
    omega
  · intro hle
    have hmask : token.toNat &&& 3 = token.toNat := by
      have h := Nat.and_two_pow_sub_one_eq_mod token.toNat 2
      norm_num at h
      omega
    refine ⟨fun _ => ⟨_, _, hty', hsize, ?_, ?_⟩, fun h2 => by omega⟩
    · rw [htype, failWhen_of_not _ (by omega), ok_bind, hbyte, hmask]
      rfl
    · rw [getDecompressedSize_old hold hv (by omega), if_neg (by omega), hoffset, hfive]

theorem shortcuts_from14 {mid : List UInt8} {zfi : FrameInfo} (h14 : 14 ≤ v)
    (hv : getFormatVersionFromFrame cSrc = .ok v)
    (hf : decodeFrameFields v (cSrc.drop 4) = .ok (zfi, mid)) :
    ShortcutsAgree cSrc zfi ↔ byteAt cSrc 4 ≤ 3 ∨ (v ≠ 14 ∧ 64 ≤ byteAt cSrc 4) := by
  obtain ⟨-, s₁, s₂, t, s₃, s₄, s₅, hflags, hbundle, hnb, hne, htypes, hsizes⟩ :=
    decodeFrameFields_ok hf
  obtain rfl := noFlags_old hold hflags hbundle
  have hcount : zfi.nbOutputs = t.nbOutputs :=
    decoderOutputTypes_length htypes (fun h => by omega)
  rw [decodeNbOutputs] at hnb
  split at hnb
  · rename_i hle
    have h14' : v = 14 := by omega
    rw [if_pos h14'] at hnb
    obtain ⟨token, tail, hpop, hnb⟩ := run_bind_eq_ok.1 hnb
    obtain ⟨rfl, rfl⟩ := run_pure_eq_ok.1 hnb
    rw [shortcuts_old_single hold h14 hv (popByte_ok hpop) rfl rfl htypes hsizes]
    omega
  · rename_i hgt
    obtain ⟨token, tail, hdrop, hlen, hone, hsingle⟩ := decodeNbOutputs15_ok hnb
    have hbyte := byteAt_of_drop hdrop
    by_cases hlt : token.toNat < 64
    · obtain ⟨htoken, rfl⟩ := hsingle hlt
      rw [shortcuts_old_single hold h14 hv hdrop (hone.2 hlt) htoken htypes hsizes]
      omega
    · have hlength := length_of_drop hdrop (by simp)
      rw [List.length_cons] at hlength
      have hoffset : singleSizeOffset v cSrc = 5 := by
        rw [singleSizeOffset_old hold, if_pos (by omega)]
      refine iff_of_true ⟨fun h => by omega, fun _ => ⟨?_, ?_⟩⟩ (Or.inr ⟨by omega, by omega⟩)
      · rw [getOutputType, hv, ok_bind, if_neg (by omega), if_pos hold, getOutputType14,
          failWhen_of_not _ (by omega), ok_bind, failWhen_of _ (by omega)]
        exact ⟨_, rfl⟩
      · rw [getDecompressedSize_old hold hv (by omega), if_pos ⟨by omega, by omega⟩]
        exact ⟨_, rfl⟩

end beforeChunks

/-- **The shortcuts agree with the parser** exactly under `ShortcutsCondition`, for every frame
whose header is parsed. -/
theorem shortcuts_agree_iff {xxh3 : List UInt8 → Nat} {cSrc rest : List UInt8} {zfi : FrameInfo}
    (h : decodeFrameHeader xxh3 cSrc = .ok (zfi, rest)) :
    ShortcutsAgree cSrc zfi ↔ ShortcutsCondition zfi.formatVersion cSrc := by
  obtain ⟨v, fields, mid, hv, hf, -, rfl⟩ := decodeFrameHeader_ok h
  have hversion : fields.formatVersion = v := (decodeFrameFields_ok hf).1
  change ShortcutsAgree cSrc fields ↔ ShortcutsCondition fields.formatVersion cSrc
  rw [hversion]
  by_cases h21 : v < CHUNK_VERSION_MIN
  · have hlt : v < 21 := h21
    unfold ShortcutsCondition
    rw [tokenOffset_old h21]
    by_cases h14 : v < 14
    · rw [if_pos h14]
      exact iff_of_true (shortcuts_before14 h21 h14 hv hf) trivial
    · rw [shortcuts_from14 h21 (by omega) hv hf, if_neg h14, if_pos h21]
      split
      · omega
      · omega
  · exact shortcuts_chunk hv (by omega) hf

/-- A frame of version 21 with an output of structures and a serial one, of 4 and 6 bytes. -/
def twoOutputsFrame : List UInt8 := [213, 165, 177, 215, 0, 18, 5, 7, 0, 0]

/-- `ZL_getDecompressedSize` takes a frame with two outputs for one with a single output. -/
theorem twoOutputsFrame_accepted :
    (∃ zfi, decodeFrameHeader List.length twoOutputsFrame = .ok (zfi, [0, 0]) ∧
      zfi.types = [.struct, .serial] ∧ ¬ ShortcutsAgree twoOutputsFrame zfi) ∧
    getDecompressedSize twoOutputsFrame = .ok 4 := by
  have hparse : decodeFrameHeader List.length twoOutputsFrame =
      .ok (⟨21, noProperties, [.struct, .serial], [4, 6], some [0, 6], 8, [], UniqueID.zero⟩,
        [0, 0]) := by decide +kernel
  have hsize : getDecompressedSize twoOutputsFrame = .ok 4 := by decide
  refine ⟨⟨_, hparse, rfl, ?_⟩, hsize⟩
  rintro ⟨-, hseveral⟩
  obtain ⟨-, e, herr⟩ := hseveral (by decide)
  rw [hsize] at herr
  cases herr

/-- Where the condition holds, here for a single serial output of 4 bytes, they do agree. -/
theorem shortcuts_agree_iff_single :
    decodeFrameHeader List.length [213, 165, 177, 215, 0, 1, 5, 0, 0, 0] =
        .ok (⟨21, noProperties, [.serial], [4], some [4], 7, [], UniqueID.zero⟩, [0, 0, 0]) ∧
      ShortcutsAgree [213, 165, 177, 215, 0, 1, 5, 0, 0, 0]
        ⟨21, noProperties, [.serial], [4], some [4], 7, [], UniqueID.zero⟩ := by
  have hparse : decodeFrameHeader List.length [213, 165, 177, 215, 0, 1, 5, 0, 0, 0] =
      .ok (⟨21, noProperties, [.serial], [4], some [4], 7, [], UniqueID.zero⟩, [0, 0, 0]) := by
    decide +kernel
  refine ⟨hparse, (shortcuts_agree_iff hparse).2 ?_⟩
  exact iff_of_true (by decide) ⟨by decide, by decide, 4, ⟨[0, 0, 0], by decide⟩, by decide⟩

end OpenZL.Decompress
