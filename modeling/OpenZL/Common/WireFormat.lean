import OpenZL.Common.Basic
import OpenZL.Lib.LittleEndian
import Mathlib.Data.List.TakeWhile

/-!
# Wire format vocabulary (`wire_format.h`, `wire_format.c`)

The magic number, the frame properties and the identification of codecs, shared by the encoder
and the decoder of headers.

Principal results: `getFormatVersionFromMagic_getMagicNumber`,
`getFormatVersionFromMagic_supported`.
-/

namespace OpenZL

open OpenZL.Lib

/-- `ZSTRONG_MAGIC_NUMBER_BASE`. -/
def MAGIC_NUMBER_BASE : Nat := 0xD7B1A5C0

/-- `ZL_getMagicNumber`. -/
def getMagicNumber (version : Nat) : Nat := MAGIC_NUMBER_BASE + version

/-- `ZL_getFormatVersionFromMagic`. -/
def getFormatVersionFromMagic (magic : Nat) : Except ErrorCode Nat :=
  if magic < MAGIC_NUMBER_BASE ∨ magic > MAGIC_NUMBER_BASE + MAX_FORMAT_VERSION + 16 then
    .error .header_unknown
  else if magic < MAGIC_NUMBER_BASE + MIN_FORMAT_VERSION then .error .formatVersion_unsupported
  else if magic > MAGIC_NUMBER_BASE + MAX_FORMAT_VERSION then .error .formatVersion_unsupported
  else .ok (magic - MAGIC_NUMBER_BASE)

/-- `ZL_getFormatVersionFromFrame`. -/
def getFormatVersionFromFrame (src : List UInt8) : Except ErrorCode Nat :=
  if src.length < 4 then .error .srcSize_tooSmall
  else getFormatVersionFromMagic (ofLE (src.take 4))

def CHUNK_HEADER_SIZE_MIN : Nat := 2
def FRAME_HEADER_SIZE_MIN : Nat := 9

/-- `ZL_FrameProperties`. -/
structure FrameProperties where
  hasContentChecksum : Bool
  hasCompressedChecksum : Bool
  hasComment : Bool
  hasBundleID : Bool
  deriving DecidableEq, Repr

/-- `TransformType_e`. -/
inductive TransformType where
  | standard
  | custom
  deriving DecidableEq, Repr

/-- The numeric value of a `TransformType_e`. -/
def TransformType.toNat : TransformType → Nat
  | .standard => 0
  | .custom => 1

/-- `PublicTransformInfo`. -/
structure PublicTransformInfo where
  trt : TransformType
  trid : Nat
  deriving DecidableEq, Repr

/-- `ZL_UniqueID`: 32 bytes. -/
structure UniqueID where
  bytes : List UInt8
  length_eq : bytes.length = UNIQUE_ID_SIZE
  deriving DecidableEq, Repr

namespace UniqueID

/-- `ZL_UniqueID_zero`. -/
def zero : UniqueID := ⟨List.replicate UNIQUE_ID_SIZE 0, List.length_replicate⟩

/-- `ZL_UniqueID_isValid`. -/
def isValid (id : UniqueID) : Bool := id.bytes.any (· ≠ 0)

/-- `ZL_UniqueID_significantBytes`: the position after the last non-zero byte. -/
def significantBytes (id : UniqueID) : Nat := (id.bytes.reverse.dropWhile (· = 0)).length

/-- An ID from its first bytes, the others being zero (`memset` then `memcpy`). -/
def ofSignificant (bs : List UInt8) : UniqueID where
  bytes := (bs ++ List.replicate UNIQUE_ID_SIZE 0).take UNIQUE_ID_SIZE
  length_eq := by
    rw [List.length_take, List.length_append, List.length_replicate]
    omega

end UniqueID

theorem takeWhile_zero_eq_replicate (l : List UInt8) :
    l.takeWhile (· = 0) = List.replicate (l.takeWhile (· = 0)).length 0 :=
  List.eq_replicate_of_mem fun b hb => by simpa using List.mem_takeWhile_imp hb

theorem UniqueID.bytes_eq (id : UniqueID) :
    ∃ k, id.bytes = id.bytes.take id.significantBytes ++ List.replicate k 0 := by
  have hsplit := List.takeWhile_append_dropWhile (p := fun b : UInt8 => decide (b = 0))
    (l := id.bytes.reverse)
  have hrev := congrArg List.reverse hsplit
  rw [List.reverse_append, List.reverse_reverse] at hrev
  refine ⟨(id.bytes.reverse.takeWhile (· = 0)).length, ?_⟩
  have hrep : (id.bytes.reverse.takeWhile (· = 0)).reverse =
      List.replicate (id.bytes.reverse.takeWhile (· = 0)).length 0 := by
    rw [takeWhile_zero_eq_replicate, List.reverse_replicate, List.length_replicate]
  have htake : id.bytes.take id.significantBytes =
      (id.bytes.reverse.dropWhile (· = 0)).reverse := by
    conv_lhs => rw [← hrev]
    rw [significantBytes, ← List.length_reverse, List.take_left]
  rw [htake, ← hrep, hrev]

theorem UniqueID.significantBytes_le (id : UniqueID) : id.significantBytes ≤ UNIQUE_ID_SIZE := by
  have h := (List.dropWhile_sublist (l := id.bytes.reverse) fun b => decide (b = 0)).length_le
  rw [List.length_reverse, id.length_eq] at h
  exact h

theorem UniqueID.ofSignificant_take (id : UniqueID) :
    ofSignificant (id.bytes.take id.significantBytes) = id := by
  obtain ⟨k, hk⟩ := id.bytes_eq
  have hle := id.significantBytes_le
  have hlen : (id.bytes.take id.significantBytes).length = id.significantBytes := by
    rw [List.length_take, id.length_eq]
    omega
  have hk' : id.significantBytes + k = UNIQUE_ID_SIZE := by
    have h := congrArg List.length hk
    rw [List.length_append, hlen, List.length_replicate, id.length_eq] at h
    exact h.symm
  have hbytes : (ofSignificant (id.bytes.take id.significantBytes)).bytes = id.bytes := by
    conv_rhs => rw [hk]
    change (id.bytes.take id.significantBytes ++ List.replicate UNIQUE_ID_SIZE 0).take
      UNIQUE_ID_SIZE = _
    rw [List.take_append, hlen, List.take_of_length_le (by omega), List.take_replicate]
    congr 2
    omega
  cases id
  exact (UniqueID.mk.injEq ..).mpr hbytes

theorem UniqueID.isValid_of_significantBytes {id : UniqueID} (h : id.significantBytes ≠ 0) :
    id.isValid = true := by
  by_contra hc
  have hall : ∀ b ∈ id.bytes.reverse, decide (b = 0) = true := by
    intro b hb
    by_contra hne
    exact hc (List.any_eq_true.2 ⟨b, List.mem_reverse.1 hb, by simpa using hne⟩)
  exact h (by rw [significantBytes, List.dropWhile_eq_nil_iff.2 hall, List.length_nil])

theorem getFormatVersionFromMagic_getMagicNumber {v : Nat} (h : isFormatVersionSupported v) :
    getFormatVersionFromMagic (getMagicNumber v) = .ok v := by
  obtain ⟨hmin, hmax⟩ := h
  unfold getFormatVersionFromMagic getMagicNumber
  rw [if_neg (by omega), if_neg (by omega), if_neg (by omega), Nat.add_sub_cancel_left]

theorem getFormatVersionFromMagic_supported {magic v : Nat}
    (h : getFormatVersionFromMagic magic = .ok v) :
    isFormatVersionSupported v ∧ magic = getMagicNumber v := by
  unfold getFormatVersionFromMagic at h
  split at h
  · cases h
  · split at h
    · cases h
    · split at h
      · cases h
      · have hv := Except.ok.inj h
        unfold isFormatVersionSupported getMagicNumber
        omega

end OpenZL
