import Mathlib.Algebra.GroupWithZero.Nat
import Mathlib.Data.Nat.Log

/-!
# Error codes, limits and versions

What the wire format, the compressor and the decompressor share: `ZL_ErrorCode`
(`zl_errors_types.h`), the version-dependent limits of `limits.c`, the version constants of
`zl_version.h` and the small helpers of `bits.h` and `wire_format.c` that the headers are built on.

Principal results: `le_two_pow_nextPow2`, `nextPow2_le`.
-/

namespace OpenZL

/-- `ZL_ErrorCode`, the codes the modelled functions raise. -/
inductive ErrorCode where
  | GENERIC
  | srcSize_tooSmall
  | srcSize_tooLarge
  | dstCapacity_tooSmall
  | userBuffer_alignmentIncorrect
  | decompression_incorrectAPI
  | userBuffers_invalidNum
  | header_unknown
  | frameParameter_unsupported
  | corruption
  | compressedChecksumWrong
  | contentChecksumWrong
  | outputs_tooNumerous
  | compressionParameter_invalid
  | parameter_invalid
  | outputID_invalid
  | invalidRequest_singleOutputFrameOnly
  | outputNotCommitted
  | outputNotReserved
  | segmenter_inputNotConsumed
  | segmenter_noSegments
  | graph_invalid
  | graph_invalidNumInputs
  | invalidTransform
  | successor_invalid
  | successor_alreadySet
  | successor_invalidNumInputs
  | inputType_unsupported
  | nodeParameter_invalid
  | nodeParameter_invalidValue
  | transform_executionFailure
  | node_unexpected_input_type
  | node_invalid_input
  | node_invalid
  | nodeExecution_invalidOutputs
  | nodeRegen_countIncorrect
  | formatVersion_unsupported
  | formatVersion_notSet
  | node_versionMismatch
  | allocation
  | internalBuffer_tooSmall
  | integerOverflow
  | stream_wrongInit
  | streamType_incorrect
  | streamCapacity_tooSmall
  | streamParameter_invalid
  | logicError
  | invalidName
  | graph_nonserializable
  | graphParameter_invalid
  | temporaryLibraryLimitation
  deriving DecidableEq, Repr

/-- `ZL_Type`. -/
inductive DataType where
  | serial
  | struct
  | numeric
  | string
  deriving DecidableEq, Repr

/-- `ZL_TernaryParam`. -/
inductive TernaryParam where
  | auto
  | enable
  | disable
  deriving DecidableEq, Repr

/-- Largest value of a `uint32_t`. -/
def UINT32_MAX : Nat := 2 ^ 32 - 1

def MIN_FORMAT_VERSION : Nat := 8
def MAX_FORMAT_VERSION : Nat := 27
def CHUNK_VERSION_MIN : Nat := 21
def COMMENT_VERSION_MIN : Nat := 22
def MATERIALIZED_DICT_VERSION_MIN : Nat := 25

/-- `ZL_isFormatVersionSupported`. -/
def isFormatVersionSupported (version : Nat) : Prop :=
  MIN_FORMAT_VERSION ≤ version ∧ version ≤ MAX_FORMAT_VERSION

instance (version : Nat) : Decidable (isFormatVersionSupported version) :=
  inferInstanceAs (Decidable (_ ∧ _))

def ENCODER_INPUT_LIMIT : Nat := 2048
def ENCODER_TRANSFORM_HEADER_SIZE_LIMIT : Nat := 1000000
def MAX_HEADER_COMMENT_SIZE_LIMIT : Nat := 10000
def MAX_DICTS_PER_BUNDLE : Nat := 0xFFFF
def DICT_INDEX_NONE : Nat := UINT32_MAX
def UNIQUE_ID_SIZE : Nat := 32

/-- `ZL_runtimeInputLimit`. -/
def runtimeInputLimit (formatVersion : Nat) : Nat := if formatVersion ≤ 14 then 1 else 2048

/-- `ZL_runtimeNodeInputLimit`. -/
def runtimeNodeInputLimit (formatVersion : Nat) : Nat :=
  if formatVersion ≤ 15 then 1 else runtimeInputLimit formatVersion

/-- `ZL_runtimeNodeLimit`. -/
def runtimeNodeLimit (formatVersion : Nat) : Nat :=
  if formatVersion < 9 then 256 else if formatVersion < 20 then 10000 else 20000

/-- `ZL_runtimeStreamLimit`. -/
def runtimeStreamLimit (formatVersion : Nat) : Nat :=
  if formatVersion < 9 then 256 else if formatVersion < 16 then 10000 else 110000

/-- `ZL_transformOutStreamsLimit`. -/
def transformOutStreamsLimit (formatVersion : Nat) : Nat :=
  if formatVersion < 9 then 32 else if formatVersion < 16 then 1024 else 100000

theorem runtimeNodeLimit_le (v : Nat) : runtimeNodeLimit v ≤ 20000 := by
  unfold runtimeNodeLimit
  split <;> [omega; split <;> omega]

theorem runtimeStreamLimit_le (v : Nat) : runtimeStreamLimit v ≤ 110000 := by
  unfold runtimeStreamLimit
  split <;> [omega; split <;> omega]

theorem runtimeNodeInputLimit_le (v : Nat) : runtimeNodeInputLimit v ≤ 2048 := by
  unfold runtimeNodeInputLimit runtimeInputLimit
  split <;> [omega; split <;> omega]

/-- `ZL_nextPow2`: `64 - clz64 (upperBound - 1)` is the bit length of `upperBound - 1`. -/
def nextPow2 (upperBound : Nat) : Nat :=
  if upperBound ≤ 1 then 0 else (upperBound - 1).log2 + 1

theorem le_two_pow_nextPow2 (n : Nat) : n ≤ 2 ^ nextPow2 n := by
  unfold nextPow2
  split
  · rw [Nat.pow_zero]
    assumption
  · have h := Nat.lt_log2_self (n := n - 1)
    omega

theorem nextPow2_le {n k : Nat} (h : n ≤ 2 ^ k) : nextPow2 n ≤ k := by
  unfold nextPow2
  split
  · exact Nat.zero_le k
  · rename_i h1
    have hlog : (n - 1).log2 < k := (Nat.log2_lt (by omega)).2 (by omega)
    omega

/-- `ZL_StandardTransformID_end`. -/
def StandardTransformID_end : Nat := 128

/-- `ZL_StandardTransformID_numBits`. -/
def StandardTransformID_numBits (formatVersion : Nat) : Nat :=
  if formatVersion < 24 then nextPow2 64 else nextPow2 StandardTransformID_end

theorem StandardTransformID_numBits_le (v : Nat) : StandardTransformID_numBits v ≤ 7 := by
  unfold StandardTransformID_numBits
  split <;> exact nextPow2_le (by decide)

theorem two_pow_numBits_le (v : Nat) :
    2 ^ StandardTransformID_numBits v ≤ StandardTransformID_end :=
  Nat.pow_le_pow_right (by decide) (StandardTransformID_numBits_le v)

end OpenZL
