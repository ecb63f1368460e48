import OpenZL.Codecs.BitpackDecodeFast
import OpenZL.Codecs.BitpackEncodeFast
import OpenZL.Codecs.BitpackKernel

/-!
# Bitpack is one format

`ZS_bitpackEncode` and `ZS_bitpackDecode` with all their paths, in a build with the BMI2 variants
(`fast`, the source's `ZS_HAS_FAST_BITPACK`) and in one without.

Principal results: `encode_canonical`, `decode_canonical`, `bitpack_canonical`, `committed8_eq`,
`committed32_eq`.
-/

namespace OpenZL.Codecs.Bitpack.InMemory

open OpenZL.Lib

/-- An encoder for the elements that `ZS_bitpackEncodeEdgeCase` leaves. -/
def afterEncodeEdgeCase (eltSize : Nat) (f : Encoder) : Encoder := fun dst src nbBits => do
  let ret ← bitpackEncodeEdgeCase dst src eltSize nbBits
  match ret with
  | some r => some r
  | none => f dst src nbBits

/-- `ZS_bitpackEncode8`. -/
def bitpackEncode8 (fast : Bool) : Encoder := afterEncodeEdgeCase 1 fun dst src nbBits =>
  if fast then bitpackEncode8T convert16U8ToU8 bitpackEncode8Generic dst src nbBits
  else bitpackEncode8Generic dst src nbBits

/-- `ZS_bitpackEncode16`. -/
def bitpackEncode16 (fast : Bool) : Encoder := afterEncodeEdgeCase 2 fun dst src nbBits =>
  if nbBits % 8 = 0 then bytepackEncode dst src nbBits
  else if fast then
    if nbBits ≤ 8 then bitpackEncode8T convert16U16ToU8 bitpackEncode16Generic dst src nbBits
    else bitpackEncode16T convert8U16ToU16 bitpackEncode16Generic dst src nbBits
  else bitpackEncode16Generic dst src nbBits

/-- `ZS_bitpackEncode32`. -/
def bitpackEncode32 (fast : Bool) : Encoder := afterEncodeEdgeCase 4 fun dst src nbBits =>
  if nbBits = 1 ∧ src.length ≤ 64 then bit1pack32 dst src nbBits
  else if nbBits % 8 = 0 then bytepackEncode dst src nbBits
  else if fast ∧ nbBits ≤ 8 then
    bitpackEncode8T convert16U32ToU8 bitpackEncode32Generic dst src nbBits
  else if fast ∧ nbBits ≤ 16 then
    bitpackEncode16T convert8U32ToU16 bitpackEncode32Generic dst src nbBits
  else bitpackEncode32Generic dst src nbBits

/-- `ZS_bitpackEncode64`. -/
def bitpackEncode64 (fast : Bool) : Encoder := afterEncodeEdgeCase 8 fun dst src nbBits =>
  if nbBits % 8 = 0 then bytepackEncode dst src nbBits
  else if fast ∧ nbBits ≤ 8 then
    bitpackEncode8T convert16U64ToU8 bitpackEncode64Generic dst src nbBits
  else if fast ∧ nbBits ≤ 16 then
    bitpackEncode16T convert8U64ToU16 bitpackEncode64Generic dst src nbBits
  else bitpackEncode64Generic dst src nbBits

/-- `ZS_bitpackEncode`. -/
def bitpackEncode (fast : Bool) (dst : List UInt8) (src : List Nat) (eltWidth nbBits : Nat) :
    Option (Nat × List UInt8) :=
  match eltWidth with
  | 1 => bitpackEncode8 fast dst src nbBits
  | 2 => bitpackEncode16 fast dst src nbBits
  | 4 => bitpackEncode32 fast dst src nbBits
  | 8 => bitpackEncode64 fast dst src nbBits
  | _ => none

/-- A decoder for the elements that `ZS_bitpackDecodeEdgeCase` leaves. -/
def afterDecodeEdgeCase (eltSize : Nat) (f : Decoder) : Decoder := fun nbElts src nbBits => do
  let ret ← bitpackDecodeEdgeCase nbElts src eltSize nbBits
  match ret with
  | some r => some r
  | none => f nbElts src nbBits

/-- `ZS_bitpackDecode8`. -/
def bitpackDecode8 (fast : Bool) : Decoder := afterDecodeEdgeCase 1 fun nbElts src nbBits =>
  if nbBits = 1 ∧ nbElts ≤ 64 then bit1depack nbElts src nbBits
  else if fast then bitpackDecode8T 1 convert16U8FromU8 bitpackDecode8Generic nbElts src nbBits
  else bitpackDecode8Generic nbElts src nbBits

/-- `ZS_bitpackDecode16`. -/
def bitpackDecode16 (fast : Bool) : Decoder := afterDecodeEdgeCase 2 fun nbElts src nbBits =>
  if nbBits = 8 then bytepackDecode nbElts src nbBits
  else if fast then
    if nbBits ≤ 8 then
      bitpackDecode8T 2 convert16U8ToU16 bitpackDecode16Generic nbElts src nbBits
    else bitpackDecode16T 2 convert8U16FromU16 bitpackDecode16Generic nbElts src nbBits
  else bitpackDecode16Generic nbElts src nbBits

/-- `ZS_bitpackDecode32`. -/
def bitpackDecode32 (fast : Bool) : Decoder := afterDecodeEdgeCase 4 fun nbElts src nbBits =>
  if nbBits = 1 ∧ nbElts ≤ 64 then bit1depack nbElts src nbBits
  else if nbBits % 8 = 0 then bytepackDecode nbElts src nbBits
  else if fast ∧ nbBits ≤ 8 then
    bitpackDecode8T 4 convert16U8ToU32 bitpackDecode32Generic nbElts src nbBits
  else if fast ∧ nbBits ≤ 16 then
    bitpackDecode16T 4 convert8U16ToU32 bitpackDecode32Generic nbElts src nbBits
  else bitpackDecode32Generic nbElts src nbBits

/-- `ZS_bitpackDecode64`. -/
def bitpackDecode64 (fast : Bool) : Decoder := afterDecodeEdgeCase 8 fun nbElts src nbBits =>
  if nbBits % 8 = 0 then bytepackDecode nbElts src nbBits
  else if fast ∧ nbBits ≤ 8 then
    bitpackDecode8T 8 convert16U8ToU64 bitpackDecode64Generic nbElts src nbBits
  else if fast ∧ nbBits ≤ 16 then
    bitpackDecode16T 8 convert8U16ToU64 bitpackDecode64Generic nbElts src nbBits
  else bitpackDecode64Generic nbElts src nbBits

/-- `ZS_bitpackDecode`. -/
def bitpackDecode (fast : Bool) (nbElts eltWidth : Nat) (src : List UInt8) (nbBits : Nat) :
    Option (Nat × List Nat) :=
  match eltWidth with
  | 1 => bitpackDecode8 fast nbElts src nbBits
  | 2 => bitpackDecode16 fast nbElts src nbBits
  | 4 => bitpackDecode32 fast nbElts src nbBits
  | 8 => bitpackDecode64 fast nbElts src nbBits
  | _ => none

section Paths

variable {fast : Bool} {nbBits eltSize : Nat}

theorem encodes_afterEdgeCase {f : Encoder} (hn : nbBits ≤ 8 * eltSize)
    (hf : 0 < nbBits → nbBits < 8 * eltSize → Encodes f nbBits) :
    Encodes (afterEncodeEdgeCase eltSize f) nbBits := by
  intro dst src hsrc hroom
  rcases edgeCase_spec hsrc hroom hn with ⟨hedge, h0, hlt⟩ | ⟨dst', hedge, hdone⟩
  · obtain ⟨dst', hrun, hdone⟩ := hf h0 hlt dst src hsrc hroom
    refine ⟨dst', ?_, hdone⟩
    rw [afterEncodeEdgeCase, hedge]
    exact hrun
  · refine ⟨dst', ?_, hdone⟩
    rw [afterEncodeEdgeCase, hedge]
    rfl

theorem decodes_afterEdgeCase {f : Decoder} (hn : nbBits ≤ 8 * eltSize)
    (hf : 0 < nbBits → nbBits < 8 * eltSize → Decodes f nbBits) :
    Decodes (afterDecodeEdgeCase eltSize f) nbBits := by
  intro n src hlen
  rcases decodeEdgeCase_spec hlen hn with ⟨hedge, h0, hlt⟩ | hedge
  · rw [afterDecodeEdgeCase, hedge]
    exact hf h0 hlt n src hlen
  · rw [afterDecodeEdgeCase, hedge]
    rfl

theorem encodes_bitpackEncode8 (hn : nbBits ≤ 8) : Encodes (bitpackEncode8 fast) nbBits := by
  refine encodes_afterEdgeCase hn fun _ _ dst src hsrc hroom => ?_
  split
  · exact (encodes_generic8 hn).bitpackEncode8T narrows_convert16U8ToU8 hn dst src hsrc hroom
  · exact encodes_generic8 hn dst src hsrc hroom

theorem encodes_bitpackEncode16 (hn : nbBits ≤ 16) : Encodes (bitpackEncode16 fast) nbBits := by
  refine encodes_afterEdgeCase hn fun _ _ dst src hsrc hroom => ?_
  split
  · rename_i hbytes
    exact encodes_bytepack hbytes dst src hsrc hroom
  · split
    · split
      · rename_i h8
        exact (encodes_generic16 hn).bitpackEncode8T narrows_convert16U16ToU8 h8 dst src hsrc hroom
      · exact (encodes_generic16 hn).bitpackEncode16T narrows_convert8U16ToU16 hn dst src hsrc hroom
    · exact encodes_generic16 hn dst src hsrc hroom

theorem encodes_bitpackEncode32 (hn : nbBits ≤ 32) : Encodes (bitpackEncode32 fast) nbBits := by
  refine encodes_afterEdgeCase hn fun h0 hlt dst src hsrc hroom => ?_
  have hgeneric := encodes_generic32 h0 hlt
  split
  · rename_i hone
    obtain ⟨rfl, hle⟩ := hone
    exact bit1pack32_spec hsrc hle hroom
  · split
    · rename_i hbytes
      exact encodes_bytepack hbytes dst src hsrc hroom
    · split
      · rename_i h8
        exact hgeneric.bitpackEncode8T narrows_convert16U32ToU8 h8.2 dst src hsrc hroom
      · split
        · rename_i h16
          exact hgeneric.bitpackEncode16T narrows_convert8U32ToU16 h16.2 dst src hsrc hroom
        · exact hgeneric dst src hsrc hroom

theorem encodes_bitpackEncode64 (hn : nbBits ≤ 64) : Encodes (bitpackEncode64 fast) nbBits := by
  refine encodes_afterEdgeCase hn fun h0 _ dst src hsrc hroom => ?_
  have hgeneric := encodes_generic64 h0 hn
  split
  · rename_i hbytes
    exact encodes_bytepack hbytes dst src hsrc hroom
  · split
    · rename_i h8
      exact hgeneric.bitpackEncode8T narrows_convert16U64ToU8 h8.2 dst src hsrc hroom
    · split
      · rename_i h16
        exact hgeneric.bitpackEncode16T narrows_convert8U64ToU16 h16.2 dst src hsrc hroom
      · exact hgeneric dst src hsrc hroom

theorem decodes_bitpackDecode8 (hn : nbBits ≤ 8) : Decodes (bitpackDecode8 fast) nbBits := by
  refine decodes_afterEdgeCase hn fun _ _ n src hlen => ?_
  split
  · rename_i hone
    obtain ⟨rfl, hle⟩ := hone
    exact bit1depack_spec hle hlen
  · split
    · exact (decodes_generic8 hn).bitpackDecode8T widens_convert16U8FromU8 hn n src hlen
    · exact decodes_generic8 hn n src hlen

theorem decodes_bitpackDecode16 (hn : nbBits ≤ 16) : Decodes (bitpackDecode16 fast) nbBits := by
  refine decodes_afterEdgeCase hn fun _ _ n src hlen => ?_
  split
  · rename_i hbytes
    subst hbytes
    exact decodes_bytepack (by decide) n src hlen
  · split
    · split
      · rename_i h8
        exact (decodes_generic16 hn).bitpackDecode8T widens_convert16U8ToU16 h8 n src hlen
      · exact (decodes_generic16 hn).bitpackDecode16T widens_convert8U16FromU16 hn n src hlen
    · exact decodes_generic16 hn n src hlen

theorem decodes_bitpackDecode32 (hn : nbBits ≤ 32) : Decodes (bitpackDecode32 fast) nbBits := by
  refine decodes_afterEdgeCase hn fun h0 hlt n src hlen => ?_
  have hgeneric := decodes_generic32 h0 hlt
  split
  · rename_i hone
    obtain ⟨rfl, hle⟩ := hone
    exact bit1depack_spec hle hlen
  · split
    · rename_i hbytes
      exact decodes_bytepack hbytes n src hlen
    · split
      · rename_i h8
        exact hgeneric.bitpackDecode8T widens_convert16U8ToU32 h8.2 n src hlen
      · split
        · rename_i h16
          exact hgeneric.bitpackDecode16T widens_convert8U16ToU32 h16.2 n src hlen
        · exact hgeneric n src hlen

theorem decodes_bitpackDecode64 (hn : nbBits ≤ 64) : Decodes (bitpackDecode64 fast) nbBits := by
  refine decodes_afterEdgeCase hn fun h0 _ n src hlen => ?_
  have hgeneric := decodes_generic64 h0 hn
  split
  · rename_i hbytes
    exact decodes_bytepack hbytes n src hlen
  · split
    · rename_i h8
      exact hgeneric.bitpackDecode8T widens_convert16U8ToU64 h8.2 n src hlen
    · split
      · rename_i h16
        exact hgeneric.bitpackDecode16T widens_convert8U16ToU64 h16.2 n src hlen
      · exact hgeneric n src hlen

end Paths

/-- The bits of the values one after another, least significant bit first, with zero bits to fill
up the last byte. -/
def packedBytes (nbBits : Nat) (src : List Nat) : List UInt8 :=
  bytesOf (src.flatMap (bitsOf nbBits))

section Format

variable {fast : Bool} {eltWidth nbBits : Nat} {src : List Nat}

theorem length_packedBytes (hsrc : ∀ v ∈ src, v < 2 ^ nbBits) :
    (packedBytes nbBits src).length = bitpackEncodeBound src.length nbBits := by
  rw [packedBytes, bytesOf_flatMap_bitsOf hsrc, length_toLE, bitpackEncodeBound]

/-- **Every path of the encoder** writes the same bytes. -/
theorem encode_canonical (fast : Bool) (hwidth : eltWidth ∈ [1, 2, 4, 8])
    (hn : nbBits ≤ 8 * eltWidth) (hsrc : ∀ v ∈ src, v < 2 ^ nbBits) {dst : List UInt8}
    (hroom : bitpackEncodeBound src.length nbBits ≤ dst.length) :
    ∃ dst', bitpackEncode fast dst src eltWidth nbBits =
        some (bitpackEncodeBound src.length nbBits, dst') ∧ dst'.length = dst.length ∧
      dst'.take (bitpackEncodeBound src.length nbBits) = packedBytes nbBits src := by
  have hencodes : ∃ f, Encodes f nbBits ∧
      bitpackEncode fast dst src eltWidth nbBits = f dst src nbBits := by
    simp only [List.mem_cons, List.not_mem_nil, or_false] at hwidth
    rcases hwidth with rfl | rfl | rfl | rfl
    · exact ⟨_, encodes_bitpackEncode8 hn, rfl⟩
    · exact ⟨_, encodes_bitpackEncode16 hn, rfl⟩
    · exact ⟨_, encodes_bitpackEncode32 hn, rfl⟩
    · exact ⟨_, encodes_bitpackEncode64 hn, rfl⟩
  obtain ⟨f, hf, heq⟩ := hencodes
  obtain ⟨dst', hrun, hlen, hstored⟩ := hf dst src hsrc hroom
  refine ⟨dst', heq.trans hrun, hlen, ?_⟩
  rw [packedBytes, bytesOf_flatMap_bitsOf hsrc]
  exact hstored

/-- **Every path of the decoder** returns the values from these bytes. -/
theorem decode_canonical (fast : Bool) (hwidth : eltWidth ∈ [1, 2, 4, 8])
    (hn : nbBits ≤ 8 * eltWidth) (hsrc : ∀ v ∈ src, v < 2 ^ nbBits) :
    bitpackDecode fast src.length eltWidth (packedBytes nbBits src) nbBits =
      some (bitpackEncodeBound src.length nbBits, src) := by
  have hdecodes : ∃ f, Decodes f nbBits ∧
      bitpackDecode fast src.length eltWidth (packedBytes nbBits src) nbBits =
        f src.length (packedBytes nbBits src) nbBits := by
    simp only [List.mem_cons, List.not_mem_nil, or_false] at hwidth
    rcases hwidth with rfl | rfl | rfl | rfl
    · exact ⟨_, decodes_bitpackDecode8 hn, rfl⟩
    · exact ⟨_, decodes_bitpackDecode16 hn, rfl⟩
    · exact ⟨_, decodes_bitpackDecode32 hn, rfl⟩
    · exact ⟨_, decodes_bitpackDecode64 hn, rfl⟩
  obtain ⟨f, hf, heq⟩ := hdecodes
  have hlen := length_packedBytes hsrc
  have hlt : Nat.ofDigits (2 ^ nbBits) src < 256 ^ ((src.length * nbBits + 7) / 8) := by
    rw [pow256]
    exact (ofDigits_lt hsrc).trans_le (Nat.pow_le_pow_right Nat.two_pos (by omega))
  rw [heq, hf src.length _ hlen.symm, hlen, packedBytes, bytesOf_flatMap_bitsOf hsrc, ofLE_toLE,
    Nat.mod_eq_of_lt hlt, fields_ofDigits hsrc]

/-- **One canonical format**: encoding stores exactly the packed bits and returns their size in
bytes, in every build and on every path, and decoding those bytes, in every build and on every
path, gives the values back. -/
theorem bitpack_canonical (fast fast' : Bool) (eltWidth nbBits : Nat)
    (hwidth : eltWidth ∈ [1, 2, 4, 8]) (hn : nbBits ≤ 8 * eltWidth) (src : List Nat)
    (hsrc : ∀ v ∈ src, v < 2 ^ nbBits) (dst : List UInt8)
    (hroom : bitpackEncodeBound src.length nbBits ≤ dst.length) :
    (∃ dst', bitpackEncode fast dst src eltWidth nbBits =
        some ((src.length * nbBits + 7) / 8, dst') ∧ dst'.length = dst.length ∧
      dst'.take ((src.length * nbBits + 7) / 8) = packedBytes nbBits src) ∧
    (packedBytes nbBits src).length = (src.length * nbBits + 7) / 8 ∧
    bitpackDecode fast' src.length eltWidth (packedBytes nbBits src) nbBits =
      some ((src.length * nbBits + 7) / 8, src) :=
  ⟨encode_canonical fast hwidth hn hsrc hroom, length_packedBytes hsrc,
    decode_canonical fast' hwidth hn hsrc⟩

/-- Nine 59-bit values, encoded without and decoded with the BMI2 variants. -/
theorem bitpack_canonical_wide :
    (∃ dst', bitpackEncode false (List.replicate 70 0) (List.replicate 9 (2 ^ 59 - 1)) 8 59 =
        some (67, dst') ∧ dst'.length = 70 ∧
      dst'.take 67 = packedBytes 59 (List.replicate 9 (2 ^ 59 - 1))) ∧
    (packedBytes 59 (List.replicate 9 (2 ^ 59 - 1))).length = 67 ∧
    bitpackDecode true 9 8 (packedBytes 59 (List.replicate 9 (2 ^ 59 - 1))) 59 =
      some (67, List.replicate 9 (2 ^ 59 - 1)) := by
  refine bitpack_canonical false true 8 59 (by decide) (by decide) _ ?_ _ (by decide)
  intro v hv
  rw [List.eq_of_mem_replicate hv]
  decide

end Format

section Committed

variable {nbBits : Nat} {src : List Nat} {dst dst' : List UInt8} {n : Nat}

theorem committed8_eq (hn : nbBits ≤ 8) (hsrc : ∀ v ∈ src, v < 2 ^ nbBits)
    (hroom : bitpackEncodeBound src.length nbBits ≤ dst.length)
    (h : bitpackEncode8 false dst src nbBits = some (n, dst')) :
    dst'.take n = Bitpack.bitpackEncode8 src nbBits := by
  obtain ⟨out, hrun, -, hstored⟩ := encodes_bitpackEncode8 hn dst src hsrc hroom
  obtain ⟨rfl, rfl⟩ := Prod.mk.inj (Option.some.inj (h.symm.trans hrun))
  rw [Bitpack.bitpackEncode8_spec hn hsrc]
  exact hstored

theorem committed32_eq (hn : nbBits ≤ 32) (hsrc : ∀ v ∈ src, v < 2 ^ nbBits)
    (hroom : bitpackEncodeBound src.length nbBits ≤ dst.length)
    (h : bitpackEncode32 false dst src nbBits = some (n, dst')) :
    dst'.take n = Bitpack.bitpackEncode32 src nbBits := by
  obtain ⟨out, hrun, -, hstored⟩ := encodes_bitpackEncode32 hn dst src hsrc hroom
  obtain ⟨rfl, rfl⟩ := Prod.mk.inj (Option.some.inj (h.symm.trans hrun))
  rw [Bitpack.bitpackEncode32_spec hn hsrc]
  exact hstored

end Committed

end OpenZL.Codecs.Bitpack.InMemory
