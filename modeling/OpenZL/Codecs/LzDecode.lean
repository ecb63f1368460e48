import OpenZL.Codecs.OverlapCopy
import OpenZL.Lib.Result
import OpenZL.Lib.VectorLanes

/-!
# LZ decoder

`decode_lz_kernel.c`: the reference loop, which takes one sequence at a time, and the fast loop,
which copies 32 bytes at a time and may leave a sequence half done for the reference routine to do
again.

Every access of the fast loop is checked against its buffer, and loops carry fuel, so that a
successful result also says that neither was exceeded.
-/

namespace OpenZL.Codecs.Lz

open OpenZL.Lib

/-- `ZL_LzError`, without `ok`. -/
inductive LzError
  | literalLengthTooLarge
  | notEnoughLiterals
  | offsetZero
  | offsetTooLarge
  | matchLengthTooLarge
  | literalsTooLarge
  | dstSizeTooLarge
  deriving DecidableEq, Repr

/-- How a decoder may stop: with an error of its own, or in a state that C leaves undefined. -/
inductive Stop
  | error (e : LzError)
  | outOfBounds
  | outOfFuel
  deriving DecidableEq, Repr

/-- `ZL_Lz_InSequences` -/
structure InSequences where
  literals : List UInt8
  numLiterals : Nat
  offsets : List Nat
  offsetsEltWidth : Nat
  literalLengths : List Nat
  literalLengthsEltWidth : Nat
  matchLengths : List Nat
  matchLengthsEltWidth : Nat
  numSequences : Nat
  numLiterals_le : numLiterals ≤ literals.length
  length_offsets : offsets.length = numSequences
  length_literalLengths : literalLengths.length = numSequences
  length_matchLengths : matchLengths.length = numSequences
  offsets_lt : ∀ v ∈ offsets, v < 2 ^ (8 * offsetsEltWidth)
  literalLengths_lt : ∀ v ∈ literalLengths, v < 2 ^ (8 * literalLengthsEltWidth)
  matchLengths_lt : ∀ v ∈ matchLengths, v < 2 ^ (8 * matchLengthsEltWidth)

/-- A sequence: literals, then a match. -/
structure Sequence where
  litLen : Nat
  offset : Nat
  matchLen : Nat
  deriving DecidableEq, Repr

/-- The sequence that is read at `seq`. -/
def InSequences.sequence (src : InSequences) (seq : Nat) : Sequence :=
  ⟨src.literalLengths.getD seq 0, src.offsets.getD seq 0, src.matchLengths.getD seq 0⟩

/-- `ZL_Lz_kLitCopyLen` -/
def kLitCopyLen : Nat := 32

/-- `ZL_Lz_kMatchCopyLen` -/
def kMatchCopyLen : Nat := 32

/-- `ZL_Lz_kLitSlop` -/
def kLitSlop : Nat := kLitCopyLen

/-- `ZL_Lz_kOutSlop` -/
def kOutSlop : Nat := kLitSlop + kMatchCopyLen

/-- A cast of 64 bits to `ptrdiff_t`. -/
def toPtrdiff (v : Nat) : Int := if v < 2 ^ 63 then v else (v : Int) - 2 ^ 64

/-- `dst[outPos + i] = dst[outPos + i - offset]`, for `count` values of `i`. -/
def copyBytes (dst : List UInt8) (outPos offset : Nat) : Nat → List UInt8
  | 0 => dst
  | count + 1 =>
      let dst := copyBytes dst outPos offset count
      dst.set (outPos + count) (dst.getD (outPos + count - offset) 0)

/-- `ZL_Lz_decode_sequence`: the output, `outPos` and `litPos` behind a sequence. -/
def decodeSequence (dst : List UInt8) (src : InSequences) (seq outPos litPos : Nat) :
    Except Stop (List UInt8 × Nat × Nat) :=
  let litLen := toPtrdiff (src.sequence seq).litLen
  let offset := toPtrdiff (src.sequence seq).offset
  let matchLen := toPtrdiff (src.sequence seq).matchLen
  if litLen > (src.numLiterals : Int) - litPos then .error (.error .notEnoughLiterals)
  else if litLen < 0 ∨ litLen > (dst.length : Int) - outPos then
    .error (.error .literalLengthTooLarge)
  else
    let dst := Buffer.write dst outPos (Buffer.read src.literals litPos litLen.toNat)
    let outPos := outPos + litLen.toNat
    let litPos := litPos + litLen.toNat
    if offset = 0 then .error (.error .offsetZero)
    else if offset > outPos ∨ offset < 0 then .error (.error .offsetTooLarge)
    else if matchLen < 0 ∨ matchLen > (dst.length : Int) - outPos then
      .error (.error .matchLengthTooLarge)
    else
      .ok (copyBytes dst outPos offset.toNat matchLen.toNat, outPos + matchLen.toNat, litPos)

/-- `ZL_Lz_decode_lastLiterals` -/
def decodeLastLiterals (dst : List UInt8) (src : InSequences) (outPos litPos : Nat) :
    Except Stop (List UInt8) :=
  if litPos > src.numLiterals then .error (.error .notEnoughLiterals)
  else
    let lastLits := src.numLiterals - litPos
    if lastLits > 0 ∧ outPos + lastLits > dst.length then .error (.error .literalsTooLarge)
    else
      let dst := Buffer.write dst outPos (Buffer.read src.literals litPos lastLits)
      if outPos + lastLits ≠ dst.length then .error (.error .dstSizeTooLarge) else .ok dst

/-- The loop of `ZL_Lz_decode_generic` over `n` sequences from `seq` on. -/
def decodeSequences (src : InSequences) :
    Nat → List UInt8 → Nat → Nat → Nat → Except Stop (List UInt8 × Nat × Nat)
  | 0, dst, _, outPos, litPos => .ok (dst, outPos, litPos)
  | n + 1, dst, seq, outPos, litPos => do
      let (dst, outPos, litPos) ← decodeSequence dst src seq outPos litPos
      decodeSequences src n dst (seq + 1) outPos litPos

/-- `ZL_Lz_decode_generic`; `dst` holds `dstSize` bytes, whatever they are. -/
def decodeGeneric (dst : List UInt8) (src : InSequences) : Except Stop (List UInt8) := do
  let (dst, outPos, litPos) ← decodeSequences src src.numSequences dst 0 0 0
  decodeLastLiterals dst src outPos litPos

/-- A computation that leaves its buffers or gives a value. -/
def inBounds {α : Type} : Option α → Except Stop α
  | none => .error .outOfBounds
  | some a => .ok a

/-- A load of `n` bytes. -/
def load (buf : List UInt8) (pos n : Nat) : Except Stop (List UInt8) :=
  inBounds (Buffer.load buf pos n)

/-- A store. -/
def store (buf : List UInt8) (pos : Nat) (bytes : List UInt8) : Except Stop (List UInt8) :=
  inBounds (Buffer.store buf pos bytes)

/-- `copyNonOverlapping`: all bytes are loaded before any is stored. -/
def copyNonOverlapping (dst : List UInt8) (pos : Nat) (src : List UInt8) (srcPos kLength : Nat) :
    Except Stop (List UInt8) := do
  let tmp ← load src srcPos kLength
  store dst pos tmp

/-- The loop of `ZL_LZ_COPY_LOOP`, with what was copied so far. -/
def copyWhile {σ : Type} (copy : Nat → σ → Except Stop σ) (kCopyLength length : Nat) :
    Nat → Nat → σ → Except Stop σ
  | 0, _, _ => .error .outOfFuel
  | fuel + 1, copied, s => do
      let s ← copy copied s
      let copied := copied + kCopyLength
      if copied < length then copyWhile copy kCopyLength length fuel copied s else .ok s

/-- `ZL_LZ_COPY_LOOP`: what was copied to, and whether it leaves by `goto _exit`. -/
def copyLoop {σ : Type} (copy : Nat → σ → Except Stop σ) (kCopyLength length : Nat)
    (shouldExit : Bool) (s : σ) : Except Stop (σ × Bool) := do
  let s ← copy 0 s
  if length > kCopyLength then
    if shouldExit then .ok (s, true)
    else do
      let s ← copyWhile copy kCopyLength length length kCopyLength s
      .ok (s, false)
  else .ok (s, false)

/-- `ZL_LZ_COPY_LITERALS` -/
def copyLiterals (dst : List UInt8) (outPos : Nat) (lits : List UInt8) (litPos length : Nat)
    (shouldExit : Bool) : Except Stop (List UInt8 × Bool) :=
  copyLoop (fun copied dst =>
    copyNonOverlapping dst (outPos + copied) lits (litPos + copied) kLitCopyLen)
    kLitCopyLen length shouldExit dst

/-- `ZL_LZ_COPY_MATCH_NON_OVERLAPPING` -/
def copyMatchNonOverlapping (dst : List UInt8) (outMatch m length kCopyLength : Nat)
    (shouldExit : Bool) : Except Stop (List UInt8 × Bool) :=
  copyLoop (fun copied dst =>
    copyNonOverlapping dst (outMatch + copied) dst (m + copied) kCopyLength)
    kCopyLength length shouldExit dst

/-- `kPatternGeneration` -/
def kPatternGeneration (offset : Nat) : List UInt8 :=
  if offset = 0 then List.replicate 16 0x80
  else (List.range 16).map fun pos => UInt8.ofNat (pos % offset)

/-- `kPatternReshuffle` -/
def kPatternReshuffle (offset : Nat) : List UInt8 :=
  if offset = 0 then List.replicate 16 0x80
  else (List.range 16).map fun pos => UInt8.ofNat ((16 + pos) % offset)

/-- `loadPattern` -/
def loadPattern (src : List UInt8) (pos offset : Nat) : Except Stop (List UInt8) := do
  let data ← load src pos 16
  .ok (Simd.pshufb data (kPatternGeneration offset))

/-- `copyPattern2x16` -/
def copyPattern2x16 (dst : List UInt8) (pos : Nat) (pattern : List UInt8) :
    Except Stop (List UInt8) := do
  let dst ← store dst pos pattern
  store dst (pos + 16) pattern

/-- `copyPatternWithReshuffle2x16`: the output, and the pattern to go on with. -/
def copyPatternWithReshuffle2x16 (dst : List UInt8) (pos : Nat) (pattern reshuffle : List UInt8) :
    Except Stop (List UInt8 × List UInt8) := do
  let dst ← store dst pos pattern
  let pattern := Simd.pshufb pattern reshuffle
  let dst ← store dst (pos + 16) pattern
  .ok (dst, Simd.pshufb pattern reshuffle)

/-- `ZL_LZ_COPY_MATCH_OVERLAPPING_OFFSET_1` -/
def copyMatchOverlappingOffset1 (dst : List UInt8) (outMatch m length : Nat) (shouldExit : Bool) :
    Except Stop (List UInt8 × Bool) := do
  let first ← load dst m 1
  -- `_mm256_set1_epi8`
  let pattern := List.replicate 32 (first.headD 0)
  copyLoop (fun copied dst => store dst (outMatch + copied) pattern) 32 length shouldExit dst

/-- `ZL_LZ_COPY_MATCH_OVERLAPPING_POW2` -/
def copyMatchOverlappingPow2 (dst : List UInt8) (outMatch m offset length : Nat)
    (shouldExit : Bool) : Except Stop (List UInt8 × Bool) := do
  let pattern ← loadPattern dst m offset
  copyLoop (fun copied dst => copyPattern2x16 dst (outMatch + copied) pattern) 32 length shouldExit
    dst

/-- `ZL_LZ_COPY_MATCH_OVERLAPPING_NON_POW2` -/
def copyMatchOverlappingNonPow2 (dst : List UInt8) (outMatch m offset length : Nat)
    (shouldExit : Bool) : Except Stop (List UInt8 × Bool) := do
  let pattern ← loadPattern dst m offset
  let reshuffle := kPatternReshuffle offset
  let (s, exit) ← copyLoop (fun copied (s : List UInt8 × List UInt8) =>
    copyPatternWithReshuffle2x16 s.1 (outMatch + copied) s.2 reshuffle) 32 length shouldExit
      (dst, pattern)
  .ok (s.1, exit)

/-- `ZL_LZ_COPY_MATCH_OVERLAPPING`, with or without AVX2. -/
def copyMatchOverlapping (avx2 : Bool) (dst : List UInt8) (outMatch m offset length : Nat)
    (shouldExit : Bool) : Except Stop (List UInt8 × Bool) :=
  if avx2 then
    if offset = 1 then copyMatchOverlappingOffset1 dst outMatch m length shouldExit
    else if offset = 2 ∨ offset = 4 ∨ offset = 8 ∨ offset = 16 then
      copyMatchOverlappingPow2 dst outMatch m offset length shouldExit
    else if offset ≤ 16 then copyMatchOverlappingNonPow2 dst outMatch m offset length shouldExit
    else copyMatchNonOverlapping dst outMatch m length 16 shouldExit
  else if shouldExit then .ok (dst, true)
  else do
    let dst ← inBounds (Copy.wildcopyWithin .srcBeforeDst dst outMatch m length)
    .ok (dst, false)

/-- `ZL_Lz_DecodeState`; `moved` says that the literals are those of the temporary buffer. -/
structure DecodeState where
  src : InSequences
  seq : Nat
  outPos : Nat
  litPos : Nat
  litLimit : Int
  moved : Bool

/-- The match of a sequence of the fast loop. -/
def copyMatch (avx2 : Bool) (dst : List UInt8) (outMatch offset matchLen : Nat)
    (shouldExit : Bool) : Except Stop (List UInt8 × Bool) :=
  -- `match < 0`
  if outMatch < offset then .error (.error .offsetTooLarge)
  else if offset < matchLen then
    copyMatchOverlapping avx2 dst outMatch (outMatch - offset) offset matchLen shouldExit
  else
    copyMatchNonOverlapping dst outMatch (outMatch - offset) matchLen kMatchCopyLen shouldExit

/-- The body of the loop of `ZL_Lz_decode_fastLoop`: the output, and the positions behind the
sequence unless it leaves by `goto _exit`. -/
def fastSequence (avx2 : Bool) (src : InSequences) (outLimit litLimit : Int) (dst : List UInt8)
    (seq outPos litPos : Nat) : Except Stop (List UInt8 × Option (Nat × Nat)) := do
  let s := src.sequence seq
  let outMatch := outPos + s.litLen
  let outNext := outMatch + s.matchLen
  let litNext := litPos + s.litLen
  let (dst, exit) ←
    copyLiterals dst outPos src.literals litPos s.litLen (litNext > litLimit ∨ outNext > outLimit)
  if exit then .ok (dst, none)
  else do
    let (dst, exit) ← copyMatch avx2 dst outMatch s.offset s.matchLen (outNext > outLimit)
    -- the positions are only updated at the end: an exit has the sequence done again
    .ok (dst, if exit then none else some (outNext, litNext))

/-- `ZL_Lz_decode_fastLoop`: the output, `seq`, `outPos` and `litPos`. -/
def fastLoop (avx2 : Bool) (src : InSequences) (outLimit litLimit : Int) :
    Nat → List UInt8 → Nat → Nat → Nat → Except Stop (List UInt8 × Nat × Nat × Nat)
  | 0, _, _, _, _ => .error .outOfFuel
  | fuel + 1, dst, seq, outPos, litPos => do
      let (dst, next) ← fastSequence avx2 src outLimit litLimit dst seq outPos litPos
      match next with
      | none => .ok (dst, seq, outPos, litPos)
      | some (outPos, litPos) =>
          if seq + 1 < src.numSequences ∧ (outPos : Int) ≤ outLimit ∧ (litPos : Int) ≤ litLimit then
            fastLoop avx2 src outLimit litLimit fuel dst (seq + 1) outPos litPos
          else .ok (dst, seq + 1, outPos, litPos)

/-- `outLimit` -/
def outLimit (dst : List UInt8) : Int := (dst.length : Int) - kOutSlop

/-- The transfer of the literals to `litBuffer`. -/
def moveLiterals (state : DecodeState) (h : state.src.numLiterals - state.litPos ≤ kLitSlop) :
    DecodeState :=
  let remainingLiterals := state.src.numLiterals - state.litPos
  { state with
    src := { state.src with
      literals := Buffer.read state.src.literals state.litPos remainingLiterals ++
        List.replicate (2 * kLitSlop - remainingLiterals) 0
      numLiterals := remainingLiterals
      numLiterals_le := by
        rw [List.length_append, List.length_replicate]
        omega }
    litPos := 0
    litLimit := remainingLiterals
    moved := true }

/-- The literals are moved when few are left. -/
def settleLiterals (state : DecodeState) : Except Stop DecodeState :=
  if (state.litPos : Int) > state.litLimit then
    if state.moved then .error (.error .notEnoughLiterals)
    else if h : state.src.numLiterals - state.litPos ≤ kLitSlop then .ok (moveLiterals state h)
    -- `memcpy` would run past the end of `litBuffer`
    else .error .outOfBounds
  else .ok state

/-- The loop of `ZL_Lz_decode_typed` up to the single sequence. -/
def typedFast (avx2 : Bool) (dst : List UInt8) (state : DecodeState) :
    Except Stop (List UInt8 × DecodeState) := do
  let state ← settleLiterals state
  if (state.outPos : Int) ≤ outLimit dst ∧ (state.litPos : Int) ≤ state.litLimit ∧
      state.seq < state.src.numSequences then do
    let (dst, seq, outPos, litPos) ← fastLoop avx2 state.src (outLimit dst) state.litLimit
      state.src.numSequences dst state.seq state.outPos state.litPos
    if litPos > state.src.numLiterals then .error (.error .notEnoughLiterals)
    else .ok (dst, { state with seq := seq, outPos := outPos, litPos := litPos })
  else .ok (dst, state)

/-- The loop of `ZL_Lz_decode_typed`. -/
def typedLoop (avx2 : Bool) : Nat → List UInt8 → DecodeState → Except Stop (List UInt8 × DecodeState)
  | fuel, dst, state =>
      if state.seq < state.src.numSequences then
        match fuel with
        | 0 => .error .outOfFuel
        | fuel + 1 => do
            let (dst, state) ← typedFast avx2 dst state
            if state.seq < state.src.numSequences then do
              let (dst, outPos, litPos) ←
                decodeSequence dst state.src state.seq state.outPos state.litPos
              typedLoop avx2 fuel dst
                { state with seq := state.seq + 1, outPos := outPos, litPos := litPos }
            else typedLoop avx2 fuel dst state
      else .ok (dst, state)

/-- `ZL_Lz_decode_typed`, with the loop for the width of the offsets. -/
def decodeTyped (avx2 : Bool) (dst : List UInt8) (src : InSequences) : Except Stop (List UInt8) := do
  let (dst, state) ← typedLoop avx2 (src.numSequences + 1) dst
    { src := src
      seq := 0
      outPos := 0
      litPos := 0
      litLimit := (src.numLiterals : Int) - kLitSlop
      moved := false }
  decodeLastLiterals dst state.src state.outPos state.litPos

/-- `PTRDIFF_MAX - maxSeqLenU16` -/
def maxTypedSize : Nat := 2 ^ 63 - 1 - 2 * (2 ^ 16 - 1)

/-- `ZL_Lz_decode` -/
def decode (avx2 : Bool) (dst : List UInt8) (src : InSequences) : Except Stop (List UInt8) :=
  if src.offsetsEltWidth = 2 ∧ src.literalLengthsEltWidth = 2 ∧ src.matchLengthsEltWidth = 2 ∧
      dst.length ≤ maxTypedSize then
    decodeTyped avx2 dst src
  else if src.offsetsEltWidth = 4 ∧ src.literalLengthsEltWidth = 2 ∧
      src.matchLengthsEltWidth = 2 ∧ dst.length ≤ maxTypedSize then
    decodeTyped avx2 dst src
  else decodeGeneric dst src

end OpenZL.Codecs.Lz
