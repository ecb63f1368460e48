import OpenZL.Codecs.ForwardBitstream
import OpenZL.Lib.Result

/-!
# Round trip of the forward bitstream

A writer runs a sequence of writes, flushes, exponential-Golomb codes and aligned regions; a reader
runs the mirrored reads, with reloads wherever its bit budget asks for them or not.

* `encodeBits_spec`, `runDecoder_spec` — the bytes of a run, and what a run reads.
* `roundTrips_iff` — which sequences round trip.
-/

namespace OpenZL.Codecs.Bitpack.InMemory

open OpenZL.Lib

variable {ops : List WriterOp}

/-! ## Writers and mirrored readers -/

/-- What an encoder does with the writer between `init` and `finish`. A region is reserved, filled
with the bytes `fill` and committed. -/
inductive WriterOp
  | write (value nbBits : Nat)
  | flush
  | expGolomb (value order : Nat)
  | region (nbBits : Nat) (fill : List UInt8)
  deriving DecidableEq, Repr

/-- How a run of the writer ends early: `dst` is too small, or the code's behaviour is undefined. -/
inductive WriteFailure
  | capacity
  | undefined
  deriving DecidableEq, Repr

/-- A region is reserved, the caller fills it, and it is committed. -/
def BitCStreamFF.writeRegion (bits : BitCStreamFF) (nbBits : Nat) (fill : List UInt8) :
    Except WriteFailure BitCStreamFF :=
  match bits.reserveAlignedBits nbBits with
  | none => .error .undefined
  | some none => .error .capacity
  | some (some (bits, out)) =>
      if bits.dst.length < out + fill.length then .error .undefined
      else
        match { bits with dst := Buffer.write bits.dst out fill }.commitReservedBits with
        | none => .error .undefined
        | some bits => .ok bits

def WriterOp.run : WriterOp → BitCStreamFF → Except WriteFailure BitCStreamFF
  | .write value nbBits, bits => .ok (bits.write value nbBits)
  | .flush, bits =>
      match bits.flush with
      | none => .error .undefined
      | some bits => .ok bits
  | .expGolomb value order, bits =>
      match bits.writeExpGolomb value order with
      | none => .error .undefined
      | some bits => .ok bits
  | .region nbBits fill, bits => bits.writeRegion nbBits fill

/-- The operations in turn. -/
def runWriter : List WriterOp → BitCStreamFF → Except WriteFailure BitCStreamFF
  | [], bits => .ok bits
  | op :: ops, bits => do
      let bits ← op.run bits
      runWriter ops bits

/-- A whole run over a destination: the bytes produced. -/
def encodeBits (dst : List UInt8) (ops : List WriterOp) : Except WriteFailure (List UInt8) := do
  let bits ← runWriter ops (BitCStreamFF.init dst dst.length)
  match bits.finish with
  | none => .error .capacity
  | some (size, dst) => .ok (dst.take size)

/-- What a decoder does with the reader after `init`. -/
inductive DecodeOp
  | read (nbBits : Nat)
  | reload
  | expGolomb (order : Nat)
  | region (nbBits : Nat)
  deriving DecidableEq, Repr

/-- The operations in turn, with the values they return; the value of a region is the number of its
bits. `none` is undefined, or a region out of bounds. -/
def runDecoder : List DecodeOp → BitDStreamFF → Option (List Nat)
  | [], _ => some []
  | .read nbBits :: ops, bits => (bits.peek nbBits :: ·) <$> runDecoder ops (bits.skip nbBits)
  | .reload :: ops, bits => do
      let bits ← bits.reload
      runDecoder ops bits
  | .expGolomb order :: ops, bits => do
      let (value, bits) ← bits.readExpGolomb order
      (value :: ·) <$> runDecoder ops bits
  | .region nbBits :: ops, bits => do
      let popped ← bits.popAlignedBits nbBits
      let (out, bits) ← popped
      let value := ofLE (Buffer.read bits.src out ((nbBits + 7) / 8)) % 2 ^ nbBits
      (value :: ·) <$> runDecoder ops bits

/-- A whole run over a source. -/
def decodeBits (src : List UInt8) (ops : List DecodeOp) : Option (List Nat) := do
  let bits ← BitDStreamFF.init src src.length
  runDecoder ops bits

/-- The length of the unary prefix of an exponential-Golomb code. -/
def golombPrefix (value order : Nat) : Nat := (value / 2 ^ order + 1).log2

namespace WriterOp

/-- The number of bits that an operation writes. -/
def size : WriterOp → Nat
  | .write _ nbBits => nbBits
  | .flush => 0
  | .expGolomb value order =>
      order + (golombPrefix value order + 1) + golombPrefix value order
  | .region nbBits _ => nbBits

/-- The bits that an operation writes. -/
def bits : WriterOp → Nat
  | .write value nbBits => value % 2 ^ nbBits
  | .flush => 0
  | .expGolomb value order =>
      value % 2 ^ order + 2 ^ order * (2 ^ golombPrefix value order +
        2 ^ (golombPrefix value order + 1) *
          ((value / 2 ^ order + 1) % 2 ^ golombPrefix value order))
  | .region nbBits fill => ofLE fill % 2 ^ nbBits

/-- Where an operation writes its bits, when `pos` are written: a region starts at a byte. -/
def start : WriterOp → Nat → Nat
  | .region _ _, pos => (pos + 7) / 8 * 8
  | _, pos => pos

/-- The value that a reader gets for an operation. -/
def values : WriterOp → List Nat
  | .write value nbBits => [value % 2 ^ nbBits]
  | .flush => []
  | .expGolomb value _ => [value]
  | .region nbBits fill => [ofLE fill % 2 ^ nbBits]

end WriterOp

/-- All bits that are written from position `pos` on, as one number. -/
def code : Nat → List WriterOp → Nat
  | _, [] => 0
  | pos, op :: ops =>
      2 ^ (op.start pos - pos) * (op.bits + 2 ^ op.size * code (op.start pos + op.size) ops)

/-- Where the bits that are written from position `pos` on end. -/
def codeEnd : Nat → List WriterOp → Nat
  | pos, [] => pos
  | pos, op :: ops => codeEnd (op.start pos + op.size) ops

/-- The writer's budget, with `buffered` bits in the container: no more than 63 bits between two
flushes. The arguments are of the source's types, and a region is filled with its bytes. -/
def WriterBudget : Nat → List WriterOp → Prop
  | _, [] => True
  | buffered, .write _ nbBits :: ops =>
      buffered + nbBits ≤ 63 ∧ WriterBudget (buffered + nbBits) ops
  | buffered, .flush :: ops => WriterBudget (buffered % 8) ops
  | buffered, .expGolomb value order :: ops =>
      value < 2 ^ 32 ∧ buffered + (WriterOp.expGolomb value order).size ≤ 63 ∧
        WriterBudget (buffered + (WriterOp.expGolomb value order).size) ops
  | _, .region nbBits fill :: ops =>
      fill.length = (nbBits + 7) / 8 ∧ WriterBudget (nbBits % 8) ops

/-- The reads that mirror the writes, with `used` bits of the container read and `pos` bits in all:
no more than 64 bits between two reloads. A reload leaves the bits read of the current byte, and so
does a region. -/
inductive Mirrors : Nat → Nat → List WriterOp → List DecodeOp → Prop
  | nil (used pos : Nat) : Mirrors used pos [] []
  | flush {used pos : Nat} {ws : List WriterOp} {rs : List DecodeOp} :
      Mirrors used pos ws rs → Mirrors used pos (.flush :: ws) rs
  | reload {used pos : Nat} {ws : List WriterOp} {rs : List DecodeOp} :
      Mirrors (pos % 8) pos ws rs → Mirrors used pos ws (.reload :: rs)
  | read {used pos : Nat} {ws : List WriterOp} {rs : List DecodeOp} (value nbBits : Nat) :
      used + nbBits ≤ 64 → Mirrors (used + nbBits) (pos + nbBits) ws rs →
        Mirrors used pos (.write value nbBits :: ws) (.read nbBits :: rs)
  | expGolomb {used pos : Nat} {ws : List WriterOp} {rs : List DecodeOp} (value order : Nat) :
      used + (WriterOp.expGolomb value order).size ≤ 64 →
        Mirrors (used + (WriterOp.expGolomb value order).size)
          (pos + (WriterOp.expGolomb value order).size) ws rs →
        Mirrors used pos (.expGolomb value order :: ws) (.expGolomb order :: rs)
  | region {used pos : Nat} {ws : List WriterOp} {rs : List DecodeOp} (nbBits : Nat)
      (fill : List UInt8) :
      Mirrors (((pos + 7) / 8 * 8 + nbBits) % 8) ((pos + 7) / 8 * 8 + nbBits) ws rs →
        Mirrors used pos (.region nbBits fill :: ws) (.region nbBits :: rs)

/-! ## The state of the writer -/

/-- The `size` bits of `D` are written, and what is left of the buffer is enough for those in the
container. -/
structure Live (bs : BitCStreamFF) (room size D buffered : Nat) : Prop where
  writing : Writing bs room room size D
  buffered : bs.ptr < bs.limit → bs.nbBits = buffered
  enough : bs.limit ≤ bs.ptr → (bs.nbBits + 7) / 8 ≤ bs.stop - bs.ptr

/-- Near the end of the buffer the container holds more than is left of it: from here on the run
ends with a capacity error. -/
structure Doomed (bs : BitCStreamFF) : Prop where
  limit : bs.limit ≤ bs.ptr
  short : bs.stop - bs.ptr < (bs.nbBits + 7) / 8

/-- A writer that has written the `size` bits of `D`, `buffered` of them since the last flush,
unless it ran out of room. -/
def Writer (bs : BitCStreamFF) (room size D buffered : Nat) : Prop :=
  Live bs room size D buffered ∨ Doomed bs

section Writers

variable {bs : BitCStreamFF} {room size D buffered k : Nat}

theorem Writer.init (dst : List UInt8) :
    Writer (BitCStreamFF.init dst dst.length) dst.length 0 0 0 := by
  refine .inl ⟨Writing.init (Nat.le_refl _), fun _ => rfl, fun _ => ?_⟩
  rw [BitCStreamFF.init]
  dsimp only
  omega

theorem Live.bytes_le (h : Live bs room size D buffered) (hfit : buffered ≤ 63) :
    bs.ptr ≤ bs.stop ∧ (bs.nbBits + 7) / 8 ≤ bs.stop - bs.ptr := by
  have hpos := h.writing.packed.pos_le
  have hlength := h.writing.length
  have hstop := h.writing.stop
  have hlimit := h.writing.limit
  refine ⟨by omega, ?_⟩
  rcases Nat.lt_or_ge bs.ptr bs.limit with hlt | hge
  · have := h.buffered hlt
    split at hlimit <;> omega
  · exact h.enough hge

theorem Writer.write (h : Writer bs room size D buffered) (value : Nat)
    (hfit : buffered + k ≤ 63) :
    Writer (bs.write value k) room (size + k) (D + 2 ^ size * (value % 2 ^ k)) (buffered + k) := by
  have hbits : (bs.write value k).nbBits = bs.nbBits + k := rfl
  rcases h with h | h
  · have hlimit := h.writing.limit
    have hstop := h.writing.stop
    rcases Nat.lt_or_ge bs.ptr bs.limit with hlt | hge
    · have hb := h.buffered hlt
      refine .inl ⟨h.writing.write value (by omega), fun _ => ?_, fun hge => ?_⟩
      · rw [hbits, hb]
      · exact absurd hlt (Nat.not_lt.2 hge)
    · by_cases hroom : (bs.nbBits + k + 7) / 8 ≤ bs.stop - bs.ptr
      · have h64 : bs.nbBits + k ≤ 64 := by
          split at hlimit <;> omega
        exact .inl ⟨h.writing.write value h64, fun hlt => absurd hlt (Nat.not_lt.2 hge),
          fun _ => hroom⟩
      · exact .inr ⟨hge, Nat.lt_of_not_le hroom⟩
  · have hshort := h.short
    refine .inr ⟨h.limit, ?_⟩
    have hptr : (bs.write value k).ptr = bs.ptr := rfl
    have hstop : (bs.write value k).stop = bs.stop := rfl
    rw [hbits, hptr, hstop]
    omega

theorem Writer.flush (h : Writer bs room size D buffered) (hfit : buffered ≤ 63) :
    ∃ bs', bs.flush = some bs' ∧ Writer bs' room size D (buffered % 8) := by
  rcases Nat.lt_or_ge bs.ptr bs.limit with hlt | hge
  · rcases h with h | h
    · have hb := h.buffered hlt
      obtain ⟨bs', hflush, hwriting, hflushed⟩ := h.writing.flush (by omega)
      have hbits := h.writing.packed.bits
      have hbits' := hwriting.packed.bits
      have hlimit := h.writing.limit
      have hstop' := hwriting.stop
      refine ⟨bs', hflush, .inl ⟨hwriting, fun hlt' => ?_, fun _ => ?_⟩⟩
      · rcases hflushed with hsmall | hend
        · omega
        · exact absurd hlt' (Nat.not_lt.2 hend)
      · split at hlimit <;> omega
    · exact absurd hlt (Nat.not_lt.2 h.limit)
  · refine ⟨bs, if_pos hge, ?_⟩
    rcases h with h | h
    · exact .inl ⟨h.writing, fun hlt => absurd hlt (Nat.not_lt.2 hge), h.enough⟩
    · exact .inr h

theorem BitCStreamFF.write_zero (bs : BitCStreamFF) (value : Nat) : bs.write value 0 = bs := by
  rw [BitCStreamFF.write]
  simp

/-- A 32-bit value is shifted by less than 32 bits. -/
def WriterOp.InRange : WriterOp → Prop
  | .expGolomb _ order => order < 32
  | _ => True

instance (op : WriterOp) : Decidable op.InRange := by
  cases op <;> unfold WriterOp.InRange <;> infer_instance

theorem prefix_lt {value order : Nat} (h : (WriterOp.expGolomb value order).size ≤ 64) :
    value / 2 ^ order + 1 < 2 ^ 32 := by
  rw [WriterOp.size] at h
  calc value / 2 ^ order + 1 < 2 ^ (golombPrefix value order + 1) := Nat.lt_log2_self
    _ ≤ 2 ^ 32 := Nat.pow_le_pow_right (by decide) (by omega)

theorem writeExpGolomb_eq {value order : Nat} (ho : order < 32)
    (hsize : (WriterOp.expGolomb value order).size ≤ 64) (bs : BitCStreamFF) :
    bs.writeExpGolomb value order = some (((bs.write value order).write
      (1 <<< golombPrefix value order) (golombPrefix value order + 1)).write
        (value / 2 ^ order + 1) (golombPrefix value order)) := by
  have hnext := prefix_lt hsize
  have hshift : (if 0 < order then value >>> order else value) = value / 2 ^ order := by
    split
    · exact Nat.shiftRight_eq_div_pow _ _
    · obtain rfl : order = 0 := by omega
      rw [Nat.pow_zero, Nat.div_one]
  have hwrite : (if 0 < order then bs.write value order else bs) = bs.write value order := by
    split
    · rfl
    · obtain rfl : order = 0 := by omega
      exact (bs.write_zero value).symm
  unfold BitCStreamFF.writeExpGolomb
  dsimp only
  rw [if_neg (by omega), hshift, hwrite, Nat.mod_eq_of_lt hnext, if_neg (Nat.succ_ne_zero _)]
  rfl

theorem Writer.expGolomb {value order : Nat} (h : Writer bs room size D buffered)
    (ho : order < 32) (hfit : buffered + (WriterOp.expGolomb value order).size ≤ 63) :
    ∃ bs', bs.writeExpGolomb value order = some bs' ∧
      Writer bs' room (size + (WriterOp.expGolomb value order).size)
        (D + 2 ^ size * (WriterOp.expGolomb value order).bits)
        (buffered + (WriterOp.expGolomb value order).size) := by
  refine ⟨_, writeExpGolomb_eq ho (by omega) bs, ?_⟩
  rw [WriterOp.size] at hfit ⊢
  have hone : 1 <<< golombPrefix value order % 2 ^ (golombPrefix value order + 1)
      = 2 ^ golombPrefix value order := by
    rw [Nat.one_shiftLeft]
    exact Nat.mod_eq_of_lt (Nat.pow_lt_pow_right (by decide) (Nat.lt_succ_self _))
  have hlast := ((h.write (k := order) value (by omega)).write
    (k := golombPrefix value order + 1) (1 <<< golombPrefix value order) (by omega)).write
      (k := golombPrefix value order) (value / 2 ^ order + 1) (by omega)
  rw [hone] at hlast
  rw [WriterOp.bits]
  convert hlast using 1
  · omega
  · rw [Nat.pow_add, Nat.pow_add]
    ring
  · omega

theorem Live.reserve (h : Live bs room size D buffered) (hfit : buffered ≤ 63) (nbBits : Nat) :
    bs.reserveAlignedBits nbBits = some none ∨
      ∃ dst out, bs.reserveAlignedBits nbBits = some (some (⟨0, nbBits % 8, out + nbBits / 8,
          bs.limit, bs.stop, dst⟩, out)) ∧
        Packed ((size + 7) / 8 * 8) D dst out 0 0 ∧ dst.length = room ∧
        out + (nbBits + 7) / 8 ≤ room := by
  obtain ⟨hpos, hbytes⟩ := h.bytes_le hfit
  have hlength := h.writing.length
  have hstop := h.writing.stop
  obtain ⟨dst, hstore, hlen, halign⟩ := h.writing.packed.align (by omega)
  unfold BitCStreamFF.reserveAlignedBits
  split
  · exact .inl rfl
  · dsimp only
    rw [if_neg (by omega)]
    split
    · exact .inl rfl
    · refine .inr ?_
      split
      · rename_i hzero
        have hbits : bs.nbBits = 0 := by omega
        have hpacked := h.writing.packed
        rw [hbits] at hpacked
        have hacc : bs.container = 0 := by simpa using hpacked.acc_lt
        have hsize : (size + 7) / 8 * 8 = size := by
          have := hpacked.bits
          omega
        rw [hacc] at hpacked
        rw [hsize]
        exact ⟨bs.dst, bs.ptr, rfl, hpacked, hlength, by omega⟩
      · rw [hstore]
        exact ⟨dst, _, rfl, halign, hlen.trans hlength, by omega⟩

theorem Doomed.reserve (h : Doomed bs) (nbBits : Nat) :
    bs.reserveAlignedBits nbBits = some none := by
  unfold BitCStreamFF.reserveAlignedBits
  split
  · rfl
  · dsimp only
    rw [if_pos h.short]

theorem Writer.region {fill : List UInt8} (h : Writer bs room size D buffered)
    (hfit : buffered ≤ 63) (hfill : fill.length = (k + 7) / 8) :
    bs.writeRegion k fill = .error .capacity ∨
      ∃ bs', bs.writeRegion k fill = .ok bs' ∧
        Writer bs' room ((size + 7) / 8 * 8 + k)
          (D + 2 ^ ((size + 7) / 8 * 8) * (ofLE fill % 2 ^ k)) (k % 8) := by
  unfold BitCStreamFF.writeRegion
  rcases h with h | h
  · rcases h.reserve hfit k with hnull | ⟨dst, out, hreserve, hpacked, hlength, hroom⟩
    · rw [hnull]
      exact .inl rfl
    · refine .inr ?_
      have hin : out + fill.length ≤ dst.length := by omega
      have hcopy := hpacked.copy hfill hin
      have hlimit := h.writing.limit
      have hstop := h.writing.stop
      rw [hreserve]
      dsimp only
      rw [if_neg (by omega)]
      have hlive : Live ⟨ofLE fill / 2 ^ (8 * (k / 8)) % 2 ^ (k % 8), k % 8, out + k / 8, bs.limit,
          bs.stop, Buffer.write dst out fill⟩ room ((size + 7) / 8 * 8 + k)
          (D + 2 ^ ((size + 7) / 8 * 8) * (ofLE fill % 2 ^ k)) (k % 8) := by
        refine ⟨⟨hcopy, hlimit, hstop, ?_, Nat.le_refl _⟩, fun _ => rfl, fun _ => ?_⟩
        · exact (Buffer.length_write hin).trans hlength
        · dsimp only
          omega
      unfold BitCStreamFF.commitReservedBits
      by_cases hzero : k % 8 = 0
      · rw [if_pos hzero]
        rw [hzero, Nat.pow_zero, Nat.mod_one] at hlive
        rw [hzero]
        exact ⟨_, rfl, .inl hlive⟩
      · rw [if_neg hzero, hpacked.load_copy (by omega) hin]
        refine ⟨_, rfl, .inl ?_⟩
        rw [Nat.and_two_pow_sub_one_eq_mod]
        exact hlive
  · rw [h.reserve]
    exact .inl rfl

theorem Writer.finish (h : Writer bs room size D buffered) (hfit : buffered ≤ 63) :
    bs.finish = none ∨
      ∃ dst, bs.finish = some ((size + 7) / 8, dst) ∧ (size + 7) / 8 ≤ room ∧
        dst.take ((size + 7) / 8) = toLE ((size + 7) / 8) D ∧ D < 2 ^ size := by
  unfold BitCStreamFF.finish
  rcases h with h | h
  · refine .inr ?_
    obtain ⟨hpos, hbytes⟩ := h.bytes_le hfit
    have hlength := h.writing.length
    have hstop := h.writing.stop
    have hbits := h.writing.packed.bits
    rw [if_neg (by omega)]
    split
    · have hzero : bs.nbBits = 0 := by omega
      have hpacked := h.writing.packed
      rw [hzero] at hpacked
      rw [show bs.ptr = (size + 7) / 8 by omega]
      exact ⟨_, rfl, by omega, hpacked.stored, hpacked.lt⟩
    · obtain ⟨dst, hstore, -, hstored⟩ :=
        h.writing.packed.finish (Nat.le_refl ((bs.nbBits + 7) / 8)) (by omega)
      rw [hstore, show bs.ptr + (bs.nbBits + 7) / 8 = (size + 7) / 8 by omega]
      exact ⟨dst, rfl, by omega, hstored, h.writing.packed.lt⟩
  · rw [if_pos h.short]
    exact .inl rfl

end Writers

/-! ## Runs of the writer -/

/-- The bits in the container after an operation. -/
def WriterOp.bufferedAfter : WriterOp → Nat → Nat
  | .write _ nbBits, buffered => buffered + nbBits
  | .flush, buffered => buffered % 8
  | .expGolomb value order, buffered => buffered + (WriterOp.expGolomb value order).size
  | .region nbBits _, _ => nbBits % 8

theorem WriterBudget.cons {buffered : Nat} {op : WriterOp} (h : WriterBudget buffered (op :: ops)) :
    WriterBudget (op.bufferedAfter buffered) ops := by
  cases op with
  | write value nbBits => exact h.2
  | flush => exact h
  | expGolomb value order => exact h.2.2
  | region nbBits fill => exact h.2

theorem WriterBudget.bufferedAfter_le {buffered : Nat} {op : WriterOp}
    (h : WriterBudget buffered (op :: ops)) : op.bufferedAfter buffered ≤ 63 := by
  cases op with
  | write value nbBits => exact h.1
  | flush => rw [WriterOp.bufferedAfter]; omega
  | expGolomb value order => exact h.2.1
  | region nbBits fill => rw [WriterOp.bufferedAfter]; omega

theorem WriterOp.le_start (op : WriterOp) (pos : Nat) : pos ≤ op.start pos := by
  cases op <;> dsimp only [WriterOp.start] <;> omega

theorem Writer.run {bs : BitCStreamFF} {room size D buffered : Nat} {op : WriterOp}
    (h : Writer bs room size D buffered) (hfit : buffered ≤ 63)
    (hbudget : WriterBudget buffered (op :: ops)) (hrange : op.InRange) :
    op.run bs = .error .capacity ∨
      ∃ bs', op.run bs = .ok bs' ∧ Writer bs' room (op.start size + op.size)
        (D + 2 ^ op.start size * op.bits) (op.bufferedAfter buffered) := by
  cases op with
  | write value nbBits => exact .inr ⟨_, rfl, h.write value hbudget.1⟩
  | flush =>
      obtain ⟨bs', hflush, hwriter⟩ := h.flush hfit
      refine .inr ⟨bs', ?_, ?_⟩
      · rw [WriterOp.run, hflush]
      · rwa [WriterOp.bits, Nat.mul_zero, Nat.add_zero]
  | expGolomb value order =>
      obtain ⟨bs', hcode, hwriter⟩ := h.expGolomb hrange hbudget.2.1
      refine .inr ⟨bs', ?_, hwriter⟩
      rw [WriterOp.run, hcode]
  | region nbBits fill => exact h.region hfit hbudget.1

theorem runWriter_spec : ∀ {ops : List WriterOp} {bs : BitCStreamFF} {room size D buffered : Nat},
    Writer bs room size D buffered → buffered ≤ 63 → WriterBudget buffered ops →
      (∀ op ∈ ops, op.InRange) →
      runWriter ops bs = .error .capacity ∨
        ∃ bs' buffered', runWriter ops bs = .ok bs' ∧ buffered' ≤ 63 ∧
          Writer bs' room (codeEnd size ops) (D + 2 ^ size * code size ops) buffered'
  | [], bs, room, size, D, buffered, h, hfit, _, _ => by
      refine .inr ⟨bs, buffered, rfl, hfit, ?_⟩
      rwa [code, Nat.mul_zero, Nat.add_zero]
  | op :: ops, bs, room, size, D, buffered, h, hfit, hbudget, hrange => by
      rw [runWriter]
      rcases h.run hfit hbudget (hrange op List.mem_cons_self) with hfull | ⟨bs₁, hrun, hwriter⟩
      · rw [hfull]
        exact .inl rfl
      · have hvalue : D + 2 ^ size * code size (op :: ops) =
            D + 2 ^ op.start size * op.bits +
              2 ^ (op.start size + op.size) * code (op.start size + op.size) ops := by
          have hpow : 2 ^ size * 2 ^ (op.start size - size) = 2 ^ op.start size := by
            rw [← Nat.pow_add, Nat.add_sub_cancel' (op.le_start size)]
          rw [code, ← Nat.mul_assoc, hpow, Nat.mul_add, Nat.pow_add]
          ring
        rw [hrun, hvalue]
        exact runWriter_spec hwriter hbudget.bufferedAfter_le hbudget.cons
          fun x hx => hrange x (List.mem_cons_of_mem _ hx)

theorem encodeBits_spec (dst : List UInt8) (hbudget : WriterBudget 0 ops)
    (hrange : ∀ op ∈ ops, op.InRange) :
    encodeBits dst ops = .error .capacity ∨
      encodeBits dst ops = .ok (toLE ((codeEnd 0 ops + 7) / 8) (code 0 ops)) ∧
        (codeEnd 0 ops + 7) / 8 ≤ dst.length ∧ code 0 ops < 2 ^ codeEnd 0 ops := by
  unfold encodeBits
  rcases runWriter_spec (Writer.init dst) (Nat.zero_le _) hbudget hrange with
    hfull | ⟨bs, buffered, hrun, hfit, hwriter⟩
  · rw [hfull]
    exact .inl rfl
  · rw [Nat.pow_zero, Nat.one_mul, Nat.zero_add] at hwriter
    rw [hrun, ok_bind]
    rcases hwriter.finish hfit with hfull | ⟨dst', hfinish, hroom, hbytes, hlt⟩
    · rw [hfull]
      exact .inl rfl
    · rw [hfinish, ← hbytes]
      exact .inr ⟨rfl, hroom, hlt⟩

/-! ## The code of a run -/

theorem mod_split {X a b p q : Nat} (h : X % 2 ^ (p + q) = a + 2 ^ p * b) (ha : a < 2 ^ p) :
    X % 2 ^ p = a ∧ X / 2 ^ p % 2 ^ q = b := by
  constructor
  · have hmod := congrArg (· % 2 ^ p) h
    rwa [Nat.mod_mod_of_dvd _ (Nat.pow_dvd_pow 2 (Nat.le_add_right p q)),
      Nat.add_mul_mod_self_left, Nat.mod_eq_of_lt ha] at hmod
  · rw [Nat.pow_add] at h
    rw [← Nat.mod_mul_right_div_self, h, Nat.add_mul_div_left _ _ (by positivity),
      Nat.div_eq_of_lt ha, Nat.zero_add]

theorem golomb_next_eq (value order : Nat) :
    value / 2 ^ order + 1 = 2 ^ golombPrefix value order +
      (value / 2 ^ order + 1) % 2 ^ golombPrefix value order := by
  have hlow : 2 ^ golombPrefix value order ≤ value / 2 ^ order + 1 :=
    Nat.log2_self_le (Nat.succ_ne_zero _)
  have hhigh : value / 2 ^ order + 1 < 2 ^ (golombPrefix value order + 1) := Nat.lt_log2_self
  rw [Nat.pow_succ] at hhigh
  rw [Nat.mod_eq_sub_mod hlow, Nat.mod_eq_of_lt (by omega)]
  omega

theorem WriterOp.bits_lt (op : WriterOp) : op.bits < 2 ^ op.size := by
  cases op with
  | write value nbBits => exact Nat.mod_lt _ (by positivity)
  | flush => exact Nat.one_pos
  | expGolomb value order =>
      rw [WriterOp.bits, WriterOp.size, Nat.add_assoc]
      refine add_mul_lt (Nat.mod_lt _ (by positivity)) ?_
      refine add_mul_lt ?_ (Nat.mod_lt _ (by positivity))
      exact Nat.pow_lt_pow_right (by decide) (Nat.lt_succ_self _)
  | region nbBits fill => exact Nat.mod_lt _ (by positivity)

theorem code_cons {N c : Nat} {op : WriterOp} (h : N / 2 ^ c = code c (op :: ops)) :
    N / 2 ^ op.start c % 2 ^ op.size = op.bits ∧
      N / 2 ^ (op.start c + op.size) = code (op.start c + op.size) ops := by
  have hstart : N / 2 ^ op.start c
      = op.bits + 2 ^ op.size * code (op.start c + op.size) ops := by
    rw [← Nat.add_sub_cancel' (op.le_start c), Nat.pow_add, ← Nat.div_div_eq_div_mul, h, code,
      Nat.add_sub_cancel' (op.le_start c)]
    exact Nat.mul_div_cancel_left _ (by positivity)
  refine ⟨?_, ?_⟩
  · rw [hstart, Nat.add_mul_mod_self_left, Nat.mod_eq_of_lt op.bits_lt]
  · rw [Nat.pow_add, ← Nat.div_div_eq_div_mul, hstart, Nat.add_mul_div_left _ _ (by positivity),
      Nat.div_eq_of_lt op.bits_lt, Nat.zero_add]

theorem le_codeEnd : ∀ (pos : Nat) (ops : List WriterOp), pos ≤ codeEnd pos ops
  | _, [] => Nat.le_refl _
  | pos, op :: ops => by
      have hstart := op.le_start pos
      have hrest := le_codeEnd (op.start pos + op.size) ops
      rw [codeEnd]
      omega

/-! ## The state of the reader -/

/-- `c` bits of the source are read, `used` of them since the container was loaded, and the
container shows the next ones. -/
structure Reader (bs : BitDStreamFF) (src : List UInt8) (used c : Nat) : Prop where
  reading : Reading bs src c
  window : c < 8 * src.length → Window (ofLE src) c bs.container (64 - used)
  used : 8 ≤ src.length → c < 8 * src.length → bs.nbBitsRead = used
  short : src.length < 8 → bs.nbBitsRead = (8 - src.length) * 8 + c
  read_le : bs.nbBitsRead ≤ 64

namespace Reader

variable {bs : BitDStreamFF} {src : List UInt8} {used c n : Nat}

theorem init (src : List UInt8) :
    ∃ bs, BitDStreamFF.init src src.length = some bs ∧ Reader bs src 0 0 := by
  obtain ⟨bs, hinit, hreading, hptr, hshort⟩ := init_spec src
  refine ⟨bs, hinit, hreading, fun _ => ?_, fun hlong _ => ?_, hshort, ?_⟩
  · by_cases hlong : 8 ≤ src.length
    · obtain ⟨v, hload, hwindow, -⟩ := Window.load (by omega : 0 + 8 ≤ src.length)
      rw [BitDStreamFF.init, if_pos hlong, hload] at hinit
      obtain rfl := Option.some.inj hinit
      exact hwindow
    · rw [(hreading.short (by omega)).2.2, Window]
  · have := (hreading.long hlong).2
    have := hptr hlong
    omega
  · by_cases hlong : 8 ≤ src.length
    · have := (hreading.long hlong).2
      omega
    · have := hshort (by omega)
      omega

section

variable (h : Reader bs src used c)

include h

theorem reload : ∃ bs', bs.reload = some bs' ∧ Reader bs' src (c % 8) c := by
  obtain ⟨bs', hreload, hreading, hwindow, hptr, hsame⟩ := h.reading.reload_window
  have hread := h.read_le
  refine ⟨bs', hreload, hreading, hwindow, fun hlong hin => ?_, fun hshort => ?_, ?_⟩
  · have := (hreading.long hlong).2
    have := hptr hlong hin
    omega
  · rw [hsame (.inr hshort)]
    exact h.short hshort
  · by_cases hin : 8 ≤ src.length ∧ c < 8 * src.length
    · have := (hreading.long hin.1).2
      have := hptr hin.1 hin.2
      omega
    · rw [hsame (by omega)]
      exact hread

theorem next (hfit : used + n ≤ 64) (hin : c + n ≤ 8 * src.length) :
    Window (ofLE src) c bs.container n := by
  rcases Nat.eq_zero_or_pos n with rfl | hpos
  · rw [Window, Nat.pow_zero, Nat.mod_one, Nat.mod_one]
  · exact (h.window (by omega)).narrow (by omega)

theorem peek (hn : n < 64) (hfit : used + n ≤ 64) (hin : c + n ≤ 8 * src.length) :
    bs.peek n = ofLE src / 2 ^ c % 2 ^ n := by
  rw [BitDStreamFF.peek, Nat.mod_eq_of_lt hn, Nat.and_two_pow_sub_one_eq_mod]
  exact h.next hfit hin

theorem skip (hfit : used + n ≤ 64) (hin : c + n ≤ 8 * src.length) :
    Reader (bs.skip n) src (used + n) (c + n) := by
  have hbits : (bs.skip n).nbBitsRead = bs.nbBitsRead + n := rfl
  have hread := h.read_le
  refine ⟨h.reading.skip n, fun hlt => ?_, fun hlong hlt => ?_, fun hshort => ?_, ?_⟩
  · have hshift := (h.window (by omega)).shift (by omega : n ≤ 64 - used)
    rwa [Nat.sub_sub] at hshift
  · rw [hbits, h.used hlong (by omega)]
  · rw [hbits, h.short hshort, Nat.add_assoc]
  · rw [hbits]
    by_cases hlong : 8 ≤ src.length
    · rcases Nat.lt_or_ge c (8 * src.length) with hlt | hge
      · have := h.used hlong hlt
        omega
      · omega
    · have := h.short (by omega)
      omega

end

theorem ctz32_eq {x k : Nat} (hk : k < 32) (hx : x % 2 ^ (k + 1) = 2 ^ k) :
    BitDStreamFF.ctz32 x = some k := by
  have hbit : ∀ j, j ≤ k → x.testBit j = decide (j = k) := by
    intro j hj
    have htest := congrArg (Nat.testBit · j) hx
    simp only [Nat.testBit_mod_two_pow, Nat.testBit_two_pow] at htest
    rw [decide_eq_true (by omega : j < k + 1), Bool.true_and] at htest
    rw [htest]
    exact decide_eq_decide.2 eq_comm
  refine lowestBit_eq_some.2 ⟨hk, ?_, fun j hj => ?_⟩
  · rw [hbit k (Nat.le_refl _), decide_eq_true rfl]
  · rw [hbit j (by omega), decide_eq_false (by omega)]

theorem readExpGolomb {value order : Nat} (h : Reader bs src used c) (hv : value < 2 ^ 32)
    (ho : order < 32)
    (hfit : used + (WriterOp.expGolomb value order).size ≤ 64)
    (hin : c + (WriterOp.expGolomb value order).size ≤ 8 * src.length)
    (hbits : ofLE src / 2 ^ c % 2 ^ (WriterOp.expGolomb value order).size
      = (WriterOp.expGolomb value order).bits) :
    ∃ bs', bs.readExpGolomb order = some (value, bs') ∧
      Reader bs' src (used + (WriterOp.expGolomb value order).size)
        (c + (WriterOp.expGolomb value order).size) := by
  have hnext := golomb_next_eq value order
  have hk : golombPrefix value order < 32 :=
    (Nat.log2_lt (Nat.succ_ne_zero _)).2 (prefix_lt (by omega))
  rw [WriterOp.size] at hfit hin hbits ⊢
  rw [WriterOp.bits] at hbits
  generalize golombPrefix value order = k at *
  generalize hm : (value / 2 ^ order + 1) % 2 ^ k = m at *
  have hm' : m < 2 ^ k := hm ▸ Nat.mod_lt _ (by positivity)
  obtain ⟨hextra, hrest⟩ := mod_split (Nat.add_assoc order (k + 1) k ▸ hbits)
    (Nat.mod_lt value (by positivity))
  rw [Nat.div_div_eq_div_mul, ← Nat.pow_add] at hrest
  obtain ⟨hunary, hmantissa⟩ := mod_split hrest
    (Nat.pow_lt_pow_right (by decide) (Nat.lt_succ_self k))
  rw [Nat.div_div_eq_div_mul, ← Nat.pow_add] at hmantissa
  have hread₁ := h.skip (n := order) (by omega) (by omega)
  have hread₂ := hread₁.skip (n := k + 1) (by omega) (by omega)
  have hread₃ := hread₂.skip (n := k) (by omega) (by omega)
  have hpeek : (if 0 < order then bs.peek order % 2 ^ 32 else 0) = value % 2 ^ order := by
    split
    · rw [h.peek (by omega) (by omega) (by omega), hextra]
      exact Nat.mod_eq_of_lt ((Nat.mod_le _ _).trans_lt hv)
    · obtain rfl : order = 0 := by omega
      rw [Nat.pow_zero, Nat.mod_one]
  have hskip : (if 0 < order then bs.skip order else bs) = bs.skip order := by
    split
    · rfl
    · obtain rfl : order = 0 := by omega
      rfl
  have hctz : BitDStreamFF.ctz32 ((bs.skip order).peek 32 % 2 ^ 32) = some k := by
    have hnext₁ : Window _ _ _ _ := hread₁.next (n := k + 1) (by omega) (by omega)
    refine ctz32_eq hk ?_
    rw [BitDStreamFF.peek, Nat.and_two_pow_sub_one_eq_mod, Nat.mod_mod,
      Nat.mod_mod_of_dvd _ (Nat.pow_dvd_pow 2 hk), hnext₁, hunary]
  have hlast : ((bs.skip order).skip (k + 1)).peek k % 2 ^ 32 = m := by
    rw [hread₂.peek (by omega) (by omega) (by omega), hmantissa]
    exact Nat.mod_eq_of_lt (hm'.trans (Nat.pow_lt_pow_right (by decide) hk))
  have hhigh : ((1 <<< k) ||| m) - 1 = value / 2 ^ order := by
    rw [Nat.or_comm, or_shiftLeft hm', Nat.mul_one]
    omega
  have hvalue : ((value / 2 ^ order) <<< order % 2 ^ 32) ||| value % 2 ^ order = value := by
    have hle := Nat.div_mul_le_self value (2 ^ order)
    rw [Nat.mod_eq_of_lt (by rw [Nat.shiftLeft_eq]; omega), Nat.or_comm,
      or_shiftLeft (Nat.mod_lt _ (by positivity)), Nat.mod_add_div]
  refine ⟨((bs.skip order).skip (k + 1)).skip k, ?_, ?_⟩
  · unfold BitDStreamFF.readExpGolomb
    dsimp only
    rw [if_neg (by omega), hpeek, hskip, hctz]
    dsimp only
    rw [hlast, hhigh, hvalue]
  · simp only [Nat.add_assoc] at hread₃ ⊢
    exact hread₃

theorem loadPartial_spec {pos : Nat} (hpos : pos ≤ src.length) :
    BitDStreamFF.loadPartial src pos (src.length - pos) = some (ofLE src / 2 ^ (8 * pos)) := by
  have hlt : ofLE src / 2 ^ (8 * pos) < 2 ^ (8 * (src.length - pos)) := by
    rw [Nat.div_lt_iff_lt_mul (by positivity), ← Nat.pow_add,
      show 8 * (src.length - pos) + 8 * pos = 8 * src.length by omega, ← pow256]
    exact ofLE_lt src
  rw [BitDStreamFF.loadPartial, load_eq_some (by omega), Nat.mod_eq_of_lt hlt]

theorem load_behind {e start : Nat} (hlong : 8 ≤ src.length)
    (hstart : (if e / 8 ≤ src.length - 8 then e / 8 else src.length - 8) = start) :
    ∃ word, load src start 8 = some word ∧ (e < 8 * src.length → e - start * 8 < 64 ∧
      Window (ofLE src) e (word >>> (e - start * 8)) (64 - e % 8)) := by
  split at hstart
  · obtain ⟨word, hload, hwindow, -⟩ := Window.load (by omega : start + 8 ≤ src.length)
    refine ⟨word, hload, fun _ => ⟨by omega, ?_⟩⟩
    have hshift := hwindow.shift (by omega : e - start * 8 ≤ 8 * 8)
    rw [show 8 * start + (e - start * 8) = e by omega] at hshift
    exact hshift.narrow (by omega)
  · obtain ⟨word, hload, hwindow⟩ := Window.load_tail
      (by omega : start + 8 = src.length) (64 - e % 8 + (e - start * 8))
    refine ⟨word, hload, fun _ => ⟨by omega, ?_⟩⟩
    have hshift := hwindow.shift (Nat.le_add_left (e - start * 8) (64 - e % 8))
    rwa [Nat.add_sub_cancel, show 8 * start + (e - start * 8) = e by omega] at hshift

theorem popAlignedBits (h : Reader bs src used c) (hsize : src.length ≤ sizeMax / 8)
    (hin : (c + 7) / 8 * 8 + n ≤ 8 * src.length) :
    ∃ bs', bs.popAlignedBits n = some (some ((c + 7) / 8, bs')) ∧ bs'.src = src ∧
      Reader bs' src (((c + 7) / 8 * 8 + n) % 8) ((c + 7) / 8 * 8 + n) := by
  have hread := h.read_le
  have hstop := h.reading.stop
  have hsrc := h.reading.source
  have hmax : sizeMax = 2 ^ 64 - 1 := rfl
  have hconsumed : bs.ptr * 8 + bs.nbBitsRead - (if src.length < 8 then 64 else 0) = c := by
    split
    · rename_i hshort
      have := h.short hshort
      have := (h.reading.short hshort).2.1
      omega
    · have := (h.reading.long (by omega)).2
      omega
  unfold BitDStreamFF.popAlignedBits
  dsimp only
  rw [if_neg (by omega), if_neg (by omega), hstop, if_neg (by omega), hconsumed,
    if_neg (by omega), if_neg (by omega), Nat.mul_div_cancel _ (by decide)]
  generalize hend : (c + 7) / 8 * 8 + n = e at *
  split
  · rename_i hlong
    obtain ⟨hlimit, -⟩ := h.reading.long hlong
    obtain ⟨word, hload, hwindow⟩ := @load_behind src e _ hlong rfl
    rw [hsrc, hload]
    refine ⟨_, rfl, rfl, ⟨rfl, rfl, fun _ => ⟨hlimit, ?_⟩, fun hs => absurd hs (by omega)⟩,
      fun hlt => ?_, fun _ _ => rfl, fun hs => absurd hs (by omega), ?_⟩
    · dsimp only
      omega
    · obtain ⟨h64, hshift⟩ := hwindow hlt
      rwa [if_pos h64]
    · dsimp only
      omega
  · rename_i hshort
    obtain ⟨hlimit, -, -⟩ := h.reading.short (by omega)
    have hcontainer : (ofLE src / 2 ^ (8 * (e / 8))) >>> (e % 8) = ofLE src / 2 ^ e := by
      rw [Nat.shiftRight_eq_div_pow, Nat.div_div_eq_div_mul, ← Nat.pow_add, Nat.div_add_mod]
    rw [hsrc, loadPartial_spec (by omega)]
    refine ⟨_, rfl, rfl, ⟨rfl, rfl, fun hl => absurd hl (by omega),
      fun _ => ⟨hlimit, rfl, hcontainer⟩⟩, fun _ => ?_, fun hl => absurd hl (by omega),
      fun _ => ?_, ?_⟩
    · dsimp only
      rw [hcontainer, Window]
    · dsimp only
      omega
    · dsimp only
      omega

end Reader

/-! ## Round trip -/

theorem region_value (src : List UInt8) (pos n : Nat) :
    ofLE (Buffer.read src pos ((n + 7) / 8)) % 2 ^ n = ofLE src / 2 ^ (pos * 8) % 2 ^ n := by
  rw [Buffer.read_eq, ofLE_take, ofLE_drop, pow256, pow256, Nat.mul_comm pos,
    Nat.mod_mod_of_dvd _ (Nat.pow_dvd_pow 2 (by omega))]

theorem runDecoder_spec {src : List UInt8} (hsize : src.length ≤ sizeMax / 8) {used c : Nat}
    {ws : List WriterOp} {rs : List DecodeOp} (hmirrors : Mirrors used c ws rs) :
    ∀ {bs : BitDStreamFF} {buffered : Nat}, Reader bs src used c → WriterBudget buffered ws →
      (∀ op ∈ ws, op.InRange) → codeEnd c ws ≤ 8 * src.length → ofLE src / 2 ^ c = code c ws →
        runDecoder rs bs = some (ws.flatMap WriterOp.values) := by
  induction hmirrors with
  | nil => intros; rfl
  | flush _ ih =>
      intro bs buffered hreader hbudget hrange hend hcode
      exact ih hreader hbudget.cons (fun op hop => hrange op (List.mem_cons_of_mem _ hop)) hend
        (code_cons hcode).2
  | reload _ ih =>
      intro bs buffered hreader hbudget hrange hend hcode
      obtain ⟨bs', hreload, hreader'⟩ := hreader.reload
      rw [runDecoder, hreload]
      exact ih hreader' hbudget hrange hend hcode
  | @read used c ws rs value nbBits hfit _ ih =>
      intro bs buffered hreader hbudget hrange hend hcode
      obtain ⟨hbits, hrest⟩ := code_cons hcode
      have hin : c + nbBits ≤ 8 * src.length := (le_codeEnd _ ws).trans hend
      have hn : nbBits < 64 := by
        have := hbudget.1
        omega
      rw [runDecoder, ih (hreader.skip hfit hin) hbudget.cons
        (fun op hop => hrange op (List.mem_cons_of_mem _ hop)) hend hrest,
        hreader.peek hn hfit hin]
      exact congrArg (fun v => some (v :: ws.flatMap WriterOp.values)) hbits
  | @expGolomb used c ws rs value order hfit _ ih =>
      intro bs buffered hreader hbudget hrange hend hcode
      obtain ⟨hbits, hrest⟩ := code_cons hcode
      obtain ⟨bs', hread, hreader'⟩ := hreader.readExpGolomb hbudget.1
        (hrange _ List.mem_cons_self) hfit ((le_codeEnd _ ws).trans hend) hbits
      rw [runDecoder, hread]
      simp only [Option.bind_eq_bind, Option.bind_some]
      rw [ih hreader' hbudget.cons
        (fun op hop => hrange op (List.mem_cons_of_mem _ hop)) hend hrest]
      rfl
  | @region used c ws rs nbBits fill _ ih =>
      intro bs buffered hreader hbudget hrange hend hcode
      obtain ⟨hbits, hrest⟩ := code_cons hcode
      have hin : (c + 7) / 8 * 8 + nbBits ≤ 8 * src.length := (le_codeEnd _ ws).trans hend
      obtain ⟨bs', hpop, hsrc, hreader'⟩ := hreader.popAlignedBits hsize hin
      rw [runDecoder, hpop]
      simp only [Option.bind_eq_bind, Option.bind_some]
      rw [ih hreader' hbudget.cons
        (fun op hop => hrange op (List.mem_cons_of_mem _ hop)) hend hrest, hsrc, region_value]
      exact congrArg (fun v => some (v :: ws.flatMap WriterOp.values)) hbits

/-- A run of the writer is defined, and the mirrored reads of the bytes it produces, within the
reader's budget, return the values written. -/
def RoundTrips (dst : List UInt8) (ops : List WriterOp) : Prop :=
  encodeBits dst ops ≠ .error .undefined ∧
    ∀ src, encodeBits dst ops = .ok src → ∀ rs, Mirrors 0 0 ops rs →
      decodeBits src rs = some (ops.flatMap WriterOp.values)

theorem roundTrips_of_inRange {dst : List UInt8} (hbudget : WriterBudget 0 ops)
    (hdst : dst.length ≤ sizeMax / 8) (hrange : ∀ op ∈ ops, op.InRange) : RoundTrips dst ops := by
  rcases encodeBits_spec dst hbudget hrange with hfull | ⟨hbytes, hroom, hlt⟩
  · rw [RoundTrips, hfull]
    refine ⟨?_, ?_⟩
    · rintro ⟨⟩
    · rintro src ⟨⟩
  · rw [RoundTrips, hbytes]
    refine ⟨?_, ?_⟩
    · rintro ⟨⟩
    · rintro src ⟨⟩ rs hmirrors
      have hlen := length_toLE ((codeEnd 0 ops + 7) / 8) (code 0 ops)
      have hvalue : ofLE (toLE ((codeEnd 0 ops + 7) / 8) (code 0 ops)) = code 0 ops := by
        rw [ofLE_toLE, pow256]
        exact Nat.mod_eq_of_lt (hlt.trans_le (Nat.pow_le_pow_right (by decide) (by omega)))
      obtain ⟨bs, hinit, hreader⟩ := Reader.init (toLE ((codeEnd 0 ops + 7) / 8) (code 0 ops))
      rw [decodeBits, hinit]
      refine runDecoder_spec (by omega) hmirrors hreader hbudget hrange (by omega) ?_
      rw [hvalue, Nat.pow_zero, Nat.div_one]

theorem runWriter_undefined {op : WriterOp} (hop : ¬op.InRange) : ∀ {ops : List WriterOp}
    {bs : BitCStreamFF} {room size D buffered : Nat}, Writer bs room size D buffered →
      buffered ≤ 63 → WriterBudget buffered ops → op ∈ ops →
      runWriter ops bs = .error .capacity ∨ runWriter ops bs = .error .undefined
  | first :: ops, bs, room, size, D, buffered, h, hfit, hbudget, hmem => by
      rw [runWriter]
      by_cases hfirst : first.InRange
      · have hrest : op ∈ ops := by
          rcases List.mem_cons.1 hmem with rfl | hrest
          · exact absurd hfirst hop
          · exact hrest
        rcases h.run hfit hbudget hfirst with hfull | ⟨bs₁, hrun, hwriter⟩
        · rw [hfull]
          exact .inl rfl
        · rw [hrun]
          exact runWriter_undefined hop hwriter hbudget.bufferedAfter_le hbudget.cons hrest
      · cases first with
        | expGolomb value order =>
            have ho : 32 ≤ order := Nat.not_lt.1 hfirst
            have hcode : bs.writeExpGolomb value order = none := if_pos ho
            rw [WriterOp.run, hcode]
            exact .inr rfl
        | write | flush | region => exact absurd trivial hfirst

/-- **Round trip of the forward bitstream.** For every sequence of writes within the writer's bit
budget that ends without a capacity error, the mirrored reads return the values written if and only
if no exponential-Golomb code is of an order above 31. -/
theorem roundTrips_iff (dst : List UInt8) (ops : List WriterOp) (hbudget : WriterBudget 0 ops)
    (hdst : dst.length ≤ sizeMax / 8) (hfits : encodeBits dst ops ≠ .error .capacity) :
    RoundTrips dst ops ↔ ∀ op ∈ ops, op.InRange := by
  refine ⟨fun h => ?_, roundTrips_of_inRange hbudget hdst⟩
  by_contra hout
  push Not at hout
  obtain ⟨op, hmem, hop⟩ := hout
  rcases runWriter_undefined hop (Writer.init dst) (Nat.zero_le _) hbudget hmem with hrun | hrun
  · refine hfits ?_
    rw [encodeBits, hrun]
    rfl
  · refine h.1 ?_
    rw [encodeBits, hrun]
    rfl

/-- Three bits, a code, twelve bits of a region, and a bit in its last byte. -/
def mixedOps : List WriterOp :=
  [.write 5 3, .flush, .expGolomb 9 2, .region 12 [0xab, 0x0c], .write 1 1]

theorem roundTrips_mixed : RoundTrips (List.replicate 4 0) mixedOps := by
  have hbudget : WriterBudget 0 mixedOps :=
    ⟨by decide, by decide, by decide, rfl, by decide, trivial⟩
  have hbytes : encodeBits (List.replicate 4 0) mixedOps = .ok [0xcd, 0xab, 0x1c] := rfl
  refine (roundTrips_iff _ _ hbudget (by decide) ?_).2 (by decide)
  rw [hbytes]
  rintro ⟨⟩

/-- With order 32, the shift that should leave no bit of a value of 32 bits is undefined. -/
theorem order_32_undefined :
    ¬∀ (dst : List UInt8) (ops : List WriterOp), WriterBudget 0 ops →
      encodeBits dst ops ≠ .error .capacity → RoundTrips dst ops := by
  intro h
  have hrun : encodeBits (List.replicate 16 0) [.expGolomb 5 32] = .error .undefined := rfl
  refine (h (List.replicate 16 0) [.expGolomb 5 32] ⟨by decide, by decide, trivial⟩ ?_).1 hrun
  rw [hrun]
  rintro ⟨⟩

end OpenZL.Codecs.Bitpack.InMemory
