import OpenZL.Common.StreamInvariant

/-!
# Runs of the stream operations

A stream is created and then changed by operations, in any order, with any counts, each of which may
fail.

Principal results: `Reached.sound`, `stream_consistent`.
-/

namespace OpenZL.Common

open OpenZL.Lib OpenZL.Lib.Cmd

/-- An array of lengths that the caller owns, or the null pointer. -/
abbrev LensArray := { lens : Option (List UInt32) // (lens.getD []).length < 2 ^ 64 }

/-- The operations of `stream.h` that change a stream, and what the caller writes. -/
inductive Op where
  | reserve (type : Option DataType) (eltWidth eltsCapacity : UInt64) (mem : Memory)
  | reserveRawBuffer (byteCapacity : UInt64) (mem : Memory)
  | reserveStrings (numStrings bufferCapacity : UInt64) (mem : Memory)
  | reserveStringLens (nbStrings : UInt64) (mem : Memory)
  | typeAttachedBuffer (type : Option DataType) (eltWidth eltCapacity : UInt64)
  | attachWritableBuffer (ref : Bool) (type : Option DataType) (eltWidth eltCount : UInt64)
  | attachRawBuffer (ref : Bool) (bufByteSize : UInt64)
  | refMutStringLens (stringLens : LensArray)
  | refConstBuffer (ref aligned : Bool) (type : Option DataType) (eltWidth eltCount : UInt64)
  | refConstExtString (ref : Bool) (bufferSize : UInt64) (strLengths : LensArray)
  | refStreamWithoutRefCount (src : Stream) (mem : Memory)
  | refStreamByteSlice (src : Stream) (type : Option DataType)
      (offsetBytes eltWidth eltCount : UInt64) (aligned : Bool)
  | refStreamSliceWithoutRefCount (src : Stream) (startingEltNum eltCount : UInt64) (mem : Memory)
  | refEndStreamWithoutRefCount (src : Stream) (startingEltNum : UInt64) (mem : Memory)
  | writeStringLens (lens : List UInt32)
  | commit (eltCount : UInt64)
  | append (src : Stream)
  | copyBytes (src : Stream) (size : UInt64)
  | copyStringStream (src : Stream) (mem : Memory)
  | copy (src : Stream) (mem : Memory)
  | consume (eltCount : UInt64)
  | clear

namespace Op

/-- The operation, with its result reduced to success or failure. -/
def run : Op → StreamM Unit
  | .reserve type w n mem => Common.reserve type w.toNat n.toNat mem
  | .reserveRawBuffer n mem => Common.reserveRawBuffer n.toNat mem
  | .reserveStrings n size mem => Common.reserveStrings n.toNat size.toNat mem
  | .reserveStringLens n mem => do
    let _ ← Common.reserveStringLens n.toNat mem
    pure ()
  | .typeAttachedBuffer type w n => Common.typeAttachedBuffer type w.toNat n.toNat
  | .attachWritableBuffer ref type w n => Common.attachWritableBuffer ref type w.toNat n.toNat
  | .attachRawBuffer ref size => Common.attachRawBuffer ref size.toNat
  | .refMutStringLens lens => Common.refMutStringLens lens.1
  | .refConstBuffer ref aligned type w n =>
    Common.refConstBuffer ref aligned type w.toNat n.toNat
  | .refConstExtString ref size lens => Common.refConstExtString ref size.toNat lens.1
  | .refStreamWithoutRefCount src mem => Common.refStreamWithoutRefCount src mem
  | .refStreamByteSlice src type offset w n aligned =>
    Common.refStreamByteSlice src type offset.toNat w.toNat n.toNat aligned
  | .refStreamSliceWithoutRefCount src start n mem =>
    Common.refStreamSliceWithoutRefCount src start.toNat n.toNat mem
  | .refEndStreamWithoutRefCount src start mem =>
    Common.refEndStreamWithoutRefCount src start.toNat mem
  | .writeStringLens lens => Common.writeStringLens lens
  | .commit n => Common.commit n.toNat
  | .append src => Common.append src
  | .copyBytes src size => Common.copyBytes src size.toNat
  | .copyStringStream src mem => Common.copyStringStream src mem
  | .copy src mem => Common.copy src mem
  | .consume n => Common.consume n.toNat
  | .clear => Common.clear

/-- The stream that an operation reads. -/
def source : Op → Option Stream
  | .refStreamWithoutRefCount src _ | .refStreamByteSlice src _ _ _ _ _
  | .refStreamSliceWithoutRefCount src _ _ _ | .refEndStreamWithoutRefCount src _ _
  | .append src | .copyBytes src _ | .copyStringStream src _ | .copy src _ => some src
  | _ => none

/-- When an operation, on a stream as it is before, is known to keep the sizes in order. -/
def Safe : Op → Stream → Prop
  | .commit n, s => s.RoomFor n.toNat
  | .consume n, s => s.ConsumesNothing n.toNat
  | .attachWritableBuffer _ _ _ _, s | .attachRawBuffer _ _, s => s.eltCount = 0
  | .refConstBuffer _ aligned type w n, s =>
    n.toNat * w.toNat < 2 ^ 64 ∧ (type = some .numeric → aligned = false → s.eltsCapacity = 0)
  | .refConstExtString _ _ lens, _ => sumLens (lens.1.getD []) < 2 ^ 64
  | .refStreamByteSlice src type offset w n aligned, s =>
    offset.toNat + n.toNat * w.toNat ≤ src.byteSize → s.buffer.null ∧
      (type = some .numeric → aligned = false → s.eltsCapacity = 0)
  | .refStreamWithoutRefCount _ mem, s | .refStreamSliceWithoutRefCount _ _ _ mem, s
  | .refEndStreamWithoutRefCount _ _ mem, s =>
    s.writeCommitted = false → s.eltsCapacity = 0 ∧ mem.intMetas = true
  | _, _ => True

end Op

/-- The streams that operations meeting `ok` can make. -/
inductive Reached (ok : Op → Stream → Prop) : Stream → Prop
  | create : Reached ok Stream.create
  | step {s s' : Stream} {op : Op} {r : Except ErrorCode Unit} :
    Reached ok s → (∀ src, op.source = some src → Reached ok src) → ok op s →
      op.run s = some (r, s') → Reached ok s'

theorem Op.sound {op : Op} {s : Stream} (hs : s.Sound) (hsrc : ∀ src, op.source = some src → src.Sound)
    (hsafe : op.Safe s) : Ensures op.run s fun _ s' => s'.Sound := by
  cases op with
  | reserve type w n mem => exact (hs.reserve type _ _ mem).mono fun _ _ h => h.1
  | reserveRawBuffer n mem => exact (hs.reserveRawBuffer n.toNat_lt mem).mono fun _ _ h => h.1
  | reserveStrings n size mem => exact hs.reserveStrings _ size.toNat_lt mem
  | reserveStringLens n mem =>
    refine ensures_bind.2 ((hs.reserveStringLens n.toNat mem).mono fun _ _ h => ?_)
    exact ⟨fun _ _ => h.1, fun _ _ => ensures_pure.2 h.1⟩
  | typeAttachedBuffer type w n => exact (hs.typeAttachedBuffer type _ _).mono fun _ _ h => h.1
  | attachWritableBuffer ref type w n => exact hs.attachWritableBuffer hsafe ref type _ _
  | attachRawBuffer ref size => exact hs.attachRawBuffer hsafe ref size.toNat_lt
  | refMutStringLens lens => exact hs.refMutStringLens lens.2
  | refConstBuffer ref aligned type w n => exact hs.refConstBuffer ref hsafe.2 n.toNat_lt hsafe.1
  | refConstExtString ref size lens => exact hs.refConstExtString ref size.toNat_lt lens.2 hsafe
  | refStreamWithoutRefCount src mem =>
    exact (hs.refStreamWithoutRefCount (hsrc src rfl) hsafe).mono fun _ _ h => h.1
  | refStreamByteSlice src type offset w n aligned =>
    exact hs.refStreamByteSlice (hsrc src rfl) n.toNat_lt hsafe
  | refStreamSliceWithoutRefCount src start n mem =>
    exact hs.refStreamSliceWithoutRefCount (hsrc src rfl) _ _ hsafe
  | refEndStreamWithoutRefCount src start mem =>
    refine ensures_require_bind.2 fun _ => ?_
    exact hs.refStreamSliceWithoutRefCount (hsrc src rfl) _ _ hsafe
  | writeStringLens lens => exact (hs.writeStringLens lens).mono fun _ _ h => h.1
  | commit n => exact hs.commit hsafe
  | append src => exact hs.append (hsrc src rfl)
  | copyBytes src size => exact hs.copyBytes src _
  | copyStringStream src mem => exact hs.copyStringStream (hsrc src rfl) mem
  | copy src mem => exact hs.copy (hsrc src rfl) mem
  | consume n => exact hs.consume hsafe
  | clear => exact hs.clear

theorem Reached.sound {s : Stream} (h : Reached Op.Safe s) : s.Sound := by
  induction h with
  | create => exact Stream.Sound.create
  | step _ _ hsafe hrun ih ihsrc => exact Op.sound ih ihsrc hsafe _ _ hrun

namespace Stream

variable {s : Stream}

theorem Sound.startElt_eq (hs : s.Sound) : s.startElt + s.lastCommitted = s.eltCount := by
  have hle := hs.last_le
  have hlt := hs.elt_lt
  unfold startElt
  omega

theorem Sound.lastCommittedBufferContent (hs : s.Sound) :
    ∃ slice, s.lastCommittedBufferContent = some slice ∧ slice.stop = s.bufferUsed := by
  have hused := hs.used_le
  have hlt := hs.capacity_lt
  have hstart := hs.startElt_eq
  unfold Stream.lastCommittedBufferContent
  split
  · exact ⟨_, rfl, Nat.zero_add _⟩
  · split
    · rename_i htype
      have hlength := hs.string_lens htype
      have hread : readLens s.lens s.startElt s.lastCommitted =
          some ((s.lens.drop s.startElt).take s.lastCommitted) := by
        unfold readLens
        split
        · rename_i h0
          rw [h0, List.take_zero]
        · rw [if_pos (by omega)]
      have hsum : sumLens (s.lens.take s.startElt) +
          sumLens ((s.lens.drop s.startElt).take s.lastCommitted) = s.bufferUsed := by
        rw [hs.string_used htype, ← hstart, sumLens_take_add]
      rw [lastCommittedStringContent, hread]
      refine ⟨_, rfl, ?_⟩
      change (s.bufferUsed + 2 ^ 64 - _) % 2 ^ 64 + _ % 2 ^ 64 = _
      omega
    · rename_i htype
      have hbytes : s.startElt * s.eltWidth + s.lastCommitted * s.eltWidth = s.bufferUsed := by
        rw [← Nat.add_mul, hstart, hs.fixed_used htype, Nat.mul_comm]
      refine ⟨_, rfl, ?_⟩
      change s.startElt * s.eltWidth % 2 ^ 64 + s.lastCommitted * s.eltWidth % 2 ^ 64 = _
      omega

theorem Sound.lastCommittedStringLens (hs : s.Sound) (htype : s.type = some .string) :
    s.lastCommittedStringLens.stop ≤ 4 * s.lens.length := by
  have hlength := hs.string_lens htype
  have hstart := hs.startElt_eq
  unfold Stream.lastCommittedStringLens
  split
  · exact Nat.zero_le _
  · have hmod := Nat.mod_le (s.lastCommitted * 4) (2 ^ 64)
    change s.startElt * 4 + s.lastCommitted * 4 % 2 ^ 64 ≤ _
    omega

end Stream

/-- **The sizes of a stream agree.**  In a run whose operations meet their conditions, the capacity
that is left does not underflow, what is used fits into the buffer, and the slices of the last
commit end where the used part ends. -/
theorem stream_consistent {s : Stream} (h : Reached Op.Safe s) :
    s.Consistent ∧ s.byteCapacity + s.bufferUsed = s.bufferCapacity ∧
      s.byteSize ≤ s.bufferCapacity ∧ s.bufferCapacity ≤ s.extent ∧
      (∃ slice, s.lastCommittedBufferContent = some slice ∧ slice.stop ≤ s.bufferUsed) ∧
      (s.type = some .string → s.lastCommittedStringLens.stop ≤ 4 * s.lens.length) := by
  have hs := h.sound
  obtain ⟨slice, hslice, hstop⟩ := hs.lastCommittedBufferContent
  exact ⟨hs.consistent, hs.byteCapacity_eq, hs.byteSize_le, hs.capacity_le,
    ⟨slice, hslice, Nat.le_of_eq hstop⟩, hs.lastCommittedStringLens⟩

/-- An allocator that never fails. -/
def plentiful : Memory := ⟨true, true, true, fun _ => 0⟩

/-- The stream after some operations, whatever they return. -/
def runOps : List Op → Stream → Option Stream
  | [], s => some s
  | op :: ops, s => (op.run s).bind fun res => runOps ops res.2

theorem Reached.runOps {ok : Op → Stream → Prop} : ∀ (ops : List Op) {s s' : Stream},
    Reached ok s → (∀ op ∈ ops, op.source = none ∧ ∀ t, ok op t) →
      Common.runOps ops s = some s' → Reached ok s'
  | [], _, _, hs, _, h => by
    cases h
    exact hs
  | op :: ops, s, s', hs, hops, h => by
    obtain ⟨res, hrun, h⟩ := Option.bind_eq_some_iff.1 h
    obtain ⟨hsource, hok⟩ := hops op (by simp)
    refine Reached.runOps ops (Reached.step hs ?_ (hok s) hrun) (fun o ho => hops o (by simp [ho])) h
    intro src hsrc
    rw [hsource] at hsrc
    cases hsrc

/-- Two bytes of four are committed, then the other two. -/
def twoCommits : List Op := [.reserve (some .serial) 1 4 plentiful, .commit 2, .commit 2]

theorem stream_consistent_twoCommits :
    ∃ s, Common.runOps twoCommits Stream.create = some s ∧ s.eltCount = 4 ∧ s.Consistent := by
  refine ⟨_, rfl, rfl, ?_⟩
  refine (stream_consistent ?_).1
  have hreserve := @Reached.step Op.Safe _ _ (.reserve (some .serial) 1 4 plentiful) _
    Reached.create (fun _ h => nomatch h) trivial rfl
  have hcommit := @Reached.step Op.Safe _ _ (.commit 2) _ hreserve (fun _ h => nomatch h)
    (fun _ => ⟨by decide, fun h => nomatch h⟩) rfl
  exact @Reached.step Op.Safe _ _ (.commit 2) _ hcommit (fun _ h => nomatch h)
    (fun _ => ⟨by decide, fun h => nomatch h⟩) rfl

def commitAndConsume : List Op := [.reserve (some .serial) 1 4 plentiful, .commit 4, .consume 1]

def commitStringsTwice : List Op :=
  [.reserveStrings 2 5 plentiful, .writeStringLens [3, 3], .commit 1, .commit 1]

def commitTooMany : List Op :=
  [.reserve (some .serial) 1 4 plentiful, .commit 1, .commit 0xFFFFFFFFFFFFFFFF]

/-- Consuming leaves more bytes used than there are, so does a second commit of strings, and a
count that wraps around leaves more elements in the last commit than in the stream. -/
theorem stream_inconsistent :
    (∃ s, Common.runOps commitAndConsume Stream.create = some s ∧
      Reached (fun _ _ => True) s ∧ ¬ s.Consistent ∧ s.bufferCapacity < s.bufferUsed) ∧
    (∃ s, Common.runOps commitStringsTwice Stream.create = some s ∧
      Reached (fun _ _ => True) s ∧ ¬ s.Consistent ∧ s.bufferCapacity < s.bufferUsed) ∧
    ∃ s, Common.runOps commitTooMany Stream.create = some s ∧
      Reached (fun _ _ => True) s ∧ ¬ s.Consistent ∧ s.eltCount < s.lastCommitted := by
  refine ⟨⟨_, rfl, ?_, ?_, by decide⟩, ⟨_, rfl, ?_, ?_, by decide⟩, ⟨_, rfl, ?_, ?_, by decide⟩⟩
  · exact Reached.runOps commitAndConsume Reached.create (by simp [commitAndConsume, Op.source]) rfl
  · exact fun h => absurd h.used_le (by decide)
  · exact Reached.runOps commitStringsTwice Reached.create (by simp [commitStringsTwice, Op.source]) rfl
  · exact fun h => absurd h.used_le (by decide)
  · exact Reached.runOps commitTooMany Reached.create (by simp [commitTooMany, Op.source]) rfl
  · exact fun h => absurd h.last_le (by decide)

end OpenZL.Common
