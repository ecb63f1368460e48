import OpenZL.Common.Basic
import OpenZL.Lib.Command
import OpenZL.Lib.Slices

/-!
# Streams (`stream.c`)

A stream is a typed buffer with six sizes: its capacity and what is used of it, in elements and in
bytes, the width of an element, and the elements of the last commit. An assertion of the source on
its arguments, or on the stream before it is touched, is a promise of the caller: without it the
operation is undefined, as is a write through a null or read-only pointer. The content of the main
buffer is left out, and so are metadata and hashes.
-/

namespace OpenZL.Common

open OpenZL.Lib

/-- `ZL_Refcount`: a pointer to `target`, or the null pointer, and whether it may be written
through. -/
structure Refcount (α : Type) where
  target : Option α
  isMutable : Bool
  deriving DecidableEq, Repr

namespace Refcount

variable {α : Type}

def null (rc : Refcount α) : Prop := rc.target = none

instance (rc : Refcount α) : Decidable rc.null :=
  decidable_of_iff (rc.target.isNone = true) Option.isNone_iff_eq_none

/-- A pointer that is there and may be written through. -/
def writable (rc : Refcount α) : Prop := ¬ rc.null ∧ rc.isMutable = true

instance (rc : Refcount α) : Decidable rc.writable := inferInstanceAs (Decidable (_ ∧ _))

/-- `ZL_Refcount_initConstRef`. -/
def constRef (target : Option α) : Refcount α := ⟨target, false⟩

/-- `ZL_Refcount_initMutRef`, and `ZL_Refcount_inArena` when the memory is there. -/
def mutRef (target : Option α) : Refcount α := ⟨target, true⟩

/-- `ZL_Refcount_destroy`. -/
def destroy (rc : Refcount α) : Refcount α := { rc with target := none }

end Refcount

/-- `struct Stream_s`.  The buffer is known by the number of bytes from its pointer on, the lengths
of strings by the array from theirs on. -/
structure Stream where
  buffer : Refcount Nat
  type : Option DataType
  eltWidth : Nat
  eltsCapacity : Nat
  eltCount : Nat
  bufferCapacity : Nat
  bufferUsed : Nat
  stringLens : Refcount (List UInt32)
  writeCommitted : Bool
  lastCommitted : Nat
  deriving DecidableEq, Repr

namespace Stream

/-- `STREAM_create`. -/
def create : Stream :=
  { buffer := ⟨none, false⟩, type := none, eltWidth := 0, eltsCapacity := 0, eltCount := 0,
    bufferCapacity := 0, bufferUsed := 0, stringLens := ⟨none, false⟩, writeCommitted := false,
    lastCommitted := 0 }

/-- The bytes from the buffer's pointer on. -/
def extent (s : Stream) : Nat := s.buffer.target.getD 0

/-- The lengths from the array's pointer on. -/
def lens (s : Stream) : List UInt32 := s.stringLens.target.getD []

end Stream

/-- A result of the allocator for each allocation of a call, and the content of new memory. -/
structure Memory where
  buffer : Bool
  stringLens : Bool
  intMetas : Bool
  fresh : Nat → UInt32

abbrev StreamM := Cmd ErrorCode Stream

/-- `NUMOP_sumArray32`, without the wrap-around of its 64 bits. -/
def sumLens (lens : List UInt32) : Nat := (lens.map UInt32.toNat).sum

/-- `count` lengths from position `start` on; no value when the array is shorter. -/
def readLens (lens : List UInt32) (start count : Nat) : Option (List UInt32) :=
  if count = 0 then some []
  else if start + count ≤ lens.length then some ((lens.drop start).take count)
  else none

namespace Stream

/-- `STREAM_eltWidth`. -/
def elementWidth (s : Stream) : Nat := if s.type = some .string then 0 else s.eltWidth

/-- `STREAM_eltCapacity`. -/
def eltCapacity (s : Stream) : Nat := (s.eltsCapacity + 2 ^ 64 - s.eltCount) % 2 ^ 64

/-- `STREAM_byteCapacity`. -/
def byteCapacity (s : Stream) : Nat := (s.bufferCapacity + 2 ^ 64 - s.bufferUsed) % 2 ^ 64

/-- `STREAM_byteSize`. -/
def byteSize (s : Stream) : Nat := if s.writeCommitted then s.bufferUsed else 0

/-- The first of the elements committed last. -/
def startElt (s : Stream) : Nat := (s.eltCount + 2 ^ 64 - s.lastCommitted) % 2 ^ 64

/-- `STREAM_lastCommittedStringLens`, in bytes of the array. -/
def lastCommittedStringLens (s : Stream) : Slice :=
  if s.stringLens.null then ⟨0, 0⟩ else ⟨s.startElt * 4, s.lastCommitted * 4 % 2 ^ 64⟩

/-- `STREAM_lastCommittedStringContent`. -/
def lastCommittedStringContent (s : Stream) : Option Slice :=
  (readLens s.lens s.startElt s.lastCommitted).map fun lens =>
    ⟨(s.bufferUsed + 2 ^ 64 - sumLens lens % 2 ^ 64) % 2 ^ 64, sumLens lens % 2 ^ 64⟩

/-- `STREAM_lastCommittedBufferContent`. -/
def lastCommittedBufferContent (s : Stream) : Option Slice :=
  if s.lastCommitted = s.eltCount then some ⟨0, s.bufferUsed⟩
  else if s.type = some .string then s.lastCommittedStringContent
  else some ⟨s.startElt * s.eltWidth % 2 ^ 64, s.lastCommitted * s.eltWidth % 2 ^ 64⟩

end Stream

open Cmd

/-- `STREAM_validateTypeWidth`. -/
def validateTypeWidth (type : Option DataType) (eltWidth : Nat) : StreamM Unit :=
  match type with
  | some .serial => failWhen (eltWidth ≠ 1) .streamParameter_invalid
  | some .string => failWhen (eltWidth ≠ 1) .streamParameter_invalid
  | some .struct => failWhen (eltWidth = 0) .streamParameter_invalid
  | some .numeric => failWhen (eltWidth ∉ [1, 2, 4, 8]) .streamParameter_invalid
  | none => fail .streamParameter_invalid

/-- `STREAM_typeAttachedBuffer`. -/
def typeAttachedBuffer (type : Option DataType) (eltWidth eltCapacity : Nat) : StreamM Unit := do
  let s ← get
  if s.type ≠ none then
    failWhen (s.type ≠ type) .corruption
    failWhen (s.eltWidth ≠ eltWidth) .corruption
    failWhen (s.bufferCapacity < eltCapacity * eltWidth % 2 ^ 64) .corruption
  else
    validateTypeWidth type eltWidth
    modify fun s => { s with type := type }
    failWhen (s.bufferCapacity / eltWidth < eltCapacity) .streamCapacity_tooSmall
    modify fun s =>
      { s with eltWidth := eltWidth, eltsCapacity := s.bufferCapacity / eltWidth }

/-- `STREAM_reserveRawBuffer`. -/
def reserveRawBuffer (byteCapacity : Nat) (mem : Memory) : StreamM Unit := do
  let s ← get
  require (s.buffer.null ∧ s.eltCount = 0 ∧ s.bufferUsed = 0)
  failWhen (mem.buffer = false) .allocation
  modify fun s =>
    { s with buffer := .mutRef (some byteCapacity), bufferCapacity := byteCapacity }

/-- `STREAM_reserve`. -/
def reserve (type : Option DataType) (eltWidth eltsCapacity : Nat) (mem : Memory) :
    StreamM Unit := do
  failWhen (2 ^ 64 ≤ eltsCapacity * eltWidth) .allocation
  reserveRawBuffer (eltsCapacity * eltWidth) mem
  match ← attempt (typeAttachedBuffer type eltWidth eltsCapacity) with
  | .ok () => pure ()
  | .error e =>
    modify fun s => { s with buffer := s.buffer.destroy, bufferCapacity := 0 }
    fail e

/-- `STREAM_reserveStringLens`: whether the array was reserved. -/
def reserveStringLens (nbStrings : Nat) (mem : Memory) : StreamM Bool := do
  let s ← get
  if s.type ≠ some .string ∨ ¬ s.stringLens.null ∨ s.writeCommitted ∨ 2 ^ 64 ≤ nbStrings * 4 ∨
      mem.stringLens = false then
    pure false
  else do
    modify fun s =>
      { s with stringLens := .mutRef (some ((List.range nbStrings).map mem.fresh)),
               eltsCapacity := nbStrings }
    pure true

/-- `STREAM_reserveStrings`. -/
def reserveStrings (numStrings bufferCapacity : Nat) (mem : Memory) : StreamM Unit := do
  reserveRawBuffer bufferCapacity mem
  let s ← get
  require (s.type = none)
  modify fun s => { s with type := some .string }
  if ← reserveStringLens numStrings mem then pure ()
  else do
    modify fun s => { s with eltsCapacity := 0 }
    if numStrings = 0 then pure ()
    else do
      modify fun s => { s with buffer := s.buffer.destroy, bufferCapacity := 0 }
      fail .allocation

/-- `STREAM_commitStrings`. -/
def commitStrings (numStrings : Nat) : StreamM Unit := do
  let s ← get
  failWhen (s.eltsCapacity < numStrings) .streamCapacity_tooSmall
  let lens ← expect (readLens s.lens s.eltCount numStrings)
  failWhen (s.bufferCapacity < sumLens lens % 2 ^ 64) .streamCapacity_tooSmall
  modify fun s =>
    { s with eltCount := (s.eltCount + numStrings) % 2 ^ 64, lastCommitted := numStrings,
             bufferUsed := (s.bufferUsed + sumLens lens % 2 ^ 64) % 2 ^ 64,
             writeCommitted := true }

/-- `STREAM_commit`. -/
def commit (eltCount : Nat) : StreamM Unit := do
  let s ← get
  failWhen (s.eltsCapacity < (s.eltCount + eltCount) % 2 ^ 64) .stream_wrongInit
  if s.type = some .string then commitStrings eltCount
  else
    modify fun s =>
      { s with eltCount := (s.eltCount + eltCount) % 2 ^ 64, lastCommitted := eltCount,
               bufferUsed := (s.bufferUsed + eltCount * s.eltWidth) % 2 ^ 64,
               writeCommitted := true }

/-- `STREAM_referenceInternal`; `aligned` says how the pointer is aligned for numbers. -/
def referenceInternal (type : Option DataType) (eltWidth eltCount : Nat) (aligned : Bool) :
    StreamM Unit := do
  let s ← get
  failWhen (s.writeCommitted = true) .stream_wrongInit
  validateTypeWidth type eltWidth
  modify fun s => { s with type := type }
  failWhen (type = some .numeric ∧ aligned = false) .userBuffer_alignmentIncorrect
  modify fun s => { s with eltWidth := eltWidth }
  require (s.eltsCapacity = 0)
  modify fun s => { s with bufferCapacity := eltCount * eltWidth % 2 ^ 64 }
  if type = some .string then pure ()
  else
    modify fun s =>
      { s with eltCount := eltCount, bufferUsed := s.bufferCapacity, lastCommitted := eltCount,
               writeCommitted := true }

/-- The caller's buffer of `size` bytes, or the null pointer. -/
def callerBuffer (ref : Bool) (size : Nat) : Option Nat := if ref then some size else none

/-- `STREAM_refConstBuffer`, of a buffer that holds the elements it is said to hold. -/
def refConstBuffer (ref aligned : Bool) (type : Option DataType) (eltWidth eltCount : Nat) :
    StreamM Unit := do
  let s ← get
  require (s.buffer.null ∧ type ≠ some .string ∧ (0 < eltCount → ref = true))
  modify fun s => { s with buffer := .constRef (callerBuffer ref (eltCount * eltWidth)) }
  referenceInternal type eltWidth eltCount aligned

/-- `STREAM_refConstExtString`. -/
def refConstExtString (ref : Bool) (bufferSize : Nat) (strLengths : Option (List UInt32)) :
    StreamM Unit := do
  let s ← get
  require (s.buffer.null ∧ s.stringLens.null ∧ (0 < bufferSize → ref = true))
  failWhen (s.writeCommitted = true) .stream_wrongInit
  modify fun s => { s with buffer := .constRef (callerBuffer ref bufferSize) }
  referenceInternal (some .string) 1 bufferSize true
  let nbStrings := (strLengths.getD []).length
  modify fun s => { s with stringLens := .constRef strLengths, eltsCapacity := nbStrings }
  commit nbStrings

/-- `STREAM_attachWritableBuffer`. -/
def attachWritableBuffer (ref : Bool) (type : Option DataType) (eltWidth eltCount : Nat) :
    StreamM Unit := do
  let s ← get
  require (s.buffer.null ∧ type ≠ some .string ∧ 0 < eltWidth ∧ (0 < eltCount → ref = true))
  modify fun s =>
    { s with buffer := .mutRef (callerBuffer ref (eltCount * eltWidth)),
             bufferCapacity := eltCount * eltWidth % 2 ^ 64 }
  typeAttachedBuffer type eltWidth eltCount

/-- `STREAM_refMutStringLens`. -/
def refMutStringLens (stringLens : Option (List UInt32)) : StreamM Unit := do
  let s ← get
  failWhen (s.type ≠ some .string) .streamType_incorrect
  failWhen (¬ s.stringLens.null) .stream_wrongInit
  modify fun s =>
    { s with stringLens := .mutRef stringLens, eltsCapacity := (stringLens.getD []).length }

/-- `STREAM_attachRawBuffer`. -/
def attachRawBuffer (ref : Bool) (bufByteSize : Nat) : StreamM Unit := do
  let s ← get
  require (s.buffer.null ∧ (0 < bufByteSize → ref = true))
  modify fun s =>
    { s with buffer := .mutRef (callerBuffer ref bufByteSize), bufferCapacity := bufByteSize }

/-- `STREAM_refStreamWithoutRefCount`. -/
def refStreamWithoutRefCount (ref : Stream) (mem : Memory) : StreamM Unit := do
  let s ← get
  require (ref.writeCommitted = true)
  failWhen (s.writeCommitted = true) .stream_wrongInit
  modify fun s =>
    { s with type := ref.type, eltCount := ref.eltCount, eltWidth := ref.eltWidth,
             bufferCapacity := ref.bufferCapacity, bufferUsed := ref.bufferUsed,
             lastCommitted := ref.eltCount, writeCommitted := true }
  failWhen (mem.intMetas = false) .allocation
  modify fun s =>
    { s with buffer := .constRef ref.buffer.target, stringLens := .constRef ref.stringLens.target }

/-- `STREAM_refStreamByteSlice`. -/
def refStreamByteSlice (src : Stream) (type : Option DataType) (offsetBytes eltWidth eltCount : Nat)
    (aligned : Bool) : StreamM Unit := do
  failWhen (2 ^ 64 ≤ eltCount * eltWidth) .allocation
  failWhen (2 ^ 64 ≤ offsetBytes + eltCount * eltWidth) .allocation
  failWhen (src.byteSize < offsetBytes + eltCount * eltWidth) .allocation
  require (src.buffer.null → offsetBytes = 0)
  modify fun s => { s with buffer := .constRef (src.buffer.target.map (· - offsetBytes)) }
  referenceInternal type eltWidth eltCount aligned

/-- `STREAM_refStreamStringSlice`. -/
def refStreamStringSlice (src : Stream) (startingEltNum eltCount : Nat) : StreamM Unit := do
  let before ← expect (readLens src.lens 0 startingEltNum)
  let lens ← expect (readLens src.lens startingEltNum eltCount)
  modify fun s =>
    { s with buffer := .constRef (s.buffer.target.map (· - sumLens before % 2 ^ 64)),
             stringLens := .constRef (s.stringLens.target.map (List.drop startingEltNum)),
             eltCount := eltCount, lastCommitted := eltCount,
             bufferCapacity := sumLens lens % 2 ^ 64, bufferUsed := sumLens lens % 2 ^ 64 }

/-- `STREAM_refStreamSliceWithoutRefCount`. -/
def refStreamSliceWithoutRefCount (src : Stream) (startingEltNum eltCount : Nat) (mem : Memory) :
    StreamM Unit := do
  require (startingEltNum + eltCount ≤ src.eltCount)
  refStreamWithoutRefCount src mem
  if eltCount = src.eltCount then pure ()
  else if src.type = some .string then refStreamStringSlice src startingEltNum eltCount
  else
    modify fun s =>
      { s with buffer := .constRef (s.buffer.target.map (· - startingEltNum * s.eltWidth)),
               eltCount := eltCount, lastCommitted := eltCount,
               bufferCapacity := eltCount * s.eltWidth % 2 ^ 64,
               bufferUsed := eltCount * s.eltWidth % 2 ^ 64 }

/-- `STREAM_refEndStreamWithoutRefCount`. -/
def refEndStreamWithoutRefCount (src : Stream) (startingEltNum : Nat) (mem : Memory) :
    StreamM Unit := do
  require (startingEltNum ≤ src.eltCount)
  refStreamSliceWithoutRefCount src startingEltNum (src.eltCount - startingEltNum) mem

/-- The caller's writes into the array of lengths, from `STREAM_wStringLens` on. -/
def writeStringLens (lens : List UInt32) : StreamM Unit := do
  let s ← get
  require (s.type = some .string ∧ s.stringLens.writable ∧
    s.eltCount + lens.length ≤ s.lens.length)
  modify fun s =>
    { s with stringLens := .mutRef (some (s.lens.take s.eltCount ++ lens ++
               s.lens.drop (s.eltCount + lens.length))) }

/-- `STREAM_clear`. -/
def clear : StreamM Unit :=
  modify fun s =>
    { s with writeCommitted := false, eltCount := 0, lastCommitted := 0, bufferUsed := 0 }

/-- `STREAM_addElts`. -/
def addElts (eltCount eltWidth : Nat) : StreamM Unit := do
  let s ← get
  require (s.type ≠ some .string)
  failWhen (s.eltWidth ≠ eltWidth) .parameter_invalid
  failWhen (s.eltCapacity < eltCount) .dstCapacity_tooSmall
  require (0 < eltCount * eltWidth % 2 ^ 64 → s.buffer.writable)
  commit eltCount

/-- The copies that `STREAM_appendStrings` makes when there are strings. -/
def copyStrings (src : Stream) : StreamM Unit := do
  let s ← get
  if 0 < src.eltCount then do
    require (s.buffer.null ∨ s.buffer.isMutable = true)
    let lens ← expect (readLens src.lens 0 src.eltCount)
    writeStringLens lens
  else pure ()

/-- `STREAM_appendStrings`. -/
def appendStrings (src : Stream) : StreamM Unit := do
  let s ← get
  failWhen (s.eltCapacity < src.eltCount) .dstCapacity_tooSmall
  failWhen (s.byteCapacity < src.byteSize) .dstCapacity_tooSmall
  copyStrings src
  commit src.eltCount

/-- `STREAM_append`. -/
def append (src : Stream) : StreamM Unit := do
  let s ← get
  failWhen (s.type ≠ src.type) .parameter_invalid
  if s.type = some .string then appendStrings src
  else addElts src.eltCount src.elementWidth

/-- `STREAM_copyBytes`. -/
def copyBytes (src : Stream) (size : Nat) : StreamM Unit := do
  let s ← get
  failWhen (s.byteCapacity < size) .dstCapacity_tooSmall
  failWhen (src.byteSize < size) .srcSize_tooSmall
  require (s.elementWidth ≠ 0)
  failWhen (size % s.elementWidth ≠ 0) .parameter_invalid
  addElts (size / s.elementWidth) s.elementWidth

/-- `STREAM_copyStringStream`. -/
def copyStringStream (src : Stream) (mem : Memory) : StreamM Unit := do
  let s ← get
  require (s.buffer.null ∧ src.type = some .string)
  reserve (some .string) 1 src.byteSize mem
  if ← reserveStringLens src.eltCount mem then do
    let lens ← expect (readLens src.lens 0 src.eltCount)
    writeStringLens lens
    commit src.eltCount
  else fail .allocation

/-- `STREAM_copy`. -/
def copy (src : Stream) (mem : Memory) : StreamM Unit := do
  let s ← get
  require (s.buffer.null ∧ src.writeCommitted = true)
  failWhen (mem.intMetas = false) .allocation
  if src.type = some .string then copyStringStream src mem
  else do
    reserve src.type src.elementWidth src.eltCount mem
    copyBytes src src.byteSize

/-- `STREAM_consume`. -/
def consume (eltCount : Nat) : StreamM Unit := do
  let s ← get
  require (s.writeCommitted = true)
  failWhen (s.eltCount < eltCount) .parameter_invalid
  if s.type = some .string then fail .GENERIC
  else
    modify fun s =>
      { s with buffer := { s.buffer with target := s.buffer.target.map (· - eltCount * s.eltWidth) },
               eltCount := s.eltCount - eltCount,
               bufferCapacity := (s.eltCount - eltCount) * s.eltWidth % 2 ^ 64 }

end OpenZL.Common
