import OpenZL.Common.Basic
import OpenZL.Lib.Buffer
import OpenZL.Lib.Command

/-!
# Appending to the output (`decompress2.c`)

When the last decoder of an output concatenates its inputs (`splitN`, or the reverse of
`convert_serial_to_struct`), the inputs are moved into the output buffer as they become available:
the next one in order at the head, the last ones at the tail. What the source asserts, a decoder
that breaks it has no meaning here.

Principal results: `commitInput_wait`, `commitInput_ready`, `commitInput_some`.
-/

namespace OpenZL.Decompress

open OpenZL.Lib

/-- Where the content of a stream is: in a buffer of its own, or in the output from `offset` on. -/
inductive StreamBuffer where
  | own (content : List UInt8)
  | output (offset : Nat)
  deriving DecidableEq, Repr

/-- A `ZL_Data` that is an input of the concatenation. -/
structure InputData where
  type : DataType
  eltWidth : Nat
  bufferCapacity : Nat
  buffer : StreamBuffer
  bufferUsed : Nat
  writeCommitted : Bool
  deriving DecidableEq, Repr

def InputData.content (output : List UInt8) (input : InputData) : List UInt8 :=
  match input.buffer with
  | .own content => content
  | .output offset => Buffer.read output offset input.bufferUsed

/-- `ZL_AppendToOutputOptimization`. -/
structure AppendToOutput where
  headInputIdx : Nat
  tailInputIdx : Nat
  outputHead : Nat
  outputTail : Nat
  deriving DecidableEq, Repr

/-- A commit at the tail: the part of the output it wrote, and the parts that were lent at that
time to streams not committed yet. -/
structure TailCommit where
  written : Slice
  lent : List Slice
  deriving DecidableEq, Repr

/-- The output, the inputs of the concatenation and the optimisation, when it is on; with the
history of the tail commits. -/
structure DecodeState where
  output : List UInt8
  outputUsed : Nat
  inputs : List (Option InputData)
  append : Option AppendToOutput
  tailCommits : List TailCommit
  deriving DecidableEq, Repr

abbrev DecodeM := Cmd ErrorCode DecodeState

/-- The part of the output a stream not committed yet may write to. -/
def InputData.lent (input : InputData) : Option Slice :=
  match input.buffer, input.writeCommitted with
  | .output offset, false => some ⟨offset, input.bufferCapacity⟩
  | _, _ => none

def DecodeState.lent (s : DecodeState) : List Slice :=
  s.inputs.filterMap fun slot => slot.bind InputData.lent

/-- The output committed so far. -/
def DecodeState.committed (s : DecodeState) : List UInt8 := s.output.take s.outputUsed

/-- Move a committed input into the output, in one of the three ways of `commitInput`, and free
it. -/
def DecodeState.placeInput (s : DecodeState) (append : AppendToOutput) (inputIdx : Nat)
    (input : InputData) : DecodeState :=
  let bytes := input.content s.output
  let inputs := s.inputs.set inputIdx none
  if input.buffer = .output append.outputHead then
    { s with
      inputs
      append := some { append with outputHead := append.outputHead + input.bufferUsed } }
  else if inputIdx = append.headInputIdx then
    { s with
      inputs
      output := Buffer.write s.output append.outputHead bytes
      append := some { append with outputHead := append.outputHead + input.bufferUsed } }
  else
    { s with
      inputs
      output := Buffer.write s.output (append.outputTail - input.bufferUsed) bytes
      append := some { append with outputTail := append.outputTail - input.bufferUsed }
      tailCommits := s.tailCommits ++
        [⟨⟨append.outputTail - input.bufferUsed, input.bufferUsed⟩, s.lent⟩] }

/-- `ZL_AppendToOutputOptimization_commitInput`. -/
def commitInput (append : AppendToOutput) (inputIdx : Nat) : DecodeM Bool := do
  let s ← Cmd.get
  let slot ← Cmd.expect s.inputs[inputIdx]?
  match slot with
  | none => return false
  | some input =>
    if input.writeCommitted = false then return false
    else
      Cmd.failWhen (input.bufferUsed > append.outputTail - append.outputHead) .dstCapacity_tooSmall
      Cmd.modify fun s => s.placeInput append inputIdx input
      return true

def DecodeState.advanceHead (s : DecodeState) : DecodeState :=
  { s with append := s.append.map fun a => { a with headInputIdx := a.headInputIdx + 1 } }

def DecodeState.advanceTail (s : DecodeState) : DecodeState :=
  { s with append := s.append.map fun a => { a with tailInputIdx := a.tailInputIdx - 1 } }

/-- The loop of `commitInputs`; each turn brings the two indices closer. -/
def commitInputsLoop : Nat → DecodeM Unit
  | 0 => return ()
  | n + 1 => do
    let s ← Cmd.get
    let append ← Cmd.expect s.append
    let success ← commitInput append append.headInputIdx
    if success then
      Cmd.modify DecodeState.advanceHead
      commitInputsLoop n
    else
      let success ← commitInput append (append.tailInputIdx - 1)
      if success then
        Cmd.modify DecodeState.advanceTail
        commitInputsLoop n
      else return ()

/-- `ZL_AppendToOutputOptimization_commitInputs`. -/
def commitInputs : DecodeM Unit := do
  let s ← Cmd.get
  let append ← Cmd.expect s.append
  commitInputsLoop (append.tailInputIdx - append.headInputIdx)

/-- `STREAM_validateTypeWidth`. -/
def validTypeWidth (type : DataType) (eltWidth : Nat) : Bool :=
  match type with
  | .serial | .string => eltWidth = 1
  | .struct => eltWidth ≠ 0
  | .numeric => eltWidth = 1 ∨ eltWidth = 2 ∨ eltWidth = 4 ∨ eltWidth = 8

/-- A stream without content. -/
def InputData.empty (type : DataType) (eltWidth bufferCapacity : Nat) (buffer : StreamBuffer) :
    InputData where
  type
  eltWidth
  bufferCapacity
  buffer
  bufferUsed := 0
  writeCommitted := false

def DecodeState.setInput (s : DecodeState) (idx : Nat) (input : InputData) : DecodeState :=
  { s with inputs := s.inputs.set idx (some input) }

/-- `ZL_AppendToOutputOptimization_newStreamHook`; whether the stream was given a part of the
output. -/
def newStreamHook (append : AppendToOutput) (idx : Nat) (type : DataType)
    (eltWidth eltsCapacity : Nat) : DecodeM Bool := do
  Cmd.failWhen (type = .string) .corruption
  Cmd.failWhen (type = .numeric) .corruption
  if idx ≠ append.headInputIdx then return false
  else
    commitInputs
    Cmd.failWhen (eltWidth * eltsCapacity ≥ 2 ^ 64) .integerOverflow
    let s ← Cmd.get
    let append ← Cmd.expect s.append
    if eltWidth * eltsCapacity > append.outputTail - append.outputHead then return false
    else
      Cmd.failWhen (validTypeWidth type eltWidth = false) .streamParameter_invalid
      Cmd.modify (·.setInput idx
        (.empty type eltWidth (eltWidth * eltsCapacity) (.output append.outputHead)))
      return true

/-- The hook, when the optimisation is on; a decoder that gets no stream fails. -/
def tryAttach (append : Option AppendToOutput) (idx : Nat) (type : DataType)
    (eltWidth eltsCapacity : Nat) : DecodeM Bool :=
  match append with
  | none => return false
  | some append => do
    match ← Cmd.attempt (newStreamHook append idx type eltWidth eltsCapacity) with
    | .error _ => Cmd.fail .allocation
    | .ok attached => return attached

/-- `ZL_Decoder_createTypedStream` and `DCTX_newStream`, for an input of the concatenation. -/
def newStream (idx : Nat) (type : DataType) (eltWidth eltsCapacity : Nat) : DecodeM Unit := do
  Cmd.failWhen (eltWidth * eltsCapacity ≥ 2 ^ 64) .allocation
  Cmd.failWhen (eltWidth = 0) .allocation
  let s ← Cmd.get
  let slot ← Cmd.expect s.inputs[idx]?
  Cmd.expect (if slot.isNone then some () else none)
  Cmd.modify (·.setInput idx (.empty type eltWidth 0 (.own [])))
  let attached ← tryAttach s.append idx type eltWidth eltsCapacity
  if attached then return ()
  else
    Cmd.failWhen (validTypeWidth type eltWidth = false) .allocation
    Cmd.modify (·.setInput idx (.empty type eltWidth (eltWidth * eltsCapacity) (.own [])))

/-- What a decoder does with a stream it regenerates. -/
inductive Action where
  /-- `ZL_Decoder_createTypedStream`. -/
  | create (index eltWidth eltsCapacity : Nat)
  /-- `DI_outStream_asReference`: the stream refers to bytes of an input of the decoder. -/
  | reference (index eltWidth : Nat) (content : List UInt8)
  /-- Write `content`, then `scratch` behind it, and commit the elements of `content`. -/
  | commit (index : Nat) (content scratch : List UInt8)
  deriving DecidableEq, Repr

/-- A stream a node regenerates; `input` is its position in the concatenation, if it is part of
it. -/
structure Regen where
  input : Option Nat
  type : DataType
  deriving DecidableEq, Repr

/-- A node that runs before the concatenation. -/
structure Producer where
  regens : List Regen
  actions : List Action
  result : Except ErrorCode Unit
  deriving DecidableEq, Repr

def Producer.inputs (p : Producer) : List Nat := p.regens.filterMap (·.input)

/-- `DCTX_newStreamFromStreamRef`; the stream is committed from the start. -/
def newStreamFromRef (idx : Nat) (type : DataType) (eltWidth : Nat) (content : List UInt8) :
    DecodeM Unit := do
  let s ← Cmd.get
  let slot ← Cmd.expect s.inputs[idx]?
  Cmd.expect (if slot.isNone ∧ content.length % eltWidth = 0 then some () else none)
  Cmd.failWhen (validTypeWidth type eltWidth = false) .allocation
  Cmd.modify (·.setInput idx ⟨type, eltWidth, content.length, .own content, content.length, true⟩)

/-- The stream after `content` was written and committed. -/
def InputData.commit (input : InputData) (content : List UInt8) : InputData :=
  { input with
    buffer := match input.buffer with
      | .own old => .own (old ++ content)
      | .output offset => .output offset
    bufferUsed := input.bufferUsed + content.length
    writeCommitted := true }

/-- The output after a stream was written to. -/
def InputData.writeOutput (input : InputData) (output bytes : List UInt8) : List UInt8 :=
  match input.buffer with
  | .own _ => output
  | .output offset => Buffer.write output (offset + input.bufferUsed) bytes

/-- Write to a stream, within its capacity, and `ZL_Data_commit`. -/
def commitStream (idx : Nat) (content scratch : List UInt8) : DecodeM Unit := do
  let s ← Cmd.get
  let slot ← Cmd.expect s.inputs[idx]?
  let input ← Cmd.expect slot
  Cmd.expect (if input.bufferUsed + (content ++ scratch).length ≤ input.bufferCapacity ∧
    content.length % input.eltWidth = 0 then some () else none)
  Cmd.modify fun s =>
    { s.setInput idx (input.commit content) with
      output := input.writeOutput s.output (content ++ scratch) }

def Action.index : Action → Nat
  | .create index _ _ | .reference index _ _ | .commit index _ _ => index

/-- An action on input `idx` of the concatenation. -/
def Action.run (idx : Nat) (type : DataType) : Action → DecodeM Unit
  | .create _ eltWidth eltsCapacity => newStream idx type eltWidth eltsCapacity
  | .reference _ eltWidth content => newStreamFromRef idx type eltWidth content
  | .commit _ content scratch => commitStream idx content scratch

/-- An action on one of the streams a node regenerates.  The streams that are not part of the
concatenation are left out; a decoder that asks for a stream it does not have gets none, and
fails. -/
def runAction (regens : List Regen) (a : Action) : DecodeM Unit :=
  match regens[a.index]? with
  | none => Cmd.fail .allocation
  | some ⟨none, _⟩ => return ()
  | some ⟨some idx, type⟩ => a.run idx type

/-- A regenerated stream does not exist yet: validated with the chunk header. -/
def expectFree (idx : Nat) : DecodeM Unit := do
  let s ← Cmd.get
  Cmd.expect (if s.inputs[idx]? = some none then some () else none)

/-- `DCTX_validateNodeOutputs`, for one stream; that it is committed is only asserted. -/
def validateOutput (idx : Nat) : DecodeM Unit := do
  let s ← Cmd.get
  match s.inputs[idx]?.join with
  | none => Cmd.fail .transform_executionFailure
  | some input => Cmd.expect (if input.writeCommitted then some () else none)

/-- `ZL_AppendToOutputOptimization_preTransformHook`, before a node whose only regenerated stream
is an input of the concatenation. -/
def preTransformHook (p : Producer) : DecodeM Unit := do
  let s ← Cmd.get
  match s.append, p.regens with
  | some _, [⟨some _, _⟩] => commitInputs
  | _, _ => return ()

/-- `DCTX_runDecoder`, for a node before the concatenation. -/
def runProducer (p : Producer) : DecodeM Unit := do
  preTransformHook p
  Cmd.forEach expectFree p.inputs
  Cmd.forEach (runAction p.regens) p.actions
  match p.result with
  | .error e => Cmd.fail e
  | .ok _ => Cmd.forEach validateOutput p.inputs

/-- The decoders that concatenate their inputs. -/
inductive Concat where
  | splitN
  | revertSerialToStruct
  deriving DecidableEq, Repr

/-- The type of the inputs. -/
def Concat.inputType : Concat → DataType
  | .splitN => .serial
  | .revertSerialToStruct => .struct

/-- `DI_splitN` and `DI_revert_serial_to_struct`, with the output appended by
`addChunksIntoFinalStreams` when the decoder did not write to it directly. -/
def concatInputs (decoder : Concat) : DecodeM Unit := do
  let s ← Cmd.get
  let inputs ← Cmd.expect (s.inputs.mapM id)
  Cmd.failWhen (decoder = .revertSerialToStruct ∧ inputs.length ≠ 1) .corruption
  Cmd.failWhen (∃ input ∈ inputs, input.type ≠ decoder.inputType) .graph_invalid
  let content := inputs.flatMap (·.content s.output)
  Cmd.failWhen (content.length > s.output.length - s.outputUsed) .dstCapacity_tooSmall
  Cmd.modify fun s =>
    { s with
      output := Buffer.write s.output s.outputUsed content
      outputUsed := s.outputUsed + content.length }

/-- The output after the tail was moved up to the head. -/
def AppendToOutput.joined (append : AppendToOutput) (output : List UInt8) : List UInt8 :=
  if append.outputTail > append.outputHead then
    Buffer.write output append.outputHead
      (Buffer.read output append.outputTail (output.length - append.outputTail))
  else output

/-- `ZL_AppendToOutputOptimization_preTransformHook`, in the place of the concatenation. -/
def finishAppend : DecodeM Unit := do
  commitInputs
  let s ← Cmd.get
  let append ← Cmd.expect s.append
  Cmd.failWhen (append.headInputIdx ≠ append.tailInputIdx) .corruption
  let tailSize := s.output.length - append.outputTail
  let outputSize := append.outputHead + tailSize - s.outputUsed
  Cmd.failWhen (s.outputUsed + outputSize > s.output.length) .stream_wrongInit
  Cmd.modify fun s =>
    { s with
      output := append.joined s.output
      outputUsed := s.outputUsed + outputSize
      append := none }

/-- The concatenation, or the optimisation in its place. -/
def runConcat (decoder : Concat) : DecodeM Unit := do
  let s ← Cmd.get
  match s.append with
  | none => concatInputs decoder
  | some _ => finishAppend

/-- The nodes that lead to the output, in the order of the chunk. -/
def runChunk (decoder : Concat) (producers : List Producer) : DecodeM Unit := do
  Cmd.forEach runProducer producers
  runConcat decoder

/-- `DCTX_newStreamFromConstRef`, for an input stored in the frame. -/
def InputData.stored (content : List UInt8) : InputData :=
  ⟨.serial, 1, content.length, .own content, content.length, true⟩

/-- The state after `fillStoredStreams`, without the optimisation. -/
def DecodeState.plain (output : List UInt8) (outputUsed : Nat)
    (stored : List (Option (List UInt8))) : DecodeState where
  output
  outputUsed
  inputs := stored.map (Option.map InputData.stored)
  append := none
  tailCommits := []

/-- `ZL_AppendToOutputOptimization_register`, for an output that qualifies. -/
def DecodeState.register (s : DecodeState) : DecodeState :=
  { s with append := some ⟨0, s.inputs.length, s.outputUsed, s.output.length⟩ }

/-- Input `i` is there and committed. -/
def DecodeState.Ready (s : DecodeState) (i : Nat) : Prop :=
  ∃ d, s.inputs[i]? = some (some d) ∧ d.writeCommitted = true

theorem commitInput_wait {s : DecodeState} {a : AppendToOutput} {i : Nat}
    (hi : i < s.inputs.length) (h : ¬ s.Ready i) : commitInput a i s = some (.ok false, s) := by
  have hslot : s.inputs[i]? = some s.inputs[i] := List.getElem?_eq_getElem hi
  unfold commitInput
  rw [Cmd.run_get_bind]
  refine Cmd.run_expect_bind.2 ⟨_, hslot, ?_⟩
  cases hd : s.inputs[i] with
  | none => rfl
  | some d =>
    have hopen : d.writeCommitted = false := by
      cases hc : d.writeCommitted with
      | false => rfl
      | true => exact absurd ⟨d, hslot.trans (congrArg some hd), hc⟩ h
    simp only [hopen, if_true]
    rfl

theorem commitInput_ready {s : DecodeState} {a : AppendToOutput} {i : Nat} {d : InputData}
    (h : s.inputs[i]? = some (some d)) (hc : d.writeCommitted = true)
    (hfits : d.bufferUsed ≤ a.outputTail - a.outputHead) :
    commitInput a i s = some (.ok true, s.placeInput a i d) := by
  unfold commitInput
  rw [Cmd.run_get_bind]
  refine Cmd.run_expect_bind.2 ⟨_, h, ?_⟩
  have hopen : ¬ d.writeCommitted = false := by simp [hc]
  simp only [if_neg hopen]
  rw [Cmd.run_bind_of_ok ((Cmd.run_failWhen_ok (u := ())).2 ⟨by omega, rfl⟩), Cmd.run_modify_bind]
  rfl

theorem commitInput_some {s s' : DecodeState} {a : AppendToOutput} {i : Nat}
    {r : Except ErrorCode Bool} (h : commitInput a i s = some (r, s')) :
    (s' = s ∧ r ≠ .ok true) ∨ ∃ d, s.inputs[i]? = some (some d) ∧ d.writeCommitted = true ∧
      r = .ok true ∧ s' = s.placeInput a i d := by
  unfold commitInput at h
  rw [Cmd.run_get_bind] at h
  obtain ⟨slot, hslot, h₁⟩ := Cmd.run_expect_bind.1 h
  cases slot with
  | none =>
    obtain ⟨rfl, rfl⟩ := Cmd.run_pure_iff.1 h₁
    exact Or.inl ⟨rfl, by simp⟩
  | some d =>
    dsimp only at h₁
    split at h₁
    · obtain ⟨rfl, rfl⟩ := Cmd.run_pure_iff.1 h₁
      exact Or.inl ⟨rfl, by simp⟩
    · rename_i hopen
      rcases Cmd.run_failWhen_bind_some h₁ with ⟨-, rfl, rfl⟩ | ⟨-, h₂⟩
      · exact Or.inl ⟨rfl, by simp⟩
      · rw [Cmd.run_modify_bind] at h₂
        obtain ⟨rfl, rfl⟩ := Cmd.run_pure_iff.1 h₂
        exact Or.inr ⟨d, hslot, by simpa using hopen, rfl, rfl⟩

theorem DecodeState.placeInput_inputs (s : DecodeState) (a : AppendToOutput) (i : Nat)
    (d : InputData) : (s.placeInput a i d).inputs = s.inputs.set i none := by
  unfold DecodeState.placeInput
  split
  · rfl
  · split <;> rfl

theorem DecodeState.placeInput_tailCommits (s : DecodeState) (a : AppendToOutput) (i : Nat)
    (d : InputData) : ∀ t ∈ (s.placeInput a i d).tailCommits, t ∈ s.tailCommits ∨
      t.lent = s.lent := by
  intro t ht
  unfold DecodeState.placeInput at ht
  split at ht
  · exact Or.inl ht
  · split at ht
    · exact Or.inl ht
    · rcases List.mem_append.1 ht with ht | ht
      · exact Or.inl ht
      · rw [List.mem_singleton.1 ht]
        exact Or.inr rfl

theorem DecodeState.placeInput_append (s : DecodeState) (a : AppendToOutput) (i : Nat)
    (d : InputData) : ∃ a', (s.placeInput a i d).append = some a' ∧
      a'.headInputIdx = a.headInputIdx ∧ a'.tailInputIdx = a.tailInputIdx := by
  unfold DecodeState.placeInput
  split
  · exact ⟨_, rfl, rfl, rfl⟩
  · split
    · exact ⟨_, rfl, rfl, rfl⟩
    · exact ⟨_, rfl, rfl, rfl⟩

theorem DecodeState.advanceTail_append {s : DecodeState} {a : AppendToOutput}
    (h : s.append = some a) :
    s.advanceTail.append = some { a with tailInputIdx := a.tailInputIdx - 1 } := by
  rw [DecodeState.advanceTail, h]
  rfl

theorem DecodeState.lent_eq_nil {s : DecodeState} : s.lent = [] ↔
    ∀ (i : Nat) (d : InputData), s.inputs[i]? = some (some d) → d.lent = none := by
  unfold DecodeState.lent
  rw [List.filterMap_eq_nil_iff]
  constructor
  · intro h i d hd
    exact h _ (List.mem_of_getElem? hd)
  · intro h slot hslot
    obtain ⟨i, hi⟩ := List.mem_iff_getElem?.1 hslot
    cases slot with
    | none => rfl
    | some d => exact h i d hi

end OpenZL.Decompress
