import OpenZL.Common.Basic
import OpenZL.Sddl2.Vm

/-!
# Chunks of segments (`sddl2.c`)

The segments that a program cuts from the input are grouped into chunks of bounded size, in order; a
segment that is larger than the limit is cut into slices. What the library does with a chunk, and
what the nodes of a graph do with an edge, is left to the environment: it may fail at any point.
-/

namespace OpenZL.Sddl2

open OpenZL.Lib

def SIZE_MAX : Nat := 2 ^ 64 - 1

def INT_MAX : Nat := 2 ^ 31 - 1

mutual

/-- `sddl2_try_count_primitive_fields`. -/
def tryCountPrimitiveFields : Ty → Option Nat
  | .primitive _ _ => some 1
  | .struct _ members _ _ => countMembers members 0

/-- Its loop over the members, from a total on. -/
def countMembers : List Ty → Nat → Option Nat
  | [], total => some total
  | member :: members, total =>
    match tryCountPrimitiveFields member with
    | none => none
    | some memberTotal =>
      if memberTotal > SIZE_MAX - total then none else countMembers members (total + memberTotal)

end

mutual

/-- The number of primitive fields in the description of a type. -/
def Ty.fieldCount : Ty → Nat
  | .primitive _ _ => 1
  | .struct _ members _ _ => Ty.fieldCounts members

def Ty.fieldCounts : List Ty → Nat
  | [] => 0
  | member :: members => member.fieldCount + Ty.fieldCounts members

end

section flatten

variable {α : Type} (f : TypeKind → Nat → α)

mutual

/-- What `f` says of the primitive fields, nested structures flattened. -/
def flatten : Ty → List α
  | .primitive kind width => [f kind width]
  | .struct _ members _ _ => flattenMembers members

def flattenMembers : List Ty → List α
  | [] => []
  | member :: members => flatten member ++ flattenMembers members

end

mutual

theorem flatten_length : ∀ t : Ty, (flatten f t).length = t.fieldCount
  | .primitive _ _ => rfl
  | .struct _ members _ _ => by
    rw [flatten, Ty.fieldCount]
    exact flattenMembers_length members

theorem flattenMembers_length : ∀ members : List Ty,
    (flattenMembers f members).length = Ty.fieldCounts members
  | [] => rfl
  | member :: members => by
    rw [flattenMembers, List.length_append, flatten_length member,
      flattenMembers_length members, Ty.fieldCounts]

end

end flatten

/-- `sddl2_flatten_field_sizes`. -/
def flattenFieldSizes : Ty → List Nat := flatten fun kind width => kindSize kind * width % 2 ^ 64

/-- `sddl2_flatten_field_types`. -/
def flattenFieldTypes : Ty → List TypeKind := flatten fun kind _ => kind

/-- `SDDL2_ReplaySegment`. -/
structure ReplaySegment where
  sizeBytes : Nat
  type : Ty

/-- The arguments of `sddl2_process_segment_chunk`. -/
structure ReplayChunk where
  segments : List ReplaySegment
  bytes : Nat
  startStreamId : Nat

/-- `SDDL2_ChunkAccumulator`; its count is the length of the list. -/
structure ChunkAccumulator where
  segments : List ReplaySegment
  capacity : Nat
  bytes : Nat
  startStreamId : Nat

/-- `SDDL2_ChunkPlanner`, with the chunks that were handed over. -/
structure ChunkPlanner where
  remainingInputBytes : Nat
  chunkSizeLimit : Nat
  nextStreamId : Nat
  chunk : ChunkAccumulator
  chunks : List ReplayChunk

abbrev PlanM := Cmd ErrorCode ChunkPlanner

/-- `sddl2_append_chunk_replay_slice`. -/
def appendChunkReplaySlice (segmentStreamId : Nat) (type : Ty) (sliceBytes : Nat) : PlanM Unit := do
  let p ← Cmd.get
  Cmd.failWhen (p.chunk.bytes > SIZE_MAX - sliceBytes) .internalBuffer_tooSmall
  Cmd.modify fun p => if p.chunk.segments.length = 0
    then { p with chunk := { p.chunk with startStreamId := segmentStreamId } } else p
  Cmd.failWhen (p.chunk.segments.length = p.chunk.capacity) .internalBuffer_tooSmall
  Cmd.modify fun p =>
    { p with chunk := { p.chunk with
        segments := p.chunk.segments ++ [⟨sliceBytes, type⟩], bytes := p.chunk.bytes + sliceBytes } }

section planner

variable (process : ReplayChunk → Option ErrorCode)

/-- `sddl2_process_segment_chunk`: the environment takes the chunk, or refuses it. -/
def processSegmentChunk (chunk : ReplayChunk) : PlanM Unit := do
  Cmd.failWhen (chunk.startStreamId > INT_MAX) .internalBuffer_tooSmall
  match process chunk with
  | some e => Cmd.fail e
  | none => Cmd.modify fun p => { p with chunks := p.chunks ++ [chunk] }

/-- `sddl2_flush_chunk_segments`. -/
def flushChunkSegments : PlanM Unit := do
  let p ← Cmd.get
  if p.chunk.segments.length = 0 then pure ()
  else do
    processSegmentChunk process ⟨p.chunk.segments, p.chunk.bytes, p.chunk.startStreamId⟩
    Cmd.modify fun p => { p with chunk := { p.chunk with segments := [], bytes := 0 } }

/-- `sddl2_get_chunk_split_unit_size`. -/
def getChunkSplitUnitSize : Ty → PlanM Nat
  | .struct _ _ total _ => do
    Cmd.failWhen (total = 0) .GENERIC
    pure total
  | .primitive kind _ => pure (kindSize kind)

/-- `sddl2_reserve_segment_stream_id`. -/
def reserveSegmentStreamId (type : Ty) : PlanM Nat := do
  match tryCountPrimitiveFields type with
  | none => Cmd.fail .GENERIC
  | some segmentStreams => do
    Cmd.failWhen (segmentStreams = 0) .GENERIC
    Cmd.failWhen (segmentStreams > INT_MAX) .internalBuffer_tooSmall
    let p ← Cmd.get
    Cmd.failWhen (p.nextStreamId > INT_MAX - segmentStreams) .internalBuffer_tooSmall
    Cmd.modify fun p => { p with nextStreamId := p.nextStreamId + segmentStreams }
    pure p.nextStreamId

/-- The loop of `sddl2_plan_split_segment_chunks`. -/
def planSlices (type : Ty) (segmentStreamId maxSliceBytes : Nat) : Nat → Nat → PlanM Unit
  | _, 0 => pure ()
  | 0, _ + 1 => fun _ => none
  | fuel + 1, remaining => do
    let sliceBytes := min remaining maxSliceBytes
    appendChunkReplaySlice segmentStreamId type sliceBytes
    if remaining - sliceBytes > 0 then do
      flushChunkSegments process
      planSlices type segmentStreamId maxSliceBytes fuel (remaining - sliceBytes)
    else pure ()

/-- `sddl2_plan_split_segment_chunks`. -/
def planSplitSegmentChunks (seg : Segment) (segmentStreamId : Nat) : PlanM Unit := do
  let elementBytes ← getChunkSplitUnitSize seg.type
  Cmd.failWhen (seg.sizeBytes % elementBytes ≠ 0) .nodeParameter_invalidValue
  let p ← Cmd.get
  Cmd.failWhen (elementBytes > p.chunkSizeLimit) .parameter_invalid
  planSlices process seg.type segmentStreamId (p.chunkSizeLimit / elementBytes * elementBytes)
    seg.sizeBytes seg.sizeBytes

/-- The test of `sddl2_plan_segment_chunk` that ends a chunk before a segment. -/
def wouldExceedChunk (p : ChunkPlanner) (seg : Segment) : Prop :=
  p.chunk.segments.length > 0 ∧ p.chunkSizeLimit ≠ SIZE_MAX ∧
    (p.chunk.bytes ≥ p.chunkSizeLimit ∨ seg.sizeBytes > p.chunkSizeLimit - p.chunk.bytes)

instance (p : ChunkPlanner) (seg : Segment) : Decidable (wouldExceedChunk p seg) :=
  inferInstanceAs (Decidable (_ ∧ _ ∧ (_ ∨ _)))

/-- A segment that fits into a chunk. -/
def planWholeSegment (seg : Segment) (segmentStreamId : Nat) : PlanM Unit := do
  let p ← Cmd.get
  if wouldExceedChunk p seg then do
    flushChunkSegments process
    appendChunkReplaySlice segmentStreamId seg.type seg.sizeBytes
  else appendChunkReplaySlice segmentStreamId seg.type seg.sizeBytes

/-- `sddl2_plan_segment_chunk`. -/
def planSegmentChunk (seg : Segment) : PlanM Unit := do
  let p ← Cmd.get
  Cmd.failWhen (seg.sizeBytes > p.remainingInputBytes) .nodeParameter_invalidValue
  Cmd.modify fun p => { p with remainingInputBytes := p.remainingInputBytes - seg.sizeBytes }
  let segmentStreamId ← reserveSegmentStreamId seg.type
  if p.chunkSizeLimit = SIZE_MAX ∨ seg.sizeBytes ≤ p.chunkSizeLimit then
    planWholeSegment process seg segmentStreamId
  else do
    flushChunkSegments process
    planSplitSegmentChunks process seg segmentStreamId

/-- `sddl2_init_chunk_planner`. -/
def ChunkPlanner.init (inputSize chunkSizeLimit maxSegments : Nat) : ChunkPlanner where
  remainingInputBytes := inputSize
  chunkSizeLimit := chunkSizeLimit
  nextStreamId := 0
  chunk := ⟨[], maxSegments, 0, 0⟩
  chunks := []

/-- `sddl2_plan_segment_chunks` with a segment in the list. -/
def planSomeSegments (segments : List Segment) : PlanM Unit := do
  Cmd.forEach (planSegmentChunk process) segments
  let p ← Cmd.get
  Cmd.failWhen (p.remainingInputBytes ≠ 0) .nodeParameter_invalidValue
  flushChunkSegments process

/-- `sddl2_plan_segment_chunks`: without segments, the input is stored as one chunk. -/
def planSegmentChunks (segments : List Segment) (inputSize chunkSizeLimit : Nat) :
    Option (Except ErrorCode Unit × ChunkPlanner) :=
  (if segments.length = 0 then processSegmentChunk process ⟨[], inputSize, 0⟩
    else planSomeSegments process segments) (.init inputSize chunkSizeLimit segments.length)

end planner

/-- `ZL_Edge`: the input of the graph, or an output of a node that was run on an edge. -/
inductive Edge
  | input
  | output (edge : Edge) (idx : Nat)
  deriving DecidableEq, Repr

/-- What the replay of a chunk asks of the library. -/
inductive GraphAction
  | runSplitNode (edge : Edge) (segmentSizes : List Nat)
  | runSplitByStruct (edge : Edge) (fieldSizes : List Nat)
  | convertSerialToNum (edge : Edge) (kind : TypeKind)
  | convertStructToNum (edge : Edge) (kind : TypeKind)
  | setIntMetadata (edge : Edge) (tag : Nat)
  | setDestination (edge : Edge)
  | store (edge : Edge)

/-- A clustering tag given to an edge. -/
structure StreamTag where
  edge : Edge
  tag : Nat
  deriving DecidableEq, Repr

structure Replay where
  nextStreamId : Nat
  tags : List StreamTag
  deriving DecidableEq, Repr

abbrev ReplayM := Cmd ErrorCode Replay

section replay

variable (graph : GraphAction → Except ErrorCode Nat)

/-- An action of the library, which may fail; a node tells how many edges it puts out. -/
def act (action : GraphAction) : ReplayM Nat := Cmd.ofExcept (graph action)

/-- A node run on an edge: its outputs, as many as are expected. -/
def runNode (edge : Edge) (action : GraphAction) (expected : Nat) : ReplayM (List Edge) := do
  let nbEdges ← act graph action
  Cmd.failWhen (nbEdges ≠ expected) .GENERIC
  pure ((List.range nbEdges).map edge.output)

/-- `sddl2_set_next_stream_tag`. -/
def setNextStreamTag (edge : Edge) : ReplayM Unit := do
  let s ← Cmd.get
  Cmd.failWhen (s.nextStreamId > INT_MAX) .internalBuffer_tooSmall
  Cmd.modify fun s => { s with nextStreamId := (s.nextStreamId + 1) % 2 ^ 32 }
  let _ ← act graph (.setIntMetadata edge s.nextStreamId)
  Cmd.modify fun s' => { s' with tags := s'.tags ++ [⟨edge, s.nextStreamId⟩] }

/-- `sddl2_count_primitive_fields`. -/
def countPrimitiveFields (type : Ty) : ReplayM Nat :=
  match tryCountPrimitiveFields type with
  | none => Cmd.fail .GENERIC
  | some total => pure total

/-- `sddl2_extract_flat_field_sizes` and `sddl2_extract_flat_field_types`: the fields as `f`
lists them, checked against their count. -/
def extractFlat {α : Type} (f : Ty → List α) (type : Ty) : ReplayM (List α) := do
  let total ← countPrimitiveFields type
  Cmd.failWhen (total = 0) .GENERIC
  Cmd.failWhen ((f type).length ≠ total) .GENERIC
  pure (f type)

/-- `sddl2_apply_type_conversion` and `sddl2_apply_struct_field_conversion`, with their nodes; bytes
are left as they are. -/
def convertEdge (node : Edge → TypeKind → GraphAction) (edge : Edge) (kind : TypeKind) :
    ReplayM Edge :=
  if kind = .bytes then pure edge
  else do
    let converted ← runNode graph edge (node edge kind) 1
    Cmd.expect converted[0]?

/-- An edge with data: converted, tagged and sent on. -/
def routeEdge (node : Edge → TypeKind → GraphAction) (edge : Edge) (kind : TypeKind) :
    ReplayM Unit := do
  let edge ← convertEdge graph node edge kind
  setNextStreamTag graph edge
  let _ ← act graph (.setDestination edge)

/-- Streams that have no data only take their numbers. -/
def skipStreams (n : Nat) : ReplayM Unit :=
  Cmd.modify fun s => { s with nextStreamId := (s.nextStreamId + n % 2 ^ 32) % 2 ^ 32 }

/-- The loop of `sddl2_apply_structure_split` over the fields, with `edge_idx`. -/
def processFields (edges : List Edge) : Nat → List (Nat × TypeKind) → ReplayM Unit
  | _, [] => pure ()
  | edgeIdx, (size, kind) :: fields =>
    if size = 0 then do
      skipStreams 1
      processFields edges edgeIdx fields
    else do
      let fieldEdge ← Cmd.expect edges[edgeIdx]?
      routeEdge graph .convertStructToNum fieldEdge kind
      processFields edges (edgeIdx + 1) fields

/-- `sddl2_apply_structure_split`. -/
def applyStructureSplit (edge : Edge) (type : Ty) : ReplayM Unit := do
  let fieldSizes ← extractFlat flattenFieldSizes type
  let fieldTypes ← extractFlat flattenFieldTypes type
  Cmd.failWhen (fieldSizes.length ≠ fieldTypes.length) .GENERIC
  let nonzeroSizes := fieldSizes.filter (· > 0)
  let splitOutputs ← runNode graph edge (.runSplitByStruct edge nonzeroSizes) nonzeroSizes.length
  processFields graph splitOutputs 0 (fieldSizes.zip fieldTypes)

/-- `sddl2_process_segment`. -/
def processSegment (edge : Edge) (type : Ty) : ReplayM Unit :=
  match type with
  | .struct _ _ _ _ => applyStructureSplit graph edge type
  | .primitive kind _ => routeEdge graph .convertSerialToNum edge kind

/-- The loop of `sddl2_replay_segments`, with `outputIdx`. -/
def replaySlices (outputs : List Edge) : Nat → List ReplaySegment → ReplayM Unit
  | _, [] => pure ()
  | outputIdx, segment :: segments =>
    if segment.sizeBytes = 0 then do
      let nbFields ← countPrimitiveFields segment.type
      skipStreams nbFields
      replaySlices outputs outputIdx segments
    else do
      let edge ← Cmd.expect outputs[outputIdx]?
      processSegment graph edge segment.type
      replaySlices outputs (outputIdx + 1) segments

/-- `sddl2_replay_segments`. -/
def replaySegments (segments : List ReplaySegment) : ReplayM Unit :=
  if segments.length = 0 then do
    let _ ← act graph (.store .input)
  else do
    let segmentSizes := (segments.map ReplaySegment.sizeBytes).filter (· > 0)
    let outputs ← runNode graph .input (.runSplitNode .input segmentSizes) segmentSizes.length
    replaySlices graph outputs 0 segments

/-- `SDDL2_replayChunk`, on the parameters of a chunk. -/
def replayChunk (chunk : ReplayChunk) : Option (Except ErrorCode Unit × Replay) :=
  replaySegments graph chunk.segments ⟨chunk.startStreamId, []⟩

end replay

end OpenZL.Sddl2
