import OpenZL.Common.Basic
import OpenZL.Lib.Interleave
import OpenZL.Lib.Result
import OpenZL.Shared.NumericOperations

/-!
# The dispatch codec (`dispatchN_byTag`): model

The encoder cuts its input into segments and appends each of them to the output that its tag names.
A kernel that reads or writes outside a buffer gives `none`.
-/

namespace OpenZL.Codecs.DispatchN

open OpenZL.Lib OpenZL.Shared

/-- A variable input of the decoder: its type, and its bytes. -/
structure VariableInput where
  type : DataType
  content : List UInt8

/-- The loops of `sizes_byTags` and of the decoder's check: the total of every tag, in a `size_t`. -/
def sizes_byTags : List (Nat × Nat) → (Nat → Nat) → Nat → Nat
  | [], outSizes => outSizes
  | (size, tag) :: segments, outSizes =>
      sizes_byTags segments (Function.update outSizes tag ((outSizes tag + size) % 2 ^ 64))

/-- `ZL_DispatchInstructions`; `nbSegments` is the length of both arrays. -/
structure DispatchInstructions where
  segmentSizes : List Nat
  tags : List Nat
  nbTags : Nat
  length_eq : tags.length = segmentSizes.length

/-- The segments: size and tag. -/
def DispatchInstructions.segments (si : DispatchInstructions) : List (Nat × Nat) :=
  si.segmentSizes.zip si.tags

/-- The node's settings: the parameter `ZL_DISPATCH_INSTRUCTIONS_PID`, and the parser, which gives
no segment sizes when it fails. -/
structure DispatchParams where
  instructions : Option DispatchInstructions
  parser : Option (List UInt8 → Option DispatchInstructions)

/-- `getSplitInstructions` -/
def getSplitInstructions (params : DispatchParams) (input : List UInt8) :
    Except ErrorCode DispatchInstructions :=
  -- Special case for empty input: No splits
  if input.length = 0 then .ok ⟨[], [], 0, rfl⟩
  else
    match params.instructions with
    | some instructions => .ok instructions
    | none =>
        match params.parser with
        | none => .error .nodeParameter_invalid
        | some f =>
            match f input with
            | none => .error .nodeParameter_invalid
            | some si => .ok si

/-- `ZL_dispatchN_byTag`: `dstBuffers` are what has been written so far, into buffers of sizes
`outSizes`. -/
def dispatchN_byTag (outSizes : Nat → Nat) :
    List (Nat × Nat) → List UInt8 → (Nat → List UInt8) → Option (Nat → List UInt8)
  | [], _, dstBuffers => some dstBuffers
  | (ssize, tag) :: segments, src, dstBuffers =>
      if ssize ≤ src.length ∧ (dstBuffers tag).length + ssize ≤ outSizes tag then
        dispatchN_byTag outSizes segments (src.drop ssize)
          (Function.update dstBuffers tag (dstBuffers tag ++ src.take ssize))
      else none

theorem tagsWidth_mem (nbTags : Nat) :
    (if nbTags = 0 then 1 else numericWidthForValue (nbTags - 1)) ∈ [1, 2, 4, 8] := by
  split
  · decide
  · exact numericWidthForValue_mem _

/-- The streams that the encoder creates. -/
structure DispatchOutput where
  tags : NumericStream
  segSizes : NumericStream
  segments : List (List UInt8)

/-- The number of tags that a format version cannot have. -/
def maxTags (formatVersion : Nat) : Nat := if formatVersion < 20 then 256 else 2 ^ 16

/-- `EI_dispatchN_byTag`; the inner `none` is an access outside a buffer. -/
def EI_dispatchN_byTag (formatVersion : Nat) (params : DispatchParams) (input : List UInt8) :
    Except ErrorCode (Option DispatchOutput) := do
  let si ← getSplitInstructions params input
  let inputSize := input.length
  let maxSegmentSize := findMaxST si.segmentSizes
  failWhen (si.nbTags ≥ maxTags formatVersion) .temporaryLibraryLimitation
  failWhen (maxSegmentSize > inputSize) .nodeParameter_invalidValue
  failWhen (sumArrayST si.segmentSizes ≠ inputSize) .nodeParameter_invalidValue
  failWhen (¬underLimit si.tags si.nbTags) .nodeParameter_invalidValue
  let tagsWidth := if si.nbTags = 0 then 1 else numericWidthForValue (si.nbTags - 1)
  let segSizesWidth := numericWidthForValue maxSegmentSize
  let outSizes := sizes_byTags si.segments fun _ => 0
  .ok ((dispatchN_byTag outSizes si.segments input fun _ => []).map fun dstBuffers =>
    { tags := writeNumerics tagsWidth (tagsWidth_mem si.nbTags) si.tags
      segSizes := writeNumerics segSizesWidth (numericWidthForValue_mem _) si.segmentSizes
      segments := (List.range si.nbTags).map dstBuffers })

/-- `ZL_dispatchN_byTag_decode`: `srcs` are what the sources still hold, and `dst` what has been
written into a buffer of `dstCapacity` bytes. Every case of the switch copies `segSize` bytes. -/
def dispatchN_byTag_decode (dstCapacity : Nat) :
    List (Nat × Nat) → (Nat → List UInt8) → List UInt8 → Option (List UInt8 × (Nat → List UInt8))
  | [], srcs, dst => some (dst, srcs)
  | (segSize, tag) :: segments, srcs, dst =>
      if segSize ≤ (srcs tag).length ∧ dst.length + segSize ≤ dstCapacity then
        dispatchN_byTag_decode dstCapacity segments
          (Function.update srcs tag ((srcs tag).drop segSize)) (dst ++ (srcs tag).take segSize)
      else none

/-- `srcs[n]` -/
def srcsOf (inVariable : List VariableInput) (n : Nat) : List UInt8 :=
  match inVariable[n]? with
  | some input => input.content
  | none => []

/-- `DI_dispatchN_byTag`: the output, and what is left of the sources; the inner `none` is an access
outside a buffer. -/
def DI_dispatchN_byTag (formatVersion : Nat) (tags segSizes : NumericStream)
    (inVariable : List VariableInput) :
    Except ErrorCode (Option (List UInt8 × (Nat → List UInt8))) := do
  let nbSegments := segSizes.elts.length
  failWhen (tags.elts.length ≠ nbSegments) .corruption
  failWhen (inVariable.length ≥ maxTags formatVersion) .temporaryLibraryLimitation
  failWhen (tags.eltWidth > if formatVersion < 20 then 1 else 2) .temporaryLibraryLimitation
  failWhen (∃ input ∈ inVariable, input.type ≠ .serial) .corruption
  let total := (inVariable.map fun input => input.content.length).sum
  let segments := segSizes.elts.zip tags.elts
  failWhen (¬underLimit tags.elts inVariable.length) .corruption
  -- Check validity of segment sizes
  let srcSizes := sizes_byTags segments fun _ => 0
  failWhen (∃ n < inVariable.length, srcSizes n ≠ (srcsOf inVariable n).length) .corruption
  .ok (dispatchN_byTag_decode total segments (srcsOf inVariable) [])

end OpenZL.Codecs.DispatchN
