import OpenZL.Common.WireFormat
import OpenZL.Lib.Command

/-!
# The runtime graph of a compression (`rtgraphs.c`, `cnode.c`)

The nodes and the streams created while a chunk is compressed, in order of creation, with the
operations of the manager (`RTGM_*`) and the execution of a codec on top of them
(`CCTX_runCNode_wParams`, `ENC_runTransform`).  A codec is any function of its inputs that asks
for output streams, sends a header and ends with a report.

Assertions are not checks: a command is undefined where the code would go on with a missing
stream.  Allocations only fail at the capacity of a vector.

* `runTransform_running` — what the graph is while a codec runs.
* `runCNode_some` — a codec leaves one more node with its outputs, or none.
-/

namespace OpenZL.Compress

open OpenZL.Lib

variable {g g' : RTGraph} {irtsids : List Nat}

/-- `ZL_Data`, as far as the engine looks at it. -/
structure Data where
  type : DataType
  content : List UInt8
  committed : Bool
  deriving DecidableEq, Repr

/-- `CNode`: the description of a codec; registration refuses it without an input port
(`CTM_registerCNode`). -/
structure CNode where
  trInfo : PublicTransformInfo
  inputTypes : List DataType
  lastInputIsVariable : Bool
  soTypes : List DataType
  voTypes : List DataType
  minFormatVersion : Nat
  maxFormatVersion : Nat
  dictIdx : Nat
  inputTypes_ne : inputTypes ≠ []
  deriving DecidableEq, Repr

namespace CNode

variable (cnode : CNode)

def getNbInputPorts : Nat := cnode.inputTypes.length
def getNbOut1s : Nat := cnode.soTypes.length
def getNbVOs : Nat := cnode.voTypes.length
def getNbOutcomes : Nat := cnode.getNbOut1s + cnode.getNbVOs

/-- `CNODE_isNbInputsCompatible`. -/
def isNbInputsCompatible (nbInputs : Nat) : Bool :=
  if cnode.lastInputIsVariable then nbInputs ≥ cnode.getNbInputPorts - 1
  else nbInputs = cnode.getNbInputPorts

/-- `CNODE_getInputType`. -/
def getInputType (inputIndex : Nat) : DataType :=
  cnode.inputTypes.getD (min inputIndex (cnode.getNbInputPorts - 1)) .serial

/-- `CNODE_isVO`. -/
def isVO (outStreamIndex : Nat) : Bool := outStreamIndex ≥ cnode.getNbOut1s

end CNode

/-- `RTNode`; the header is the slice of the staging buffer it was sent to. -/
structure RTNode where
  cnode : CNode
  inRtsids : List Nat
  startOutRtsids : Nat
  nbOutStreams : Nat
  nodeHeader : List UInt8
  deriving DecidableEq, Repr

/-- `RT_CStream`. -/
structure RTCStream where
  stream : Option Data
  outcomeID : Nat
  toStore : Bool
  protectRank : Nat
  deriving DecidableEq, Repr

/-- A slot of the stream vector before a stream is registered in it. -/
def RTCStream.empty : RTCStream := ⟨none, 0, false, 0⟩

/-- `STREAM_getRBuffer`; a missing stream is an assertion failure. -/
def RTCStream.getRBuffer (s : RTCStream) : List UInt8 := (s.stream.map (·.content)).getD []

/-- `RTGraph`. -/
structure RTGraph where
  nodes : List RTNode
  streams : List RTCStream
  deriving DecidableEq, Repr

/-- Commands of the runtime graph manager. -/
abbrev RTM := Cmd ErrorCode RTGraph

/-- The capacities given to the two vectors by `RTGM_init`. -/
def nodeCapacity : Nat := runtimeNodeLimit MAX_FORMAT_VERSION
def streamCapacity : Nat := runtimeStreamLimit MAX_FORMAT_VERSION

namespace RTGM

/-- `RTGM_refInput`. -/
def refInput (stream : Data) : RTM Nat := do
  let g ← Cmd.get
  Cmd.failWhen (g.streams.length ≥ streamCapacity) .allocation
  Cmd.modify fun g => { g with streams := g.streams ++ [{ RTCStream.empty with stream }] }
  return g.streams.length

/-- `RTGM_createNode`: the node stays when the slots of its outputs cannot be reserved. -/
def createNode (cnode : CNode) (inRtsids : List Nat) : RTM Nat := do
  let g ← Cmd.get
  Cmd.failWhen (g.nodes.length ≥ nodeCapacity) .temporaryLibraryLimitation
  Cmd.modify fun g => { g with
    nodes := g.nodes ++ [{ cnode, inRtsids, startOutRtsids := g.streams.length
                           nbOutStreams := 0, nodeHeader := [] }] }
  Cmd.failWhen (g.streams.length + cnode.getNbOut1s > streamCapacity) .temporaryLibraryLimitation
  Cmd.modify fun g => { g with
    streams := g.streams ++ List.replicate cnode.getNbOut1s RTCStream.empty }
  return g.nodes.length

/-- `RTGM_reserveOutputStreamSlot`. -/
def reserveOutputStreamSlot (rtnodeid outcomeID : Nat) (isVO : Bool) : RTM Nat := do
  let g ← Cmd.get
  let node ← Cmd.expect g.nodes[rtnodeid]?
  if isVO then
    Cmd.failWhen (g.streams.length ≥ streamCapacity) .allocation
    Cmd.modify fun g => { g with streams := g.streams ++ [RTCStream.empty] }
    return g.streams.length
  else
    Cmd.failWhen (node.startOutRtsids + outcomeID ≥ g.streams.length) .successor_invalid
    return node.startOutRtsids + outcomeID

/-- `RTGM_registerOutputStream`. -/
def registerOutputStream (rtnodeid rtsid outcomeID : Nat) (stream : Data) : RTM Unit :=
  Cmd.modify fun g =>
    { nodes := g.nodes.modify rtnodeid fun n => { n with nbOutStreams := n.nbOutStreams + 1 }
      streams := g.streams.modify rtsid fun s => { s with stream, outcomeID } }

/-- `RTGM_addStream`; `stream` is `none` when it cannot be reserved.  The slot of a variable
output is not given back then. -/
def addStream (rtnodeid outcomeID : Nat) (isVO : Bool) (stream : Option Data) : RTM Nat := do
  let rtsid ← reserveOutputStreamSlot rtnodeid outcomeID isVO
  let g ← Cmd.get
  let slot ← Cmd.expect g.streams[rtsid]?
  Cmd.failWhen slot.stream.isSome .streamParameter_invalid
  match stream with
  | none => Cmd.fail .allocation
  | some stream =>
    registerOutputStream rtnodeid rtsid outcomeID stream
    return rtsid

/-- `RTGM_setNodeHeaderSegment`. -/
def setNodeHeader (rtnodeid : Nat) (nodeHeader : List UInt8) : RTM Unit :=
  Cmd.modify fun g => { g with nodes := g.nodes.modify rtnodeid ({ · with nodeHeader }) }

/-- `RTGM_getRStream`. -/
def getRStream (rtsid : Nat) : RTM Data := do
  let g ← Cmd.get
  let slot ← Cmd.expect g.streams[rtsid]?
  Cmd.expect slot.stream

/-- `RTGM_storeStream`. -/
def storeStream (rtsid : Nat) : RTM Unit :=
  Cmd.modify fun g => { g with streams := g.streams.modify rtsid ({ · with toStore := true }) }

/-- `RTGM_guardRTStream`. -/
def guardRTStream (rtsid protectRank : Nat) : RTM Unit :=
  Cmd.modify fun g =>
    if protectRank = 0 then g
    else { g with streams := g.streams.modify rtsid fun s =>
      if s.protectRank = 0 then { s with protectRank } else s }

/-- The slot after `RTGM_clearRTStream`; the subtractions wrap around. -/
def clearSlot (protectRank : Nat) (s : RTCStream) : RTCStream :=
  if s.toStore then s
  else if (s.protectRank + 2 ^ 32 - 1) % 2 ^ 32 < (protectRank + 2 ^ 32 - 1) % 2 ^ 32 then s
  else { s with stream := none }

/-- `RTGM_clearRTStream`. -/
def clearRTStream (protectRank rtsid : Nat) : RTM Unit :=
  Cmd.modify fun g => { g with streams := g.streams.modify rtsid (clearSlot protectRank) }

/-- `RTGM_clearNodesFrom`, with `RTGM_clearRTStreamsFrom`. -/
def clearNodesFrom (nodeRank : Nat) : RTM Unit := do
  let g ← Cmd.get
  if g.nodes.length = nodeRank then return ()
  else
    let node ← Cmd.expect g.nodes[nodeRank]?
    Cmd.modify fun g => { nodes := g.nodes.take nodeRank
                          streams := g.streams.take node.startOutRtsids }

/-- `RTGM_listBuffersToStore`: from the last stream to the first. -/
def listBuffersToStore (g : RTGraph) : List (List UInt8) :=
  (g.streams.reverse.filter (·.toStore)).map RTCStream.getRBuffer

end RTGM

/-! ## Running a codec -/

/-- What a codec does on given inputs: the output streams it asks for, `none` for one that cannot
be reserved, the header it sends, and its report. -/
structure CodecRun where
  outputs : List (Nat × Option Data)
  header : List UInt8
  result : Except ErrorCode Unit

/-- A codec, as a function of its inputs. -/
abbrev Codec := List Data → CodecRun

/-- `CCTX_getNewStream`. -/
def getNewStream (cnode : CNode) (rtnodeid outcomeID : Nat) (stream : Option Data) : RTM Nat := do
  -- the type of the outcome is looked up before the stream is added
  let _ ← Cmd.expect (if outcomeID < cnode.getNbOutcomes then some () else none)
  RTGM.addStream rtnodeid outcomeID (cnode.isVO outcomeID) stream

/-- The calls of a codec for its outputs; it is told of a failure and may go on. -/
def createOutputs (cnode : CNode) (rtnodeid : Nat) (outputs : List (Nat × Option Data)) :
    RTM Unit :=
  Cmd.forEach (fun out => do
    let _ ← Cmd.attempt (getNewStream cnode rtnodeid out.1 out.2)
    return ()) outputs

/-- `ENC_runTransform_internal`. -/
def runTransform (formatVersion : Nat) (codec : Codec) (cnode : CNode) (rtnodeid : Nat)
    (inputs : List Data) : RTM Nat := do
  let run := codec inputs
  createOutputs cnode rtnodeid run.outputs
  RTGM.setNodeHeader rtnodeid run.header
  match run.result with
  | .error e => Cmd.fail e
  | .ok _ =>
    let g ← Cmd.get
    let node ← Cmd.expect g.nodes[rtnodeid]?
    Cmd.failWhen (node.nbOutStreams < cnode.getNbOut1s) .transform_executionFailure
    Cmd.failWhen (formatVersion < 9 ∧ node.nbOutStreams = 0) .formatVersion_unsupported
    Cmd.failWhen (node.nbOutStreams > transformOutStreamsLimit formatVersion)
      .formatVersion_unsupported
    return node.nbOutStreams

/-- `CCTX_checkOutputCommitted`. -/
def checkOutputCommitted (rtnodeid : Nat) : RTM Unit := do
  let g ← Cmd.get
  let node ← Cmd.expect g.nodes[rtnodeid]?
  Cmd.forEach (fun n => do
    let stream ← RTGM.getRStream (node.startOutRtsids + n)
    Cmd.failWhen (stream.committed = false) .transform_executionFailure)
    (List.range node.nbOutStreams)

/-- The inputs of a node. -/
def getRStreams : List Nat → RTM (List Data)
  | [] => return []
  | rtsid :: rtsids => do
    let stream ← RTGM.getRStream rtsid
    let streams ← getRStreams rtsids
    return stream :: streams

/-- `CCTX_runCNode_wParams`: the created node and its number of outputs. -/
def runCNode (formatVersion : Nat) (codec : Codec) (cnode : CNode) (irtsids : List Nat) :
    RTM (Nat × Nat) := do
  let inputs ← getRStreams irtsids
  Cmd.failWhen (cnode.isNbInputsCompatible irtsids.length = false) .node_invalid_input
  Cmd.failWhen (irtsids.length > runtimeNodeInputLimit formatVersion) .node_versionMismatch
  Cmd.failWhen (inputs.zipIdx.any fun (s, n) => s.type ≠ cnode.getInputType n)
    .node_unexpected_input_type
  Cmd.failWhen (formatVersion < cnode.minFormatVersion ∨ cnode.maxFormatVersion < formatVersion)
    .node_versionMismatch
  let rtnodeid ← RTGM.createNode cnode irtsids
  let nbOuts ← runTransform formatVersion codec cnode rtnodeid inputs
  checkOutputCommitted rtnodeid
  Cmd.forEach (RTGM.clearRTStream 0) irtsids
  return (rtnodeid, nbOuts)

/-! ## Streams that are read -/

theorem getRStream_some {rtsid : Nat} {r : Except ErrorCode Data}
    (h : RTGM.getRStream rtsid g = some (r, g')) :
    ∃ slot stream, g.streams[rtsid]? = some slot ∧ slot.stream = some stream ∧
      r = .ok stream ∧ g' = g := by
  unfold RTGM.getRStream at h
  rw [Cmd.run_get_bind] at h
  obtain ⟨slot, hslot, h⟩ := Cmd.run_expect_bind.1 h
  obtain ⟨stream, hstream, rfl, rfl⟩ := Cmd.run_expect h
  exact ⟨slot, stream, hslot, hstream, rfl, rfl⟩

/-- A stream that can still be read. -/
def RTGraph.Alive (g : RTGraph) (rtsid : Nat) : Prop :=
  ∃ slot stream, g.streams[rtsid]? = some slot ∧ slot.stream = some stream

theorem RTGraph.Alive.lt {g : RTGraph} {rtsid : Nat} (h : g.Alive rtsid) :
    rtsid < g.streams.length := by
  obtain ⟨slot, -, hslot, -⟩ := h
  exact (List.getElem?_eq_some_iff.1 hslot).1

theorem getRStreams_some : ∀ {rtsids : List Nat} {g g' : RTGraph}
    {r : Except ErrorCode (List Data)}, getRStreams rtsids g = some (r, g') →
    ∃ streams, r = .ok streams ∧ g' = g ∧ streams.length = rtsids.length ∧
      ∀ rtsid ∈ rtsids, g.Alive rtsid
  | [], g, g', r, h => by
    obtain ⟨rfl, rfl⟩ := Cmd.run_pure_iff.1 h
    exact ⟨[], rfl, rfl, rfl, by simp⟩
  | rtsid :: rtsids, g, g', r, h => by
    rcases Cmd.run_bind_some h with ⟨e, he, -⟩ | ⟨stream, t, hhead, hrest⟩
    · obtain ⟨_, _, -, -, hr, -⟩ := getRStream_some he
      cases hr
    · obtain ⟨slot, s, hslot, hs, hr, rfl⟩ := getRStream_some hhead
      rcases Cmd.run_bind_some hrest with ⟨e, he, -⟩ | ⟨streams, t', htail, hpure⟩
      · obtain ⟨_, hr, -⟩ := getRStreams_some he
        cases hr
      · obtain ⟨_, hr', rfl, hlen, halive⟩ := getRStreams_some htail
        obtain ⟨rfl, rfl⟩ := Cmd.run_pure_iff.1 hpure
        cases hr'
        refine ⟨_, rfl, rfl, by simp [hlen], ?_⟩
        intro x hx
        rcases List.mem_cons.1 hx with rfl | hx
        · exact ⟨slot, s, hslot, hs⟩
        · exact halive x hx

/-! ## The node in the making -/

/-- `node` is being run on top of `base`: it is the last node, and `tail` holds its outputs. -/
structure RunningNode (base : RTGraph) (cnode : CNode) (irtsids : List Nat) (node : RTNode)
    (tail : List RTCStream) : Prop where
  cnode_eq : node.cnode = cnode
  inRtsids_eq : node.inRtsids = irtsids
  start_eq : node.startOutRtsids = base.streams.length
  nbOut_eq : node.nbOutStreams = tail.countP (·.stream.isSome)
  fresh : ∀ s ∈ tail, s.toStore = false ∧ s.protectRank = 0
  nbOut1s_le : cnode.getNbOut1s ≤ tail.length
  no_VO : cnode.getNbVOs = 0 → tail.length = cnode.getNbOut1s

/-- The graphs in which a node is being run on top of `base`. -/
def Running (base : RTGraph) (cnode : CNode) (irtsids : List Nat) (g : RTGraph) : Prop :=
  ∃ node tail, g = ⟨base.nodes ++ [node], base.streams ++ tail⟩ ∧
    RunningNode base cnode irtsids node tail

section running

variable {base : RTGraph} {cnode : CNode} {irtsids : List Nat} {node : RTNode}
  {tail : List RTCStream}

theorem countP_modify_of_not {α : Type} {p : α → Bool} {f : α → α} : ∀ {l : List α} {i : Nat}
    {a : α}, l[i]? = some a → p a = false → p (f a) = true →
    (l.modify i f).countP p = l.countP p + 1
  | a :: l, 0, b, h, hb, hf => by
    obtain rfl : a = b := by simpa using h
    simp [hb, hf]
  | a :: l, i + 1, b, h, hb, hf => by
    have ih := countP_modify_of_not (l := l) (i := i) (by simpa using h) hb hf
    rw [List.modify_succ_cons, List.countP_cons, List.countP_cons, ih]
    omega

theorem mem_modify {α : Type} {f : α → α} {P : α → Prop} {l : List α} {i : Nat}
    (hl : ∀ a ∈ l, P a) (hf : ∀ a ∈ l, P (f a)) : ∀ a ∈ l.modify i f, P a := by
  intro a ha
  obtain ⟨j, hj⟩ := List.getElem?_of_mem ha
  rw [List.getElem?_modify] at hj
  cases hb : l[j]? with
  | none => simp [hb] at hj
  | some b =>
    rw [hb] at hj
    have hmem := List.mem_of_getElem? hb
    split at hj
    · obtain rfl : f b = a := by simpa using hj
      exact hf b hmem
    · obtain rfl : b = a := by simpa using hj
      exact hl b hmem

theorem modify_append_right {α : Type} (f : α → α) (l l' : List α) (i : Nat) :
    (l ++ l').modify (l.length + i) f = l ++ l'.modify i f := by
  induction l with
  | nil => simp
  | cons a l ih =>
    rw [List.cons_append, List.length_cons, Nat.add_right_comm, List.modify_succ_cons, ih,
      List.cons_append]

theorem modify_append_last {α : Type} (f : α → α) (l : List α) (a : α) :
    (l ++ [a]).modify l.length f = l ++ [f a] := by
  have h := modify_append_right f l [a] 0
  rwa [Nat.add_zero, List.modify_zero_cons] at h

theorem RunningNode.register (h : RunningNode base cnode irtsids node tail) {i : Nat}
    {slot : RTCStream} (hslot : tail[i]? = some slot) (hfree : slot.stream = none)
    (outcomeID : Nat) (stream : Data) :
    RunningNode base cnode irtsids { node with nbOutStreams := node.nbOutStreams + 1 }
      (tail.modify i fun s => { s with stream := some stream, outcomeID }) where
  cnode_eq := h.cnode_eq
  inRtsids_eq := h.inRtsids_eq
  start_eq := h.start_eq
  nbOut_eq := by
    rw [countP_modify_of_not hslot (by simp [hfree]) (by simp)]
    exact congrArg (· + 1) h.nbOut_eq
  fresh := mem_modify h.fresh h.fresh
  nbOut1s_le := by simpa using h.nbOut1s_le
  no_VO := by simpa using h.no_VO

theorem RunningNode.pushVO (h : RunningNode base cnode irtsids node tail)
    (hvo : 0 < cnode.getNbVOs) :
    RunningNode base cnode irtsids node (tail ++ [RTCStream.empty]) where
  cnode_eq := h.cnode_eq
  inRtsids_eq := h.inRtsids_eq
  start_eq := h.start_eq
  nbOut_eq := by
    rw [List.countP_append, h.nbOut_eq]
    rfl
  fresh := by
    intro s hs
    rcases List.mem_append.1 hs with hs | hs
    · exact h.fresh s hs
    · rw [List.mem_singleton.1 hs]
      exact ⟨rfl, rfl⟩
  nbOut1s_le := by
    have := h.nbOut1s_le
    simp
    omega
  no_VO := fun h0 => absurd h0 (by omega)

theorem reserve_running {outcomeID : Nat} (hout : outcomeID < cnode.getNbOutcomes)
    {r : Except ErrorCode Nat} (hg : Running base cnode irtsids g)
    (h : RTGM.reserveOutputStreamSlot base.nodes.length outcomeID (cnode.isVO outcomeID) g =
      some (r, g')) :
    ∃ node tail, g' = ⟨base.nodes ++ [node], base.streams ++ tail⟩ ∧
      RunningNode base cnode irtsids node tail ∧
      ∀ rtsid, r = .ok rtsid → ∃ i, rtsid = base.streams.length + i := by
  obtain ⟨node, tail, rfl, hn⟩ := hg
  unfold RTGM.reserveOutputStreamSlot at h
  rw [Cmd.run_get_bind] at h
  obtain ⟨n, hnode, h⟩ := Cmd.run_expect_bind.1 h
  obtain rfl : node = n := by simpa using hnode
  split at h
  · rename_i hvo
    have hvo : 0 < cnode.getNbVOs := by
      unfold CNode.isVO at hvo
      unfold CNode.getNbOutcomes at hout
      simp at hvo
      omega
    rcases Cmd.run_bind_some h with ⟨e, he, rfl⟩ | ⟨_, t, hcheck, h⟩
    · obtain ⟨rfl, -⟩ := Cmd.run_failWhen he
      exact ⟨node, tail, rfl, hn, fun _ hr => by cases hr⟩
    · obtain ⟨-, rfl⟩ := Cmd.run_failWhen_ok.1 hcheck
      rw [Cmd.run_modify_bind] at h
      obtain ⟨rfl, rfl⟩ := Cmd.run_pure_iff.1 h
      refine ⟨node, tail ++ [RTCStream.empty], by simp, hn.pushVO hvo, fun rtsid hr => ?_⟩
      exact ⟨tail.length, by rw [← Except.ok.inj hr, List.length_append]⟩
  · rcases Cmd.run_bind_some h with ⟨e, he, rfl⟩ | ⟨_, t, hcheck, h⟩
    · obtain ⟨rfl, -⟩ := Cmd.run_failWhen he
      exact ⟨node, tail, rfl, hn, fun _ hr => by cases hr⟩
    · obtain ⟨-, rfl⟩ := Cmd.run_failWhen_ok.1 hcheck
      obtain ⟨rfl, rfl⟩ := Cmd.run_pure_iff.1 h
      refine ⟨node, tail, rfl, hn, fun rtsid hr => ?_⟩
      exact ⟨outcomeID, by rw [← Except.ok.inj hr, hn.start_eq]⟩

theorem getNewStream_running (outcomeID : Nat) (stream : Option Data) :
    Cmd.Preserves (Running base cnode irtsids)
      (getNewStream cnode base.nodes.length outcomeID stream) := by
  intro g r g' hg h
  unfold getNewStream at h
  obtain ⟨_, hout, h⟩ := Cmd.run_expect_bind.1 h
  have hout : outcomeID < cnode.getNbOutcomes := by
    by_contra hlt
    rw [if_neg hlt] at hout
    cases hout
  unfold RTGM.addStream at h
  rcases Cmd.run_bind_some h with ⟨e, he, -⟩ | ⟨rtsid, t, hres, h⟩
  · obtain ⟨node, tail, rfl, hn, -⟩ := reserve_running hout hg he
    exact ⟨node, tail, rfl, hn⟩
  · obtain ⟨node, tail, rfl, hn, hid⟩ := reserve_running hout hg hres
    obtain ⟨i, rfl⟩ := hid _ rfl
    rw [Cmd.run_get_bind] at h
    obtain ⟨slot, hslot, h⟩ := Cmd.run_expect_bind.1 h
    rw [List.getElem?_append_right (by omega), Nat.add_sub_cancel_left] at hslot
    rcases Cmd.run_bind_some h with ⟨e, he, -⟩ | ⟨_, t, hcheck, h⟩
    · obtain ⟨rfl, -⟩ := Cmd.run_failWhen he
      exact ⟨node, tail, rfl, hn⟩
    · obtain ⟨hfree, rfl⟩ := Cmd.run_failWhen_ok.1 hcheck
      cases stream with
      | none =>
        obtain ⟨-, rfl⟩ := Prod.mk.inj (Option.some.inj h)
        exact ⟨node, tail, rfl, hn⟩
      | some stream =>
        simp only [RTGM.registerOutputStream, Cmd.run_modify_bind] at h
        obtain ⟨-, rfl⟩ := Cmd.run_pure_iff.1 h
        refine ⟨_, _, ?_, hn.register hslot (by simpa using hfree) outcomeID stream⟩
        rw [modify_append_last, modify_append_right]

theorem createOutputs_running (outputs : List (Nat × Option Data)) :
    Cmd.Preserves (Running base cnode irtsids)
      (createOutputs cnode base.nodes.length outputs) :=
  Cmd.Preserves.forEach fun out _ =>
    (Cmd.Preserves.attempt (getNewStream_running out.1 out.2)).bind fun _ => Cmd.Preserves.pure ()

theorem setNodeHeader_running (header : List UInt8) :
    Cmd.Preserves (Running base cnode irtsids)
      (RTGM.setNodeHeader base.nodes.length header) := by
  refine Cmd.Preserves.modify fun g hg => ?_
  obtain ⟨node, tail, rfl, hn⟩ := hg
  refine ⟨{ node with nodeHeader := header }, tail, ?_, ?_⟩
  · rw [modify_append_last]
  · exact ⟨hn.cnode_eq, hn.inRtsids_eq, hn.start_eq, hn.nbOut_eq, hn.fresh, hn.nbOut1s_le, hn.no_VO⟩

/-- What the checks after the codec say of a node that has succeeded. -/
structure Accepted (v : Nat) (node : RTNode) : Prop where
  nbOut1s_le : node.cnode.getNbOut1s ≤ node.nbOutStreams
  nbOut_pos : v < 9 → node.nbOutStreams ≠ 0
  nbOut_le : node.nbOutStreams ≤ transformOutStreamsLimit v

theorem runTransform_running {v : Nat} {codec : Codec} {inputs : List Data}
    {r : Except ErrorCode Nat} (hg : Running base cnode irtsids g)
    (h : runTransform v codec cnode base.nodes.length inputs g = some (r, g')) :
    ∃ node tail, g' = ⟨base.nodes ++ [node], base.streams ++ tail⟩ ∧
      RunningNode base cnode irtsids node tail ∧
      ∀ nbOuts, r = .ok nbOuts → Accepted v node ∧ nbOuts = node.nbOutStreams := by
  unfold runTransform at h
  have houts : Cmd.Preserves (Running base cnode irtsids)
      (createOutputs cnode base.nodes.length (codec inputs).outputs) := createOutputs_running _
  have hheader : Cmd.Preserves (Running base cnode irtsids)
      (RTGM.setNodeHeader base.nodes.length (codec inputs).header) := setNodeHeader_running _
  rcases Cmd.run_bind_some h with ⟨e, he, rfl⟩ | ⟨_, t₁, h₁, hrun⟩
  · obtain ⟨node, tail, rfl, hn⟩ := houts _ _ _ hg he
    exact ⟨node, tail, rfl, hn, fun _ hr => by cases hr⟩
  rcases Cmd.run_bind_some hrun with ⟨e, he, rfl⟩ | ⟨_, t₂, h₂, hrun⟩
  · obtain ⟨node, tail, rfl, hn⟩ := hheader _ _ _ (houts _ _ _ hg h₁) he
    exact ⟨node, tail, rfl, hn, fun _ hr => by cases hr⟩
  obtain ⟨node, tail, rfl, hn⟩ := hheader _ _ _ (houts _ _ _ hg h₁) h₂
  cases hres : (codec inputs).result with
  | error e =>
    rw [hres] at hrun
    obtain ⟨rfl, rfl⟩ := Prod.mk.inj (Option.some.inj hrun)
    exact ⟨node, tail, rfl, hn, fun _ hr => by cases hr⟩
  | ok u =>
    rw [hres] at hrun
    change (Cmd.get >>= _) _ = _ at hrun
    rw [Cmd.run_get_bind] at hrun
    obtain ⟨n, hnode, hchecks⟩ := Cmd.run_expect_bind.1 hrun
    obtain rfl : node = n := by simpa using hnode
    rcases Cmd.run_failWhen_bind_some hchecks with ⟨-, rfl, rfl⟩ | ⟨hc₁, hchecks₁⟩
    · exact ⟨node, tail, rfl, hn, fun _ hr => by cases hr⟩
    rcases Cmd.run_failWhen_bind_some hchecks₁ with ⟨-, rfl, rfl⟩ | ⟨hc₂, hchecks₂⟩
    · exact ⟨node, tail, rfl, hn, fun _ hr => by cases hr⟩
    rcases Cmd.run_failWhen_bind_some hchecks₂ with ⟨-, rfl, rfl⟩ | ⟨hc₃, hpure⟩
    · exact ⟨node, tail, rfl, hn, fun _ hr => by cases hr⟩
    obtain ⟨rfl, rfl⟩ := Cmd.run_pure_iff.1 hpure
    refine ⟨node, tail, rfl, hn, fun nbOuts hr => ⟨⟨?_, ?_, ?_⟩, (Except.ok.inj hr).symm⟩⟩
    · rw [hn.cnode_eq]
      omega
    · exact fun hv h0 => hc₂ ⟨hv, h0⟩
    · omega

end running

/-! ## What a node leaves -/

theorem checkCommitted_some {start : Nat} : ∀ {ns : List Nat} {g g' : RTGraph}
    {r : Except ErrorCode Unit},
    Cmd.forEach (fun n => do
      let stream ← RTGM.getRStream (start + n)
      Cmd.failWhen (stream.committed = false) ErrorCode.transform_executionFailure) ns g =
        some (r, g') →
    g' = g ∧ ∀ u, r = .ok u → ∀ n ∈ ns, g.Alive (start + n)
  | [], g, g', r, h => by
    obtain ⟨-, rfl⟩ := Cmd.run_pure_iff.1 h
    exact ⟨rfl, by simp⟩
  | n :: ns, g, g', r, h => by
    rcases Cmd.run_bind_some h with ⟨e, he, rfl⟩ | ⟨u, t, hhead, hrest⟩
    · rcases Cmd.run_bind_some he with ⟨e', he', -⟩ | ⟨stream, t, hs, hc⟩
      · obtain ⟨_, _, -, -, hr, -⟩ := getRStream_some he'
        cases hr
      · obtain ⟨_, _, -, -, -, rfl⟩ := getRStream_some hs
        obtain ⟨rfl, -⟩ := Cmd.run_failWhen hc
        exact ⟨rfl, fun _ hr => by cases hr⟩
    · obtain ⟨stream, t', hs, hc⟩ := Cmd.run_bind_ok.1 hhead
      obtain ⟨slot, d, hslot, hd, -, rfl⟩ := getRStream_some hs
      obtain ⟨-, rfl⟩ := Cmd.run_failWhen_ok.1 hc
      obtain ⟨rfl, halive⟩ := checkCommitted_some hrest
      refine ⟨rfl, fun u hr m hm => ?_⟩
      rcases List.mem_cons.1 hm with rfl | hm
      · exact ⟨slot, d, hslot, hd⟩
      · exact halive u hr m hm

/-- The streams after `RTGM_clearRTStream` on each of `rtsids`. -/
def clearSlots (protectRank : Nat) (rtsids : List Nat) (streams : List RTCStream) :
    List RTCStream :=
  rtsids.foldl (fun l rtsid => l.modify rtsid (RTGM.clearSlot protectRank)) streams

theorem forEach_clearRTStream (protectRank : Nat) : ∀ (rtsids : List Nat) (g : RTGraph),
    Cmd.forEach (RTGM.clearRTStream protectRank) rtsids g =
      some (.ok (), { g with streams := clearSlots protectRank rtsids g.streams })
  | [], _ => rfl
  | rtsid :: rtsids, g => forEach_clearRTStream protectRank rtsids
      { g with streams := g.streams.modify rtsid (RTGM.clearSlot protectRank) }

@[simp] theorem length_clearSlots (protectRank : Nat) (rtsids : List Nat)
    (streams : List RTCStream) : (clearSlots protectRank rtsids streams).length =
      streams.length := by
  unfold clearSlots
  induction rtsids generalizing streams with
  | nil => rfl
  | cons rtsid rtsids ih => rw [List.foldl_cons, ih, List.length_modify]

theorem clearSlot_clearSlot (protectRank : Nat) (s : RTCStream) :
    RTGM.clearSlot protectRank (RTGM.clearSlot protectRank s) = RTGM.clearSlot protectRank s := by
  unfold RTGM.clearSlot
  split
  · simp [*]
  · split <;> simp [*]

theorem getElem?_clearSlots (protectRank : Nat) (rtsids : List Nat) (streams : List RTCStream)
    (s : Nat) : (clearSlots protectRank rtsids streams)[s]? =
      if s ∈ rtsids then streams[s]?.map (RTGM.clearSlot protectRank) else streams[s]? := by
  unfold clearSlots
  induction rtsids generalizing streams with
  | nil => simp
  | cons rtsid rtsids ih =>
    rw [List.foldl_cons, ih, List.getElem?_modify]
    by_cases hs : rtsid = s
    · subst hs
      by_cases hmem : rtsid ∈ rtsids
      · simp [hmem, Function.comp_def, clearSlot_clearSlot]
      · simp [hmem]
    · have hs' : s ≠ rtsid := fun h => hs h.symm
      simp [hs, hs']

theorem clearSlots_append {protectRank : Nat} {rtsids : List Nat} {l l' : List RTCStream}
    (h : ∀ s ∈ rtsids, s < l.length) :
    clearSlots protectRank rtsids (l ++ l') = clearSlots protectRank rtsids l ++ l' := by
  apply List.ext_getElem?
  intro s
  rw [getElem?_clearSlots]
  by_cases hs : s < l.length
  · rw [List.getElem?_append_left hs, List.getElem?_append_left (by simpa using hs),
      getElem?_clearSlots]
  · rw [List.getElem?_append_right (Nat.le_of_not_lt hs),
      List.getElem?_append_right (by simpa using hs), length_clearSlots,
      if_neg fun hmem => hs (h s hmem)]

/-- `node` was added to `g`, without its codec having necessarily succeeded. -/
structure Opened (g : RTGraph) (irtsids : List Nat) (node : RTNode) (tail : List RTCStream)
    (g' : RTGraph) : Prop where
  eq : g' = ⟨g.nodes ++ [node], g.streams ++ tail⟩
  start_eq : node.startOutRtsids = g.streams.length
  inRtsids_eq : node.inRtsids = irtsids
  fresh : ∀ s ∈ tail, s.toStore = false ∧ s.protectRank = 0

theorem RunningNode.opened {g : RTGraph} {cnode : CNode} {node : RTNode} {tail : List RTCStream}
    (h : RunningNode g cnode irtsids node tail) :
    Opened g irtsids node tail ⟨g.nodes ++ [node], g.streams ++ tail⟩ :=
  ⟨rfl, h.start_eq, h.inRtsids_eq, h.fresh⟩

theorem createNode_some {cnode : CNode} {r : Except ErrorCode Nat}
    (h : RTGM.createNode cnode irtsids g = some (r, g')) :
    (∃ e, r = .error e ∧ (g' = g ∨ ∃ node, Opened g irtsids node [] g')) ∨
      r = .ok g.nodes.length ∧ Running g cnode irtsids g' := by
  unfold RTGM.createNode at h
  rw [Cmd.run_get_bind] at h
  rcases Cmd.run_bind_some h with ⟨e, he, rfl⟩ | ⟨_, t, hc, hrun⟩
  · obtain ⟨rfl, -⟩ := Cmd.run_failWhen he
    exact Or.inl ⟨e, rfl, Or.inl rfl⟩
  obtain ⟨-, rfl⟩ := Cmd.run_failWhen_ok.1 hc
  rw [Cmd.run_modify_bind] at hrun
  rcases Cmd.run_bind_some hrun with ⟨e, he, rfl⟩ | ⟨_, t', hc, hrun⟩
  · obtain ⟨rfl, -⟩ := Cmd.run_failWhen he
    exact Or.inl ⟨e, rfl, Or.inr ⟨_, by rw [List.append_nil], rfl, rfl, by simp⟩⟩
  obtain ⟨-, rfl⟩ := Cmd.run_failWhen_ok.1 hc
  rw [Cmd.run_modify_bind] at hrun
  obtain ⟨rfl, rfl⟩ := Cmd.run_pure_iff.1 hrun
  refine Or.inr ⟨rfl, _, _, rfl, rfl, rfl, rfl, ?_, ?_, ?_, ?_⟩
  · simp [List.countP_replicate, RTCStream.empty]
  · intro s hs
    rw [List.eq_of_mem_replicate hs]
    exact ⟨rfl, rfl⟩
  · simp
  · simp

/-- `node` ran to its end on top of `g`. -/
structure NodeRun (v : Nat) (g : RTGraph) (cnode : CNode) (irtsids : List Nat) (node : RTNode)
    (tail : List RTCStream) (g' : RTGraph) : Prop where
  eq : g' = ⟨g.nodes ++ [node], clearSlots 0 irtsids g.streams ++ tail⟩
  running : RunningNode g cnode irtsids node tail
  accepted : Accepted v node
  alive : ∀ s ∈ irtsids, g.Alive s
  compatible : cnode.isNbInputsCompatible irtsids.length = true
  nbInputs_le : irtsids.length ≤ runtimeNodeInputLimit v
  registered : ∀ i < node.nbOutStreams, ∃ slot, tail[i]? = some slot ∧ slot.stream.isSome

theorem countP_eq_zero_of_prefix {α : Type} {p : α → Bool} {l : List α} {n : Nat}
    (hn : n ≤ l.length) (hcount : l.countP p = n) (hpre : ∀ a ∈ l.take n, p a = true) :
    ∀ a ∈ l.drop n, p a = false := by
  have hsplit : (l.take n ++ l.drop n).countP p = (l.take n).countP p + (l.drop n).countP p :=
    List.countP_append
  rw [List.take_append_drop, hcount, List.countP_eq_length.2 hpre, List.length_take_of_le hn]
    at hsplit
  have hzero : (l.drop n).countP p = 0 := by omega
  intro a ha
  simpa using List.countP_eq_zero.1 hzero a ha

theorem NodeRun.nbOut_le_length {v : Nat} {cnode : CNode} {node : RTNode} {tail : List RTCStream}
    (h : NodeRun v g cnode irtsids node tail g') :
    node.nbOutStreams ≤ tail.length := by
  rw [h.running.nbOut_eq]
  exact List.countP_le_length

theorem NodeRun.unregistered {v : Nat} {cnode : CNode} {node : RTNode} {tail : List RTCStream}
    (h : NodeRun v g cnode irtsids node tail g') {i : Nat} {slot : RTCStream}
    (hi : node.nbOutStreams ≤ i) (hslot : tail[i]? = some slot) :
    slot.stream = none := by
  have hpre : ∀ s ∈ tail.take node.nbOutStreams, s.stream.isSome = true := by
    intro s hs
    obtain ⟨j, hj⟩ := List.getElem?_of_mem hs
    rw [List.getElem?_take] at hj
    split at hj
    · rename_i hlt
      obtain ⟨slot', hslot', hsome⟩ := h.registered j hlt
      rw [hslot'] at hj
      obtain rfl := Option.some.inj hj
      exact hsome
    · cases hj
  have hdrop : slot ∈ tail.drop node.nbOutStreams := by
    refine List.mem_of_getElem? (i := i - node.nbOutStreams) ?_
    rw [List.getElem?_drop, Nat.add_sub_cancel' hi, hslot]
  have := countP_eq_zero_of_prefix h.nbOut_le_length h.running.nbOut_eq.symm hpre slot hdrop
  simpa using this

theorem runCNode_some {v : Nat} {codec : Codec} {cnode : CNode} {r : Except ErrorCode (Nat × Nat)}
    (h : runCNode v codec cnode irtsids g = some (r, g')) :
    (∃ e, r = .error e ∧ (g' = g ∨ ∃ node tail, Opened g irtsids node tail g')) ∨
      ∃ node tail, r = .ok (g.nodes.length, node.nbOutStreams) ∧
        NodeRun v g cnode irtsids node tail g' := by
  unfold runCNode at h
  rcases Cmd.run_bind_some h with ⟨e, he, rfl⟩ | ⟨inputs, t, hins, hrun⟩
  · obtain ⟨_, hr, -⟩ := getRStreams_some he
    cases hr
  obtain ⟨_, -, rfl, -, halive⟩ := getRStreams_some hins
  rcases Cmd.run_failWhen_bind_some hrun with ⟨-, rfl, rfl⟩ | ⟨hcompat, hrun₁⟩
  · exact Or.inl ⟨_, rfl, Or.inl rfl⟩
  rcases Cmd.run_failWhen_bind_some hrun₁ with ⟨-, rfl, rfl⟩ | ⟨hlimit, hrun₂⟩
  · exact Or.inl ⟨_, rfl, Or.inl rfl⟩
  rcases Cmd.run_failWhen_bind_some hrun₂ with ⟨-, rfl, rfl⟩ | ⟨-, hrun₃⟩
  · exact Or.inl ⟨_, rfl, Or.inl rfl⟩
  rcases Cmd.run_failWhen_bind_some hrun₃ with ⟨-, rfl, rfl⟩ | ⟨-, hrun₄⟩
  · exact Or.inl ⟨_, rfl, Or.inl rfl⟩
  rcases Cmd.run_bind_some hrun₄ with ⟨e, he, rfl⟩ | ⟨rtnodeid, t₁, hcreate, hrun₅⟩
  · rcases createNode_some he with ⟨_, -, rfl | ⟨node, ho⟩⟩ | ⟨hr, -⟩
    · exact Or.inl ⟨e, rfl, Or.inl rfl⟩
    · exact Or.inl ⟨e, rfl, Or.inr ⟨node, [], ho⟩⟩
    · cases hr
  obtain ⟨rfl, hrunning⟩ : rtnodeid = t.nodes.length ∧ Running t cnode irtsids t₁ := by
    rcases createNode_some hcreate with ⟨_, hr, -⟩ | ⟨hr, hg⟩
    · cases hr
    · exact ⟨Except.ok.inj hr, hg⟩
  rcases Cmd.run_bind_some hrun₅ with ⟨e, he, rfl⟩ | ⟨nbOuts, t₂, htr, hrun₆⟩
  · obtain ⟨node, tail, rfl, hn, -⟩ := runTransform_running hrunning he
    exact Or.inl ⟨e, rfl, Or.inr ⟨node, tail, hn.opened⟩⟩
  obtain ⟨node, tail, rfl, hn, hchecked⟩ := runTransform_running hrunning htr
  obtain ⟨hacc, rfl⟩ := hchecked _ rfl
  have hcheck : ∀ {q g''}, checkOutputCommitted t.nodes.length
      ⟨t.nodes ++ [node], t.streams ++ tail⟩ = some (q, g'') →
      g'' = ⟨t.nodes ++ [node], t.streams ++ tail⟩ ∧ ∀ u, q = .ok u →
        ∀ n ∈ List.range node.nbOutStreams,
          RTGraph.Alive ⟨t.nodes ++ [node], t.streams ++ tail⟩ (node.startOutRtsids + n) := by
    intro q g'' hq
    unfold checkOutputCommitted at hq
    rw [Cmd.run_get_bind] at hq
    obtain ⟨n, hnode, hq⟩ := Cmd.run_expect_bind.1 hq
    obtain rfl : node = n := by simpa using hnode
    exact checkCommitted_some hq
  rcases Cmd.run_bind_some hrun₆ with ⟨e, he, rfl⟩ | ⟨_, t₃, hok, hrun₇⟩
  · obtain ⟨rfl, -⟩ := hcheck he
    exact Or.inl ⟨e, rfl, Or.inr ⟨node, tail, hn.opened⟩⟩
  obtain ⟨rfl, hreg⟩ := hcheck hok
  rw [Cmd.run_bind_of_ok (forEach_clearRTStream 0 irtsids _)] at hrun₇
  obtain ⟨rfl, rfl⟩ := Cmd.run_pure_iff.1 hrun₇
  refine Or.inr ⟨node, tail, rfl, ?_, hn, hacc, halive, ?_, Nat.le_of_not_lt hlimit, ?_⟩
  · rw [clearSlots_append fun s hs => (halive s hs).lt]
  · simpa using hcompat
  · intro i hi
    obtain ⟨slot, d, hslot, hd⟩ := hreg () rfl i (List.mem_range.2 hi)
    rw [hn.start_eq, List.getElem?_append_right (by omega), Nat.add_sub_cancel_left] at hslot
    exact ⟨slot, hslot, by rw [hd]; rfl⟩

end OpenZL.Compress
