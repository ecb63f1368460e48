import OpenZL.Compress.GraphFunction

/-!
# The engine of a compression (`cctx.c`)

A graph is run on some streams: they are converted where their types do not fit, and handed to the
function of the graph; when the function has ended, the destinations that it set are run one after
the other, depth first. Neither has a run nested so deep that the counter of the depth would wrap
around, or one out of fuel.
-/

namespace OpenZL.Compress

open OpenZL.Lib

/-- `ZL_MAX_GRAPH_DEPTH` -/
def ZL_MAX_GRAPH_DEPTH : Nat := 1024

def INT_MAX : Nat := 2 ^ 31 - 1

/-- `SuccessorInfo` -/
structure SuccessorInfo (ρ : Type) where
  graphID : GraphID
  rgp : Option ρ
  rtInputs : List Nat

/-- What happened in a run: the function of a graph was run; a graph on `rtsids`, whose function had
been handed the graph `entered`, went on to a successor, one level below `depth`; the backup mode
was started for the streams `rtsids`. -/
inductive Event (ρ : Type)
  | ranGraph (graph_f : GraphFunction ρ) (start : GraphCtx ρ)
  | wentOn (rtsids : List Nat) (entered now : RTGraph) (si : SuccessorInfo ρ) (depth : Nat)
  | fellBack (rtsids : List Nat) (before started : RTGraph)

/-- `ZL_CCtx`, as far as the engine changes it, and the record of the run. -/
structure CCtx (ρ : Type) where
  rtgraph : RTGraph
  inBackupMode : Bool
  events : List (Event ρ)

/-- Commands of the engine. -/
abbrev EM (ρ : Type) := Cmd ErrorCode (CCtx ρ)

/-- `CCTX_runSuccessor`, for what is run one level below. -/
abbrev SuccessorFn (ρ : Type) := GraphID → Option ρ → List Nat → Nat → EM ρ Unit

namespace CCtx

variable {ρ α : Type}

/-- A command on the runtime graph. -/
def onGraph (m : RTM α) : EM ρ α := fun s =>
  (m s.rtgraph).map fun (r, rtgraph) => (r, { s with rtgraph })

/-- An entry of the record. -/
def record (event : Event ρ) : EM ρ Unit :=
  Cmd.modify fun s => { s with events := s.events ++ [event] }

/-- `ICONV_implicitConversionNodeID`, on the bits of the types. -/
def implicitConversionNodeID (srcType : DataType) (dstType : DataType → Bool) : Option NodeID :=
  if srcType = .numeric ∧ dstType .struct = true then some .CONVERT_NUM_TO_TOKEN
  else if srcType = .struct ∧ dstType .serial = true then some .CONVERT_TOKEN_TO_SERIAL
  else if srcType = .numeric ∧ dstType .serial = true then some .CONVERT_NUM_TO_SERIAL
  else none

/-- The types that input `n` may have. -/
def typeMask (masks : List (DataType → Bool)) (n : Nat) : DataType → Bool :=
  masks.getD (min n (masks.length - 1)) fun _ => false

/-- `CCTX_convertInputs_internal`; the conversions have one output. -/
def convertInput (E : Engine ρ) (rtsid : Nat) (inType : DataType) (mask : DataType → Bool) :
    RTM Nat := do
  match implicitConversionNodeID inType mask with
  | none => Cmd.fail .inputType_unsupported
  | some conversion =>
    let (rtnodeid, nbOuts) ← GraphCtx.runNodeID E [rtsid] conversion none
    Cmd.require (nbOuts = 1)
    let g ← Cmd.get
    let node ← Cmd.expect g.nodes[rtnodeid]?
    return node.startOutRtsids

/-- One turn of the loop of `CCTX_convertInputs`. -/
def convertOneInput (E : Engine ρ) (rtsid : Nat) (mask : DataType → Bool) : RTM Nat := do
  let input ← RTGM.getRStream rtsid
  if mask input.type then return rtsid
  else convertInput E rtsid input.type mask

/-- `CCTX_convertInputs`: `n` inputs have been converted. -/
def convertInputs (E : Engine ρ) (masks : List (DataType → Bool)) : Nat → List Nat → RTM (List Nat)
  | _, [] => return []
  | n, rtsid :: rtsids => do
    let converted ← convertOneInput E rtsid (typeMask masks n)
    let rest ← convertInputs E masks (n + 1) rtsids
    return converted :: rest

/-- The part of `CCTX_runSupervisedGraphID_internal` that checks the types of the inputs. -/
def adaptInputs (E : Engine ρ) (masks : List (DataType → Bool)) (rtsids : List Nat) :
    RTM (List Nat) := do
  let inputs ← getRStreams rtsids
  if inputs.zipIdx.any fun (input, n) => typeMask masks n input.type = false then
    convertInputs E masks 0 rtsids
  else return rtsids

/-- What `GCTX_getSuccessors` makes of an edge. -/
def successorOf (s : GraphCtx ρ) (ctx : StreamCtx) : Option (List (SuccessorInfo ρ)) :=
  match ctx.dest_set with
  | .trigger => do
    let sd ← s.dstGraphDescs[ctx.successionPos]?
    some [⟨sd.destGid, sd.rGraphParams, (s.rtsids.drop sd.rtiStartIdx).take sd.nbInputs⟩]
  | .unassigned => some [⟨.COMPRESS_GENERIC, none, [ctx.rtsid]⟩]
  | .follow => some []
  | .processed => some []

/-- `GCTX_getSuccessors` -/
def getSuccessors (s : GraphCtx ρ) : Option (List (SuccessorInfo ρ)) :=
  (s.streamCtxs.mapM (successorOf s)).map List.flatten

/-- A segmenter is allowed on the whole input, before any node and outside of a segmenter. -/
def isSegmentable (E : Engine ρ) (rtInputs : List Nat) (g : RTGraph) : Bool :=
  rtInputs.head? = some 0 ∧ rtInputs.length = E.nbInputs ∧ E.numSegments = 0 ∧
    E.segmenterDepth = 0 ∧ g.nodes.length = 0

def isSegmenter (E : Engine ρ) (graphid : GraphID) : Bool :=
  match E.graphs graphid with
  | some ⟨.segmenter, _, _⟩ => true
  | _ => false

/-- `CCTX_runSuccessors`, for a graph on `rtsids` whose function was handed the graph `entered`. -/
def runSuccessors (runSuccessor : SuccessorFn ρ) (rtsids : List Nat) (entered : RTGraph)
    (depth : Nat) : List (SuccessorInfo ρ) → EM ρ Unit
  | [] => return ()
  | si :: successors => do
    let s ← Cmd.get
    record (.wentOn rtsids entered s.rtgraph si depth)
    runSuccessor si.graphID si.rgp si.rtInputs (depth + 1)
    runSuccessors runSuccessor rtsids entered depth successors

/-- What `CCTX_runGraphDesc` hands to the function of a graph. -/
def initGraph (rtsids : List Nat) (g : RTGraph) : GraphCtx ρ :=
  ⟨g, rtsids.map StreamCtx.init, [], [], .ok ()⟩

/-- `CCTX_runGraphDesc`, with `CCTX_runGraph_internal`. -/
def runGraphDesc (E : Engine ρ) (runSuccessor : SuccessorFn ρ) (graph_f : GraphFunction ρ)
    (rtsids : List Nat) (depth : Nat) : EM ρ Unit := do
  Cmd.failWhen (rtsids.length > ZL_ENCODER_GRAPH_LIMIT) .allocation
  let s ← Cmd.get
  let entered := s.rtgraph
  record (.ranGraph graph_f (initGraph rtsids entered))
  let (report, gctx) ← Cmd.expect (graph_f.run E (initGraph rtsids entered))
  Cmd.modify fun s => { s with rtgraph := gctx.rtgraph }
  Cmd.ofExcept report
  Cmd.ofExcept gctx.status
  -- `GCTX_checkSuccessors`
  Cmd.failWhen (E.permissiveCompression = false ∧
    ∃ ctx ∈ gctx.streamCtxs, ctx.dest_set = .unassigned) .successor_invalid
  let successors ← Cmd.expect (getSuccessors gctx)
  runSuccessors runSuccessor rtsids entered depth successors

/-- `CCTX_runSupervisedGraphID` -/
def runSupervisedGraphID (E : Engine ρ) (runSuccessor : SuccessorFn ρ) (graphid : GraphID)
    (rgp : Option ρ) (rtsids : List Nat) (depth : Nat) : EM ρ Unit := do
  match E.graphs graphid with
  | none => Cmd.fail .graph_invalid
  | some dstGd =>
    let rtsids ← onGraph (adaptInputs E dstGd.inputTypeMasks rtsids)
    match dstGd.type with
    | .store =>
      -- `CCTX_storeStream` asserts that there is one input
      let rtsid ← Cmd.expect (if rtsids.length = 1 then rtsids.head? else none)
      onGraph (RTGM.storeStream rtsid)
    | .miGraph graph_f =>
      runGraphDesc E runSuccessor (graph_f rgp rtsids.length depth) rtsids depth
    | .segmenter => Cmd.expect none

/-- `CCTX_triggerBackupMode` -/
def triggerBackupMode (E : Engine ρ) (runSuccessor : SuccessorFn ρ) (rtsids : List Nat)
    (depth : Nat) : EM ρ Unit := do
  let s ← Cmd.get
  Cmd.failWhen (s.inBackupMode = true) .logicError
  Cmd.modify fun s => { s with inBackupMode := true }
  runSupervisedGraphID E runSuccessor .COMPRESS_GENERIC none rtsids depth
  Cmd.modify fun s => { s with inBackupMode := false }

/-- Whether a graph is replaced by STORE, for its only input is small. -/
def isSmallInput (E : Engine ρ) (graphid : GraphID) (rtsids : List Nat) : RTM Bool :=
  match rtsids with
  | [rtsid] =>
    if graphid = .SERIAL_STORE then Cmd.pure false
    else do
      let input ← RTGM.getRStream rtsid
      return input.type ≠ .string ∧ min input.content.length INT_MAX < E.minStreamSize
  | _ => Cmd.pure false

/-- `CCTX_runSuccessor_internal` -/
def runSuccessor_internal (E : Engine ρ) (runSuccessor : SuccessorFn ρ) (graphid : GraphID)
    (rgp : Option ρ) (rtsids : List Nat) (depth : Nat) : EM ρ Unit := do
  let small ← onGraph (isSmallInput E graphid rtsids)
  if small then runSupervisedGraphID E runSuccessor .STORE1 none rtsids depth
  else do
    let before ← Cmd.get
    let outcome ← Cmd.attempt (runSupervisedGraphID E runSuccessor graphid rgp rtsids depth)
    match outcome with
    | .ok _ => return ()
    | .error e =>
      let s ← Cmd.get
      if E.permissiveCompression = false ∨ s.inBackupMode = true then Cmd.fail e
      else if E.segmenterDepth ≠ 0 ∧ depth ≤ E.segmenterDepth then Cmd.fail e
      else do
        onGraph (RTGM.clearNodesFrom before.rtgraph.nodes.length)
        let s ← Cmd.get
        record (.fellBack rtsids before.rtgraph s.rtgraph)
        triggerBackupMode E runSuccessor rtsids depth

/-- `CCTX_runSuccessor`, with `runSuccessor` for the levels below. -/
def runSuccessorStep (E : Engine ρ) (runSuccessor : SuccessorFn ρ) : SuccessorFn ρ :=
  fun graphid rgp rtInputs depth => do
    let s ← Cmd.get
    Cmd.require (depth < 2 ^ 32)
    Cmd.failWhen (depth ≥ ZL_MAX_GRAPH_DEPTH ∧ s.inBackupMode = false) .temporaryLibraryLimitation
    if isSegmenter E graphid then do
      Cmd.require (isSegmentable E rtInputs s.rtgraph = false)
      Cmd.fail .graph_invalid
    else do
      onGraph (Cmd.forEach (fun rtsid => RTGM.guardRTStream rtsid depth) rtInputs)
      let outcome ← Cmd.attempt (runSuccessor_internal E runSuccessor graphid rgp rtInputs depth)
      if isSegmentable E rtInputs s.rtgraph then Cmd.ofExcept outcome
      else do
        onGraph (Cmd.forEach (RTGM.clearRTStream depth) rtInputs)
        Cmd.ofExcept outcome

end CCtx

variable {ρ : Type}

/-- `CCTX_runSuccessor`, with fuel for the depth of the nesting. -/
def runSuccessor (E : Engine ρ) : Nat → SuccessorFn ρ
  | 0 => fun _ _ _ _ _ => none
  | fuel + 1 => CCtx.runSuccessorStep E (runSuccessor E fuel)

/-- The inputs of a compression (`RTGM_refInput`, for each of them). -/
def refInputs : List Data → RTM (List Nat)
  | [] => return []
  | input :: inputs => do
    let rtsid ← RTGM.refInput input
    let rtsids ← refInputs inputs
    return rtsid :: rtsids

/-- The run of the starting graph on the inputs: of a compression (`CCTX_startCompression`), or of
a chunk, below the segmenter (`ZL_Segmenter_processChunk`). -/
def runStartingGraph (E : Engine ρ) (fuel : Nat) (graphid : GraphID) (rgp : Option ρ)
    (inputs : List Data) : EM ρ Unit := do
  Cmd.failWhen (inputs.length < 1) .successor_invalidNumInputs
  let rtsids ← CCtx.onGraph (refInputs inputs)
  runSuccessor E fuel graphid rgp rtsids (E.segmenterDepth + 1)

/-- The state before a run; a run that failed before may have left the backup mode on. -/
def CCtx.init (inBackupMode : Bool) : CCtx ρ := ⟨⟨[], []⟩, inBackupMode, []⟩

end OpenZL.Compress
