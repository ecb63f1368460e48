import OpenZL.Compress.RTGraph

/-!
# Graph functions and their edges (`dyngraph_interface.c`)

A graph function looks at the streams it is given, runs nodes on them and on what these put out, and
names the graphs that the rest of its streams go to. Assertions are not checks, as in the runtime
graph: a command that goes on with an edge that does not exist, or with a stream that has been
freed, is undefined. The metadata of a stream (`ZL_Edge_setIntMetadata`) is left out: it takes no part
in the wiring, and a fallback does not undo what a graph function has set.

Principal results: `GraphFunction.preserves`, `GraphFunction.preserves_careful`.
-/

namespace OpenZL.Compress

open OpenZL.Lib

/-- `ZL_ENCODER_GRAPH_LIMIT`: the capacity of the three vectors of a graph. -/
def ZL_ENCODER_GRAPH_LIMIT : Nat := 131072

/-- `ZL_NodeID`: the nodes of the implicit conversions, and all others. -/
inductive NodeID
  | CONVERT_NUM_TO_TOKEN
  | CONVERT_TOKEN_TO_SERIAL
  | CONVERT_NUM_TO_SERIAL
  | nid (nid : Nat)
  deriving DecidableEq, Repr

/-- `ZL_GraphID`: the graphs that the engine itself runs or is sent to, and all others. -/
inductive GraphID
  | COMPRESS_GENERIC
  | STORE1
  | SERIAL_STORE
  | STRING_STORE
  | gid (gid : Nat)
  deriving DecidableEq, Repr

/-- A graph function as a tree of calls: it ends with a report, looks at the stream of an edge
(`ZL_Edge_getData`), runs a node (`ZL_Edge_runMultiInputNode_withParams`) or sets a destination
(`ZL_Edge_setParameterizedDestination`), and goes on with what it is told.  `ρ` is what runtime
parameters are. -/
inductive GraphFunction (ρ : Type)
  | done (report : Except ErrorCode Unit)
  | getData (edge : Nat) (next : Data → GraphFunction ρ)
  | runNode (edges : List Nat) (nodeid : NodeID) (localParams : Option ρ)
      (next : Except ErrorCode (List Nat) → GraphFunction ρ)
  | setDestination (edges : List Nat) (gid : GraphID) (rGraphParams : Option ρ)
      (next : Except ErrorCode Unit → GraphFunction ρ)

/-- `gt_*`. -/
inductive GraphType (ρ : Type)
  | store
  | miGraph (graph_f : Option ρ → Nat → Nat → GraphFunction ρ)
  | segmenter

/-- `ZL_FunctionGraphDesc` and `ZL_SegmenterDesc`, as far as the engine looks at them. -/
structure GraphDesc (ρ : Type) where
  type : GraphType ρ
  inputTypeMasks : List (DataType → Bool)
  lastInputIsVariable : Bool

/-- `SI_selector_store`, as a graph (`GR_selectorWrapper`); STORE reads no parameters. -/
def selectorStore {ρ : Type} : GraphFunction ρ :=
  .getData 0 fun input =>
    .setDestination [0] (if input.type = .string then .STRING_STORE else .SERIAL_STORE) none
      fun outcome => .done outcome

/-- What a compressor holds, and the parameters applied to a compression. -/
structure Engine (ρ : Type) where
  registeredGraphs : GraphID → Option (GraphDesc ρ)
  nodes : NodeID → Option (CNode × (Option ρ → Codec))
  formatVersion : Nat
  permissiveCompression : Bool
  minStreamSize : Nat
  /-- `cctx->nbInputs`. -/
  nbInputs : Nat
  numSegments : Nat
  segmenterDepth : Nat

/-- The graphs of a compressor: the two that every one has (`GR_standardGraphs`), and others. -/
def Engine.graphs {ρ : Type} (E : Engine ρ) : GraphID → Option (GraphDesc ρ)
  | .STORE1 => some ⟨.miGraph fun _ _ _ => selectorStore, [fun _ => true], false⟩
  | .SERIAL_STORE => some ⟨.store, [fun type => type = .serial], false⟩
  | gid => E.registeredGraphs gid

/-- `sds_*`. -/
inductive DestSet
  | unassigned
  | trigger
  | follow
  | processed
  deriving DecidableEq, Repr

/-- `DG_StreamCtx`. -/
structure StreamCtx where
  rtsid : Nat
  dest_set : DestSet
  successionPos : Nat
  deriving DecidableEq, Repr

namespace StreamCtx

/-- A stream that has become an edge. -/
def init (rtsid : Nat) : StreamCtx := ⟨rtsid, .unassigned, 0⟩

def setDest (dest_set : DestSet) (ctx : StreamCtx) : StreamCtx := { ctx with dest_set }

def setSuccession (successionPos : Nat) (ctx : StreamCtx) : StreamCtx := { ctx with successionPos }

end StreamCtx

/-- `DestGraphDesc`. -/
structure DestGraphDesc (ρ : Type) where
  destGid : GraphID
  rGraphParams : Option ρ
  nbInputs : Nat
  rtiStartIdx : Nat
  deriving DecidableEq

/-- `ZL_Graph`, while its function runs, with the runtime graph it works on. -/
structure GraphCtx (ρ : Type) where
  rtgraph : RTGraph
  streamCtxs : List StreamCtx
  dstGraphDescs : List (DestGraphDesc ρ)
  rtsids : List Nat
  status : Except ErrorCode Unit
  deriving DecidableEq

/-- Commands of a graph function. -/
abbrev GM (ρ : Type) := Cmd ErrorCode (GraphCtx ρ)

namespace GraphCtx

variable {ρ α : Type}

/-- A command on the runtime graph. -/
def onGraph (m : RTM α) : GM ρ α := fun s =>
  (m s.rtgraph).map fun (r, rtgraph) => (r, { s with rtgraph })

/-- The stream of an edge. -/
def streamOf (edge : Nat) : GM ρ StreamCtx := do
  let s ← Cmd.get
  Cmd.expect s.streamCtxs[edge]?

/-- `ZL_Edge_getData` -/
def getData (edge : Nat) : GM ρ Data := do
  let ctx ← streamOf edge
  onGraph (RTGM.getRStream ctx.rtsid)

/-- The loop of `ZL_Edge_runMultiInputNode_withParams` over its inputs. -/
def checkEdges : List Nat → GM ρ (List Nat)
  | [] => return []
  | edge :: edges => do
    let ctx ← streamOf edge
    Cmd.failWhen (ctx.dest_set ≠ .unassigned) .successor_alreadySet
    let _ ← getData edge
    let rtsids ← checkEdges edges
    return ctx.rtsid :: rtsids

/-- The edges `edges` are processed. -/
def setProcessed (edges : List Nat) (ctxs : List StreamCtx) : List StreamCtx :=
  edges.foldl (fun ctxs edge => ctxs.modify edge (·.setDest .processed)) ctxs

/-- `CCTX_runNodeID_wParams` -/
def runNodeID (E : Engine ρ) (rtsids : List Nat) (nodeid : NodeID) (localParams : Option ρ) :
    RTM (Nat × Nat) := fun g =>
  match E.nodes nodeid with
  | none => some (.error .node_invalid, g)
  | some (cnode, codec) => runCNode E.formatVersion (codec localParams) cnode rtsids g

/-- `RTGM_getOutStreamID`, of each output of a node. -/
def outStreamIDs (rtnodeid nbOuts : Nat) (g : RTGraph) : Option (List Nat) :=
  g.nodes[rtnodeid]?.map fun node => (List.range nbOuts).map (node.startOutRtsids + ·)

/-- `ZL_Edge_runMultiInputNode_withParams`: the edges of the outputs. -/
def runMultiInputNode (E : Engine ρ) (edges : List Nat) (nodeid : NodeID)
    (localParams : Option ρ) : GM ρ (List Nat) := do
  Cmd.require (edges ≠ [])
  let rtsids ← checkEdges edges
  let (rtnid, nbOuts) ← onGraph (runNodeID E rtsids nodeid localParams)
  Cmd.modify fun s => { s with streamCtxs := setProcessed edges s.streamCtxs }
  let s ← Cmd.get
  Cmd.failWhen (s.streamCtxs.length + nbOuts > ZL_ENCODER_GRAPH_LIMIT) .allocation
  let rtosids ← Cmd.expect (outStreamIDs rtnid nbOuts s.rtgraph)
  Cmd.modify fun s => { s with streamCtxs := s.streamCtxs ++ rtosids.map StreamCtx.init }
  return (List.range nbOuts).map (s.streamCtxs.length + ·)

/-- The loop of `ZL_Edge_setParameterizedDestination`: `n` edges have been assigned. -/
def assignEdges : Nat → List Nat → GM ρ Unit
  | _, [] => return ()
  | n, edge :: edges => do
    let ctx ← streamOf edge
    if ctx.dest_set ≠ .unassigned then
      Cmd.modify fun s => { s with status := .error .successor_alreadySet }
      Cmd.fail .successor_alreadySet
    else
      let dest_set := if n = 0 then DestSet.trigger else .follow
      Cmd.modify fun s => { s with streamCtxs := s.streamCtxs.modify edge (·.setDest dest_set) }
      let s ← Cmd.get
      Cmd.failWhen (s.rtsids.length ≥ ZL_ENCODER_GRAPH_LIMIT) .allocation
      Cmd.modify fun s =>
        { s with
          rtsids := s.rtsids ++ [ctx.rtsid]
          streamCtxs := s.streamCtxs.modify edge (·.setSuccession s.dstGraphDescs.length) }
      assignEdges (n + 1) edges

/-- `ZL_Edge_setParameterizedDestination` -/
def setParameterizedDestination (E : Engine ρ) (edges : List Nat) (gid : GraphID)
    (rGraphParams : Option ρ) : GM ρ Unit := do
  Cmd.failWhen (edges = []) .successor_invalidNumInputs
  match E.graphs gid with
  | none => Cmd.fail .graph_invalid
  | some desc =>
    let numInputs := desc.inputTypeMasks.length
    Cmd.failWhen (desc.lastInputIsVariable = true ∧ edges.length < numInputs - 1)
      .successor_invalidNumInputs
    Cmd.failWhen (desc.lastInputIsVariable = false ∧ edges.length ≠ numInputs)
      .successor_invalidNumInputs
    assignEdges 0 edges
    let s ← Cmd.get
    Cmd.failWhen (s.dstGraphDescs.length ≥ ZL_ENCODER_GRAPH_LIMIT) .allocation
    Cmd.modify fun s =>
      { s with dstGraphDescs := s.dstGraphDescs ++
          [⟨gid, rGraphParams, edges.length, s.rtsids.length - edges.length⟩] }

end GraphCtx

namespace GraphFunction

open GraphCtx

variable {ρ : Type}

/-- The calls of a graph function, up to its report. -/
def run (E : Engine ρ) : GraphFunction ρ → GM ρ Unit
  | .done report => Cmd.ofExcept report
  | .getData edge next => do
    let data ← GraphCtx.getData edge
    (next data).run E
  | .runNode edges nodeid localParams next => do
    let outs ← Cmd.attempt (runMultiInputNode E edges nodeid localParams)
    (next outs).run E
  | .setDestination edges gid rGraphParams next => do
    let outcome ← Cmd.attempt (setParameterizedDestination E edges gid rGraphParams)
    (next outcome).run E

/-- No call that fails on the way changes anything. -/
def FailsClean (E : Engine ρ) : GraphFunction ρ → GraphCtx ρ → Prop
  | .done _, _ => True
  | .getData edge next, s => ∀ data s', GraphCtx.getData edge s = some (.ok data, s') →
      (next data).FailsClean E s'
  | .runNode edges nodeid localParams next, s => ∀ outs s',
      runMultiInputNode E edges nodeid localParams s = some (outs, s') →
      (∀ e, outs = .error e → s' = s) ∧ (next outs).FailsClean E s'
  | .setDestination edges gid rGraphParams next, s => ∀ outcome s',
      setParameterizedDestination E edges gid rGraphParams s = some (outcome, s') →
      (∀ e, outcome = .error e → s' = s) ∧ (next outcome).FailsClean E s'

/-- No call that succeeds on the way runs a node on an edge twice. -/
def ListsOnce (E : Engine ρ) : GraphFunction ρ → GraphCtx ρ → Prop
  | .done _, _ => True
  | .getData edge next, s => ∀ data s', GraphCtx.getData edge s = some (.ok data, s') →
      (next data).ListsOnce E s'
  | .runNode edges nodeid localParams next, s => ∀ outs s',
      runMultiInputNode E edges nodeid localParams s = some (outs, s') →
      ((∃ outEdges, outs = .ok outEdges) → edges.Nodup) ∧ (next outs).ListsOnce E s'
  | .setDestination edges gid rGraphParams next, s => ∀ outcome s',
      setParameterizedDestination E edges gid rGraphParams s = some (outcome, s') →
      (next outcome).ListsOnce E s'

instance FailsClean.decidable [DecidableEq ρ] (E : Engine ρ) :
    ∀ (f : GraphFunction ρ) (s : GraphCtx ρ), Decidable (f.FailsClean E s)
  | .done _, _ => .isTrue trivial
  | .getData _ next, _ =>
    have := fun data s' => FailsClean.decidable E (next data) s'
    Cmd.decidableRunOk
  | .runNode _ _ _ next, _ =>
    have := fun outs s' => FailsClean.decidable E (next outs) s'
    Cmd.decidableRun
  | .setDestination _ _ _ next, _ =>
    have := fun outcome s' => FailsClean.decidable E (next outcome) s'
    Cmd.decidableRun

instance ListsOnce.decidable (E : Engine ρ) :
    ∀ (f : GraphFunction ρ) (s : GraphCtx ρ), Decidable (f.ListsOnce E s)
  | .done _, _ => .isTrue trivial
  | .getData _ next, _ =>
    have := fun data s' => ListsOnce.decidable E (next data) s'
    Cmd.decidableRunOk
  | .runNode _ _ _ next, _ =>
    have := fun outs s' => ListsOnce.decidable E (next outs) s'
    Cmd.decidableRun
  | .setDestination _ _ _ next, _ =>
    have := fun outcome s' => ListsOnce.decidable E (next outcome) s'
    Cmd.decidableRun
theorem getData_some {edge : Nat} {s s' : GraphCtx ρ} {r : Except ErrorCode Data}
    (h : GraphCtx.getData edge s = some (r, s')) :
    (∃ data, r = .ok data) ∧ s' = s := by
  obtain ⟨ctx, -, h⟩ := Cmd.run_expect_bind.1 h
  unfold onGraph at h
  obtain ⟨⟨q, g⟩, hget, heq⟩ := Option.map_eq_some_iff.1 h
  obtain ⟨-, stream, -, -, rfl, rfl⟩ := getRStream_some hget
  obtain ⟨rfl, rfl⟩ := Prod.mk.inj heq
  exact ⟨⟨stream, rfl⟩, rfl⟩

/-- **An invariant of the calls** is one of every graph function. -/
theorem preserves {E : Engine ρ} {I : GraphCtx ρ → Prop}
    (hnode : ∀ edges nodeid localParams,
      Cmd.Preserves I (runMultiInputNode E edges nodeid localParams))
    (hset : ∀ edges gid rGraphParams,
      Cmd.Preserves I (setParameterizedDestination E edges gid rGraphParams)) :
    ∀ f : GraphFunction ρ, Cmd.Preserves I (f.run E)
  | .done report => by
    intro s r s' hs h
    obtain ⟨-, rfl⟩ := Prod.mk.inj (Option.some.inj h)
    exact hs
  | .getData edge next => by
    refine Cmd.Preserves.bind (fun s r s' hs h => ?_) fun data => preserves hnode hset (next data)
    obtain ⟨-, rfl⟩ := getData_some h
    exact hs
  | .runNode edges nodeid localParams next =>
    (Cmd.Preserves.attempt (hnode edges nodeid localParams)).bind fun outs =>
      preserves hnode hset (next outs)
  | .setDestination edges gid rGraphParams next =>
    (Cmd.Preserves.attempt (hset edges gid rGraphParams)).bind fun outcome =>
      preserves hnode hset (next outcome)

/-- **An invariant of the calls that succeed** is one of every graph function, if those that fail
change nothing. -/
theorem preserves_careful {E : Engine ρ} {I : GraphCtx ρ → Prop} {once : Prop}
    (hnode : ∀ edges nodeid localParams outs s s', (once → edges.Nodup) → I s →
      runMultiInputNode E edges nodeid localParams s = some (.ok outs, s') → I s')
    (hset : ∀ edges gid rGraphParams u s s', I s →
      setParameterizedDestination E edges gid rGraphParams s = some (.ok u, s') → I s') :
    ∀ (f : GraphFunction ρ) (s s' : GraphCtx ρ) (r : Except ErrorCode Unit), I s →
      f.FailsClean E s → (once → f.ListsOnce E s) → f.run E s = some (r, s') → I s'
  | .done report, s, s', r, hs, _, _, h => by
    obtain ⟨-, rfl⟩ := Prod.mk.inj (Option.some.inj h)
    exact hs
  | .getData edge next, s, s', r, hs, hclean, honce, h => by
    rcases Cmd.run_bind_some h with ⟨e, he, -⟩ | ⟨data, t, hdata, hnext⟩
    · obtain ⟨-, rfl⟩ := getData_some he
      exact hs
    · obtain ⟨-, rfl⟩ := getData_some hdata
      exact preserves_careful hnode hset (next data) _ s' r hs (hclean data _ hdata)
        (fun ho => honce ho data _ hdata) hnext
  | .runNode edges nodeid localParams next, s, s', r, hs, hclean, honce, h => by
    obtain ⟨outs, t, hcall, hnext⟩ := Cmd.run_attempt_bind.1 h
    obtain ⟨hfail, hclean'⟩ := hclean outs t hcall
    refine preserves_careful hnode hset (next outs) t s' r ?_ hclean'
      (fun ho => (honce ho outs t hcall).2) hnext
    cases outs with
    | error e => exact hfail e rfl ▸ hs
    | ok outEdges =>
      exact hnode edges nodeid localParams outEdges s t
        (fun ho => (honce ho _ t hcall).1 ⟨outEdges, rfl⟩) hs hcall
  | .setDestination edges gid rGraphParams next, s, s', r, hs, hclean, honce, h => by
    obtain ⟨outcome, t, hcall, hnext⟩ := Cmd.run_attempt_bind.1 h
    obtain ⟨hfail, hclean'⟩ := hclean outcome t hcall
    refine preserves_careful hnode hset (next outcome) t s' r ?_ hclean'
      (fun ho => honce ho outcome t hcall) hnext
    cases outcome with
    | error e => exact hfail e rfl ▸ hs
    | ok u => exact hset edges gid rGraphParams u s t hs hcall

end GraphFunction

end OpenZL.Compress
