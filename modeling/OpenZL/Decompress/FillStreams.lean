import OpenZL.Decompress.DecodeChunkHeader
import OpenZL.Lib.Dataflow
import OpenZL.Lib.Result

/-!
# The stream table of a chunk (`decompress2.c`)

`fillStoredStreams` places the inputs of the nodes one after the other in the stream table, marks
the streams each node regenerates, and hands the stored streams to those that are left.

* `placeNodes_spec`, `Placement.wired` — where the streams of accepted nodes lie.
* `executable_of_fill` — an accepted chunk runs in order, without a fault.
-/

namespace OpenZL.Decompress

open OpenZL.Lib

variable {node : PlacedNode} {registry : Registry}

/-- What a registered decoder says of its graph (`miGraphDesc`).  The singleton types are an array
of four-byte entries in memory, hence the bound. -/
structure DTransform where
  nbSOs : Nat
  nbVOs : Nat
  nbInputs : Nat
  lastInputIsVariable : Bool
  nbSOs_lt : nbSOs < 2 ^ 62
  deriving DecidableEq, Repr

/-- `DT_isNbRegensCompatible`; the subtraction is on `size_t`. -/
def DTransform.isNbRegensCompatible (dt : DTransform) (nbRegens : Nat) : Bool :=
  if dt.lastInputIsVariable then nbRegens ≥ (dt.nbInputs + 2 ^ 64 - 1) % 2 ^ 64
  else nbRegens = dt.nbInputs

/-- `DTM_getTransform` over some registry. -/
abbrev Registry := PublicTransformInfo → Nat → Except ErrorCode DTransform

/-- `DFH_NodeInfo` with the fields `fillStoredStreams` sets. -/
structure PlacedNode where
  info : NodeInfo
  inputStreamBaseIdx : Nat
  numInputStreams : Nat
  deriving DecidableEq, Repr

/-- `DCTX_validateNodeStatic`; `size` is the number of streams, indices are 32-bit and sizes
64-bit. -/
def validateNodeStatic (formatVersion nbOutputs size : Nat) (dt : DTransform)
    (node : PlacedNode) : Except ErrorCode Unit := do
  failWhen (formatVersion < 9 ∧ node.numInputStreams = 0) .formatVersion_unsupported
  failWhen (node.numInputStreams > transformOutStreamsLimit formatVersion)
    .formatVersion_unsupported
  failWhen (node.info.nbRegens = 0) .corruption
  failWhen (dt.isNbRegensCompatible node.info.nbRegens = false) .nodeRegen_countIncorrect
  failWhen (dt.nbVOs = 0 ∧ node.info.nbVOs ≠ 0) .corruption
  let inputStreamEndIdx := (node.inputStreamBaseIdx + node.numInputStreams) % 2 ^ 32
  failWhen (inputStreamEndIdx > size) .graph_invalid
  failWhen (inputStreamEndIdx > (size + 2 ^ 64 - nbOutputs) % 2 ^ 64) .graph_invalid

/-- The loop of `fillStoredStreams` over the streams a node regenerates; `producers` holds the
`producerNodeIdx` of every stream, `none` for `ZL_PRODUCER_STORE`. -/
def claimRegens (transformIdx inputEndIdx : Nat) :
    List Nat → List (Option Nat) → Except ErrorCode (List (Option Nat))
  | [], producers => .ok producers
  | distance :: distances, producers =>
    let outputStreamIdx := inputEndIdx + distance
    if outputStreamIdx ≥ producers.length then .error .corruption
    else if producers[outputStreamIdx]? ≠ some none then .error .corruption
    else claimRegens transformIdx inputEndIdx distances
      (producers.set outputStreamIdx (some transformIdx))

/-- The loop of `fillStoredStreams` over the nodes. -/
def placeNodes (registry : Registry) (formatVersion nbOutputs : Nat) :
    List NodeInfo → Nat → Nat → List (Option Nat) →
      Except ErrorCode (List PlacedNode × List (Option Nat))
  | [], _, _, producers => .ok ([], producers)
  | node :: nodes, transformIdx, streamIdx, producers => do
    let dt ← registry node.trpid formatVersion
    let nbTrIns := (dt.nbSOs + node.nbVOs) % 2 ^ 64
    let placed := { info := node
                    inputStreamBaseIdx := streamIdx % 2 ^ 32
                    numInputStreams := nbTrIns % 2 ^ 32 }
    validateNodeStatic formatVersion nbOutputs producers.length dt placed
    let inputEndIdx := streamIdx + nbTrIns
    let producers ← claimRegens transformIdx inputEndIdx node.regenDistances producers
    let (others, producers) ←
      placeNodes registry formatVersion nbOutputs nodes (transformIdx + 1) inputEndIdx producers
    return (placed :: others, producers)

/-- The loop that hands the stored streams, found in `src`, to the streams without a producer.
Returns the sizes that were not used. -/
def assignStored : List (Option Nat) → List Nat → List UInt8 →
    Except ErrorCode (List (Option (List UInt8)) × List Nat)
  | [], sizes, _ => .ok ([], sizes)
  | some _ :: producers, sizes, src => do
    let (data, left) ← assignStored producers sizes src
    return (none :: data, left)
  | none :: _, [], _ => .error .corruption
  | none :: producers, size :: sizes, src => do
    let (data, left) ← assignStored producers sizes (src.drop size)
    return (some (src.take size) :: data, left)

/-- What `fillStoredStreams` leaves in the decompression context. -/
structure ChunkStreams where
  nodes : List PlacedNode
  producers : List (Option Nat)
  data : List (Option (List UInt8))
  thstream : List UInt8
  streamsSize : Nat
  deriving DecidableEq, Repr

/-- `fillStoredStreams`. -/
def fillStoredStreams (registry : Registry) (formatVersion nbOutputs : Nat) (header : ChunkHeader)
    (src : List UInt8) (startPos : Nat) : Except ErrorCode ChunkStreams := do
  failWhen (startPos + header.totalTHSize > src.length) .srcSize_tooSmall
  let totalNbStreams := header.storedStreamSizes.length + header.nbRegens
  failWhen (totalNbStreams > runtimeStreamLimit formatVersion) .temporaryLibraryLimitation
  let (nodes, producers) ← placeNodes registry formatVersion nbOutputs header.nodes 0 0
    (List.replicate totalNbStreams none)
  let (data, left) ← assignStored producers header.storedStreamSizes
    (src.drop (startPos + header.totalTHSize))
  failWhen (left ≠ []) .corruption
  failWhen (totalNbStreams = 0) .corruption
  failWhen (startPos + header.totalTHSize + header.storedStreamSizes.sum > src.length)
    .srcSize_tooSmall
  return {
    nodes, producers, data
    thstream := (src.drop startPos).take header.totalTHSize
    streamsSize := header.totalTHSize + header.storedStreamSizes.sum }

/-- The input slots of a node, in the order of the stream table. -/
def PlacedNode.inputs (node : PlacedNode) : List Nat :=
  List.range' node.inputStreamBaseIdx node.numInputStreams

/-- `DCTX_getRegeneratedStreamIDs`. -/
def PlacedNode.regens (node : PlacedNode) : List Nat :=
  node.info.regenDistances.map fun d =>
    ((node.inputStreamBaseIdx + node.numInputStreams) % 2 ^ 32 + d) % 2 ^ 32

section run

variable {α : Type}

/-- Why a run stops: an assertion of the engine, or an error code. -/
inductive RunFault where
  | emptyInput (slot : Nat)
  | filledRegen (slot : Nat)
  | code (error : ErrorCode)
  deriving DecidableEq, Repr

/-- `DCTX_getNodeInputs`, in reverse order; a missing stream is a failed assertion. -/
def getNodeInputs (slots : Nat → Option α) : List Nat → Except RunFault (List α)
  | [] => .ok []
  | s :: rest => do
    let others ← getNodeInputs slots rest
    match slots s with
    | none => .error (.emptyInput s)
    | some a => .ok (others ++ [a])

/-- The assertion of `DCTX_getRegeneratedStreamIDs`. -/
def checkRegens (slots : Nat → Option α) : List Nat → Except RunFault Unit
  | [] => .ok ()
  | s :: rest => if (slots s).isSome then .error (.filledRegen s) else checkRegens slots rest

/-- The streams created by a codec and checked by `DCTX_validateNodeOutputs`. -/
def writeRegens : List Nat → List (Option α) → (Nat → Option α) → Except RunFault (Nat → Option α)
  | [], _, slots => .ok slots
  | s :: rest, some a :: outs, slots => writeRegens rest outs (Function.update slots s (some a))
  | _ :: _, _, _ => .error (.code .transform_executionFailure)

/-- `DCTX_freeDecoderInputStreams`. -/
def freeInputs (node : PlacedNode) (slots : Nat → Option α) : Nat → Option α := fun s =>
  if node.inputStreamBaseIdx ≤ s ∧ s < node.inputStreamBaseIdx + node.numInputStreams then none
  else slots s

/-- `DCTX_runDecoder`. -/
def runDecoder (codec : PlacedNode → List α → Except ErrorCode (List (Option α)))
    (node : PlacedNode) (slots : Nat → Option α) : Except RunFault (Nat → Option α) := do
  let inputs ← getNodeInputs slots node.inputs
  checkRegens slots node.regens
  let outs ← (codec node inputs).mapError RunFault.code
  let slots ← writeRegens node.regens outs slots
  return freeInputs node slots

/-- `runDecoders`. -/
def runDecoders (codec : PlacedNode → List α → Except ErrorCode (List (Option α))) :
    List PlacedNode → (Nat → Option α) → Except RunFault (Nat → Option α)
  | [], slots => .ok slots
  | node :: nodes, slots => do
    let slots ← runDecoder codec node slots
    runDecoders codec nodes slots

end run

/-! ## Placed nodes -/

theorem validateNodeStatic_ok {v nbOutputs size : Nat} {dt : DTransform} {u : Unit}
    (h : validateNodeStatic v nbOutputs size dt node = .ok u) :
    node.info.nbRegens ≠ 0 ∧ node.numInputStreams ≤ transformOutStreamsLimit v ∧
      (node.inputStreamBaseIdx + node.numInputStreams) % 2 ^ 32 ≤ size := by
  unfold validateNodeStatic at h
  obtain ⟨_, -, h⟩ := bind_eq_ok.1 h
  obtain ⟨_, hlimit, h⟩ := bind_eq_ok.1 h
  obtain ⟨_, hregens, h⟩ := bind_eq_ok.1 h
  obtain ⟨_, -, h⟩ := bind_eq_ok.1 h
  obtain ⟨_, -, h⟩ := bind_eq_ok.1 h
  obtain ⟨_, hend, -⟩ := bind_eq_ok.1 h
  exact ⟨failWhen_eq_ok.1 hregens, Nat.le_of_not_lt (failWhen_eq_ok.1 hlimit),
    Nat.le_of_not_lt (failWhen_eq_ok.1 hend)⟩

theorem claimRegens_ok : ∀ {distances : List Nat} {t inputEnd : Nat}
    {producers producers' : List (Option Nat)},
    claimRegens t inputEnd distances producers = .ok producers' →
    producers'.length = producers.length ∧
      (∀ s ∈ distances.map (inputEnd + ·), producers[s]? = some none) ∧
      (distances.map (inputEnd + ·)).Nodup ∧
      ∀ s, producers'[s]? = if s ∈ distances.map (inputEnd + ·) then some (some t)
        else producers[s]?
  | [], t, inputEnd, producers, producers', h => by
    cases h
    simp
  | d :: distances, t, inputEnd, producers, producers', h => by
    rw [claimRegens] at h
    split at h
    · cases h
    · split at h
      · cases h
      · rename_i hlt hfree
        have hfree := not_not.1 hfree
        have hlt : inputEnd + d < producers.length := by omega
        obtain ⟨hlen, hnone, hnodup, hget⟩ := claimRegens_ok h
        rw [List.length_set] at hlen
        have hnotin : inputEnd + d ∉ distances.map (inputEnd + ·) := by
          intro hmem
          have := hnone _ hmem
          rw [List.getElem?_set_self hlt] at this
          cases this
        have hother : ∀ s, s ≠ inputEnd + d →
            (producers.set (inputEnd + d) (some t))[s]? = producers[s]? := fun s hs =>
          List.getElem?_set_ne (Ne.symm hs)
        refine ⟨hlen, ?_, ?_, ?_⟩
        · intro s hs
          rcases List.mem_cons.1 hs with rfl | hs
          · exact hfree
          · rw [← hother s (fun heq => hnotin (heq ▸ hs))]
            exact hnone s hs
        · exact List.nodup_cons.2 ⟨hnotin, hnodup⟩
        · intro s
          rw [hget s, List.map_cons]
          by_cases hs : s = inputEnd + d
          · rw [hs, if_neg hnotin, if_pos (by simp), List.getElem?_set_self hlt]
          · rw [hother s hs]
            simp [hs]

/-- The inputs of the nodes follow each other from `start`. -/
def Consecutive : Nat → List PlacedNode → Prop
  | _, [] => True
  | start, node :: nodes =>
    node.inputStreamBaseIdx = start ∧ Consecutive (start + node.numInputStreams) nodes

/-- What `placeNodes` returns from node number `t`, stream `start` and `producers`. -/
structure Placement (registry : Registry) (v t start : Nat) (producers : List (Option Nat))
    (nodes : List NodeInfo) (placed : List PlacedNode) (producers' : List (Option Nat)) : Prop where
  info : placed.map (·.info) = nodes
  inputs : ∀ node ∈ placed, ∃ dt, registry node.info.trpid v = .ok dt ∧
    node.numInputStreams = dt.nbSOs + node.info.nbVOs
  consecutive : Consecutive start placed
  regens_eq : ∀ node ∈ placed, node.regens = node.info.regenDistances.map
    (node.inputStreamBaseIdx + node.numInputStreams + ·)
  regens_ne : ∀ node ∈ placed, node.regens ≠ []
  regens_lt : ∀ node ∈ placed, ∀ s ∈ node.regens, s < producers.length
  regens_free : ∀ node ∈ placed, ∀ s ∈ node.regens, producers[s]? = some none
  regens_nodup : ∀ node ∈ placed, node.regens.Nodup
  regens_disjoint : placed.Pairwise fun m n => ∀ s ∈ m.regens, s ∉ n.regens
  length_eq : producers'.length = producers.length
  stored_iff : ∀ s, producers'[s]? = some none ↔
    producers[s]? = some none ∧ ∀ node ∈ placed, s ∉ node.regens
  produced_iff : ∀ s p, producers'[s]? = some (some p) ↔ producers[s]? = some (some p) ∨
    ∃ k node, placed[k]? = some node ∧ p = t + k ∧ s ∈ node.regens

theorem placeNode_ok {v t start nbOutputs : Nat} {producers producers' : List (Option Nat)}
    {node : NodeInfo} {dt : DTransform} {u : Unit} (hlen : producers.length < 2 ^ 32)
    (hstart : start ≤ producers.length) (hvos : node.nbVOs < 2 ^ 32)
    (hdist : node.regenDistances.length = node.nbRegens)
    (hvalid : validateNodeStatic v nbOutputs producers.length dt
      ⟨node, start % 2 ^ 32, (dt.nbSOs + node.nbVOs) % 2 ^ 64 % 2 ^ 32⟩ = .ok u)
    (hclaim : claimRegens t (start + (dt.nbSOs + node.nbVOs) % 2 ^ 64) node.regenDistances
      producers = .ok producers') :
    start % 2 ^ 32 = start ∧
      (dt.nbSOs + node.nbVOs) % 2 ^ 64 % 2 ^ 32 = dt.nbSOs + node.nbVOs ∧
      (dt.nbSOs + node.nbVOs) % 2 ^ 64 = dt.nbSOs + node.nbVOs ∧
      node.regenDistances ≠ [] ∧
      ∀ d ∈ node.regenDistances, start + (dt.nbSOs + node.nbVOs) + d < producers.length := by
  have hnb := dt.nbSOs_lt
  have hmod : (dt.nbSOs + node.nbVOs) % 2 ^ 64 = dt.nbSOs + node.nbVOs :=
    Nat.mod_eq_of_lt (by omega)
  rw [hmod] at hclaim
  obtain ⟨hregens, -, -⟩ := validateNodeStatic_ok hvalid
  obtain ⟨-, hfree, -, -⟩ := claimRegens_ok hclaim
  have hne : node.regenDistances ≠ [] := by
    intro h0
    rw [h0, List.length_nil] at hdist
    exact hregens hdist.symm
  have hlt : ∀ d ∈ node.regenDistances,
      start + (dt.nbSOs + node.nbVOs) + d < producers.length := by
    intro d hd
    have hget := hfree _ (List.mem_map.2 ⟨d, hd, rfl⟩)
    exact (List.getElem?_eq_some_iff.1 hget).1
  obtain ⟨d, ds, hcons⟩ := List.exists_cons_of_ne_nil hne
  have hd := hlt d (by rw [hcons]; simp)
  refine ⟨Nat.mod_eq_of_lt (by omega), ?_, hmod, hne, hlt⟩
  rw [hmod, Nat.mod_eq_of_lt (by omega)]

theorem Placement.cons {v t start : Nat} {producers producers₁ producers₂ : List (Option Nat)}
    {nodes : List NodeInfo} {others : List PlacedNode} {dt : DTransform}
    (ih : Placement registry v (t + 1) (start + node.numInputStreams) producers₁ nodes others
      producers₂) (hdt : registry node.info.trpid v = .ok dt)
    (hbase : node.inputStreamBaseIdx = start)
    (hnum : node.numInputStreams = dt.nbSOs + node.info.nbVOs)
    (hregens : node.regens = node.info.regenDistances.map
      (node.inputStreamBaseIdx + node.numInputStreams + ·)) (hne : node.regens ≠ [])
    (hlen : producers₁.length = producers.length)
    (hfree : ∀ s ∈ node.regens, producers[s]? = some none) (hnodup : node.regens.Nodup)
    (hget : ∀ s, producers₁[s]? = if s ∈ node.regens then some (some t) else producers[s]?) :
    Placement registry v t start producers (node.info :: nodes) (node :: others) producers₂ := by
  -- what the others claim was free after this node, hence not its own and free before it
  have hother : ∀ m ∈ others, ∀ s ∈ m.regens, s ∉ node.regens ∧ producers[s]? = some none := by
    intro m hm s hs
    have hfree₁ := ih.regens_free m hm s hs
    rw [hget s] at hfree₁
    split at hfree₁
    · cases hfree₁
    · rename_i hs'
      exact ⟨hs', hfree₁⟩
  refine {
    info := ?_, inputs := ?_, consecutive := ?_, regens_eq := ?_, regens_ne := ?_, regens_lt := ?_,
    regens_free := ?_, regens_nodup := ?_, regens_disjoint := ?_, length_eq := ?_,
    stored_iff := ?_, produced_iff := ?_ }
  · rw [List.map_cons, ih.info]
  · exact List.forall_mem_cons.2 ⟨⟨dt, hdt, hnum⟩, ih.inputs⟩
  · exact ⟨hbase, ih.consecutive⟩
  · exact List.forall_mem_cons.2 ⟨hregens, ih.regens_eq⟩
  · exact List.forall_mem_cons.2 ⟨hne, ih.regens_ne⟩
  · refine List.forall_mem_cons.2 ⟨fun s hs => ?_, fun m hm s hs => ?_⟩
    · exact (List.getElem?_eq_some_iff.1 (hfree s hs)).1
    · rw [← hlen]
      exact ih.regens_lt m hm s hs
  · exact List.forall_mem_cons.2 ⟨hfree, fun m hm s hs => (hother m hm s hs).2⟩
  · exact List.forall_mem_cons.2 ⟨hnodup, ih.regens_nodup⟩
  · exact List.pairwise_cons.2 ⟨fun m hm s hs hs' => (hother m hm s hs').1 hs, ih.regens_disjoint⟩
  · rw [ih.length_eq, hlen]
  · intro s
    rw [ih.stored_iff, hget s, List.forall_mem_cons]
    by_cases hs : s ∈ node.regens
    · simp [hs]
    · simp [hs]
  · intro s p
    rw [ih.produced_iff, hget s]
    constructor
    · rintro (hp | ⟨k, m, hm, rfl, hs⟩)
      · split at hp
        · rename_i hs
          have hpt : t = p := by simpa using hp
          exact Or.inr ⟨0, node, rfl, by omega, hs⟩
        · exact Or.inl hp
      · exact Or.inr ⟨k + 1, m, hm, by omega, hs⟩
    · rintro (hp | ⟨k, m, hm, rfl, hs⟩)
      · left
        rw [if_neg]
        · exact hp
        · intro hs
          rw [hfree s hs] at hp
          cases hp
      · cases k with
        | zero =>
          obtain rfl : node = m := by simpa using hm
          left
          rw [if_pos hs, Nat.add_zero]
        | succ k => exact Or.inr ⟨k, m, by simpa using hm, by omega, hs⟩

/-- **The nodes placed by `fillStoredStreams`.** -/
theorem placeNodes_spec {v nbOutputs : Nat} : ∀ {nodes : List NodeInfo} {t start : Nat}
    {producers producers' : List (Option Nat)} {placed : List PlacedNode},
    producers.length < 2 ^ 32 → start ≤ producers.length →
    (∀ node ∈ nodes, node.nbVOs < 2 ^ 32 ∧ node.regenDistances.length = node.nbRegens) →
    placeNodes registry v nbOutputs nodes t start producers = .ok (placed, producers') →
    Placement registry v t start producers nodes placed producers'
  | [], t, start, producers, producers', placed, hlen, hstart, hnodes, h => by
    obtain ⟨rfl, rfl⟩ := Prod.mk.inj (Except.ok.inj h)
    constructor <;> simp [Consecutive]
  | node :: nodes, t, start, producers, producers', placed, hlen, hstart, hnodes, h => by
    rw [placeNodes] at h
    obtain ⟨dt, hdt, h⟩ := bind_eq_ok.1 h
    obtain ⟨_, hvalid, h⟩ := bind_eq_ok.1 h
    obtain ⟨producers₁, hclaim, h⟩ := bind_eq_ok.1 h
    obtain ⟨⟨others, producers₂⟩, hrec, h⟩ := bind_eq_ok.1 h
    obtain ⟨rfl, rfl⟩ := Prod.mk.inj (pure_eq_ok.1 h)
    obtain ⟨hvos, hdist⟩ := hnodes node (by simp)
    obtain ⟨hbase, hnum, hmod, hne, hlt⟩ :=
      placeNode_ok hlen hstart hvos hdist hvalid hclaim
    rw [hmod] at hclaim hrec
    obtain ⟨hlen₁, hfree, hnodup, hget⟩ := claimRegens_ok hclaim
    obtain ⟨d, ds, hcons⟩ := List.exists_cons_of_ne_nil hne
    have hend := hlt d (by rw [hcons]; simp)
    have ih := placeNodes_spec (by rw [hlen₁]; exact hlen) (by rw [hlen₁]; omega)
      (fun n hn => hnodes n (List.mem_cons_of_mem _ hn)) hrec
    set placedNode : PlacedNode :=
      ⟨node, start % 2 ^ 32, (dt.nbSOs + node.nbVOs) % 2 ^ 64 % 2 ^ 32⟩ with hplaced
    have hbase' : placedNode.inputStreamBaseIdx = start := hbase
    have hnum' : placedNode.numInputStreams = dt.nbSOs + node.nbVOs := hnum
    have hregens : placedNode.regens =
        node.regenDistances.map (start + (dt.nbSOs + node.nbVOs) + ·) := by
      unfold PlacedNode.regens
      rw [hbase', hnum']
      refine List.map_congr_left fun e he => ?_
      have := hlt e he
      rw [Nat.mod_eq_of_lt (by omega), Nat.mod_eq_of_lt (by omega)]
    rw [← hregens] at hfree hnodup hget
    rw [← hnum'] at ih
    refine Placement.cons ih hdt hbase' hnum' ?_ ?_ hlen₁ hfree hnodup hget
    · rw [hregens, hbase', hnum']
    · rw [hregens]
      exact fun h0 => hne (List.map_eq_nil_iff.1 h0)

theorem Consecutive.le_base : ∀ {start : Nat} {nodes : List PlacedNode}, Consecutive start nodes →
    ∀ n ∈ nodes, start ≤ n.inputStreamBaseIdx
  | _, [], _, _, hn => by simp at hn
  | start, m :: nodes, ⟨hbase, h⟩, n, hn => by
    rcases List.mem_cons.1 hn with rfl | hn
    · omega
    · have := h.le_base n hn
      omega

theorem Consecutive.pairwise : ∀ {start : Nat} {nodes : List PlacedNode}, Consecutive start nodes →
    nodes.Pairwise fun m n => m.inputStreamBaseIdx + m.numInputStreams ≤ n.inputStreamBaseIdx
  | _, [], _ => List.Pairwise.nil
  | start, m :: nodes, ⟨hbase, h⟩ => by
    refine List.pairwise_cons.2 ⟨fun n hn => ?_, h.pairwise⟩
    have := h.le_base n hn
    omega

theorem Consecutive.base_eq : ∀ {start : Nat} {nodes : List PlacedNode} {t : Nat} {n : PlacedNode},
    Consecutive start nodes → nodes[t]? = some n →
    n.inputStreamBaseIdx = start + ((nodes.take t).map (·.numInputStreams)).sum
  | _, [], _, _, _, hn => by simp at hn
  | start, m :: nodes, 0, n, ⟨hbase, _⟩, hn => by
    obtain rfl : m = n := by simpa using hn
    simpa using hbase
  | start, m :: nodes, t + 1, n, ⟨hbase, h⟩, hn => by
    rw [h.base_eq (by simpa using hn), List.take_succ_cons, List.map_cons, List.sum_cons]
    omega

theorem PlacedNode.mem_inputs {s : Nat} :
    s ∈ node.inputs ↔ node.inputStreamBaseIdx ≤ s ∧
      s < node.inputStreamBaseIdx + node.numInputStreams := by
  simp [PlacedNode.inputs, List.mem_range'_1]

/-- The step a node performs on the slots of the stream table. -/
def PlacedNode.step (node : PlacedNode) : Step Nat := ⟨node.inputs, node.regens⟩

section placement

variable {registry : Registry} {v start total : Nat} {nodes : List NodeInfo}
  {placed : List PlacedNode} {producers : List (Option Nat)}
  (h : Placement registry v 0 start (List.replicate total none) nodes placed producers)

include h

theorem Placement.le_regen (hnode : node ∈ placed) {s : Nat} (hs : s ∈ node.regens) :
    node.inputStreamBaseIdx + node.numInputStreams ≤ s := by
  rw [h.regens_eq node hnode] at hs
  obtain ⟨d, -, rfl⟩ := List.mem_map.1 hs
  omega

theorem Placement.inputs_le (hnode : node ∈ placed) :
    node.inputStreamBaseIdx + node.numInputStreams ≤ total := by
  obtain ⟨s, rest, hcons⟩ := List.exists_cons_of_ne_nil (h.regens_ne node hnode)
  have hs : s ∈ node.regens := by rw [hcons]; simp
  have hlt := h.regens_lt node hnode s hs
  rw [List.length_replicate] at hlt
  exact (h.le_regen hnode hs).trans hlt.le

theorem Placement.producer_lt {t p s : Nat} {node m : PlacedNode} (ht : placed[t]? = some node)
    (hp : placed[p]? = some m) (hin : s ∈ node.inputs) (hout : s ∈ m.regens) : p < t := by
  by_contra hge
  have hlt := (PlacedNode.mem_inputs.1 hin).2
  have hle := h.le_regen (List.mem_of_getElem? hp) hout
  rcases Nat.lt_or_eq_of_le (Nat.le_of_not_lt hge) with htp | rfl
  · obtain ⟨ht', rfl⟩ := List.getElem?_eq_some_iff.1 ht
    obtain ⟨hp', rfl⟩ := List.getElem?_eq_some_iff.1 hp
    have := List.pairwise_iff_getElem.1 h.consecutive.pairwise t p ht' hp' htp
    omega
  · rw [ht] at hp
    obtain rfl := Option.some.inj hp
    omega

theorem Placement.exists_producer {p s : Nat} (hs : producers[s]? = some (some p)) :
    ∃ m, placed[p]? = some m ∧ s ∈ m.regens := by
  rcases (h.produced_iff s p).1 hs with hnone | ⟨k, m, hm, rfl, hout⟩
  · rw [List.getElem?_replicate] at hnone
    split at hnone
    · cases hnone
    · cases hnone
  · exact ⟨m, by simpa using hm, hout⟩

theorem Placement.wired : Wired {s | producers[s]? = some none} (placed.map PlacedNode.step) := by
  refine ⟨?_, ?_, ?_, ?_⟩
  · rw [List.pairwise_map]
    refine h.consecutive.pairwise.imp fun {m n} hle s hm hn => ?_
    have h1 := PlacedNode.mem_inputs.1 hm
    have h2 := PlacedNode.mem_inputs.1 hn
    omega
  · rw [List.pairwise_map]
    exact h.regens_disjoint
  · intro n hn s hs
    obtain ⟨node, hnode, rfl⟩ := List.mem_map.1 hn
    intro hinit
    exact ((h.stored_iff s).1 hinit).2 node hnode hs
  · intro done n rest hsplit s hs
    have hlen : done.length < placed.length := by
      have := congrArg List.length hsplit
      simp at this
      omega
    obtain ⟨node, hnode⟩ : ∃ node, placed[done.length]? = some node :=
      ⟨_, List.getElem?_eq_getElem hlen⟩
    have hn : node.step = n := by
      have hget := congrArg (·[done.length]?) hsplit
      simp only [List.getElem?_map, hnode, Option.map_some] at hget
      simpa using hget
    subst hn
    have hin : s ∈ node.inputs := hs
    have htotal : s < producers.length := by
      rw [h.length_eq, List.length_replicate]
      exact lt_of_lt_of_le (PlacedNode.mem_inputs.1 hin).2
        (h.inputs_le (List.mem_of_getElem? hnode))
    cases hprod : producers[s]? with
    | none =>
      rw [List.getElem?_eq_none_iff] at hprod
      omega
    | some producer =>
      cases producer with
      | none => exact Or.inl hprod
      | some p =>
        obtain ⟨m, hm, hout⟩ := h.exists_producer hprod
        have hlt := h.producer_lt hnode hm hin hout
        refine Or.inr ⟨m.step, ?_, hout⟩
        have hget := congrArg (·[p]?) hsplit
        simp only [List.getElem?_map, hm, Option.map_some] at hget
        rw [List.getElem?_append_left hlt] at hget
        exact List.mem_of_getElem? hget.symm

end placement

/-! ## Runs -/

section run

variable {α : Type} {codec : PlacedNode → List α → Except ErrorCode (List (Option α))}

theorem getNodeInputs_ok {slots : Nat → Option α} : ∀ {ins : List Nat},
    (∀ s ∈ ins, (slots s).isSome) → ∃ as, getNodeInputs slots ins = .ok as
  | [], _ => ⟨[], rfl⟩
  | s :: ins, h => by
    obtain ⟨as, has⟩ := getNodeInputs_ok fun t ht => h t (List.mem_cons_of_mem _ ht)
    obtain ⟨a, ha⟩ := Option.isSome_iff_exists.1 (h s (by simp))
    refine ⟨as ++ [a], ?_⟩
    rw [getNodeInputs, has, ok_bind, ha]

theorem checkRegens_ok {slots : Nat → Option α} : ∀ {outs : List Nat},
    (∀ s ∈ outs, ¬ (slots s).isSome) → checkRegens slots outs = .ok ()
  | [], _ => rfl
  | s :: outs, h => by
    rw [checkRegens, if_neg (h s (by simp))]
    exact checkRegens_ok fun t ht => h t (List.mem_cons_of_mem _ ht)

theorem writeRegens_result : ∀ {outs : List Nat} {vals : List (Option α)}
    {slots : Nat → Option α} {r : Except RunFault (Nat → Option α)},
    writeRegens outs vals slots = r →
    (∃ e, r = .error (.code e)) ∨ ∃ slots', r = .ok slots' ∧
      ∀ s, (slots' s).isSome ↔ (slots s).isSome ∨ s ∈ outs
  | [], vals, slots, r, h => by
    subst h
    exact Or.inr ⟨slots, rfl, by simp⟩
  | s :: outs, some a :: vals, slots, r, h => by
    rw [writeRegens] at h
    rcases writeRegens_result h with he | ⟨slots', hr, hs⟩
    · exact Or.inl he
    · refine Or.inr ⟨slots', hr, fun t => ?_⟩
      rw [hs t]
      by_cases hts : t = s
      · simp [hts]
      · simp [hts]
  | _ :: _, none :: _, _, r, h => by
    subst h
    exact Or.inl ⟨_, rfl⟩
  | _ :: _, [], _, r, h => by
    subst h
    exact Or.inl ⟨_, rfl⟩

theorem runDecoder_result {slots : Nat → Option α} {r : Except RunFault (Nat → Option α)}
    (hin : ∀ s ∈ node.inputs, (slots s).isSome) (hout : ∀ s ∈ node.regens, ¬ (slots s).isSome)
    (h : runDecoder codec node slots = r) :
    (∃ e, r = .error (.code e)) ∨ ∃ slots', r = .ok slots' ∧
      {s | (slots' s).isSome} = node.step.next {s | (slots s).isSome} := by
  obtain ⟨as, has⟩ := getNodeInputs_ok hin
  rw [runDecoder, has, ok_bind, checkRegens_ok hout, ok_bind] at h
  cases hc : codec node as with
  | error e =>
    rw [hc] at h
    exact Or.inl ⟨e, h.symm⟩
  | ok vals =>
    rw [hc] at h
    change (writeRegens node.regens vals slots >>= _) = r at h
    rcases writeRegens_result (r := writeRegens node.regens vals slots) rfl with
      ⟨e, he⟩ | ⟨slots', hw, hs⟩
    · rw [he] at h
      exact Or.inl ⟨e, h.symm⟩
    · rw [hw] at h
      refine Or.inr ⟨freeInputs node slots', h.symm, ?_⟩
      ext s
      simp only [freeInputs, Set.mem_ofPred_eq, Step.next, PlacedNode.step, PlacedNode.mem_inputs]
      split
      · rename_i hmem
        simp [hmem]
      · rename_i hmem
        simp [hmem, hs s]

theorem runDecoders_noFault : ∀ {nodes : List PlacedNode} {slots : Nat → Option α}
    {fault : RunFault}, ReadyOrder {s | (slots s).isSome} (nodes.map PlacedNode.step) →
    runDecoders codec nodes slots = .error fault → ∃ e, fault = .code e
  | [], _, _, _, h => by cases h
  | node :: nodes, slots, fault, ⟨hin, hout, hready⟩, h => by
    rw [runDecoders] at h
    rcases runDecoder_result hin hout (Eq.refl (runDecoder codec node slots)) with
      ⟨e, he⟩ | ⟨slots', hok, hnext⟩
    · rw [he] at h
      exact ⟨e, (Except.error.inj h).symm⟩
    · rw [hok] at h
      rw [← hnext] at hready
      exact runDecoders_noFault hready h

end run

/-! ## Accepted chunks -/

theorem assignStored_ok : ∀ {producers : List (Option Nat)} {sizes left : List Nat}
    {src : List UInt8} {data : List (Option (List UInt8))},
    assignStored producers sizes src = .ok (data, left) →
    data.length = producers.length ∧
      ∀ s : Nat, (∃ bytes, data[s]? = some (some bytes)) ↔ producers[s]? = some none
  | [], sizes, left, src, data, h => by
    obtain ⟨rfl, -⟩ := Prod.mk.inj (Except.ok.inj h)
    simp
  | some p :: producers, sizes, left, src, data, h => by
    obtain ⟨⟨data', left'⟩, hrec, h⟩ := bind_eq_ok.1 h
    obtain ⟨rfl, rfl⟩ := Prod.mk.inj (pure_eq_ok.1 h)
    obtain ⟨hlen, hdata⟩ := assignStored_ok hrec
    refine ⟨by simp [hlen], fun s => ?_⟩
    cases s with
    | zero => simp
    | succ s => simpa using hdata s
  | none :: producers, [], left, src, data, h => by cases h
  | none :: producers, size :: sizes, left, src, data, h => by
    obtain ⟨⟨data', left'⟩, hrec, h⟩ := bind_eq_ok.1 h
    obtain ⟨rfl, rfl⟩ := Prod.mk.inj (pure_eq_ok.1 h)
    obtain ⟨hlen, hdata⟩ := assignStored_ok hrec
    refine ⟨by simp [hlen], fun s => ?_⟩
    cases s with
    | zero => simp
    | succ s => simpa using hdata s

theorem fillStoredStreams_ok {v nbOutputs startPos : Nat} {header : ChunkHeader} {src : List UInt8}
    {cs : ChunkStreams} (h : fillStoredStreams registry v nbOutputs header src startPos = .ok cs) :
    let total := header.storedStreamSizes.length + header.nbRegens
    total ≤ runtimeStreamLimit v ∧
      placeNodes registry v nbOutputs header.nodes 0 0 (List.replicate total none) =
        .ok (cs.nodes, cs.producers) ∧
      assignStored cs.producers header.storedStreamSizes
        (src.drop (startPos + header.totalTHSize)) = .ok (cs.data, []) ∧
      cs.streamsSize = header.totalTHSize + header.storedStreamSizes.sum ∧
      startPos + cs.streamsSize ≤ src.length := by
  unfold fillStoredStreams at h
  obtain ⟨_, -, h⟩ := bind_eq_ok.1 h
  obtain ⟨_, hlimit, h⟩ := bind_eq_ok.1 h
  obtain ⟨⟨nodes, producers⟩, hplace, h⟩ := bind_eq_ok.1 h
  obtain ⟨⟨data, left⟩, hassign, h⟩ := bind_eq_ok.1 h
  obtain ⟨_, hleft, h⟩ := bind_eq_ok.1 h
  obtain ⟨_, -, h⟩ := bind_eq_ok.1 h
  obtain ⟨_, hsize, h⟩ := bind_eq_ok.1 h
  obtain rfl := pure_eq_ok.1 h
  have hleft : left = [] := not_not.1 (failWhen_eq_ok.1 hleft)
  have hsize := failWhen_eq_ok.1 hsize
  rw [hleft] at hassign
  refine ⟨Nat.le_of_not_lt (failWhen_eq_ok.1 hlimit), hplace, hassign, rfl, ?_⟩
  simp only
  omega

/-- The slots of the stream table when `runDecoders` starts. -/
def ChunkStreams.slots (cs : ChunkStreams) (s : Nat) : Option (List UInt8) := cs.data[s]?.join

/-- An accepted chunk: the node inputs tile the start of the stream table, every stream has one
origin, and running the nodes in order never finds an input missing or an output present. -/
structure Executable (registry : Registry) (v : Nat) (cs : ChunkStreams) : Prop where
  /-- The number of inputs is the codec's, and ranges are consecutive and inside the table. -/
  ranges : ∀ (t : Nat) (node : PlacedNode), cs.nodes[t]? = some node →
    (∃ dt, registry node.info.trpid v = .ok dt ∧
      node.numInputStreams = dt.nbSOs + node.info.nbVOs) ∧
    node.inputStreamBaseIdx = ((cs.nodes.take t).map (·.numInputStreams)).sum ∧
    node.inputStreamBaseIdx + node.numInputStreams ≤ cs.data.length
  /-- A stream is stored, or regenerated once by exactly one node. -/
  origin : ∀ s < cs.data.length,
    (∃ bytes, cs.data[s]? = some (some bytes)) ∧ (∀ node ∈ cs.nodes, s ∉ node.regens) ∨
    cs.data[s]? = some none ∧
      ∃! t : Nat, ∃ node : PlacedNode, cs.nodes[t]? = some node ∧ node.regens.count s = 1
  /-- Regenerated streams are in the table. -/
  regens_lt : ∀ node ∈ cs.nodes, ∀ s ∈ node.regens, s < cs.data.length
  producer_before : ∀ (t p : Nat) (node m : PlacedNode) (s : Nat), cs.nodes[t]? = some node →
    cs.nodes[p]? = some m → s ∈ node.inputs → s ∈ m.regens → p < t
  no_self_input : ∀ node ∈ cs.nodes, ∀ s ∈ node.regens, s ∉ node.inputs
  /-- The only faults of a run are error codes. -/
  run : ∀ (codec : PlacedNode → List (List UInt8) → Except ErrorCode (List (Option (List UInt8))))
    (fault : RunFault), runDecoders codec cs.nodes cs.slots = .error fault → ∃ e, fault = .code e

theorem executable_of_fill {v nbOutputs startPos : Nat} {header : ChunkHeader} {src : List UInt8}
    {cs : ChunkStreams} (hnodes : ∀ node ∈ header.nodes,
      node.nbVOs < 2 ^ 32 ∧ node.regenDistances.length = node.nbRegens)
    (h : fillStoredStreams registry v nbOutputs header src startPos = .ok cs) :
    Executable registry v cs := by
  obtain ⟨htotal, hplace, hassign, -, -⟩ := fillStoredStreams_ok h
  set total := header.storedStreamSizes.length + header.nbRegens
  have hlimit := runtimeStreamLimit_le v
  have hp := placeNodes_spec (by rw [List.length_replicate]; omega) (Nat.zero_le _) hnodes hplace
  obtain ⟨hlen, hdata⟩ := assignStored_ok hassign
  rw [hp.length_eq, List.length_replicate] at hlen
  have hslots : {s | (cs.slots s).isSome} = {s | cs.producers[s]? = some none} := by
    ext s
    rw [Set.mem_ofPred_eq, Set.mem_ofPred_eq, ← hdata s, ChunkStreams.slots,
      Option.isSome_iff_exists]
    simp [Option.join_eq_some_iff]
  refine ⟨?_, ?_, ?_, ?_, ?_, ?_⟩
  · intro t node ht
    have hmem := List.mem_of_getElem? ht
    refine ⟨hp.inputs node hmem, ?_, ?_⟩
    · rw [hp.consecutive.base_eq ht, Nat.zero_add]
    · rw [hlen]
      exact hp.inputs_le hmem
  · intro s hs
    have hs' : s < cs.producers.length := by
      rw [hp.length_eq, List.length_replicate]
      omega
    cases hprod : cs.producers[s]? with
    | none =>
      rw [List.getElem?_eq_none_iff] at hprod
      omega
    | some producer =>
      cases producer with
      | none => exact Or.inl ⟨(hdata s).2 hprod, ((hp.stored_iff s).1 hprod).2⟩
      | some p =>
        obtain ⟨m, hm, hout⟩ := hp.exists_producer hprod
        refine Or.inr ⟨?_, p, ⟨m, hm, ?_⟩, ?_⟩
        · cases hslot : cs.data[s]? with
          | none =>
            rw [List.getElem?_eq_none_iff] at hslot
            omega
          | some slot =>
            cases slot with
            | none => rfl
            | some bytes =>
              rw [(hdata s).1 ⟨bytes, hslot⟩] at hprod
              cases hprod
        · exact List.count_eq_one_of_mem (hp.regens_nodup m (List.mem_of_getElem? hm)) hout
        · rintro q ⟨n, hn, hcount⟩
          have hmem : s ∈ n.regens := List.count_pos_iff.1 (by omega)
          have hq := (hp.produced_iff s q).2 (Or.inr ⟨q, n, hn, by omega, hmem⟩)
          rw [hprod] at hq
          simpa using hq.symm
  · intro node hnode s hs
    have := hp.regens_lt node hnode s hs
    rw [List.length_replicate] at this
    omega
  · intro t p node m s ht hm hin hout
    exact hp.producer_lt ht hm hin hout
  · intro node hnode s hs hin
    have h1 := hp.le_regen hnode hs
    have h2 := (PlacedNode.mem_inputs.1 hin).2
    omega
  · intro codec fault hrun
    refine runDecoders_noFault ?_ hrun
    rw [hslots]
    exact hp.wired.readyOrder

/-- **Accepted chunks are executable in order**, whatever the bytes they come from. -/
theorem acceptedChunk_executable {registry : Registry} {v nbOutputs startPos : Nat}
    {properties : FrameProperties} {cSrc rest src : List UInt8} {header : ChunkHeader}
    {cs : ChunkStreams} (hh : decodeChunkHeader v properties cSrc = .ok (header, rest))
    (hf : fillStoredStreams registry v nbOutputs header src startPos = .ok cs) :
    Executable registry v cs :=
  executable_of_fill (decodeChunkHeader_nodes hh) hf

/-- A chunk of version 20 with two codecs and two stored streams: the second codec reads what
the first one regenerates, and the other stored stream. -/
def twoNodesChunk : List UInt8 :=
  [2, 2, 0, 0, 67, 1, 1, 1, 0, 0, 0, 3, 1, 7, 8, 1, 2, 3, 4]

/-- A registry in which codec 5 has two inputs, every other one input; all have one output. -/
def joinRegistry : Registry := fun trpid _ =>
  if trpid.trid = 5 then .ok ⟨2, 0, 1, false, by decide⟩ else .ok ⟨1, 0, 1, false, by decide⟩

def twoNodesHeader : ChunkHeader where
  properties := ⟨false, false, false, false⟩
  storedStreamSizes := [3, 1]
  nodes := [⟨⟨.standard, 3⟩, 0, 2, 0, 1, [0], DICT_INDEX_NONE⟩,
    ⟨⟨.standard, 5⟩, 2, 0, 0, 1, [0], DICT_INDEX_NONE⟩]
  nbRegens := 2
  totalTHSize := 2

def twoNodesStreams : ChunkStreams where
  nodes := [⟨⟨⟨.standard, 3⟩, 0, 2, 0, 1, [0], DICT_INDEX_NONE⟩, 0, 1⟩,
    ⟨⟨⟨.standard, 5⟩, 2, 0, 0, 1, [0], DICT_INDEX_NONE⟩, 1, 2⟩]
  producers := [none, some 0, none, some 1]
  data := [some [1, 2, 3], none, some [4], none]
  thstream := [7, 8]
  streamsSize := 6

theorem acceptedChunk_executable_twoNodes :
    decodeChunkHeader 20 ⟨false, false, false, false⟩ twoNodesChunk =
        .ok (twoNodesHeader, [7, 8, 1, 2, 3, 4]) ∧
      fillStoredStreams joinRegistry 20 1 twoNodesHeader twoNodesChunk 13 =
        .ok twoNodesStreams ∧
      Executable joinRegistry 20 twoNodesStreams := by
  have hh : decodeChunkHeader 20 ⟨false, false, false, false⟩ twoNodesChunk =
      .ok (twoNodesHeader, [7, 8, 1, 2, 3, 4]) := by decide +kernel
  have hf : fillStoredStreams joinRegistry 20 1 twoNodesHeader twoNodesChunk 13 =
      .ok twoNodesStreams := by decide +kernel
  exact ⟨hh, hf, acceptedChunk_executable hh hf⟩

end OpenZL.Decompress
