import Mathlib.Logic.Basic
import OpenZL.Compressor.Name
import OpenZL.Lib.NamedTable

/-!
# Compressors

Model of `nodemgr.c`, `cnodes.c`, `graphmgr.c` and of the registration calls of `cgraph.c`. Function
pointers, private parameters and dictionaries are left out: no check made here reads them.
Materialized parameters are left out too, and with them the registrations that are refused because a
materializer is missing or fails. A call whose assertion fails, fails.
-/

namespace OpenZL.Compressor

open Lib NamedTable

def ZL_ENCODER_GRAPH_LIMIT : Nat := 131072

def ZL_ENCODER_CUSTOM_NODE_LIMIT : Nat := 4096

/-- `GCParams`, as set on a compressor. -/
structure GCParams where
  stickyParameters : Bool
  compressionLevel : Int
  decompressionLevel : Int
  formatVersion : Nat
  permissiveCompression : TernaryParam
  compressedChecksum : TernaryParam
  contentChecksum : TernaryParam
  storeOnExpansion : TernaryParam
  minStreamSize : UInt32
  deriving DecidableEq

/-- The parameters of a new compressor: nothing is set. -/
def GCParams.unset : GCParams := ⟨false, 0, 0, 0, .auto, .auto, .auto, .auto, 0⟩

def INT_MIN : Int := -2147483648

def INT_MAX : Int := 2147483647

/-- `ZL_IntParam`, `ZL_CopyParam`, `ZL_RefParam`: a value under an `int` id. -/
structure Param (β : Type) where
  paramId : Int
  value : β
  bounds : INT_MIN ≤ paramId ∧ paramId ≤ INT_MAX
  deriving DecidableEq

/-- What a `ZL_RefParam` holds: a pointer into the caller's memory, and a size. -/
structure Ref where
  paramRef : Nat
  paramSize : Nat
  deriving DecidableEq

/-- `ZL_LocalParams`. -/
structure LocalParams where
  intParams : List (Param Int)
  copyParams : List (Param (List UInt8))
  refParams : List (Param Ref)
  deriving DecidableEq

/-- The empty set, `(ZL_LocalParams){ 0 }`. -/
def LocalParams.none : LocalParams := ⟨[], [], []⟩

/-- A set of stream types, `ZL_Type` as a mask. -/
abbrev TypeMask := Nat

def ZL_Type_serial : TypeMask := 1

def ZL_Type_struct : TypeMask := 2

def ZL_Type_numeric : TypeMask := 4

/-- The nodes an implicit conversion runs. -/
inductive Conversion where
  | NUM_TO_TOKEN
  | TOKEN_TO_SERIAL
  | NUM_TO_SERIAL
  deriving DecidableEq

/-- `ICONV_implicitConversionNodeID`. -/
def ICONV_implicitConversionNodeID (srcType dstType : TypeMask) : Option Conversion :=
  if srcType &&& ZL_Type_numeric ≠ 0 ∧ dstType &&& ZL_Type_struct ≠ 0 then some .NUM_TO_TOKEN
  else if srcType &&& ZL_Type_struct ≠ 0 ∧ dstType &&& ZL_Type_serial ≠ 0 then
    some .TOKEN_TO_SERIAL
  else if srcType &&& ZL_Type_numeric ≠ 0 ∧ dstType &&& ZL_Type_serial ≠ 0 then
    some .NUM_TO_SERIAL
  else none

/-- `ICONV_isCompatible`. -/
def ICONV_isCompatible (origType dstTypes : TypeMask) : Bool :=
  origType &&& dstTypes ≠ 0 || (ICONV_implicitConversionNodeID origType dstTypes).isSome

/-- `ZL_MIGraphDesc`. -/
structure MIGraphDesc where
  inputTypes : List TypeMask
  lastInputIsVariable : Bool
  soTypes : List TypeMask
  voTypes : List TypeMask
  deriving DecidableEq

abbrev NodeID := Nat

abbrev GraphID := Nat

def ZL_NODE_ILLEGAL : NodeID := 0

def ZL_GRAPH_ILLEGAL : GraphID := 0

/-- `ZL_PrivateStandardGraphID_serial_store`. -/
def SERIAL_STORE : GraphID := 1

structure CNode where
  maybeName : ComponentName
  baseNodeID : NodeID
  gd : MIGraphDesc
  localParams : LocalParams
  deriving DecidableEq

/-- `ZL_GraphType`. -/
inductive GraphType where
  | standard
  | static
  | selector
  | function
  | multiInput
  | parameterized
  | segmenter
  deriving DecidableEq

/-- `ZL_FunctionGraphDesc` and `ZL_SegmenterDesc`, but for the name. -/
structure FunctionGraphDesc where
  inputTypeMasks : List TypeMask
  lastInputIsVariable : Bool
  customGraphs : List GraphID
  customNodes : List NodeID
  localParams : LocalParams
  deriving DecidableEq

structure Graph_Desc_internal where
  maybeName : ComponentName
  baseGraphID : GraphID
  originalGraphType : GraphType
  migd : FunctionGraphDesc
  deriving DecidableEq

/-- `ER_standardNodes` and `GR_standardGraphs`; some ids stand for nothing.  A standard graph has
type `standard` or `segmenter`. -/
structure Registry where
  standardNodes : List (Option CNode)
  standardGraphs : List (Option Graph_Desc_internal)

/-- `ZL_Compressor`. -/
structure ZL_Compressor where
  cnodes : List CNode
  gdv : List Graph_Desc_internal
  starting_graph : GraphID
  gcparams : GCParams
  deriving DecidableEq

/-- `ZL_Compressor_create`. -/
def ZL_Compressor_create : ZL_Compressor := ⟨[], [], ZL_GRAPH_ILLEGAL, .unset⟩

def CNode.name (n : CNode) : Name := n.maybeName.unique

def Graph_Desc_internal.name (g : Graph_Desc_internal) : Name := g.maybeName.unique

section Lookups

variable (R : Registry) (c : ZL_Compressor)

/-- All nodes by id. -/
def nodeTable : List (Option CNode) := R.standardNodes ++ c.cnodes.map some

/-- All graphs by id. -/
def graphTable : List (Option Graph_Desc_internal) := R.standardGraphs ++ c.gdv.map some

/-- `NM_getCNode`, on an id that is a node. -/
def NM_getCNode (nid : NodeID) : Option CNode := entry (nodeTable R c) nid

/-- `NM_getCNode` is not null; an id of the library that stands for no node passes. -/
def isKnownNodeID (nid : NodeID) : Prop := nid < (nodeTable R c).length

/-- `GM_isValidGraphID`. -/
def GM_isValidGraphID (gid : GraphID) : Prop :=
  ZL_GRAPH_ILLEGAL < gid ∧ gid < (graphTable R c).length

instance (nid : NodeID) : Decidable (isKnownNodeID R c nid) :=
  inferInstanceAs (Decidable (_ < _))

instance (gid : GraphID) : Decidable (GM_isValidGraphID R c gid) :=
  inferInstanceAs (Decidable (_ ∧ _))

/-- The description `GM_getMultiInputGraphDesc` or `GM_getSegmenterDesc` finds. -/
def getGraph (gid : GraphID) : Option Graph_Desc_internal := entry (graphTable R c) gid

/-- `NM_getNodeByName`: never under the name of an anchor with its mark. -/
def NM_getNodeByName (node : Name) : Option NodeID :=
  if node.head? = some '!' then none else idOf CNode.name (nodeTable R c) node

/-- `GM_getGraphByName`. -/
def GM_getGraphByName (graph : Name) : Option GraphID :=
  if graph.head? = some '!' then none
  else idOf Graph_Desc_internal.name (graphTable R c) graph

/-- `GM_getGraphNbInputs`, `GM_getGraphInput0Mask`: the mask of a graph with one input. -/
def GM_getGraphInput0Mask (gid : GraphID) : Option TypeMask :=
  match getGraph R c gid with
  | some g =>
    match g.migd.inputTypeMasks with
    | [mask] => some mask
    | _ => none
  | none => none

/-- `ZL_Compressor_Node_getName`. -/
def getNodeName (nid : NodeID) : Except ErrorCode Name :=
  match NM_getCNode R c nid with
  | none => .error .GENERIC
  | some n => .ok n.name

/-- `ZL_Compressor_Graph_getName`. -/
def getGraphName (gid : GraphID) : Except ErrorCode Name :=
  match getGraph R c gid with
  | none => .error .GENERIC
  | some g => .ok g.name

end Lookups

/-- `ZL_Compressor_registerParameterizedNode` and its siblings give up the error code. -/
def orIllegal {α : Type} : Except ErrorCode α → Except ErrorCode α
  | .error _ => .error .corruption
  | .ok a => .ok a

/-- `ZL_ParameterizedNodeDesc`. -/
structure ParameterizedNodeDesc where
  name : Option Name
  node : NodeID
  localParams : Option LocalParams

/-- `CTM_registerCNode` and `NM_registerName`. -/
def CTM_registerCNode (R : Registry) (c : ZL_Compressor) (baseNodeID : NodeID) (gd : MIGraphDesc)
    (localParams : LocalParams) (namePrefix : Option Name) :
    Except ErrorCode (ZL_Compressor × NodeID) := do
  let name ← ZL_Name_init namePrefix c.cnodes.length
  failWhen (c.cnodes.length ≥ ZL_ENCODER_CUSTOM_NODE_LIMIT) .temporaryLibraryLimitation
  failWhen (gd.inputTypes.length < 1) .node_invalid_input
  failWhen (gd.inputTypes.length > runtimeNodeInputLimit MAX_FORMAT_VERSION) .node_invalid_input
  failWhen (idOf CNode.name (nodeTable R c) name.unique).isSome .invalidName
  .ok ({ c with cnodes := c.cnodes ++ [⟨name, baseNodeID, gd, localParams⟩] },
    (nodeTable R c).length)

/-- `NM_parameterizeNode` and `CTM_parameterizeNode`. -/
def NM_parameterizeNode (R : Registry) (c : ZL_Compressor) (desc : ParameterizedNodeDesc) :
    Except ErrorCode (ZL_Compressor × NodeID) :=
  match NM_getCNode R c desc.node with
  | none => .error .node_invalid
  | some srcCNode =>
    CTM_registerCNode R c desc.node srcCNode.gd (desc.localParams.getD srcCNode.localParams)
      (some (desc.name.getD srcCNode.maybeName.namePrefix))

/-- `ZL_StaticGraphDesc`. -/
structure StaticGraphDesc where
  name : Option Name
  headNodeid : NodeID
  successor_gids : List GraphID
  localParams : Option LocalParams

/-- `ZL_ParameterizedGraphDesc`. -/
structure ParameterizedGraphDesc where
  name : Option Name
  graph : GraphID
  customGraphs : List GraphID
  customNodes : List NodeID
  localParams : Option LocalParams

/-- The new list, or the old one when the new one is empty. -/
def overrideList (new old : List Nat) : List Nat := if new = [] then old else new

/-- The checks on custom graphs and custom nodes; the illegal graph is allowed, and so is any id of
the library for a node. -/
def validateCustom (R : Registry) (c : ZL_Compressor) (customGraphs : List GraphID)
    (customNodes : List NodeID) : Except ErrorCode Unit := do
  failWhen (∃ gid ∈ customGraphs, gid ≠ ZL_GRAPH_ILLEGAL ∧ ¬GM_isValidGraphID R c gid)
    .graph_invalid
  failWhen (∃ nid ∈ customNodes, ¬isKnownNodeID R c nid) .graph_invalid

/-- `GM_finalizeGraphRegistration`. -/
def GM_finalizeGraphRegistration (R : Registry) (c : ZL_Compressor) (namePrefix : Option Name)
    (baseGraphID : GraphID) (originalGraphType : GraphType) (migd : FunctionGraphDesc) :
    Except ErrorCode (ZL_Compressor × GraphID) := do
  let name ← ZL_Name_init namePrefix c.gdv.length
  failWhen (idOf Graph_Desc_internal.name (graphTable R c) name.unique).isSome .invalidName
  .ok ({ c with gdv := c.gdv ++ [⟨name, baseGraphID, originalGraphType, migd⟩] },
    (graphTable R c).length)

/-- `GM_registerInternalGraph`. -/
def GM_registerInternalGraph (R : Registry) (c : ZL_Compressor) (name : Option Name)
    (migd : FunctionGraphDesc) (originalGraphID : GraphID) (originalGraphType : GraphType) :
    Except ErrorCode (ZL_Compressor × GraphID) := do
  failWhen (c.gdv.length ≥ ZL_ENCODER_GRAPH_LIMIT) .temporaryLibraryLimitation
  validateCustom R c migd.customGraphs migd.customNodes
  GM_finalizeGraphRegistration R c name originalGraphID originalGraphType migd

/-- `GM_registerSegmenter_internal`: a segmenter has no custom nodes. -/
def GM_registerSegmenter_internal (R : Registry) (c : ZL_Compressor) (name : Option Name)
    (segDesc : FunctionGraphDesc) (originalGraphID : GraphID) :
    Except ErrorCode (ZL_Compressor × GraphID) :=
  GM_registerInternalGraph R c name { segDesc with customNodes := [] } originalGraphID .segmenter

/-- A successor takes one input, of a type that `origType` is or converts to. -/
def acceptsType (R : Registry) (c : ZL_Compressor) (origType : TypeMask) (successor : GraphID) :
    Prop :=
  ∃ mask ∈ GM_getGraphInput0Mask R c successor, ICONV_isCompatible origType mask = true

instance (R : Registry) (c : ZL_Compressor) (origType : TypeMask) (successor : GraphID) :
    Decidable (acceptsType R c origType successor) :=
  inferInstanceAs (Decidable (∃ mask ∈ GM_getGraphInput0Mask R c successor,
    ICONV_isCompatible origType mask = true))

/-- `GM_registerStaticGraph`. -/
def GM_registerStaticGraph (R : Registry) (c : ZL_Compressor) (sgDesc : StaticGraphDesc) :
    Except ErrorCode (ZL_Compressor × GraphID) := do
  failWhen (sgDesc.headNodeid = ZL_NODE_ILLEGAL) .graph_invalid
  match NM_getCNode R c sgDesc.headNodeid with
  | none => .error .graph_invalid
  | some cnode =>
    let outcomes := cnode.gd.soTypes ++ cnode.gd.voTypes
    failWhen (outcomes.length ≠ sgDesc.successor_gids.length) .graph_invalid
    failWhen (∃ outcome ∈ outcomes.zip sgDesc.successor_gids,
      outcome.2 = ZL_GRAPH_ILLEGAL ∨ ¬acceptsType R c outcome.1 outcome.2) .graph_invalid
    GM_registerInternalGraph R c sgDesc.name
      { inputTypeMasks := cnode.gd.inputTypes
        lastInputIsVariable := cnode.gd.lastInputIsVariable
        customGraphs := sgDesc.successor_gids
        customNodes := [sgDesc.headNodeid]
        localParams := sgDesc.localParams.getD .none } ZL_GRAPH_ILLEGAL .static

/-- `GM_registerParameterizedGraph`: what is not given is taken from the base. -/
def GM_registerParameterizedGraph (R : Registry) (c : ZL_Compressor)
    (desc : ParameterizedGraphDesc) : Except ErrorCode (ZL_Compressor × GraphID) :=
  match getGraph R c desc.graph with
  | none => .error .graph_invalid
  | some base =>
    let name := some (desc.name.getD base.maybeName.namePrefix)
    let migd := { base.migd with
      customGraphs := overrideList desc.customGraphs base.migd.customGraphs
      localParams := desc.localParams.getD base.migd.localParams }
    if base.originalGraphType = .segmenter then
      GM_registerSegmenter_internal R c name migd desc.graph
    else
      GM_registerInternalGraph R c name
        { migd with customNodes := overrideList desc.customNodes base.migd.customNodes }
        desc.graph .parameterized

section Calls

variable {R : Registry} {c c' : ZL_Compressor}

theorem nodeTable_concat (n : CNode) :
    nodeTable R { c with cnodes := c.cnodes ++ [n] } = nodeTable R c ++ [some n] := by
  simp [nodeTable]

theorem graphTable_concat (g : Graph_Desc_internal) :
    graphTable R { c with gdv := c.gdv ++ [g] } = graphTable R c ++ [some g] := by
  simp [graphTable]

theorem CTM_registerCNode_ok {base nid : NodeID} {gd : MIGraphDesc} {lp : LocalParams}
    {p : Option Name} (h : CTM_registerCNode R c base gd lp p = .ok (c', nid)) :
    ∃ name, ZL_Name_init p c.cnodes.length = .ok name ∧
      c' = { c with cnodes := c.cnodes ++ [⟨name, base, gd, lp⟩] } ∧
      nid = (nodeTable R c).length ∧ idOf CNode.name (nodeTable R c) name.unique = none ∧
      1 ≤ gd.inputTypes.length ∧
      gd.inputTypes.length ≤ runtimeNodeInputLimit MAX_FORMAT_VERSION := by
  obtain ⟨name, hname, h⟩ := bind_eq_ok.1 h
  obtain ⟨_, _, h⟩ := bind_eq_ok.1 h
  obtain ⟨_, hmin, h⟩ := bind_eq_ok.1 h
  obtain ⟨_, hmax, h⟩ := bind_eq_ok.1 h
  obtain ⟨_, hfresh, h⟩ := bind_eq_ok.1 h
  cases h
  exact ⟨name, hname, rfl, rfl, by simpa using failWhen_eq_ok.1 hfresh,
    Nat.not_lt.1 (failWhen_eq_ok.1 hmin), Nat.not_lt.1 (failWhen_eq_ok.1 hmax)⟩

theorem NM_parameterizeNode_ok {desc : ParameterizedNodeDesc} {nid : NodeID}
    (h : NM_parameterizeNode R c desc = .ok (c', nid)) :
    ∃ src, NM_getCNode R c desc.node = some src ∧
      CTM_registerCNode R c desc.node src.gd (desc.localParams.getD src.localParams)
        (some (desc.name.getD src.maybeName.namePrefix)) = .ok (c', nid) := by
  unfold NM_parameterizeNode at h
  split at h
  · cases h
  · exact ⟨_, ‹_›, h⟩

theorem validateCustom_ok {gids : List GraphID} {nids : List NodeID} {u : Unit}
    (h : validateCustom R c gids nids = .ok u) :
    (∀ gid ∈ gids, gid ≠ ZL_GRAPH_ILLEGAL → GM_isValidGraphID R c gid) ∧
      ∀ nid ∈ nids, isKnownNodeID R c nid := by
  obtain ⟨_, hg, h⟩ := bind_eq_ok.1 h
  have hg := failWhen_eq_ok.1 hg
  have hn := failWhen_eq_ok.1 h
  constructor
  · intro gid hmem hne
    by_contra hnot
    exact hg ⟨gid, hmem, hne, hnot⟩
  · intro nid hmem
    by_contra hnot
    exact hn ⟨nid, hmem, hnot⟩

theorem GM_registerInternalGraph_ok {p : Option Name} {migd : FunctionGraphDesc}
    {base gid : GraphID} {type : GraphType}
    (h : GM_registerInternalGraph R c p migd base type = .ok (c', gid)) :
    ∃ name, ZL_Name_init p c.gdv.length = .ok name ∧
      c' = { c with gdv := c.gdv ++ [⟨name, base, type, migd⟩] } ∧
      gid = (graphTable R c).length ∧
      idOf Graph_Desc_internal.name (graphTable R c) name.unique = none ∧
      (∀ gid ∈ migd.customGraphs, gid ≠ ZL_GRAPH_ILLEGAL → GM_isValidGraphID R c gid) ∧
      ∀ nid ∈ migd.customNodes, isKnownNodeID R c nid := by
  obtain ⟨_, _, h⟩ := bind_eq_ok.1 h
  obtain ⟨_, hcustom, h⟩ := bind_eq_ok.1 h
  obtain ⟨hgraphs, hnodes⟩ := validateCustom_ok hcustom
  obtain ⟨name, hname, h⟩ := bind_eq_ok.1 h
  obtain ⟨_, hfresh, h⟩ := bind_eq_ok.1 h
  cases h
  exact ⟨name, hname, rfl, rfl, by simpa using failWhen_eq_ok.1 hfresh, hgraphs, hnodes⟩

theorem GM_registerStaticGraph_ok {sgDesc : StaticGraphDesc} {gid : GraphID}
    (h : GM_registerStaticGraph R c sgDesc = .ok (c', gid)) :
    ∃ cnode, NM_getCNode R c sgDesc.headNodeid = some cnode ∧
      (cnode.gd.soTypes ++ cnode.gd.voTypes).length = sgDesc.successor_gids.length ∧
      (∀ outcome ∈ (cnode.gd.soTypes ++ cnode.gd.voTypes).zip sgDesc.successor_gids,
        outcome.2 ≠ ZL_GRAPH_ILLEGAL ∧ acceptsType R c outcome.1 outcome.2) ∧
      GM_registerInternalGraph R c sgDesc.name
        { inputTypeMasks := cnode.gd.inputTypes
          lastInputIsVariable := cnode.gd.lastInputIsVariable
          customGraphs := sgDesc.successor_gids
          customNodes := [sgDesc.headNodeid]
          localParams := sgDesc.localParams.getD .none } ZL_GRAPH_ILLEGAL .static =
        .ok (c', gid) := by
  obtain ⟨_, _, h⟩ := bind_eq_ok.1 h
  split at h
  · cases h
  · rename_i cnode hnode
    obtain ⟨_, hlen, h⟩ := bind_eq_ok.1 h
    obtain ⟨_, htypes, h⟩ := bind_eq_ok.1 h
    refine ⟨cnode, hnode, not_not.1 (failWhen_eq_ok.1 hlen), ?_, h⟩
    intro outcome hmem
    constructor
    · intro hill
      exact failWhen_eq_ok.1 htypes ⟨outcome, hmem, .inl hill⟩
    · by_contra hnot
      exact failWhen_eq_ok.1 htypes ⟨outcome, hmem, .inr hnot⟩

theorem GM_registerParameterizedGraph_ok {desc : ParameterizedGraphDesc} {gid : GraphID}
    (h : GM_registerParameterizedGraph R c desc = .ok (c', gid)) :
    ∃ base, getGraph R c desc.graph = some base ∧
      GM_registerInternalGraph R c (some (desc.name.getD base.maybeName.namePrefix))
        { base.migd with
          customGraphs := overrideList desc.customGraphs base.migd.customGraphs
          customNodes := if base.originalGraphType = .segmenter then []
            else overrideList desc.customNodes base.migd.customNodes
          localParams := desc.localParams.getD base.migd.localParams }
        desc.graph
        (if base.originalGraphType = .segmenter then .segmenter else .parameterized) =
        .ok (c', gid) := by
  unfold GM_registerParameterizedGraph at h
  split at h
  · cases h
  · rename_i base hbase
    refine ⟨base, hbase, ?_⟩
    dsimp only at h
    split at h
    · rename_i hseg
      rw [if_pos hseg, if_pos hseg]
      exact h
    · rename_i hseg
      rw [if_neg hseg, if_neg hseg]
      exact h

end Calls

end OpenZL.Compressor
