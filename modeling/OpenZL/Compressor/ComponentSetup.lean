import OpenZL.Compressor.Registration
import OpenZL.Lib.Traversal
import OpenZL.Shared.A1cbor

/-!
# Setting up the components of a serialized compressor

Model of the part of `compressor_serialization.c` that turns the decoded maps `nodes` and `graphs`
into registered components. A failed assertion ends the setup.
-/

namespace OpenZL.Compressor.Setup

open Lib NamedTable
open Shared.A1cbor (Item)

/-- `A1C_Pair`. -/
abbrev Pair := Item × Item

/-- `A1C_Map`. -/
abbrev A1C_Map := List Pair

/-- `StringView_initFromA1C`: a character stands for a byte. -/
def StringView (data : List UInt8) : Name := data.map fun b => Char.ofNat b.toNat

/-- What a C function sees of a string: the bytes before the first that is zero. -/
def cstr (name : Name) : Name := name.takeWhile (· ≠ Char.ofNat 0)

/-- `A1C_Item_tryGetString`. -/
def tryGetString : Option Item → Except ErrorCode Name
  | some (.string data) => .ok (StringView data)
  | _ => .error .corruption

/-- `A1C_Item_tryGetMap`. -/
def tryGetMap : Option Item → Except ErrorCode A1C_Map
  | some (.map items) => .ok items
  | _ => .error .corruption

/-- `A1C_Item_tryGetArray`. -/
def tryGetArray : Option Item → Except ErrorCode (List Item)
  | some (.array items) => .ok items
  | _ => .error .corruption

/-- `A1C_Item_tryGetInt64`. -/
def tryGetInt64 : Option Item → Except ErrorCode Int
  | some (.int64 v) => .ok v.toInt
  | _ => .error .corruption

/-- `A1C_Item_tryGetBytes`. -/
def tryGetBytes : Option Item → Except ErrorCode (List UInt8)
  | some (.bytes data) => .ok data
  | _ => .error .corruption

/-- The string of an item that is one. -/
def itemString : Item → Option Name
  | .string data => some (StringView data)
  | _ => none

/-- `A1C_Map_get` with a string as key: the first pair with it. -/
def A1C_Map_get (map : A1C_Map) (key : Name) : Option Pair :=
  map.find? fun pair => decide (itemString pair.1 = some key)

/-- `A1C_Map_get_cstr`. -/
def A1C_Map_get_cstr (map : A1C_Map) (key : Name) : Option Item :=
  (A1C_Map_get map key).map Prod.snd

/-- What ends the setup. -/
inductive Stop where
  /-- a key or a reference cannot be read -/
  | malformed (code : ErrorCode)
  /-- "Compressor component has a dependency cycle." -/
  | cycle
  /-- "Name map mapping exists but materialized component doesn't exist!?" -/
  | dangling
  /-- "dependency on graph component but there is no component by that name" -/
  | missing
  /-- a component is needed that is described and not set up -/
  | notSetUp (code : ErrorCode)
  /-- a second visit that finds prerequisites missing -/
  | revisited
  | allocation
  /-- the parameters or the registration of a component are refused -/
  | refused (code : ErrorCode)
  | outOfFuel
  deriving DecidableEq

/-- An error in what a description refers to. -/
def readable {α : Type} : Except ErrorCode α → Except Stop α
  | .error code => .error (.malformed code)
  | .ok a => .ok a

/-- An error in the rest of a description, or in its registration. -/
def accepted {α : Type} : Except ErrorCode α → Except Stop α
  | .error code => .error (.refused code)
  | .ok a => .ok a

/-- `CompressorDeserializer_NameMap`: a name without a value is a placeholder. -/
structure Names where
  map : NameMap Name
  size : Nat

def Names.empty : Names := ⟨fun _ => none, 0⟩

/-- `CompressorDeserializer_NameMap_insert`: the value under the key afterwards, and whether it is
new.  A full table grows before the key is looked for. -/
def Names.insert (names : Names) (key : Name) (val : Option Name) :
    Except Stop (Names × Option Name × Bool) :=
  if names.size ≥ ZL_ENCODER_GRAPH_LIMIT then .error .allocation
  else
    match names.map key with
    | some old => .ok (names, old, false)
    | none => .ok (⟨Function.update names.map key (some val), names.size + 1⟩, val, true)

/-- Sets the value of a placeholder. -/
def Names.complete (names : Names) (key new : Name) : Except Stop Names :=
  match names.map key with
  | none => .error (.refused .logicError)
  | some _ => .ok ⟨Function.update names.map key (some (some new)), names.size⟩

/-- `ZL_CompressorDeserializer_enqueuePending`. -/
def enqueuePending (pending : List Pair) (pair : Pair) : Except Stop (List Pair) :=
  if pending.length ≥ ZL_ENCODER_GRAPH_LIMIT then .error .allocation else .ok (pair :: pending)

/-- `ZL_CompressorDeserializer_findIfNeedsSetup_generic`: a description, or a component. -/
def findIfNeedsSetup_generic {γ : Type} (find_existing_in_compressor : Name → Option γ)
    (setup_map : A1C_Map) (name_map : Names) (name : Name) :
    Except Stop (Names × (Pair ⊕ γ)) :=
  match name_map.map name with
  | some none => .error .cycle
  | some (some new_name) =>
    match find_existing_in_compressor new_name with
    | none => .error .dangling
    | some id => .ok (name_map, .inr id)
  | none =>
    match A1C_Map_get setup_map name with
    | some pair => .ok (name_map, .inl pair)
    | none =>
      match find_existing_in_compressor name with
      | none => .error .missing
      | some id => do
        let (name_map, _, inserted) ← name_map.insert name (some name)
        failWhen (inserted = false) (.refused .corruption)
        .ok (name_map, .inr id)

/-- The maps of the root; of `mparams` the keys. -/
structure Serialized where
  params : A1C_Map
  nodes : A1C_Map
  graphs : A1C_Map
  mparams : List Name

/-- `ZL_CompressorDeserializer`, without the stack. -/
structure State where
  compressor : ZL_Compressor
  node_names : Names
  graph_names : Names

/-- What `ZL_CompressorDeserializer_tryBuildNode` and its sibling for graphs do: a description whose
name has no value in the table `names` yet is set up; its name gets a placeholder first. -/
def visitNew (names : State → Names) (withNames : State → Names → State)
    (setup : Pair → Name → A1C_Map → Bool → List Pair → State → Except Stop (List Pair × State))
    (pair : Pair) (pending : List Pair) (st : State) : Except Stop (List Pair × State) := do
  let ser_name ← readable (tryGetString (some pair.1))
  let val_map ← readable (tryGetMap (some pair.2))
  let (names', val, inserted) ← (names st).insert ser_name none
  match val with
  | some _ => .ok (pending, st)
  | none => setup pair ser_name val_map inserted pending (withNames st names')

section Lookups

variable (R : Registry) (c : ZL_Compressor)

/-- `ZL_CompressorDeserializer_findIfNeedsSetup_lookupNodeHelper`. -/
def lookupNodeHelper (name : Name) : Option NodeID := NM_getNodeByName R c (cstr name)

/-- `ZL_CompressorDeserializer_findIfNeedsSetup_lookupGraphHelper`. -/
def lookupGraphHelper (name : Name) : Option GraphID := GM_getGraphByName R c (cstr name)

/-- `ZL_CompressorDeserializer_findIfNodeNeedsSetup`. -/
def findIfNodeNeedsSetup (nodes : A1C_Map) (node_names : Names) (node_name : Name) :
    Except Stop (Names × (Pair ⊕ NodeID)) :=
  findIfNeedsSetup_generic (lookupNodeHelper R c) nodes node_names node_name

/-- `ZL_CompressorDeserializer_findIfGraphNeedsSetup`. -/
def findIfGraphNeedsSetup (graphs : A1C_Map) (graph_names : Names) (graph_name : Name) :
    Except Stop (Names × (Pair ⊕ GraphID)) :=
  findIfNeedsSetup_generic (lookupGraphHelper R c) graphs graph_names graph_name

end Lookups

/-- The checks on the id of a parameter. -/
def paramId (key : Int) : Except ErrorCode { id : Int // INT_MIN ≤ id ∧ id ≤ INT_MAX } :=
  if h : key > INT_MAX ∨ key < INT_MIN then .error .nodeParameter_invalidValue
  else .ok ⟨key, Int.not_lt.1 fun hlt => h (.inr hlt), Int.not_lt.1 fun hgt => h (.inl hgt)⟩

/-- The body of the first loop of `ZL_CompressorDeserializer_LocalParams_build`. -/
def buildIntParam (pair : Pair) : Except ErrorCode (Param Int) := do
  let key ← tryGetInt64 (some pair.1)
  let val ← tryGetInt64 (some pair.2)
  let id ← paramId key
  failWhen (val > INT_MAX ∨ val < INT_MIN) .nodeParameter_invalid
  .ok ⟨id.1, val, id.2⟩

/-- The body of its second loop. -/
def buildBlobParam (pair : Pair) : Except ErrorCode (Param (List UInt8)) := do
  let key ← tryGetInt64 (some pair.1)
  let val ← tryGetBytes (some pair.2)
  let id ← paramId key
  .ok ⟨id.1, val, id.2⟩

/-- The pairs of a map that may be absent. -/
def optionalMap : Option Item → Except ErrorCode A1C_Map
  | none => .ok []
  | some item => tryGetMap (some item)

/-- `ZL_CompressorDeserializer_LocalParams_build`. -/
def LocalParams_build (map : A1C_Map) : Except ErrorCode LocalParams := do
  let int_params_map ← optionalMap (A1C_Map_get_cstr map ['i', 'n', 't', 's'])
  let int_params ← int_params_map.mapM buildIntParam
  let blob_params_map ← optionalMap (A1C_Map_get_cstr map ['b', 'l', 'o', 'b', 's'])
  let blob_params ← blob_params_map.mapM buildBlobParam
  .ok ⟨int_params, blob_params, []⟩

/-- `ZL_CompressorDeserializer_LocalParams_lookup`, without its cache. -/
def LocalParams_lookup (params : A1C_Map) (param_set_name : Name) :
    Except ErrorCode LocalParams := do
  let param_set_map ← tryGetMap (A1C_Map_get_cstr params param_set_name)
  LocalParams_build param_set_map

/-- The map or the name of a parameter set. -/
def LocalParams_materialize (params : A1C_Map) : Item → Except ErrorCode LocalParams
  | .map items => LocalParams_build items
  | .string data => LocalParams_lookup params (StringView data)
  | _ => .error .corruption

/-- `ZL_CompressorDeserializer_LocalParams_resolve`. -/
def LocalParams_resolve (params : A1C_Map) (params_value_item : Option Item)
    (base : LocalParams) : Except ErrorCode LocalParams :=
  match params_value_item with
  | none => .ok base
  | some (.null _) => .ok base
  | some item => do
    let materialized ← LocalParams_materialize params item
    .ok { base with
      intParams := materialized.intParams
      copyParams := materialized.copyParams }

def ZL_UNIQUE_ID_SIZE : Nat := 32

/-- The value of a hexadecimal digit. -/
def hexNibble (c : Char) : Except ErrorCode Nat :=
  if '0' ≤ c ∧ c ≤ '9' then .ok (c.toNat - '0'.toNat)
  else if 'a' ≤ c ∧ c ≤ 'f' then .ok (c.toNat - 'a'.toNat + 10)
  else if 'A' ≤ c ∧ c ≤ 'F' then .ok (c.toNat - 'A'.toNat + 10)
  else .error .corruption

/-- The loop of `cs_hexDecodeUniqueID`. -/
def hexBytes : Name → Except ErrorCode (List Nat)
  | hi :: lo :: rest => do
    let nib_hi ← hexNibble hi
    let nib_lo ← hexNibble lo
    let bytes ← hexBytes rest
    .ok ((nib_hi <<< 4 ||| nib_lo) :: bytes)
  | _ => .ok []

/-- `cs_hexDecodeUniqueID`. -/
def hexDecodeUniqueID (sv : Name) : Except ErrorCode (List Nat) := do
  failWhen (sv.length ≠ ZL_UNIQUE_ID_SIZE * 2) .corruption
  hexBytes sv

/-- The field `mparam_id` is absent, or names an entry of the map. -/
def findMParam (mparams : List Name) (val_map : A1C_Map) : Except ErrorCode (Option Name) :=
  match A1C_Map_get_cstr val_map ['m', 'p', 'a', 'r', 'a', 'm', '_', 'i', 'd'] with
  | none => .ok none
  | some item => do
    let key ← tryGetString (some item)
    failWhen (key ∉ mparams) .corruption
    .ok (some key)

/-- The field `dict_id` is absent, or is an id. -/
def readDictID (val_map : A1C_Map) : Except ErrorCode (Option (List Nat)) :=
  match A1C_Map_get_cstr val_map ['d', 'i', 'c', 't', '_', 'i', 'd'] with
  | none => .ok none
  | some item => do
    let key ← tryGetString (some item)
    let id ← hexDecodeUniqueID key
    .ok (some id)

section Build

variable (R : Registry) (doc : Serialized)

/-- The registration of `ZL_CompressorDeserializer_tryBuildNode`, once the base is there; the name
of the new node. -/
def registerNode (ser_name : Name) (val_map : A1C_Map) (c : ZL_Compressor) (base_nid : NodeID) :
    Except ErrorCode (ZL_Compressor × Name) :=
  match NM_getCNode R c base_nid with
  | none => .error .logicError
  | some base => do
    let local_params ← LocalParams_resolve doc.params
      (A1C_Map_get_cstr val_map ['p', 'a', 'r', 'a', 'm', 's']) base.localParams
    let _ ← findMParam doc.mparams val_map
    let _ ← readDictID val_map
    let (c, node_id) ← orIllegal (NM_parameterizeNode R c
      { name := some (cstr (stripNameFragment ser_name))
        node := base_nid
        localParams := some local_params })
    let new_name ← getNodeName R c node_id
    .ok (c, new_name)

/-- `ZL_CompressorDeserializer_tryBuildNode`, on a node that is not set up; `inserted` on the first
visit. -/
def setupNode (pair : Pair) (ser_name : Name) (val_map : A1C_Map) (inserted : Bool)
    (pending : List Pair) (st : State) : Except Stop (List Pair × State) := do
  let base_name ← readable (tryGetString (A1C_Map_get_cstr val_map ['b', 'a', 's', 'e']))
  let (node_names, found) ← findIfNodeNeedsSetup R st.compressor doc.nodes st.node_names base_name
  match found with
  | .inl base_node_setup_item => do
    failWhen (inserted = false) .revisited
    let pending ← enqueuePending pending pair
    let pending ← enqueuePending pending base_node_setup_item
    .ok (pending, { st with node_names := node_names })
  | .inr base_nid => do
    let (c, new_name) ← accepted (registerNode R doc ser_name val_map st.compressor base_nid)
    let node_names ← node_names.complete ser_name new_name
    .ok (pending, { st with compressor := c, node_names := node_names })

/-- `ZL_CompressorDeserializer_tryBuildNode`. -/
def tryBuildNode : Pair → List Pair → State → Except Stop (List Pair × State) :=
  visitNew State.node_names (fun st node_names => { st with node_names := node_names })
    (setupNode R doc)

/-- `read_graph_type`, on an item that may be absent. -/
def read_graph_type (item : Option Item) : Except ErrorCode GraphType := do
  let val ← tryGetString item
  if val = ['s', 't', 'a', 'n', 'd', 'a', 'r', 'd'] then .ok .standard
  else if val = ['s', 't', 'a', 't', 'i', 'c'] then .ok .static
  else if val = ['s', 'e', 'l', 'e', 'c', 't', 'o', 'r'] then .ok .selector
  else if val = ['d', 'y', 'n', 'a', 'm', 'i', 'c'] then .ok .function
  else if val = ['m', 'u', 'l', 't', 'i', '_', 'i', 'n', 'p', 'u', 't'] then .ok .multiInput
  else if val = ['p', 'a', 'r', 'a', 'm', 'e', 't', 'e', 'r', 'i', 'z', 'e', 'd'] then
    .ok .parameterized
  else .error .GENERIC

/-- The first prerequisite that is not there puts the graph itself on the stack. -/
def enqueueThis (this_item : Pair) (unsatisfied_prerequisites : Nat) (pending : List Pair) :
    Except Stop (List Pair) :=
  if unsatisfied_prerequisites = 0 then enqueuePending pending this_item else .ok pending

/-- `ZL_CompressorDeserializer_checkPrerequisiteGraphs`. -/
def checkPrerequisiteGraphs (c : ZL_Compressor) (this_item : Pair) :
    List Item → Names → List Pair → Nat → Except Stop (Names × List Pair × Nat)
  | [], graph_names, pending, unsatisfied => .ok (graph_names, pending, unsatisfied)
  | item :: items, graph_names, pending, unsatisfied => do
    let name ← readable (tryGetString (some item))
    let (graph_names, found) ← findIfGraphNeedsSetup R c doc.graphs graph_names name
    match found with
    | .inl setup_item => do
      let pending ← enqueueThis this_item unsatisfied pending
      let pending ← enqueuePending pending setup_item
      checkPrerequisiteGraphs c this_item items graph_names pending (unsatisfied + 1)
    | .inr _ => checkPrerequisiteGraphs c this_item items graph_names pending unsatisfied

/-- What the registration of a graph changes. -/
structure GraphEnv where
  compressor : ZL_Compressor
  node_names : Names

/-- A node by name; all nodes are set up by now. -/
def findNode (env : GraphEnv) (item : Option Item) : Except Stop (GraphEnv × NodeID) := do
  let name ← readable (tryGetString item)
  let (node_names, found) ←
    findIfNodeNeedsSetup R env.compressor doc.nodes env.node_names name
  match found with
  | .inl _ => .error (.notSetUp .corruption)
  | .inr nid => .ok ({ env with node_names := node_names }, nid)

def findNodes (env : GraphEnv) : List Item → Except Stop (GraphEnv × List NodeID)
  | [] => .ok (env, [])
  | item :: items => do
    let (env, nid) ← findNode R doc env (some item)
    let (env, nids) ← findNodes env items
    .ok (env, nid :: nids)

/-- A prerequisite graph by name; it is in the map by now, which stays as it is. -/
def findGraph (c : ZL_Compressor) (graph_names : Names) (item : Item) :
    Except Stop GraphID := do
  let name ← readable (tryGetString (some item))
  let (_, found) ← findIfGraphNeedsSetup R c doc.graphs graph_names name
  match found with
  | .inl _ => .error (.notSetUp .corruption)
  | .inr gid => .ok gid

/-- The static case of `ZL_CompressorDeserializer_tryBuildGraph`, once the successors are there. -/
def registerStatic (ser_name : Name) (val_map : A1C_Map) (successors : List Item)
    (graph_names : Names) (env : GraphEnv) : Except Stop (GraphEnv × GraphID) := do
  let (env, head_nid) ← findNode R doc env (A1C_Map_get_cstr val_map ['n', 'o', 'd', 'e'])
  match NM_getCNode R env.compressor head_nid with
  | none => .error (.refused .logicError)
  | some head => do
    let local_params ← accepted (LocalParams_resolve doc.params
      (A1C_Map_get_cstr val_map ['p', 'a', 'r', 'a', 'm', 's']) head.localParams)
    let successor_gids ← successors.mapM (findGraph R doc env.compressor graph_names)
    let (c, gid) ← accepted (orIllegal (GM_registerStaticGraph R env.compressor
      { name := some (cstr (stripNameFragment ser_name))
        headNodeid := head_nid
        successor_gids := successor_gids
        localParams := some local_params }))
    .ok ({ env with compressor := c }, gid)

/-- The parameterized case, once the custom graphs and the base are there. -/
def registerParameterized (ser_name : Name) (val_map : A1C_Map) (graphs : List Item)
    (base_item : Item) (graph_names : Names) (env : GraphEnv) :
    Except Stop (GraphEnv × GraphID) := do
  let base_gid ← findGraph R doc env.compressor graph_names base_item
  failWhen (base_gid = SERIAL_STORE) (.refused .corruption)
  match getGraph R env.compressor base_gid with
  | none => .error (.refused .logicError)
  | some base => do
    let local_params ← accepted (LocalParams_resolve doc.params
      (A1C_Map_get_cstr val_map ['p', 'a', 'r', 'a', 'm', 's']) base.migd.localParams)
    let nodes ← readable (tryGetArray (A1C_Map_get_cstr val_map ['n', 'o', 'd', 'e', 's']))
    let (env, nids) ← findNodes R doc env nodes
    let gids ← graphs.mapM (findGraph R doc env.compressor graph_names)
    let _ ← accepted (findMParam doc.mparams val_map)
    let (c, gid) ← accepted (orIllegal (GM_registerParameterizedGraph R env.compressor
      { name := some (cstr (stripNameFragment ser_name))
        graph := base_gid
        customGraphs := gids
        customNodes := nids
        localParams := some local_params }))
    .ok ({ env with compressor := c }, gid)

/-- What follows the registration. -/
def finishGraph (ser_name : Name) (pending : List Pair) (graph_names : Names)
    (env : GraphEnv) (gid : GraphID) : Except Stop (List Pair × State) := do
  let new_name ← accepted (getGraphName R env.compressor gid)
  let graph_names ← graph_names.complete ser_name new_name
  .ok (pending, ⟨env.compressor, env.node_names, graph_names⟩)

/-- The static case of `ZL_CompressorDeserializer_tryBuildGraph`. -/
def setupStatic (pair : Pair) (ser_name : Name) (val_map : A1C_Map) (inserted : Bool)
    (pending : List Pair) (st : State) : Except Stop (List Pair × State) := do
  let successors ← readable (tryGetArray
    (A1C_Map_get_cstr val_map ['s', 'u', 'c', 'c', 'e', 's', 's', 'o', 'r', 's']))
  let (graph_names, pending, unsatisfied_prerequisites) ←
    checkPrerequisiteGraphs R doc st.compressor pair successors st.graph_names pending 0
  if unsatisfied_prerequisites ≠ 0 then do
    failWhen (inserted = false) .revisited
    .ok (pending, { st with graph_names := graph_names })
  else do
    let (env, gid) ← registerStatic R doc ser_name val_map successors graph_names
      ⟨st.compressor, st.node_names⟩
    finishGraph R ser_name pending graph_names env gid

/-- The parameterized case of `ZL_CompressorDeserializer_tryBuildGraph`, from the base on. -/
def setupParameterized (pair : Pair) (ser_name : Name) (val_map : A1C_Map) (inserted : Bool)
    (pending : List Pair) (st : State) : Except Stop (List Pair × State) := do
  let graphs ← readable (tryGetArray
    (A1C_Map_get_cstr val_map ['g', 'r', 'a', 'p', 'h', 's']))
  let (graph_names, pending, unsatisfied) ←
    checkPrerequisiteGraphs R doc st.compressor pair graphs st.graph_names pending 0
  match A1C_Map_get_cstr val_map ['b', 'a', 's', 'e'] with
  | none => .error (.malformed .corruption)
  | some base_item => do
    let (graph_names, pending, unsatisfied) ←
      checkPrerequisiteGraphs R doc st.compressor pair [base_item] graph_names pending unsatisfied
    if unsatisfied ≠ 0 then do
      failWhen (inserted = false) .revisited
      .ok (pending, { st with graph_names := graph_names })
    else do
      let (env, gid) ← registerParameterized R doc ser_name val_map graphs base_item graph_names
        ⟨st.compressor, st.node_names⟩
      finishGraph R ser_name pending graph_names env gid

/-- The cases of `ZL_CompressorDeserializer_tryBuildGraph` by the type of the graph. -/
def setupGraph (pair : Pair) (ser_name : Name) (val_map : A1C_Map) (inserted : Bool)
    (pending : List Pair) (st : State) : Except Stop (List Pair × State) := do
  let graph_type ← readable (read_graph_type (A1C_Map_get_cstr val_map ['t', 'y', 'p', 'e']))
  match graph_type with
  | .static => setupStatic R doc pair ser_name val_map inserted pending st
  | .parameterized => setupParameterized R doc pair ser_name val_map inserted pending st
  | _ => .error (.malformed .corruption)

/-- `ZL_CompressorDeserializer_tryBuildGraph`. -/
def tryBuildGraph : Pair → List Pair → State → Except Stop (List Pair × State) :=
  visitNew State.graph_names (fun st graph_names => { st with graph_names := graph_names })
    (setupGraph R doc)

/-- The body of the loop of `ZL_CompressorDeserializer_dfs`. -/
def visitPair (func : Pair → List Pair → State → Except Stop (List Pair × State)) (cur : Pair)
    (pending : List Pair) (st : State) : Except Stop (List Pair × State) := do
  let _ ← readable (tryGetString (some cur.1))
  func cur pending st

/-- `ZL_CompressorDeserializer_dfs`, for at most `fuel` rounds. -/
def dfs (func : Pair → List Pair → State → Except Stop (List Pair × State)) (fuel : Nat)
    (map : A1C_Map) (st : State) : Except Stop State :=
  traverse (visitPair func) .outOfFuel fuel map [] st

end Build

end OpenZL.Compressor.Setup
