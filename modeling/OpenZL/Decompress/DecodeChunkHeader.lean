import OpenZL.Codecs.BitpackKernel
import OpenZL.Codecs.DispatchByTag
import OpenZL.Common.WireFormat
import OpenZL.Shared.Varint

/-!
# Reading a chunk header (`decode_frameheader.c`)

`decodeChunkHeader_internal` reads the lanes back and rebuilds one record per decoder.

Principal results: `decodeChunkHeader_local`, `decodeChunkHeader_nodes`.
-/

namespace OpenZL.Decompress

open OpenZL.Lib OpenZL.Codecs OpenZL.Codecs.Bitpack OpenZL.Shared

/-- `DFH_NodeInfo`, as filled by the header decoder; `regenDistances` is this node's part of the
vector of distances. -/
structure NodeInfo where
  trpid : PublicTransformInfo
  trhStart : Nat
  trhSize : Nat
  nbVOs : Nat
  nbRegens : Nat
  regenDistances : List Nat
  dictIdx : Nat
  deriving DecidableEq, Repr

/-- The part of `DFH_Struct` filled by the chunk header decoder. -/
structure ChunkHeader where
  properties : FrameProperties
  storedStreamSizes : List Nat
  nodes : List NodeInfo
  nbRegens : Nat
  totalTHSize : Nat
  deriving DecidableEq, Repr

/-- `checkedBitpackDecode8`: the kernel sees everything that is left of the source. -/
def checkedBitpackDecode8 (nbElts nbBits : Nat) : Parser ErrorCode (List Nat) := fun src =>
  if nbBits > 8 then .error .GENERIC
  else if bitpackEncodeBound nbElts nbBits > src.length then .error .internalBuffer_tooSmall
  else .ok (bitpackDecode8 nbElts src nbBits, src.drop (bitpackEncodeBound nbElts nbBits))

/-- `checkedBitpackDecode32`. -/
def checkedBitpackDecode32 (nbElts nbBits : Nat) : Parser ErrorCode (List Nat) := fun src =>
  if nbBits > 32 then .error .GENERIC
  else if bitpackEncodeBound nbElts nbBits > src.length then .error .internalBuffer_tooSmall
  else .ok (bitpackDecode32 nbElts src nbBits, src.drop (bitpackEncodeBound nbElts nbBits))

/-- `decompressTrt`. -/
def decompressTrt (nbFlags : Nat) : Parser ErrorCode (List Nat) :=
  checkedBitpackDecode8 nbFlags 1

/-- One custom codec ID. -/
def popCustomID : Parser ErrorCode Nat := do
  let trid64 ← varintDecode
  Parser.failIf (trid64 > UINT32_MAX) .corruption
  return trid64

/-- `decompressTrID`: the histogram of the tags gives the number of IDs of each kind. -/
def decompressTrID (trt8 : List Nat) (formatVersion : Nat) : Parser ErrorCode (List Nat) := do
  if trt8.length = 0 then return []
  let snodeids ← checkedBitpackDecode32 (trt8.count 0) (StandardTransformID_numBits formatVersion)
  let cnodeids ← Parser.many (trt8.count 1) popCustomID
  let srcs := fun tag => if tag = 0 then snodeids else cnodeids
  match dispatchByTagDecode srcs trt8 with
  | some ids => return ids
  | none => throw .corruption

/-- The common shape of the count lanes: one bit per entry, then a varint for each set bit. -/
def decompressCounts (nbTransforms dflt : Nat) (value : Nat → Parser ErrorCode Nat) :
    Parser ErrorCode (List Nat) := do
  let flags ← checkedBitpackDecode32 nbTransforms 1
  flags.mapM fun flag =>
    if flag ≠ 0 then do
      let v ← varintDecode
      value v
    else pure dflt

/-- `decompressTrHSize`. -/
def decompressTrHSize (nbTransforms : Nat) : Parser ErrorCode (List Nat) :=
  decompressCounts nbTransforms 0 fun trhSize64 => do
    Parser.failIf (trhSize64 ≥ UINT32_MAX - 1) .corruption
    return (trhSize64 % 2 ^ 32 + 1) % 2 ^ 32

/-- `decompressNbVOs`. -/
def decompressNbVOs (nbTransforms : Nat) : Parser ErrorCode (List Nat) :=
  decompressCounts nbTransforms 0 fun nbVOsMinus1 =>
    return (nbVOsMinus1 % 2 ^ 32 + 1) % 2 ^ 32

/-- `decompressNbRegens`. -/
def decompressNbRegens (nbTransforms formatVersion : Nat) : Parser ErrorCode (List Nat) :=
  decompressCounts nbTransforms 1 fun nbRegensMinus2 => do
    let nbRegens := (nbRegensMinus2 % 2 ^ 32 + 2) % 2 ^ 32
    Parser.failIf (nbRegens > runtimeNodeInputLimit formatVersion) .corruption
    return nbRegens

/-- The merge loop of `decompressDictIdxs`: values replace the set flags in order. -/
def mergeDictIdxs : List Nat → List Nat → Except ErrorCode (List Nat)
  | [], _ => .ok []
  | flag :: flags, values =>
    if flag ≠ 0 then
      match values with
      | [] => .error .corruption
      | value :: values =>
        if value > MAX_DICTS_PER_BUNDLE then .error .corruption
        else (mergeDictIdxs flags values).map (value :: ·)
    else (mergeDictIdxs flags values).map (DICT_INDEX_NONE :: ·)

/-- `decompressDictIdxs`. -/
def decompressDictIdxs (nbTransforms : Nat) : Parser ErrorCode (List Nat) := do
  let flags ← checkedBitpackDecode32 nbTransforms 1
  let nbNonZero := flags.countP (· ≠ 0)
  if nbNonZero > 0 then
    let nbBits ← Parser.popByte .srcSize_tooSmall
    Parser.failIf (nbBits.toNat > 16) .corruption
    let values ← checkedBitpackDecode32 nbNonZero nbBits.toNat
    match mergeDictIdxs flags values with
    | .ok dictIdxs => return dictIdxs
    | .error e => throw e
  else return flags.map fun _ => DICT_INDEX_NONE

/-- `decompress_regenStreamID_distances`. -/
def decompressRegenStreamIDDistances (nbGenStreams nbStoredStreams : Nat) :
    Parser ErrorCode (List Nat) :=
  checkedBitpackDecode32 nbGenStreams (nextPow2 (nbGenStreams + nbStoredStreams))

/-- One stored stream size. -/
def popStrSize : Parser ErrorCode Nat := do
  let streamSize64 ← varintDecode
  Parser.failIf (streamSize64 ≥ UINT32_MAX) .corruption
  return streamSize64

/-- `decompressStrSizes`. -/
def decompressStrSizes (nbStreams : Nat) : Parser ErrorCode (List Nat) := do
  let avail ← Parser.avail
  Parser.failIf (avail < nbStreams) .corruption
  Parser.many nbStreams popStrSize

/-- The counts that open the header. -/
def decodeChunkCounts (formatVersion : Nat) : Parser ErrorCode (Nat × Nat) :=
  if formatVersion < 9 then do
    let nbDecoders ← Parser.popByte .srcSize_tooSmall
    let nbStoredStreams ← Parser.popByte .srcSize_tooSmall
    return (nbDecoders.toNat, nbStoredStreams.toNat)
  else do
    let nbDecoders ← varintDecode
    if formatVersion ≥ CHUNK_VERSION_MIN then
      Parser.failIf (nbDecoders = 0) .corruption
      let nbStoredStreams ← varintDecode
      return (nbDecoders - 1, nbStoredStreams)
    else
      let nbStoredStreams ← varintDecode
      return (nbDecoders, nbStoredStreams)

/-- The checksum flags of versions 4 to 20; later versions keep those of the frame header. -/
def decodeChunkFlags (formatVersion : Nat) (properties : FrameProperties) :
    Parser ErrorCode FrameProperties :=
  if 4 ≤ formatVersion ∧ formatVersion < CHUNK_VERSION_MIN then do
    let flags ← Parser.popByte .srcSize_tooSmall
    return { properties with
      hasContentChecksum := flags.toNat &&& 1 ≠ 0
      hasCompressedChecksum := flags.toNat &&& 2 ≠ 0 }
  else pure properties

/-- The codec type a decoded bit stands for. -/
def trtOfFlag (flag : Nat) : TransformType := if flag = 0 then .standard else .custom

/-- The variable outputs of every node: none before version 8. -/
def decodeNbVOs (formatVersion nbDecoders : Nat) : Parser ErrorCode (List Nat) :=
  if formatVersion ≥ 8 then decompressNbVOs nbDecoders else pure (List.replicate nbDecoders 0)

/-- The regenerated streams of every node: a single one before version 16. -/
def decodeNbRegens (formatVersion nbDecoders : Nat) : Parser ErrorCode (List Nat) :=
  if formatVersion ≥ 16 then decompressNbRegens nbDecoders formatVersion
  else pure (List.replicate nbDecoders 1)

/-- The dictionary of every node, when a bundle is declared. -/
def decodeDictIdxs (formatVersion : Nat) (properties : FrameProperties) (nbDecoders : Nat) :
    Parser ErrorCode (List Nat) :=
  if formatVersion ≥ MATERIALIZED_DICT_VERSION_MIN ∧ properties.hasBundleID then
    decompressDictIdxs nbDecoders
  else pure (List.replicate nbDecoders DICT_INDEX_NONE)

/-- The arrays `decodeChunkHeader_internal` fills before it knows the number of distances. -/
structure NodeLanes where
  properties : FrameProperties
  trts : List Nat
  trids : List Nat
  trhSizes : List Nat
  nbVOs : List Nat
  nbRegens : List Nat
  dictIdxs : List Nat

/-- The lanes with one entry per decoder. -/
def decodeNodeLanes (formatVersion : Nat) (properties : FrameProperties) (nbDecoders : Nat) :
    Parser ErrorCode NodeLanes := do
  let properties ← decodeChunkFlags formatVersion properties
  let trts ← decompressTrt nbDecoders
  let trids ← decompressTrID trts formatVersion
  Parser.failIf ((trts.zip trids).any fun (trt, trid) =>
    trt = 0 && trid ≥ StandardTransformID_end) .invalidTransform
  let trhSizes ← decompressTrHSize nbDecoders
  let nbVOs ← decodeNbVOs formatVersion nbDecoders
  let nbRegens ← decodeNbRegens formatVersion nbDecoders
  let dictIdxs ← decodeDictIdxs formatVersion properties nbDecoders
  return { properties, trts, trids, trhSizes, nbVOs, nbRegens, dictIdxs }

/-- The records of the nodes, from the lanes; `trhStart` and the distances advance together. -/
def buildNodes : List Nat → List Nat → List Nat → List Nat → List Nat → List Nat → Nat →
    List Nat → List NodeInfo
  | trt :: trts, trid :: trids, trhSize :: trhSizes, nbVOs :: nbVOss, nbRegens :: nbRegenss,
    dictIdx :: dictIdxs, trhStart, distances =>
    { trpid := ⟨trtOfFlag trt, trid⟩, trhStart, trhSize, nbVOs, nbRegens,
      regenDistances := distances.take nbRegens, dictIdx } ::
      buildNodes trts trids trhSizes nbVOss nbRegenss dictIdxs (trhStart + trhSize)
        (distances.drop nbRegens)
  | _, _, _, _, _, _, _, _ => []

/-- The lanes that depend on the number of regenerated and of stored streams.  The vector of
distances never grows beyond the stream limit of the last version. -/
def decodeStreamLanes (lanes : NodeLanes) (nbStoredStreams : Nat) :
    Parser ErrorCode ChunkHeader := do
  let totalNbRegens := lanes.nbRegens.sum
  Parser.failIf (totalNbRegens > runtimeStreamLimit MAX_FORMAT_VERSION) .allocation
  let distances ← decompressRegenStreamIDDistances totalNbRegens nbStoredStreams
  let storedStreamSizes ← decompressStrSizes nbStoredStreams
  return {
    properties := lanes.properties
    storedStreamSizes
    nodes := buildNodes lanes.trts lanes.trids lanes.trhSizes lanes.nbVOs lanes.nbRegens
      lanes.dictIdxs 0 distances
    nbRegens := totalNbRegens
    totalTHSize := lanes.trhSizes.sum }

/-- `decodeChunkHeader_internal`. -/
def decodeChunkHeader (formatVersion : Nat) (properties : FrameProperties) :
    Parser ErrorCode ChunkHeader := do
  let avail ← Parser.avail
  Parser.failIf (avail < CHUNK_HEADER_SIZE_MIN) .srcSize_tooSmall
  let (nbDecoders, nbStoredStreams) ← decodeChunkCounts formatVersion
  Parser.failIf (nbDecoders ≥ runtimeNodeLimit formatVersion) .temporaryLibraryLimitation
  Parser.failIf (nbStoredStreams ≥ runtimeStreamLimit formatVersion) .temporaryLibraryLimitation
  let lanes ← decodeNodeLanes formatVersion properties nbDecoders
  decodeStreamLanes lanes nbStoredStreams

theorem checkedBitpackDecode8_ok {n w : Nat} {s s' : List UInt8} {vs : List Nat}
    (h : checkedBitpackDecode8 n w s = .ok (vs, s')) :
    w ≤ 8 ∧ bitpackEncodeBound n w ≤ s.length ∧ vs = fields w n (ofLE s) ∧
      s' = s.drop (bitpackEncodeBound n w) := by
  unfold checkedBitpackDecode8 at h
  split at h
  · cases h
  · split at h
    · cases h
    · obtain ⟨rfl, rfl⟩ := Prod.mk.inj (Except.ok.inj h)
      exact ⟨by omega, by omega, bitpackDecode8_spec (by omega), rfl⟩

theorem checkedBitpackDecode32_ok {n w : Nat} {s s' : List UInt8} {vs : List Nat}
    (h : checkedBitpackDecode32 n w s = .ok (vs, s')) :
    w ≤ 32 ∧ bitpackEncodeBound n w ≤ s.length ∧ vs = fields w n (ofLE s) ∧
      s' = s.drop (bitpackEncodeBound n w) := by
  unfold checkedBitpackDecode32 at h
  split at h
  · cases h
  · split at h
    · cases h
    · obtain ⟨rfl, rfl⟩ := Prod.mk.inj (Except.ok.inj h)
      exact ⟨by omega, by omega, bitpackDecode32_spec (by omega), rfl⟩

theorem checkedBitpackDecode8_local (n w : Nat) : Local (checkedBitpackDecode8 n w) := by
  intro s vs s' h
  obtain ⟨hw, hlen, rfl, rfl⟩ := checkedBitpackDecode8_ok h
  refine ⟨List.drop_suffix _ _, fun more => ?_⟩
  unfold checkedBitpackDecode8
  rw [if_neg (by omega), if_neg (by simp; omega), bitpackDecode8_spec hw,
    fields_ofLE_append hlen, List.drop_append_of_le_length hlen]

theorem checkedBitpackDecode32_local (n w : Nat) : Local (checkedBitpackDecode32 n w) := by
  intro s vs s' h
  obtain ⟨hw, hlen, rfl, rfl⟩ := checkedBitpackDecode32_ok h
  refine ⟨List.drop_suffix _ _, fun more => ?_⟩
  unfold checkedBitpackDecode32
  rw [if_neg (by omega), if_neg (by simp; omega), bitpackDecode32_spec hw,
    fields_ofLE_append hlen, List.drop_append_of_le_length hlen]

theorem popCustomID_local : Local popCustomID :=
  varintDecode_local.bind fun _ => (Local.failIf _ _).bind fun _ => Local.pure _

theorem popStrSize_local : Local popStrSize :=
  varintDecode_local.bind fun _ => (Local.failIf _ _).bind fun _ => Local.pure _

theorem decompressTrID_local (trt8 : List Nat) (v : Nat) : Local (decompressTrID trt8 v) := by
  unfold decompressTrID
  split
  · exact Local.pure _
  · refine (checkedBitpackDecode32_local _ _).bind fun snodeids =>
      (Local.many popCustomID_local _).bind fun cnodeids => ?_
    dsimp only
    split
    · exact Local.pure _
    · exact Local.throw _

theorem decompressCounts_local {n dflt : Nat} {value : Nat → Parser ErrorCode Nat}
    (hv : ∀ v, Local (value v)) : Local (decompressCounts n dflt value) :=
  (checkedBitpackDecode32_local _ _).bind fun _ =>
    Local.mapM (fun _ => Local.ite (varintDecode_local.bind hv) (Local.pure _)) _

theorem decompressTrHSize_local (n : Nat) : Local (decompressTrHSize n) :=
  decompressCounts_local fun _ => (Local.failIf _ _).bind fun _ => Local.pure _

theorem decompressNbVOs_local (n : Nat) : Local (decompressNbVOs n) :=
  decompressCounts_local fun _ => Local.pure _

theorem decompressNbRegens_local (n v : Nat) : Local (decompressNbRegens n v) :=
  decompressCounts_local fun _ => (Local.failIf _ _).bind fun _ => Local.pure _

theorem decompressDictIdxs_local (n : Nat) : Local (decompressDictIdxs n) := by
  refine (checkedBitpackDecode32_local _ _).bind fun flags => ?_
  dsimp only
  split
  · refine (Local.popByte _).bind fun nbBits => (Local.failIf _ _).bind fun _ =>
      (checkedBitpackDecode32_local _ _).bind fun values => ?_
    split
    · exact Local.pure _
    · exact Local.throw _
  · exact Local.pure _

theorem decompressStrSizes_local (n : Nat) : Local (decompressStrSizes n) :=
  Local.availCheck n _ (Local.many popStrSize_local n)

theorem decodeChunkCounts_local (v : Nat) : Local (decodeChunkCounts v) := by
  unfold decodeChunkCounts
  split
  · exact (Local.popByte _).bind fun _ => (Local.popByte _).bind fun _ => Local.pure _
  · refine varintDecode_local.bind fun nbDecoders => ?_
    split
    · exact (Local.failIf _ _).bind fun _ => varintDecode_local.bind fun _ => Local.pure _
    · exact varintDecode_local.bind fun _ => Local.pure _

theorem decodeChunkFlags_local (v : Nat) (properties : FrameProperties) :
    Local (decodeChunkFlags v properties) :=
  Local.ite ((Local.popByte _).bind fun _ => Local.pure _) (Local.pure _)

theorem decodeNodeLanes_local (v : Nat) (properties : FrameProperties) (nbDecoders : Nat) :
    Local (decodeNodeLanes v properties nbDecoders) :=
  (decodeChunkFlags_local _ _).bind fun _ =>
  (checkedBitpackDecode8_local _ _).bind fun _ =>
  (decompressTrID_local _ _).bind fun _ =>
  (Local.failIf _ _).bind fun _ =>
  (decompressTrHSize_local _).bind fun _ =>
  (Local.ite (decompressNbVOs_local _) (Local.pure _)).bind fun _ =>
  (Local.ite (decompressNbRegens_local _ _) (Local.pure _)).bind fun _ =>
  (Local.ite (decompressDictIdxs_local _) (Local.pure _)).bind fun _ => Local.pure _

theorem decodeStreamLanes_local (lanes : NodeLanes) (nbStoredStreams : Nat) :
    Local (decodeStreamLanes lanes nbStoredStreams) :=
  (Local.failIf _ _).bind fun _ =>
  (checkedBitpackDecode32_local _ _).bind fun _ =>
  (decompressStrSizes_local _).bind fun _ => Local.pure _

/-- **Locality**: a chunk header is decided by the bytes it consumes. -/
theorem decodeChunkHeader_local (v : Nat) (properties : FrameProperties) :
    Local (decodeChunkHeader v properties) :=
  Local.availCheck _ _ <| (decodeChunkCounts_local v).bind fun _ =>
    (Local.failIf _ _).bind fun _ => (Local.failIf _ _).bind fun _ =>
      (decodeNodeLanes_local _ _ _).bind fun _ => decodeStreamLanes_local _ _

theorem decodeNbVOs_lt {v n : Nat} {s s' : List UInt8} {nbVOs : List Nat}
    (h : decodeNbVOs v n s = .ok (nbVOs, s')) : ∀ x ∈ nbVOs, x < 2 ^ 32 := by
  unfold decodeNbVOs at h
  split at h
  · obtain ⟨flags, s₁, -, h⟩ := run_bind_eq_ok.1 h
    refine forall_of_mapM (fun flag s a s' ha => ?_) h
    split at ha
    · obtain ⟨x, _, -, ha⟩ := run_bind_eq_ok.1 ha
      obtain ⟨rfl, -⟩ := run_pure_eq_ok.1 ha
      exact Nat.mod_lt _ (by norm_num)
    · obtain ⟨rfl, -⟩ := run_pure_eq_ok.1 ha
      norm_num
  · obtain ⟨rfl, -⟩ := run_pure_eq_ok.1 h
    intro x hx
    rw [List.eq_of_mem_replicate hx]
    norm_num

theorem buildNodes_mem : ∀ {trts trids trhSizes nbVOs nbRegens dictIdxs : List Nat}
    {trhStart : Nat} {distances : List Nat}, nbRegens.sum ≤ distances.length →
    ∀ node ∈ buildNodes trts trids trhSizes nbVOs nbRegens dictIdxs trhStart distances,
      node.nbVOs ∈ nbVOs ∧ node.regenDistances.length = node.nbRegens
  | trt :: trts, trid :: trids, trhSize :: trhSizes, v :: nbVOs, n :: nbRegens,
    dictIdx :: dictIdxs, trhStart, distances, hlen => by
    intro node hnode
    rw [List.sum_cons] at hlen
    rw [buildNodes, List.mem_cons] at hnode
    rcases hnode with rfl | hnode
    · exact ⟨by simp, List.length_take_of_le (by omega)⟩
    · obtain ⟨hv, hd⟩ := buildNodes_mem (by rw [List.length_drop]; omega) node hnode
      exact ⟨List.mem_cons_of_mem _ hv, hd⟩
  | [], _, _, _, _, _, _, _, _ => by simp [buildNodes]
  | _ :: _, [], _, _, _, _, _, _, _ => by simp [buildNodes]
  | _ :: _, _ :: _, [], _, _, _, _, _, _ => by simp [buildNodes]
  | _ :: _, _ :: _, _ :: _, [], _, _, _, _, _ => by simp [buildNodes]
  | _ :: _, _ :: _, _ :: _, _ :: _, [], _, _, _, _ => by simp [buildNodes]
  | _ :: _, _ :: _, _ :: _, _ :: _, _ :: _, [], _, _, _ => by simp [buildNodes]

theorem decodeChunkHeader_nodes {v : Nat} {properties : FrameProperties}
    {s s' : List UInt8} {header : ChunkHeader}
    (h : decodeChunkHeader v properties s = .ok (header, s')) :
    ∀ node ∈ header.nodes, node.nbVOs < 2 ^ 32 ∧ node.regenDistances.length = node.nbRegens := by
  obtain ⟨_, _, -, h⟩ := run_bind_eq_ok.1 h
  obtain ⟨_, _, -, h⟩ := run_bind_eq_ok.1 h
  obtain ⟨⟨nbDecoders, nbStoredStreams⟩, _, -, h⟩ := run_bind_eq_ok.1 h
  obtain ⟨_, _, -, h⟩ := run_bind_eq_ok.1 h
  obtain ⟨_, _, -, h⟩ := run_bind_eq_ok.1 h
  obtain ⟨lanes, _, hlanes, h⟩ := run_bind_eq_ok.1 h
  obtain ⟨_, _, -, h⟩ := run_bind_eq_ok.1 h
  obtain ⟨distances, _, hdist, h⟩ := run_bind_eq_ok.1 h
  obtain ⟨sizes, _, -, h⟩ := run_bind_eq_ok.1 h
  obtain ⟨rfl, -⟩ := run_pure_eq_ok.1 h
  obtain ⟨-, -, rfl, -⟩ := checkedBitpackDecode32_ok hdist
  obtain ⟨_, _, -, hlanes⟩ := run_bind_eq_ok.1 hlanes
  obtain ⟨_, _, -, hlanes⟩ := run_bind_eq_ok.1 hlanes
  obtain ⟨_, _, -, hlanes⟩ := run_bind_eq_ok.1 hlanes
  obtain ⟨_, _, -, hlanes⟩ := run_bind_eq_ok.1 hlanes
  obtain ⟨_, _, -, hlanes⟩ := run_bind_eq_ok.1 hlanes
  obtain ⟨nbVOs, _, hvos, hlanes⟩ := run_bind_eq_ok.1 hlanes
  obtain ⟨_, _, -, hlanes⟩ := run_bind_eq_ok.1 hlanes
  obtain ⟨_, _, -, hlanes⟩ := run_bind_eq_ok.1 hlanes
  obtain ⟨rfl, -⟩ := run_pure_eq_ok.1 hlanes
  intro node hnode
  obtain ⟨hmem, hlen⟩ := buildNodes_mem (by rw [length_fields]) node hnode
  exact ⟨decodeNbVOs_lt hvos _ hmem, hlen⟩

end OpenZL.Decompress
