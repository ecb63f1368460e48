import OpenZL.Compress.EncodeChunkHeader
import OpenZL.Decompress.DecodeChunkHeader

/-!
# Chunk headers: the decoder reads what the encoder writes

Each lane is read back by its own decoder; the header is their concatenation.

Principal results: `checkedBitpackDecode32_reads`, `decompressCounts_reads`, `decompressTrID_reads`,
`decompressDictIdxs_reads`, `decodeChunkHeader_written`, `decodeChunkHeader_tooManyRegens`.
-/

namespace OpenZL.Wire

open OpenZL.Lib OpenZL.Codecs OpenZL.Codecs.Bitpack OpenZL.Shared OpenZL.Compress
open OpenZL.Decompress

theorem checkedBitpackDecode8_reads {vs : List Nat} {w : Nat} (hw : w ≤ 8)
    (hvs : ∀ v ∈ vs, v < 2 ^ w) :
    Reads (checkedBitpackDecode8 vs.length w) (bitpackEncode8 vs w) vs := by
  intro rest
  have hlen : (bitpackEncode8 vs w).length = bitpackEncodeBound vs.length w := by
    rw [bitpackEncode8_spec hw hvs, length_toLE]
  unfold checkedBitpackDecode8
  rw [if_neg (by omega), if_neg (by simp [hlen]), ← hlen, List.drop_left, bitpackDecode8_spec hw,
    bitpackEncode8_spec hw hvs, fields_ofLE_packed hvs]

theorem checkedBitpackDecode32_reads {vs : List Nat} {w : Nat} (hw : w ≤ 32)
    (hvs : ∀ v ∈ vs, v < 2 ^ w) :
    Reads (checkedBitpackDecode32 vs.length w) (bitpackEncode32 vs w) vs := by
  intro rest
  have hlen : (bitpackEncode32 vs w).length = bitpackEncodeBound vs.length w := by
    rw [bitpackEncode32_spec hw hvs, length_toLE]
  unfold checkedBitpackDecode32
  rw [if_neg (by omega), if_neg (by simp [hlen]), ← hlen, List.drop_left, bitpackDecode32_spec hw,
    bitpackEncode32_spec hw hvs, fields_ofLE_packed hvs]

theorem flags_reads {ι : Type} (xs : List ι) (p : ι → Bool) :
    Reads (checkedBitpackDecode32 xs.length 1)
      (bitpackEncode32 (xs.map fun x => if p x then 1 else 0) 1)
      (xs.map fun x => if p x then 1 else 0) := by
  have hbits : ∀ v ∈ xs.map fun x => if p x then 1 else 0, v < 2 ^ 1 := by
    intro v hv
    obtain ⟨x, -, rfl⟩ := List.mem_map.1 hv
    split <;> norm_num
  have h := checkedBitpackDecode32_reads (by norm_num) hbits
  rwa [List.length_map] at h

theorem flatMap_filter {ι β : Type} (xs : List ι) (p : ι → Bool) (f : ι → List β) :
    (xs.filter p).flatMap f = xs.flatMap fun x => if p x then f x else [] := by
  induction xs with
  | nil => rfl
  | cons x xs ih =>
    rw [List.filter_cons, List.flatMap_cons]
    split
    · rw [List.flatMap_cons, ih]
    · rw [ih, List.nil_append]

theorem decompressCounts_reads {counts : List Nat} {base dflt : Nat}
    {value : Nat → Parser ErrorCode Nat}
    (hlow : ∀ n ∈ counts, n ≤ base → n = dflt)
    (hhigh : ∀ n ∈ counts, base < n → n < 2 ^ 64 ∧ Reads (value (n - (base + 1))) [] n) :
    Reads (decompressCounts counts.length dflt value) (compressCounts base counts) counts := by
  unfold decompressCounts compressCounts
  have hflags := flags_reads counts fun n => decide (n > base)
  simp only [decide_eq_true_eq] at hflags
  rw [flatMap_filter]
  refine hflags.bind ?_
  have hmap : counts = counts.map id := (List.map_id _).symm
  conv => arg 3; rw [hmap]
  refine Reads.mapM fun n hn => ?_
  by_cases hb : n > base
  · obtain ⟨hlt, hval⟩ := hhigh n hn hb
    simp only [hb, if_true, decide_true]
    rw [if_pos (by norm_num)]
    exact (varintDecode_reads (by omega)).bind_pure hval
  · have hd := hlow n hn (by omega)
    simp only [hb, if_false, decide_false, id]
    rw [if_neg (by norm_num), if_neg (by norm_num), hd]
    exact Reads.pure dflt

theorem decompressTrHSize_reads {sizes : List Nat} (h : ∀ n ∈ sizes, n < UINT32_MAX) :
    Reads (decompressTrHSize sizes.length) (compressTrHSize sizes) sizes := by
  refine decompressCounts_reads (fun n _ hn => by omega) fun n hn hpos => ?_
  have hlt := h n hn
  unfold UINT32_MAX at hlt
  refine ⟨by omega, (Reads.failIf (by unfold UINT32_MAX; omega)).bind_nil ?_⟩
  have hval : ((n - (0 + 1)) % 2 ^ 32 + 1) % 2 ^ 32 = n := by omega
  rw [hval]
  exact Reads.pure n

theorem decompressNbVOs_reads {counts : List Nat} (h : ∀ n ∈ counts, n < 2 ^ 32) :
    Reads (decompressNbVOs counts.length) (compressNbVOs counts) counts := by
  refine decompressCounts_reads (fun n _ hn => by omega) fun n hn hpos => ?_
  have hlt := h n hn
  have hval : ((n - (0 + 1)) % 2 ^ 32 + 1) % 2 ^ 32 = n := by omega
  rw [hval]
  exact ⟨by omega, Reads.pure n⟩

theorem decompressNbRegens_reads {counts : List Nat} {v : Nat}
    (h : ∀ n ∈ counts, 1 ≤ n ∧ n ≤ runtimeNodeInputLimit v) :
    Reads (decompressNbRegens counts.length v) (compressNumInputs counts) counts := by
  refine decompressCounts_reads (fun n hn hle => ?_) fun n hn hgt => ?_
  · have := (h n hn).1
    omega
  · have hle := (h n hn).2
    have hlim := runtimeNodeInputLimit_le v
    have hval : ((n - (1 + 1)) % 2 ^ 32 + 2) % 2 ^ 32 = n := by omega
    refine ⟨by omega, ?_⟩
    rw [hval]
    exact (Reads.failIf (by omega)).bind_nil (Reads.pure n)

theorem popCustomID_reads {trid : Nat} (h : trid < 2 ^ 32) :
    Reads popCustomID (varintEncode trid) trid :=
  (varintDecode_reads (by omega)).bind_pure <|
    (Reads.failIf (by unfold UINT32_MAX; omega)).bind_nil (Reads.pure _)

theorem many_varint_reads {p : Parser ErrorCode Nat} {xs : List Nat}
    (h : ∀ x ∈ xs, Reads p (varintEncode x) x) :
    Reads (Parser.many xs.length p) (xs.flatMap varintEncode) xs := by
  have hm := Reads.many (w := varintEncode) (a := id) h
  rwa [List.map_id] at hm

theorem decompressTrID_reads {trids tags : List Nat} {v : Nat} (hlen : trids.length = tags.length)
    (htags : ∀ t ∈ tags, t = 0 ∨ t = 1)
    (hstd : ∀ trid, (trid, 0) ∈ trids.zip tags → trid < 2 ^ StandardTransformID_numBits v)
    (hcus : ∀ trid, (trid, 1) ∈ trids.zip tags → trid < 2 ^ 32) :
    Reads (decompressTrID tags v) (compressTrID trids tags v) trids := by
  unfold decompressTrID compressTrID
  rw [hlen]
  split
  · rename_i h0
    have hnil : trids = [] := List.length_eq_zero_iff.1 (by omega)
    rw [hnil]
    exact Reads.pure []
  · have hs : Reads (checkedBitpackDecode32 (tags.count 0) (StandardTransformID_numBits v))
        (bitpackEncode32 (dispatchByTagEncode trids tags 0) (StandardTransformID_numBits v))
        (dispatchByTagEncode trids tags 0) := by
      rw [← length_dispatchByTagEncode 0 hlen]
      have hw := StandardTransformID_numBits_le v
      exact checkedBitpackDecode32_reads (by omega) fun x hx => hstd x (mem_dispatchByTagEncode hx)
    have hc : Reads (Parser.many (tags.count 1) popCustomID)
        ((dispatchByTagEncode trids tags 1).flatMap varintEncode)
        (dispatchByTagEncode trids tags 1) := by
      rw [← length_dispatchByTagEncode 1 hlen]
      exact many_varint_reads fun x hx =>
        popCustomID_reads (hcus x (mem_dispatchByTagEncode hx))
    have hdec : dispatchByTagDecode (fun tag => if tag = 0 then dispatchByTagEncode trids tags 0
        else dispatchByTagEncode trids tags 1) tags = some trids := by
      rw [dispatchByTagDecode_congr fun t ht => ?_]
      · exact dispatchByTagDecode_encode hlen
      · rcases htags t ht with rfl | rfl <;> simp
    refine hs.bind (hc.bind_pure ?_)
    simp only [hdec]
    exact Reads.pure trids

/-! ### Dictionary indices -/

theorem le_foldl_max {xs : List Nat} {x : Nat} (m : Nat) (h : x ∈ xs ∨ x ≤ m) :
    x ≤ xs.foldl max m := by
  induction xs generalizing m with
  | nil => simpa using h
  | cons y ys ih =>
    rw [List.foldl_cons]
    apply ih
    rcases h with h | h
    · rcases List.mem_cons.1 h with rfl | h
      · exact Or.inr (by omega)
      · exact Or.inl h
    · exact Or.inr (by omega)

theorem foldl_max_le {xs : List Nat} {m b : Nat} (hm : m ≤ b) (h : ∀ x ∈ xs, x ≤ b) :
    xs.foldl max m ≤ b := by
  induction xs generalizing m with
  | nil => simpa using hm
  | cons y ys ih =>
    have hy := h y (by simp)
    exact ih (by omega) fun x hx => h x (by simp [hx])

theorem mergeDictIdxs_flags {dictIdxs : List Nat}
    (h : ∀ i ∈ dictIdxs, i = DICT_INDEX_NONE ∨ i ≤ MAX_DICTS_PER_BUNDLE) :
    mergeDictIdxs (dictIdxs.map fun i => if decide (i ≠ DICT_INDEX_NONE) then 1 else 0)
      (dictIdxs.filter (· ≠ DICT_INDEX_NONE)) = .ok dictIdxs := by
  induction dictIdxs with
  | nil => rfl
  | cons i is ih =>
    have ih := ih fun j hj => h j (by simp [hj])
    rw [List.map_cons, List.filter_cons]
    by_cases hi : i = DICT_INDEX_NONE
    · simp only [hi, ne_eq, not_true_eq_false, decide_false, if_false, Bool.false_eq_true,
        mergeDictIdxs] at ih ⊢
      rw [ih]
      rfl
    · have hle : ¬ i > MAX_DICTS_PER_BUNDLE := by
        rcases h i (by simp) with h | h
        · exact absurd h hi
        · omega
      simp only [hi, ne_eq, not_false_eq_true, decide_true, if_true, one_ne_zero, hle,
        if_false, mergeDictIdxs] at ih ⊢
      rw [ih]
      rfl

theorem decompressDictIdxs_reads {dictIdxs : List Nat}
    (h : ∀ i ∈ dictIdxs, i = DICT_INDEX_NONE ∨ i ≤ MAX_DICTS_PER_BUNDLE) :
    Reads (decompressDictIdxs dictIdxs.length) (compressDictIdxs dictIdxs) dictIdxs := by
  have hflags := flags_reads dictIdxs fun i => decide (i ≠ DICT_INDEX_NONE)
  have hcount : (dictIdxs.map fun i => if decide (i ≠ DICT_INDEX_NONE) then 1 else 0).countP
      (fun f => decide (f ≠ 0)) = (dictIdxs.filter (· ≠ DICT_INDEX_NONE)).length := by
    rw [List.countP_map, ← List.countP_eq_length_filter]
    apply List.countP_congr
    intro i _
    by_cases hi : i = DICT_INDEX_NONE <;> simp [hi]
  have hmerge := mergeDictIdxs_flags h
  unfold decompressDictIdxs compressDictIdxs
  simp only [decide_eq_true_eq] at hflags hcount hmerge ⊢
  split
  · rename_i hpos
    refine hflags.bind ?_
    simp only [hcount, hpos, if_true]
    generalize hvals : dictIdxs.filter (· ≠ DICT_INDEX_NONE) = values at hpos hmerge ⊢
    have hle : ∀ x ∈ values, x ≤ MAX_DICTS_PER_BUNDLE := by
      intro x hx
      rw [← hvals] at hx
      obtain ⟨hmem, hne⟩ := List.mem_filter.1 hx
      rcases h x hmem with h | h
      · simp [h] at hne
      · exact h
    have hmax : values.foldl max 0 ≤ MAX_DICTS_PER_BUNDLE := foldl_max_le (Nat.zero_le _) hle
    have hbits : nextPow2 (values.foldl max 0 + 1) ≤ 16 := by
      apply nextPow2_le
      unfold MAX_DICTS_PER_BUNDLE at hmax
      omega
    have hbyte : (UInt8.ofNat (nextPow2 (values.foldl max 0 + 1))).toNat =
        nextPow2 (values.foldl max 0 + 1) := by
      rw [UInt8.toNat_ofNat']
      omega
    have hlt : ∀ x ∈ values, x < 2 ^ nextPow2 (values.foldl max 0 + 1) := by
      intro x hx
      have h1 := le_foldl_max 0 (Or.inl hx)
      have h2 := le_two_pow_nextPow2 (values.foldl max 0 + 1)
      omega
    refine (Reads.popByte _ _).bind ?_
    rw [hbyte]
    refine (Reads.failIf (by omega)).bind_nil ?_
    refine (checkedBitpackDecode32_reads (by omega) hlt).bind_pure ?_
    rw [hmerge]
    exact Reads.pure dictIdxs
  · rename_i hpos
    refine hflags.bind_pure ?_
    simp only [hcount, hpos, if_false]
    have hall : ∀ i ∈ dictIdxs, i = DICT_INDEX_NONE := by
      intro i hi
      by_contra hne
      have hmem : i ∈ dictIdxs.filter (· ≠ DICT_INDEX_NONE) :=
        List.mem_filter.2 ⟨hi, by simpa using hne⟩
      exact hpos (List.length_pos_of_mem hmem)
    have hmap : (dictIdxs.map fun i => if i ≠ DICT_INDEX_NONE then 1 else 0).map
        (fun _ => DICT_INDEX_NONE) = dictIdxs := by
      rw [List.map_map]
      conv_rhs => rw [← List.map_id dictIdxs]
      exact List.map_congr_left fun i hi => (hall i hi).symm
    rw [hmap]
    exact Reads.pure dictIdxs

/-! ### Distances and sizes -/

theorem popStrSize_reads {n : Nat} (h : n < UINT32_MAX) :
    Reads popStrSize (varintEncode n) n := by
  unfold UINT32_MAX at h
  exact (varintDecode_reads (by omega)).bind_pure <|
    (Reads.failIf (by unfold UINT32_MAX; omega)).bind_nil (Reads.pure _)

theorem varintEncodeLoop_pos (k v : Nat) : 0 < (varintEncodeLoop k v).length := by
  cases k with
  | zero => simp [varintEncodeLoop]
  | succ k =>
    rw [varintEncodeLoop]
    split <;> simp

theorem length_le_flatMap_varint (xs : List Nat) :
    xs.length ≤ (xs.flatMap varintEncode).length := by
  induction xs with
  | nil => simp
  | cons x xs ih =>
    have := varintEncodeLoop_pos 9 x
    rw [List.flatMap_cons, List.length_append, List.length_cons]
    unfold varintEncode at *
    omega

theorem decompressStrSizes_reads {sizes : List Nat} (h : ∀ n ∈ sizes, n < UINT32_MAX) :
    Reads (decompressStrSizes sizes.length) (compressStrSizes sizes) sizes :=
  (many_varint_reads fun n hn => popStrSize_reads (h n hn)).availCheck
    (length_le_flatMap_varint sizes)

theorem decompressDistances_reads {distances : List Nat} {nbStored : Nat}
    (hsize : distances.length + nbStored ≤ 2 ^ 32)
    (h : ∀ d ∈ distances, d < distances.length + nbStored) :
    Reads (decompressRegenStreamIDDistances distances.length nbStored)
      (compressStreamDistances distances distances.length nbStored) distances :=
  checkedBitpackDecode32_reads (nextPow2_le hsize) fun d hd =>
    (h d hd).trans_le (le_two_pow_nextPow2 _)

/-- The graphs `writeChunkHeaderV8_internal` is called on: the ranges its lanes rely on (and
that it asserts), version by version. -/
structure WellFormed (v : Nat) (fprop : FrameProperties) (gip : GraphInfo) : Prop where
  standard_lt : ∀ t ∈ gip.transforms, t.trInfo.trt = .standard →
    t.trInfo.trid < 2 ^ StandardTransformID_numBits v
  custom_lt : ∀ t ∈ gip.transforms, t.trInfo.trt = .custom → t.trInfo.trid < 2 ^ 32
  trHSize_lt : ∀ t ∈ gip.transforms, t.trHSize < UINT32_MAX
  nbVOs_lt : ∀ t ∈ gip.transforms, t.nbVOs < 2 ^ 32
  one_le_nbTrInputs : ∀ t ∈ gip.transforms, 1 ≤ t.nbTrInputs
  nbTrInputs_le : ∀ t ∈ gip.transforms, t.nbTrInputs ≤ runtimeNodeInputLimit v
  nbDistances_eq : gip.nbDistances = (gip.transforms.map (·.nbTrInputs)).sum
  dictIdx_le : v ≥ MATERIALIZED_DICT_VERSION_MIN → fprop.hasBundleID = true →
    ∀ t ∈ gip.transforms, t.dictIdx = DICT_INDEX_NONE ∨ t.dictIdx ≤ MAX_DICTS_PER_BUNDLE
  distances_range : ∀ d ∈ gip.distances, 1 ≤ d ∧ d ≤ gip.nbDistances + gip.nbStoredBuffs - 1
  storedBuffs_lt : ∀ b ∈ gip.storedBuffs.tail, b.length < UINT32_MAX

/-- The node list of a graph as the decoder describes it; `keepDict` tells whether dictionary
indices are transmitted. -/
def regenNodes (keepDict : Bool) : List TransformDesc → Nat → List Nat → List NodeInfo
  | [], _, _ => []
  | t :: ts, trhStart, distances =>
    { trpid := t.trInfo
      trhStart
      trhSize := t.trHSize
      nbVOs := t.nbVOs
      nbRegens := t.nbTrInputs
      regenDistances := (distances.take t.nbTrInputs).map (· - 1)
      dictIdx := if keepDict then t.dictIdx else DICT_INDEX_NONE } ::
    regenNodes keepDict ts (trhStart + t.trHSize) (distances.drop t.nbTrInputs)

/-- Whether dictionary indices are part of a chunk header. -/
def hasDictLane (v : Nat) (fprop : FrameProperties) : Bool :=
  decide (v ≥ MATERIALIZED_DICT_VERSION_MIN) && fprop.hasBundleID

/-- The properties after the chunk header: its flags before version 21, unchanged afterwards. -/
def decodedProperties (v : Nat) (fprop properties : FrameProperties) : FrameProperties :=
  if v < CHUNK_VERSION_MIN then
    { properties with
      hasContentChecksum := fprop.hasContentChecksum
      hasCompressedChecksum := fprop.hasCompressedChecksum }
  else properties

/-- The chunk header of a graph as the decoder describes it. -/
def decodedChunkHeader (v : Nat) (fprop properties : FrameProperties) (gip : GraphInfo) :
    ChunkHeader where
  properties := decodedProperties v fprop properties
  storedStreamSizes := gip.storedBuffs.tail.map (·.length)
  nodes := regenNodes (hasDictLane v fprop) gip.transforms 0 gip.distances
  nbRegens := gip.nbDistances
  totalTHSize := (gip.transforms.map (·.trHSize)).sum

theorem decodeChunkCounts_reads {v nbCodecs nbBuffs : Nat} (hc : nbCodecs < runtimeNodeLimit v)
    (hb : nbBuffs - 1 < runtimeStreamLimit v) :
    Reads (decodeChunkCounts v) (chunkCounts v nbCodecs nbBuffs) (nbCodecs, nbBuffs - 1) := by
  have hc' := runtimeNodeLimit_le v
  have hb' := runtimeStreamLimit_le v
  unfold decodeChunkCounts chunkCounts
  split
  · rename_i hv
    have hc8 : runtimeNodeLimit v = 256 := by simp [runtimeNodeLimit, hv]
    have hb8 : runtimeStreamLimit v = 256 := by simp [runtimeStreamLimit, hv]
    have h1 : (UInt8.ofNat nbCodecs).toNat = nbCodecs := by
      rw [UInt8.toNat_ofNat']
      omega
    have h2 : (UInt8.ofNat (nbBuffs - 1)).toNat = nbBuffs - 1 := by
      rw [UInt8.toNat_ofNat']
      omega
    refine (Reads.popByte _ (UInt8.ofNat nbCodecs)).bind
      ((Reads.popByte _ (UInt8.ofNat (nbBuffs - 1))).bind_pure ?_)
    rw [h1, h2]
    exact Reads.pure _
  · split
    · refine (varintDecode_reads (by omega)).bind ?_
      refine (Reads.failIf (by omega)).bind_nil ?_
      exact (varintDecode_reads (by omega)).bind_pure (Reads.pure _)
    · refine (varintDecode_reads (by omega)).bind ?_
      exact (varintDecode_reads (by omega)).bind_pure (Reads.pure _)

theorem decodeChunkFlags_reads {v : Nat} (hv : 8 ≤ v) (fprop properties : FrameProperties) :
    Reads (decodeChunkFlags v properties) (chunkFlags v fprop)
      (decodedProperties v fprop properties) := by
  unfold decodeChunkFlags chunkFlags decodedProperties
  by_cases hc : v < CHUNK_VERSION_MIN
  · simp only [hc, and_true, show 4 ≤ v by omega, if_true]
    refine (Reads.popByte _ _).bind_pure ?_
    have hbits : ∀ content compressed : Bool,
        (decide ((UInt8.ofNat ((if content then 1 else 0) |||
          (if compressed then 2 else 0))).toNat &&& 1 ≠ 0) = content) ∧
        (decide ((UInt8.ofNat ((if content then 1 else 0) |||
          (if compressed then 2 else 0))).toNat &&& 2 ≠ 0) = compressed) := by
      decide
    obtain ⟨h1, h2⟩ := hbits fprop.hasContentChecksum fprop.hasCompressedChecksum
    rw [h1, h2]
    exact Reads.pure _
  · simp only [hc, and_false, if_false]
    exact Reads.pure _

theorem trtOfFlag_toNat (trt : TransformType) : trtOfFlag trt.toNat = trt := by
  cases trt <;> rfl

theorem buildNodes_lanes (keepDict : Bool) (ts : List TransformDesc) (trhStart : Nat)
    (distances : List Nat) :
    buildNodes (ts.map (·.trInfo.trt.toNat)) (ts.map (·.trInfo.trid)) (ts.map (·.trHSize))
      (ts.map (·.nbVOs)) (ts.map (·.nbTrInputs))
      (ts.map fun t => if keepDict then t.dictIdx else DICT_INDEX_NONE) trhStart
      (distances.map (· - 1)) = regenNodes keepDict ts trhStart distances := by
  induction ts generalizing trhStart distances with
  | nil => rfl
  | cons t ts ih =>
    simp only [List.map_cons, buildNodes, regenNodes, trtOfFlag_toNat, ← List.map_take,
      ← List.map_drop, ih]

/-- The arrays the decoder fills from the lanes of a graph. -/
def nodeLanesOf (v : Nat) (fprop properties : FrameProperties) (ts : List TransformDesc) :
    NodeLanes where
  properties := decodedProperties v fprop properties
  trts := ts.map (·.trInfo.trt.toNat)
  trids := ts.map (·.trInfo.trid)
  trhSizes := ts.map (·.trHSize)
  nbVOs := ts.map (·.nbVOs)
  nbRegens := ts.map (·.nbTrInputs)
  dictIdxs := ts.map fun t => if hasDictLane v fprop then t.dictIdx else DICT_INDEX_NONE

theorem map_mod_eq {ts : List TransformDesc} {f : TransformDesc → Nat} {m : Nat}
    (h : ∀ t ∈ ts, f t < m) : ts.map (fun t => f t % m) = ts.map f :=
  List.map_congr_left fun t ht => Nat.mod_eq_of_lt (h t ht)

theorem map_eq_replicate {ts : List TransformDesc} {f : TransformDesc → Nat} {c : Nat}
    (h : ∀ t ∈ ts, f t = c) : ts.map f = List.replicate ts.length c :=
  List.eq_replicate_iff.2 ⟨by simp, fun x hx => by
    obtain ⟨t, ht, rfl⟩ := List.mem_map.1 hx
    exact h t ht⟩

section NodeLanes

variable {v : Nat} {fprop properties : FrameProperties} {gip : GraphInfo}

theorem decompressTrID_lane (hwf : WellFormed v fprop gip) :
    Reads (decompressTrID (gip.transforms.map (·.trInfo.trt.toNat)) v)
      (compressTrID (gip.transforms.map (·.trInfo.trid))
        (gip.transforms.map (·.trInfo.trt.toNat)) v)
      (gip.transforms.map (·.trInfo.trid)) := by
  have hzip : ∀ trid tag, (trid, tag) ∈ (gip.transforms.map (·.trInfo.trid)).zip
      (gip.transforms.map (·.trInfo.trt.toNat)) →
      ∃ t ∈ gip.transforms, t.trInfo.trid = trid ∧ t.trInfo.trt.toNat = tag := by
    intro trid tag h
    rw [List.zip_map'] at h
    obtain ⟨t, ht, heq⟩ := List.mem_map.1 h
    exact ⟨t, ht, Prod.mk.inj heq⟩
  refine decompressTrID_reads (by simp) ?_ ?_ ?_
  · intro tag htag
    obtain ⟨t, -, rfl⟩ := List.mem_map.1 htag
    cases t.trInfo.trt
    · exact Or.inl rfl
    · exact Or.inr rfl
  · intro trid h
    obtain ⟨t, ht, rfl, htag⟩ := hzip trid 0 h
    apply hwf.standard_lt t ht
    cases htrt : t.trInfo.trt with
    | standard => rfl
    | custom => rw [htrt] at htag; cases htag
  · intro trid h
    obtain ⟨t, ht, rfl, htag⟩ := hzip trid 1 h
    apply hwf.custom_lt t ht
    cases htrt : t.trInfo.trt with
    | standard => rw [htrt] at htag; cases htag
    | custom => rfl

theorem standardIDs_pass (hwf : WellFormed v fprop gip) :
    ¬ (((gip.transforms.map (·.trInfo.trt.toNat)).zip (gip.transforms.map (·.trInfo.trid))).any
      fun (trt, trid) => trt = 0 && trid ≥ StandardTransformID_end) = true := by
  rw [List.any_eq_true]
  rintro ⟨⟨tag, trid⟩, hmem, hbad⟩
  rw [List.zip_map'] at hmem
  obtain ⟨t, ht, heq⟩ := List.mem_map.1 hmem
  obtain ⟨rfl, rfl⟩ := Prod.mk.inj heq
  simp only [Bool.and_eq_true, decide_eq_true_eq] at hbad
  have hstd : t.trInfo.trt = .standard := by
    cases htrt : t.trInfo.trt with
    | standard => rfl
    | custom => rw [htrt] at hbad; exact absurd hbad.1 (by decide)
  have hlt := hwf.standard_lt t ht hstd
  have hle := two_pow_numBits_le v
  omega

theorem decodeNodeLanes_reads (hv : 8 ≤ v) (hwf : WellFormed v fprop gip)
    (hbundle : properties.hasBundleID = fprop.hasBundleID)
    (hone : v < 16 → ∀ t ∈ gip.transforms, t.nbTrInputs = 1) :
    Reads (decodeNodeLanes v properties gip.nbTransforms)
      (nodeLanesBytes v fprop gip.transforms)
      (nodeLanesOf v fprop properties gip.transforms) := by
  have hlim := runtimeNodeInputLimit_le v
  have hH : gip.transforms.map (·.trHSize % 2 ^ 32) = gip.transforms.map (·.trHSize) :=
    map_mod_eq fun t ht => by
      have := hwf.trHSize_lt t ht
      unfold UINT32_MAX at this
      omega
  have hV : gip.transforms.map (·.nbVOs % 2 ^ 32) = gip.transforms.map (·.nbVOs) :=
    map_mod_eq hwf.nbVOs_lt
  have hI : gip.transforms.map (·.nbTrInputs % 2 ^ 32) = gip.transforms.map (·.nbTrInputs) :=
    map_mod_eq fun t ht => by
      have := hwf.nbTrInputs_le t ht
      omega
  have hlen : ∀ f : TransformDesc → Nat, (gip.transforms.map f).length = gip.nbTransforms :=
    fun f => List.length_map _
  have htrt : Reads (decompressTrt gip.nbTransforms)
      (compressTrt (gip.transforms.map (·.trInfo.trt.toNat)))
      (gip.transforms.map (·.trInfo.trt.toNat)) := by
    rw [← hlen (·.trInfo.trt.toNat)]
    refine checkedBitpackDecode8_reads (by norm_num) fun x hx => ?_
    obtain ⟨t, -, rfl⟩ := List.mem_map.1 hx
    cases t.trInfo.trt <;> decide
  have hsizes : Reads (decompressTrHSize gip.nbTransforms)
      (compressTrHSize (gip.transforms.map (·.trHSize))) (gip.transforms.map (·.trHSize)) := by
    rw [← hlen (·.trHSize)]
    refine decompressTrHSize_reads fun n hn => ?_
    obtain ⟨t, ht, rfl⟩ := List.mem_map.1 hn
    exact hwf.trHSize_lt t ht
  have hvos : Reads (decodeNbVOs v gip.nbTransforms)
      (compressNbVOs (gip.transforms.map (·.nbVOs))) (gip.transforms.map (·.nbVOs)) := by
    unfold decodeNbVOs
    rw [if_pos hv, ← hlen (·.nbVOs)]
    refine decompressNbVOs_reads fun n hn => ?_
    obtain ⟨t, ht, rfl⟩ := List.mem_map.1 hn
    exact hwf.nbVOs_lt t ht
  have hregens : Reads (decodeNbRegens v gip.nbTransforms)
      (if v ≥ 16 then compressNumInputs (gip.transforms.map (·.nbTrInputs)) else [])
      (gip.transforms.map (·.nbTrInputs)) := by
    unfold decodeNbRegens
    split
    · rw [← hlen (·.nbTrInputs)]
      refine decompressNbRegens_reads fun n hn => ?_
      obtain ⟨t, ht, rfl⟩ := List.mem_map.1 hn
      exact ⟨hwf.one_le_nbTrInputs t ht, hwf.nbTrInputs_le t ht⟩
    · rw [map_eq_replicate (hone (by omega))]
      exact Reads.pure _
  have hdict : Reads (decodeDictIdxs v (decodedProperties v fprop properties) gip.nbTransforms)
      (if v ≥ MATERIALIZED_DICT_VERSION_MIN ∧ fprop.hasBundleID then
        compressDictIdxs (gip.transforms.map (·.dictIdx)) else [])
      (gip.transforms.map fun t => if hasDictLane v fprop then t.dictIdx else DICT_INDEX_NONE) := by
    have hb : (decodedProperties v fprop properties).hasBundleID = fprop.hasBundleID := by
      unfold decodedProperties
      split <;> exact hbundle
    unfold decodeDictIdxs hasDictLane
    rw [hb]
    by_cases hd : v ≥ MATERIALIZED_DICT_VERSION_MIN ∧ fprop.hasBundleID = true
    · rw [if_pos hd, if_pos hd, ← hlen (·.dictIdx)]
      simp only [hd.1, hd.2, decide_true, Bool.and_self, if_true]
      refine decompressDictIdxs_reads fun i hi => ?_
      obtain ⟨t, ht, rfl⟩ := List.mem_map.1 hi
      exact hwf.dictIdx_le hd.1 hd.2 t ht
    · rw [if_neg hd, if_neg hd]
      have hfalse : (decide (v ≥ MATERIALIZED_DICT_VERSION_MIN) && fprop.hasBundleID) = false := by
        simpa using hd
      rw [map_eq_replicate (c := DICT_INDEX_NONE) fun t _ => by rw [hfalse]; rfl]
      exact Reads.pure _
  unfold decodeNodeLanes nodeLanesBytes
  rw [hH, hV, hI]
  exact (decodeChunkFlags_reads hv fprop properties).bind <| htrt.bind <|
    (decompressTrID_lane hwf).bind <| (Reads.failIf (standardIDs_pass hwf)).bind_nil <|
    hsizes.bind <| hvos.bind <| hregens.bind <| hdict.bind_pure <| Reads.pure _

section

variable (hwf : WellFormed v fprop gip) (hone : v < 16 → ∀ t ∈ gip.transforms, t.nbTrInputs = 1)

include hwf hone

theorem totalNbRegens_eq : totalNbRegens v gip = gip.nbDistances := by
  have hlim := runtimeNodeInputLimit_le v
  unfold totalNbRegens
  rw [hwf.nbDistances_eq]
  split
  · rw [map_mod_eq fun t ht => by
      have := hwf.nbTrInputs_le t ht
      omega]
  · rw [map_eq_replicate (hone (by omega))]
    simp [GraphInfo.nbTransforms]

theorem decodeStreamLanes_reads (hstored : 0 < gip.nbStoredBuffs)
    (hstored' : gip.nbStoredBuffs - 1 < runtimeStreamLimit v)
    (hfit : gip.nbDistances ≤ runtimeStreamLimit MAX_FORMAT_VERSION) :
    Reads (decodeStreamLanes (nodeLanesOf v fprop properties gip.transforms)
      (gip.nbStoredBuffs - 1)) (streamLanesBytes v gip)
      (decodedChunkHeader v fprop properties gip) := by
  have hmax := runtimeStreamLimit_le MAX_FORMAT_VERSION
  have hlimv := runtimeStreamLimit_le v
  have hsum : (nodeLanesOf v fprop properties gip.transforms).nbRegens.sum = gip.nbDistances :=
    hwf.nbDistances_eq.symm
  have htake : gip.distances.take gip.nbDistances = gip.distances := List.take_length
  have hsz : gip.storedBuffs.tail.map (·.length % 2 ^ 32) = gip.storedBuffs.tail.map (·.length) :=
    List.map_congr_left fun b hb => Nat.mod_eq_of_lt (by
      have := hwf.storedBuffs_lt b hb
      unfold UINT32_MAX at this
      omega)
  have hlend : (gip.distances.map (· - 1)).length = gip.nbDistances := List.length_map _
  have hlens : (gip.storedBuffs.tail.map (·.length)).length = gip.nbStoredBuffs - 1 := by
    rw [List.length_map, List.length_tail]
    rfl
  have hdist : Reads (decompressRegenStreamIDDistances gip.nbDistances (gip.nbStoredBuffs - 1))
      (compressStreamDistances (gip.distances.map (· - 1)) gip.nbDistances
        (gip.nbStoredBuffs - 1)) (gip.distances.map (· - 1)) := by
    rw [← hlend]
    refine decompressDistances_reads (by rw [hlend]; omega) fun x hx => ?_
    obtain ⟨d, hd, rfl⟩ := List.mem_map.1 hx
    have := hwf.distances_range d hd
    rw [hlend]
    omega
  have hsizes : Reads (decompressStrSizes (gip.nbStoredBuffs - 1))
      (compressStrSizes (gip.storedBuffs.tail.map (·.length)))
      (gip.storedBuffs.tail.map (·.length)) := by
    rw [← hlens]
    refine decompressStrSizes_reads fun n hn => ?_
    obtain ⟨b, hb, rfl⟩ := List.mem_map.1 hn
    exact hwf.storedBuffs_lt b hb
  unfold decodeStreamLanes streamLanesBytes
  simp only [hsum]
  rw [totalNbRegens_eq hwf hone, htake, hsz]
  refine (Reads.failIf (by omega)).bind_nil <| hdist.bind <| hsizes.bind_pure ?_
  have hnodes := buildNodes_lanes (hasDictLane v fprop) gip.transforms 0 gip.distances
  simp only [nodeLanesOf, decodedChunkHeader, hnodes]
  exact Reads.pure _

end

theorem two_le_length_chunkCounts (v nbCodecs nbBuffs : Nat) :
    CHUNK_HEADER_SIZE_MIN ≤ (chunkCounts v nbCodecs nbBuffs).length := by
  unfold chunkCounts CHUNK_HEADER_SIZE_MIN
  split
  · simp
  · rw [List.length_append]
    have h1 := varintEncodeLoop_pos 9 (nbCodecs + if v ≥ CHUNK_VERSION_MIN then 1 else 0)
    have h2 := varintEncodeLoop_pos 9 (nbBuffs - 1)
    unfold varintEncode
    omega

theorem decodeChunkHeader_of_nodeLanes {dstCapacity : Nat} {out : List UInt8}
    (hw : writeChunkHeader v dstCapacity fprop gip = .ok out)
    (hlanes : Reads (decodeNodeLanes v properties gip.nbTransforms)
      (nodeLanesBytes v fprop gip.transforms) (nodeLanesOf v fprop properties gip.transforms))
    (rest : List UInt8) :
    decodeChunkHeader v properties (out ++ rest) =
      decodeStreamLanes (nodeLanesOf v fprop properties gip.transforms) (gip.nbStoredBuffs - 1)
        (streamLanesBytes v gip ++ rest) := by
  obtain ⟨hnodes, -, hstored, -, rfl⟩ := writeChunkHeader_ok hw
  have hcounts := decodeChunkCounts_reads hnodes hstored
  have hlen := two_le_length_chunkCounts v gip.nbTransforms gip.nbStoredBuffs
  unfold decodeChunkHeader chunkHeaderBytes
  rw [List.append_assoc, List.append_assoc, run_bind_of_ok (run_avail _),
    run_bind_of_ok (run_failIf_of_not (by rw [List.length_append]; omega) _),
    run_bind_of_ok (hcounts _)]
  simp only
  rw [run_bind_of_ok (run_failIf_of_not (by omega) _),
    run_bind_of_ok (run_failIf_of_not (by omega) _), run_bind_of_ok (hlanes _)]

section

variable {dstCapacity : Nat} {out : List UInt8} (hv : isFormatVersionSupported v)
  (hw : writeChunkHeader v dstCapacity fprop gip = .ok out) (hwf : WellFormed v fprop gip)
  (hbundle : properties.hasBundleID = fprop.hasBundleID)

include hv hw hwf hbundle

theorem decodeChunkHeader_nodeLanes (rest : List UInt8) :
    decodeChunkHeader v properties (out ++ rest) =
      decodeStreamLanes (nodeLanesOf v fprop properties gip.transforms) (gip.nbStoredBuffs - 1)
        (streamLanesBytes v gip ++ rest) := by
  obtain ⟨-, -, -, hone, -⟩ := writeChunkHeader_ok hw
  exact decodeChunkHeader_of_nodeLanes hw (decodeNodeLanes_reads hv.1 hwf hbundle hone) rest

/-- **Round trip**: the decoder consumes exactly what was written and rebuilds the same nodes and
stored sizes, whatever follows. -/
theorem decodeChunkHeader_written (hfit : gip.nbDistances ≤ runtimeStreamLimit MAX_FORMAT_VERSION)
    (rest : List UInt8) :
    decodeChunkHeader v properties (out ++ rest) =
      .ok (decodedChunkHeader v fprop properties gip, rest) := by
  obtain ⟨hnodes, hpos, hstored, hone, -⟩ := writeChunkHeader_ok hw
  rw [decodeChunkHeader_nodeLanes hv hw hwf hbundle]
  exact decodeStreamLanes_reads hwf hone hpos hstored hfit rest

theorem decodeChunkHeader_tooManyRegens
    (hbig : runtimeStreamLimit MAX_FORMAT_VERSION < gip.nbDistances) (rest : List UInt8) :
    decodeChunkHeader v properties (out ++ rest) = .error .allocation := by
  have hsum : (nodeLanesOf v fprop properties gip.transforms).nbRegens.sum = gip.nbDistances :=
    hwf.nbDistances_eq.symm
  rw [decodeChunkHeader_nodeLanes hv hw hwf hbundle]
  exact run_bind_of_error (run_failIf_of (by rw [hsum]; exact hbig) _)

end

/-- **Chunk header round trip**: the nodes with their private header positions, their counts, their
dictionaries and their distances, and the stored sizes; before version 21, the checksum flags. -/
theorem chunkHeader_roundtrip {dstCapacity : Nat} {out : List UInt8}
    (hv : isFormatVersionSupported v)
    (hw : writeChunkHeader v dstCapacity fprop gip = .ok out) (hwf : WellFormed v fprop gip)
    (hbundle : properties.hasBundleID = fprop.hasBundleID)
    (hfit : gip.nbDistances ≤ runtimeStreamLimit MAX_FORMAT_VERSION) (rest : List UInt8) :
    ∃ header, decodeChunkHeader v properties (out ++ rest) = .ok (header, rest) ∧
      header.nodes = regenNodes (hasDictLane v fprop) gip.transforms 0 gip.distances ∧
      header.storedStreamSizes = gip.storedBuffs.tail.map (·.length) ∧
      (v < CHUNK_VERSION_MIN →
        header.properties.hasContentChecksum = fprop.hasContentChecksum ∧
        header.properties.hasCompressedChecksum = fprop.hasCompressedChecksum) := by
  refine ⟨_, decodeChunkHeader_written hv hw hwf hbundle hfit rest, rfl, rfl, ?_⟩
  intro h21
  simp [decodedChunkHeader, decodedProperties, h21]

end NodeLanes

/-- Frame properties with a content checksum only. -/
def contentChecksumOnly : FrameProperties := ⟨true, false, false, false⟩

/-- Three codecs, the second one with two inputs and two variable outputs; the first and the last
have private headers, the last two dictionaries. Two streams are stored. -/
def threeNodeGraph : GraphInfo where
  nbSessionInputs := 1
  transforms := [⟨⟨.standard, 3⟩, 2, 0, 1, DICT_INDEX_NONE⟩, ⟨⟨.custom, 300⟩, 0, 2, 2, 5⟩,
    ⟨⟨.standard, 7⟩, 130, 0, 1, 0⟩]
  distances := [1, 2, 5, 4]
  storedBuffs := [List.replicate 132 7, [1, 2, 3], [4]]

/-- Frame properties with a content checksum and a dictionary bundle. -/
def bundled : FrameProperties := ⟨true, false, false, true⟩

theorem threeNodeGraph_wellFormed : WellFormed 27 bundled threeNodeGraph := by
  constructor <;> decide

def threeNodeHeader : List UInt8 :=
  [4, 2, 2, 131, 3, 172, 2, 5, 1, 129, 1, 2, 1, 2, 0, 6, 3, 5, 8, 7, 3, 1]

theorem threeNodeGraph_written :
    writeChunkHeader 27 1000 bundled threeNodeGraph = .ok threeNodeHeader := by
  decide

theorem chunkHeader_roundtrip_threeNodes :
    ∃ header, decodeChunkHeader 27 bundled (threeNodeHeader ++ [9, 9]) = .ok (header, [9, 9]) ∧
      header.nodes = [⟨⟨.standard, 3⟩, 0, 2, 0, 1, [0], DICT_INDEX_NONE⟩,
        ⟨⟨.custom, 300⟩, 2, 0, 2, 2, [1, 4], 5⟩, ⟨⟨.standard, 7⟩, 2, 130, 0, 1, [3], 0⟩] ∧
      header.storedStreamSizes = [3, 1] ∧
      (27 < CHUNK_VERSION_MIN → header.properties.hasContentChecksum = true ∧
        header.properties.hasCompressedChecksum = false) :=
  chunkHeader_roundtrip (by decide) threeNodeGraph_written threeNodeGraph_wellFormed rfl
    (by decide) [9, 9]

/-- Fifty-four codecs with 2048 inputs each: every limit the encoder checks is respected, but
there are 110592 regenerated streams. -/
def manyRegensGraph : GraphInfo where
  nbSessionInputs := 1
  transforms := List.replicate 54 ⟨⟨.custom, 0⟩, 0, 0, 2048, DICT_INDEX_NONE⟩
  distances := List.replicate 110592 1
  storedBuffs := [[]]

theorem manyRegensGraph_nbDistances : manyRegensGraph.nbDistances = 110592 :=
  List.length_replicate

theorem manyRegensGraph_wellFormed : WellFormed 27 contentChecksumOnly manyRegensGraph where
  standard_lt := by
    intro t ht hs
    rw [List.eq_of_mem_replicate ht] at hs
    cases hs
  custom_lt := by
    intro t ht _
    rw [List.eq_of_mem_replicate ht]
    decide
  trHSize_lt := by
    intro t ht
    rw [List.eq_of_mem_replicate ht]
    decide
  nbVOs_lt := by
    intro t ht
    rw [List.eq_of_mem_replicate ht]
    decide
  one_le_nbTrInputs := by
    intro t ht
    rw [List.eq_of_mem_replicate ht]
    decide
  nbTrInputs_le := by
    intro t ht
    rw [List.eq_of_mem_replicate ht]
    decide
  nbDistances_eq := by
    rw [manyRegensGraph_nbDistances]
    rfl
  dictIdx_le := by
    intro _ hb
    cases hb
  distances_range := by
    intro d hd
    rw [List.eq_of_mem_replicate hd, manyRegensGraph_nbDistances]
    exact ⟨le_rfl, by omega⟩
  storedBuffs_lt := by
    intro b hb
    cases hb

theorem manyRegensGraph_written : writeChunkHeader 27 1000000 contentChecksumOnly manyRegensGraph =
    .ok (chunkHeaderBytes 27 contentChecksumOnly manyRegensGraph) := by
  have hb : computeFHBound 1 54 1 110592 = .ok 443765 := by decide
  refine writeChunkHeader_eq_ok ?_ (show 443765 ≤ 1000000 by norm_num) (by decide) (by decide)
    (by decide) (fun h => absurd h (by decide))
  rw [manyRegensGraph_nbDistances]
  exact hb

/-- A codec with one input more than a decoder takes. -/
def manyInputsGraph : GraphInfo where
  nbSessionInputs := 1
  transforms := [⟨⟨.custom, 0⟩, 0, 0, 2049, DICT_INDEX_NONE⟩]
  distances := List.replicate 2049 1
  storedBuffs := [[]]

/-- A codec with a private header of 2^32 - 1 bytes. -/
def longHeaderGraph : GraphInfo where
  nbSessionInputs := 1
  transforms := [⟨⟨.custom, 0⟩, 2 ^ 32 - 1, 0, 1, DICT_INDEX_NONE⟩]
  distances := [1]
  storedBuffs := [[], [1]]

/-- The encoder writes these graphs, the decoder refuses them. -/
theorem chunkHeader_manyRegens_refused :
    WellFormed 27 contentChecksumOnly manyRegensGraph ∧
      writeChunkHeader 27 1000000 contentChecksumOnly manyRegensGraph =
        .ok (chunkHeaderBytes 27 contentChecksumOnly manyRegensGraph) ∧
      decodeChunkHeader 27 contentChecksumOnly
        (chunkHeaderBytes 27 contentChecksumOnly manyRegensGraph) = .error .allocation ∧
      ∀ gip ∈ [manyInputsGraph, longHeaderGraph],
        writeChunkHeader 27 1000000 contentChecksumOnly gip =
          .ok (chunkHeaderBytes 27 contentChecksumOnly gip) ∧
        decodeChunkHeader 27 contentChecksumOnly
          (chunkHeaderBytes 27 contentChecksumOnly gip) = .error .corruption := by
  refine ⟨manyRegensGraph_wellFormed, manyRegensGraph_written, ?_, ?_⟩
  · rw [← List.append_nil (chunkHeaderBytes 27 contentChecksumOnly manyRegensGraph)]
    exact decodeChunkHeader_tooManyRegens (by decide) manyRegensGraph_written
      manyRegensGraph_wellFormed rfl (by rw [manyRegensGraph_nbDistances]; decide) []
  · decide +kernel

end OpenZL.Wire
