import OpenZL.Codecs.BitpackBinding
import OpenZL.Codecs.PartitionBuckets

/-!
# The ways of the partition encoder

The generic encoder searches for each partition and writes each offset; the ways for 16-bit and for
32-bit elements look partitions up, take the starts off four or two elements in one subtraction, and
gather the offsets with one extract.

Principal results: `partitionEncode_generic_spec`, `partitionEncodeU16_spec`,
`partitionEncodeU32_spec`.
-/

namespace OpenZL.Codecs.Partition

open OpenZL.Lib OpenZL.Codecs.Bitpack.InMemory

/-- The offset of a value in its partition, and the width of the offset. -/
def fieldOf (params : PartitionParams) (v : Nat) : Nat × Nat :=
  (v - params.base (bucketOf params v), params.computeBits.getD (bucketOf params v) 0)

/-- The buckets and the bytes of the offsets of a list. -/
def encoded (params : PartitionParams) (src : List Nat) : List Nat × List UInt8 :=
  (src.map (bucketOf params), bytesOfFields (src.map (fieldOf params)))

section Offsets

variable {params : PartitionParams} {i v : Nat}

theorem computeBits_getElem? (hw : params.Words) (hi : i < params.numPartitions) :
    params.computeBits[i]? = some (nextPow2 (params.partitionSizes.getD i 0)) := by
  have hmem : params.partitionSizes.getD i 0 ∈ params.partitionSizes := by
    rw [List.getD_eq_getElem _ _ hi]
    exact List.getElem_mem hi
  have hle : nextPow2 (params.partitionSizes.getD i 0) ≤ 64 := nextPow2_le (hw.2 _ hmem).le
  rw [PartitionParams.computeBits, List.getElem?_map, List.getElem?_eq_getElem hi,
    ← List.getD_eq_getElem _ 0 hi, Option.map_some, Nat.mod_eq_of_lt (by omega)]

theorem computeBits_getD (hw : params.Words) (hi : i < params.numPartitions) :
    params.computeBits.getD i 0 = nextPow2 (params.partitionSizes.getD i 0) := by
  rw [List.getD_eq_getElem?_getD, computeBits_getElem? hw hi, Option.getD_some]

theorem computeBits_le (hw : params.Words) {k : Nat}
    (hlargest : ∀ size ∈ params.partitionSizes, size ≤ 2 ^ k) (hi : i < params.numPartitions) :
    params.computeBits.getD i 0 ≤ k := by
  have hmem : params.partitionSizes.getD i 0 ∈ params.partitionSizes := by
    rw [List.getD_eq_getElem _ _ hi]
    exact List.getElem_mem hi
  rw [computeBits_getD hw hi]
  exact nextPow2_le (hlargest _ hmem)

theorem InBucket.offset_lt (hw : params.Words) (h : InBucket params i v) :
    v - params.base i < 2 ^ params.computeBits.getD i 0 := by
  obtain ⟨hi, hlow, hhigh⟩ := h
  have hle := le_two_pow_nextPow2 (params.partitionSizes.getD i 0)
  rw [base_succ] at hhigh
  rw [computeBits_getD hw hi]
  omega

end Offsets

section Generic

variable {params : PartitionParams}

theorem map_append_cons {α β : Type} (f : α → β) (xs : List α) (x : α) :
    xs.map f ++ [f x] = (xs ++ [x]).map f := by
  rw [List.map_append, List.map_singleton]

theorem fieldsSize_map_append (f : Nat → Nat × Nat) (xs ys : List Nat) :
    fieldsSize (xs.map f) ≤ fieldsSize ((xs ++ ys).map f) := by
  rw [List.map_append, fieldsSize_append]
  exact Nat.le_add_right _ _

theorem encodeGenericLoop_covered (hw : params.Words) (hvalid : params.Valid) {room : Nat}
    (src : List Nat) : ∀ {done : List Nat} {bits : BitCStreamFF},
    (∀ v ∈ src, Covers params v) → Written bits room (done.map (fieldOf params)) →
      fieldsSize ((done ++ src).map (fieldOf params)) ≤ 8 * room → ∀ rest : List Nat,
      ∃ bits', encodeGenericLoop params (src ++ rest) bits (done.map (bucketOf params)) =
          encodeGenericLoop params rest bits' ((done ++ src).map (bucketOf params)) ∧
        Written bits' room ((done ++ src).map (fieldOf params)) := by
  induction src with
  | nil =>
    intro done bits _ h _ rest
    rw [List.append_nil]
    exact ⟨bits, rfl, h⟩
  | cons v src ih =>
    intro done bits hsrc h hroom rest
    have hv := hsrc v List.mem_cons_self
    obtain ⟨hn, hlow, hhigh⟩ := findBucket_spec hvalid hv
    have hmax := hvalid.maxValue
    have hle := hvalid.le
    have hmost : maxPartitions = 256 := rfl
    have hsize : (params.computeBits.getD (bucketOf params v) 0) ≤ 64 :=
      computeBits_le hw (fun size hsize => (hw.2 size hsize).le) hn
    have hbits : params.computeBits[bucketOf params v]? = some (fieldOf params v).2 := by
      rw [computeBits_getElem? hw hn, fieldOf, computeBits_getD hw hn]
    rw [show done ++ v :: src = done ++ [v] ++ src by simp] at hroom ⊢
    obtain ⟨bits₁, hrun, h₁⟩ : ∃ bits₁, writeSplit bits (fieldOf params v).1 (fieldOf params v).2 =
        some bits₁ ∧ Written bits₁ room ((done ++ [v]).map (fieldOf params)) := by
      rw [← map_append_cons]
      refine h.writeSplit _ hsize ?_
      change fieldsSize (done.map (fieldOf params) ++ [fieldOf params v]) ≤ 8 * room
      rw [map_append_cons]
      exact (fieldsSize_map_append _ _ _).trans hroom
    obtain ⟨bits₂, hrest, h₂⟩ := ih (fun v hv => hsrc v (List.mem_cons_of_mem _ hv)) h₁ hroom rest
    refine ⟨bits₂, ?_, h₂⟩
    have hfind : findBucket v params.computeBasesU64 params.numPartitions params.maxValue =
        bucketOf params v := rfl
    rw [← hrest, List.cons_append, encodeGenericLoop, hfind, if_neg (by omega), hvalid.bases hn, hbits]
    simp only [defined, ok_bind]
    rw [if_pos (by have := hv.2; omega)]
    rw [show v - params.base (bucketOf params v) = (fieldOf params v).1 from rfl, hrun]
    simp only [ok_bind]
    rw [Nat.mod_eq_of_lt (by omega), map_append_cons]

theorem finishEncode_spec {bits : BitCStreamFF} {room : Nat} {src : List Nat}
    (h : Written bits room (src.map (fieldOf params)))
    (hroom : fieldsSize (src.map (fieldOf params)) ≤ 8 * room) :
    finishEncode bits (src.map (bucketOf params)) = .ok (encoded params src) := by
  obtain ⟨dst, hfinish, hbytes⟩ := h.finish hroom
  rw [finishEncode, hfinish]
  dsimp only
  rw [hbytes, encoded]

theorem partitionEncode_generic_covered (hw : params.Words) (hvalid : params.Valid)
    {bitsDst : List UInt8} {src : List Nat} (hsrc : ∀ v ∈ src, Covers params v)
    (hroom : fieldsSize (src.map (fieldOf params)) ≤ 8 * bitsDst.length) :
    partitionEncode_generic bitsDst src params = .ok (encoded params src) := by
  obtain ⟨bits, hrun, hwritten⟩ := @encodeGenericLoop_covered params hw hvalid bitsDst.length src [] _
    hsrc (Written.init bitsDst) (by rwa [List.nil_append]) []
  rw [List.append_nil, List.nil_append, List.map_nil, encodeGenericLoop] at hrun
  rw [List.nil_append] at hwritten
  rw [partitionEncode_generic, hrun, ok_bind]
  exact finishEncode_spec hwritten hroom

theorem partitionEncode_generic_uncovered (hw : params.Words) (hvalid : params.Valid)
    {bitsDst : List UInt8} {src : List Nat} (hsrc : ¬∀ v ∈ src, Covers params v)
    (hroom : fieldsSize (src.map (fieldOf params)) ≤ 8 * bitsDst.length) :
    partitionEncode_generic bitsDst src params = .error (.error .GENERIC) := by
  obtain ⟨front, v, back, rfl, hfront, hv⟩ : ∃ front v back, src = front ++ v :: back ∧
      (∀ v ∈ front, Covers params v) ∧ ¬Covers params v := by
    clear hroom
    induction src with
    | nil => exact absurd (fun v hv => absurd hv List.not_mem_nil) hsrc
    | cons u src ih =>
      by_cases hu : Covers params u
      · obtain ⟨front, v, back, rfl, hfront, hv⟩ := ih fun h => hsrc (List.forall_mem_cons.2 ⟨hu, h⟩)
        exact ⟨u :: front, v, back, rfl, List.forall_mem_cons.2 ⟨hu, hfront⟩, hv⟩
      · exact ⟨[], u, src, rfl, nofun, hu⟩
  obtain ⟨bits, hrun, -⟩ := @encodeGenericLoop_covered params hw hvalid bitsDst.length front []
    _ hfront (Written.init bitsDst)
    (by
      rw [List.nil_append]
      exact (fieldsSize_map_append _ _ _).trans hroom) (v :: back)
  have hout : findBucket v params.computeBasesU64 params.numPartitions params.maxValue =
      params.numPartitions := findBucket_out hvalid hv
  rw [List.map_nil, List.nil_append, encodeGenericLoop, hout, if_pos (Nat.le_refl _)] at hrun
  rw [partitionEncode_generic, hrun]
  rfl

end Generic

/-- A value that a table has, small enough for a lane, with an offset of at most `w` bits. -/
structure Lane (params : PartitionParams) (lookup : Nat → Option Nat) (L w v : Nat) : Prop where
  covers : Covers params v
  found : lookup v = some (bucketOf params v)
  lt : v < 2 ^ L
  width : (fieldOf params v).2 ≤ w

section Groups

variable {params : PartitionParams} {lookup : Nat → Option Nat} {L w : Nat}

theorem ofDigits_sub_add (B : Nat) (f : Nat → Nat) (vs : List Nat) : (∀ v ∈ vs, f v ≤ v) →
    Nat.ofDigits B (vs.map fun v => v - f v) + Nat.ofDigits B (vs.map f) = Nat.ofDigits B vs := by
  induction vs with
  | nil => exact fun _ => rfl
  | cons v vs ih =>
    intro h
    have hv := h v List.mem_cons_self
    rw [List.map_cons, List.map_cons, Nat.ofDigits_cons, Nat.ofDigits_cons, Nat.ofDigits_cons,
      ← ih fun v hv => h v (List.mem_cons_of_mem _ hv)]
    rw [Nat.mul_add]
    omega

theorem pext_group (hvalid : params.Valid) {vs : List Nat} (hL : L * vs.length = 64) (hw : w ≤ L)
    (h : ∀ v ∈ vs, Lane params lookup L w v) :
    pext ((Nat.ofDigits (2 ^ L) vs + 2 ^ 64 -
        Nat.ofDigits (2 ^ L) (vs.map fun v => params.base (bucketOf params v))) % 2 ^ 64)
      (laneMask L (vs.map fun v => (fieldOf params v).2)) =
      fieldsCode (vs.map (fieldOf params)) := by
  have hsub := ofDigits_sub_add (2 ^ L) (fun v => params.base (bucketOf params v)) vs
    fun v hv => (findBucket_spec hvalid (h v hv).covers).2.1
  have hlt : Nat.ofDigits (2 ^ L) vs < 2 ^ 64 := by
    have hdigits := ofDigits_lt fun v hv => (h v hv).lt
    rwa [Nat.mul_comm, hL] at hdigits
  have hdata : (Nat.ofDigits (2 ^ L) vs + 2 ^ 64 -
      Nat.ofDigits (2 ^ L) (vs.map fun v => params.base (bucketOf params v))) % 2 ^ 64 =
      Nat.ofDigits (2 ^ L) (vs.map fun v => (fieldOf params v).1) := by
    simp only [fieldOf]
    omega
  rw [hdata, pext_laneMask (by rw [List.length_map, hL]) (by
      rintro n hn
      obtain ⟨v, hv, rfl⟩ := List.mem_map.1 hn
      exact (h v hv).width.trans hw) (by
      rintro n hn
      obtain ⟨v, hv, rfl⟩ := List.mem_map.1 hn
      exact (Nat.sub_le _ _).trans_lt (h v hv).lt) (by rw [List.length_map, List.length_map]),
    List.zip_map']

theorem writeFlush_group (hvalid : params.Valid) {room : Nat} {bits : BitCStreamFF}
    {done vs src : List Nat} (h : Written bits room (done.map (fieldOf params)))
    (hL : L * vs.length = 64) (hw : w ≤ L) (hfew : fieldsSize (vs.map (fieldOf params)) ≤ 56)
    (hvs : ∀ v ∈ vs, Lane params lookup L w v)
    (hroom : fieldsSize ((done ++ vs ++ src).map (fieldOf params)) ≤ 8 * room) :
    ∃ bits', writeFlush bits (pext ((Nat.ofDigits (2 ^ L) vs + 2 ^ 64 -
          Nat.ofDigits (2 ^ L) (vs.map fun v => params.base (bucketOf params v))) % 2 ^ 64)
        (laneMask L (vs.map fun v => (fieldOf params v).2)))
        (fieldsSize (vs.map (fieldOf params))) = some bits' ∧
      Written bits' room ((done ++ vs).map (fieldOf params)) := by
  rw [List.map_append, pext_group hvalid hL hw hvs]
  refine h.writeFlush (Nat.mod_eq_of_lt (fieldsCode_lt _)) rfl hfew ?_
  rw [← List.map_append]
  exact (fieldsSize_map_append _ _ _).trans hroom

theorem encodeTail_spec (hvalid : params.Valid) (hfew : w ≤ 56) (hL : L ≤ 64) {room : Nat}
    (src : List Nat) : ∀ {done : List Nat} {bits : BitCStreamFF},
    (∀ v ∈ src, Lane params lookup L w v) → Written bits room (done.map (fieldOf params)) →
      fieldsSize ((done ++ src).map (fieldOf params)) ≤ 8 * room →
      ∃ bits', encodeTail lookup params.computeBasesU64 params.computeBits src bits
          (done.map (bucketOf params)) = some (bits', (done ++ src).map (bucketOf params)) ∧
        Written bits' room ((done ++ src).map (fieldOf params)) := by
  induction src with
  | nil =>
    intro done bits _ h _
    rw [List.append_nil]
    exact ⟨bits, rfl, h⟩
  | cons v src ih =>
    intro done bits hsrc h hroom
    have hv := hsrc v List.mem_cons_self
    obtain ⟨hn, hlow, hhigh⟩ := findBucket_spec hvalid hv.covers
    have hle := hvalid.le
    have hmost : maxPartitions = 256 := rfl
    have hlt : v < 2 ^ 64 := hv.lt.trans_le (Nat.pow_le_pow_right Nat.two_pos hL)
    rw [show done ++ v :: src = done ++ [v] ++ src by simp] at hroom ⊢
    have hfield : (fieldOf params v).1 % 2 ^ (fieldOf params v).2 = fieldsCode [fieldOf params v] := by
      rw [fieldsCode, fieldsCode, Nat.mul_zero, Nat.add_zero]
    obtain ⟨bits₁, hrun, h₁⟩ := h.writeFlush hfield rfl (hv.width.trans hfew)
      (by
        rw [map_append_cons]
        exact (fieldsSize_map_append _ _ _).trans hroom)
    rw [map_append_cons] at h₁
    obtain ⟨bits₂, hrest, h₂⟩ := ih (fun v hv => hsrc v (List.mem_cons_of_mem _ hv)) h₁ hroom
    refine ⟨bits₂, ?_, h₂⟩
    have hoffset : (v + 2 ^ 64 - params.base (bucketOf params v)) % 2 ^ 64 =
        (fieldOf params v).1 := by
      rw [fieldOf]
      omega
    rw [encodeTail, hv.found]
    simp only [Option.bind_eq_bind, Option.bind_some]
    rw [hvalid.bases_getD hn, hoffset,
      show params.computeBits.getD (bucketOf params v) 0 = (fieldOf params v).2 from rfl, hrun,
      Option.bind_some, Nat.mod_eq_of_lt (by omega), map_append_cons, hrest]

theorem pairIndex_and {bb p : Nat} (h : p < 2 ^ bb) (q : Nat) :
    (p ||| q <<< bb) &&& (2 ^ bb - 1) = p := by
  rw [Nat.and_two_pow_sub_one_eq_mod, or_shiftLeft h, Nat.add_mul_mod_self_left, Nat.mod_eq_of_lt h]

theorem pairIndex_shiftRight {bb p : Nat} (h : p < 2 ^ bb) (q : Nat) :
    (p ||| q <<< bb) >>> bb = q := by
  rw [or_shiftLeft h, Nat.shiftRight_eq_div_pow, Nat.add_mul_div_left _ _ (Nat.two_pow_pos bb),
    Nat.div_eq_of_lt h, Nat.zero_add]

theorem or_shiftLeft_lane {lane a b : Nat} (ha : a < 2 ^ lane) (hb : b < 2 ^ lane) :
    a ||| (b <<< lane) % 2 ^ (2 * lane) = Nat.ofDigits (2 ^ lane) [a, b] := by
  have hlt : b <<< lane < 2 ^ (2 * lane) := by
    rw [Nat.shiftLeft_eq, Nat.two_mul, Nat.pow_add]
    exact Nat.mul_lt_mul_of_pos_right hb (Nat.two_pow_pos lane)
  rw [Nat.mod_eq_of_lt hlt, or_shiftLeft ha, Nat.ofDigits_cons, Nat.ofDigits_singleton]

theorem LUTx2_pair (hvalid : params.Valid) (hL : L ≤ 32) (hw : w ≤ L) {u v : Nat}
    (hu : Lane params lookup L w u) (hv : Lane params lookup L w v) :
    let idx := bucketOf params u ||| bucketOf params v <<< nextPow2 params.numPartitions
    LUTx2_base L params.computeBasesU64 (nextPow2 params.numPartitions) idx =
        Nat.ofDigits (2 ^ L) [params.base (bucketOf params u), params.base (bucketOf params v)] ∧
      LUTx2_mask L params.computeBits (nextPow2 params.numPartitions) idx =
        laneMask L [(fieldOf params u).2, (fieldOf params v).2] ∧
      LUTx2_bits params.computeBits (nextPow2 params.numPartitions) idx =
        (fieldOf params u).2 + (fieldOf params v).2 := by
  intro idx
  obtain ⟨hun, hulow, -⟩ := findBucket_spec hvalid hu.covers
  obtain ⟨hvn, hvlow, -⟩ := findBucket_spec hvalid hv.covers
  have hbb := hun.trans_le (le_two_pow_nextPow2 params.numPartitions)
  have hand := pairIndex_and hbb (bucketOf params v)
  have hshift := pairIndex_shiftRight hbb (bucketOf params v)
  have hpow : 2 ^ L ≤ 2 ^ 32 := Nat.pow_le_pow_right Nat.two_pos hL
  have hmask : ∀ x, Lane params lookup L w x → 2 ^ (fieldOf params x).2 - 1 < 2 ^ L := by
    intro x hx
    have hle : 2 ^ (fieldOf params x).2 ≤ 2 ^ L :=
      Nat.pow_le_pow_right Nat.two_pos (hx.width.trans hw)
    have hpos := Nat.two_pow_pos (fieldOf params x).2
    omega
  have hubase := hulow.trans_lt hu.lt
  have hvbase := hvlow.trans_lt hv.lt
  have huwidth := hu.width
  have hvwidth := hv.width
  refine ⟨?_, ?_, ?_⟩
  · rw [LUTx2_base, hand, hshift, hvalid.bases_getD hun, hvalid.bases_getD hvn,
      Nat.mod_eq_of_lt (hubase.trans_le hpow), Nat.mod_eq_of_lt (hvbase.trans_le hpow),
      or_shiftLeft_lane hubase hvbase]
  · rw [LUTx2_mask, hand, hshift, Nat.one_shiftLeft, Nat.one_shiftLeft]
    exact or_shiftLeft_lane (hmask u hu) (hmask v hv)
  · rw [LUTx2_bits, hand, hshift]
    exact Nat.mod_eq_of_lt (show (fieldOf params u).2 + (fieldOf params v).2 < 2 ^ 8 by omega)

end Groups

section Loops

variable {params : PartitionParams} {lookup : Nat → Option Nat}

theorem bucketOf_mod (hvalid : params.Valid) {v : Nat} (hv : Covers params v) :
    bucketOf params v % 2 ^ 8 = bucketOf params v := by
  have hn := (findBucket_spec hvalid hv).1
  have hle := hvalid.le
  have hmost : maxPartitions = 256 := rfl
  exact Nat.mod_eq_of_lt (by omega)

theorem encodeU32Loop_spec (hvalid : params.Valid) {room : Nat} (src : List Nat)
    (done : List Nat) (bits : BitCStreamFF) (hsrc : ∀ v ∈ src, Lane params lookup 32 28 v)
    (h : Written bits room (done.map (fieldOf params)))
    (hroom : fieldsSize ((done ++ src).map (fieldOf params)) ≤ 8 * room) :
    ∃ bits', encodeU32Loop lookup params.computeBasesU64 params.computeBits
          (nextPow2 params.numPartitions) src bits (done.map (bucketOf params)) =
        some (bits', (done ++ src).map (bucketOf params)) ∧
      Written bits' room ((done ++ src).map (fieldOf params)) := by
  match src, hsrc with
  | u :: v :: src, hsrc =>
    have hvs : ∀ x ∈ [u, v], Lane params lookup 32 28 x := fun x hx =>
      hsrc x (List.mem_append_left src hx)
    have hu := hvs u (by simp)
    have hv := hvs v (by simp)
    have huwidth := hu.width
    have hvwidth := hv.width
    have hsize : fieldsSize ([u, v].map (fieldOf params)) =
        (fieldOf params u).2 + (fieldOf params v).2 := rfl
    rw [show done ++ u :: v :: src = done ++ [u, v] ++ src by simp] at hroom ⊢
    obtain ⟨hbase, hmask, hbits⟩ := LUTx2_pair hvalid (Nat.le_refl 32) (by decide) hu hv
    obtain ⟨bits₁, hrun, h₁⟩ := writeFlush_group hvalid h
      (rfl : 32 * [u, v].length = 64) (by decide) (by omega) hvs hroom
    obtain ⟨bits₂, hrest, h₂⟩ := encodeU32Loop_spec hvalid src (done ++ [u, v]) bits₁
      (fun x hx => hsrc x (List.mem_append_right [u, v] hx)) h₁ hroom
    refine ⟨bits₂, ?_, h₂⟩
    rw [encodeU32Loop, hu.found, hv.found]
    simp only [Option.bind_eq_bind, Option.bind_some]
    rw [hbase, hmask, hbits, ← hsize]
    simp only [List.map_cons, List.map_nil] at hrun ⊢
    rw [hrun, Option.bind_some, bucketOf_mod hvalid hu.covers,
      bucketOf_mod hvalid hv.covers, ← hrest, List.map_append, List.map_cons, List.map_singleton]
  | [u], hsrc => exact encodeTail_spec hvalid (by decide) (by decide) [u] hsrc h hroom
  | [], hsrc => exact encodeTail_spec hvalid (by decide) (by decide) [] hsrc h hroom

theorem pairs_of_four {a b c d : Nat} (ha : a < 2 ^ 16) (hb : b < 2 ^ 16) :
    Nat.ofDigits (2 ^ 16) [a, b] ||| Nat.ofDigits (2 ^ 16) [c, d] <<< 32 =
      Nat.ofDigits (2 ^ 16) [a, b, c, d] := by
  have hlt : Nat.ofDigits (2 ^ 16) [a, b] < 2 ^ 32 := by
    rw [Nat.ofDigits_cons, Nat.ofDigits_singleton]
    omega
  rw [or_shiftLeft hlt]
  simp only [Nat.ofDigits_cons, Nat.ofDigits_nil]
  ring

theorem encodeU16Loop_spec (hvalid : params.Valid) {room : Nat} (src : List Nat)
    (done : List Nat) (bits : BitCStreamFF) (hsrc : ∀ v ∈ src, Lane params lookup 16 14 v)
    (h : Written bits room (done.map (fieldOf params)))
    (hroom : fieldsSize ((done ++ src).map (fieldOf params)) ≤ 8 * room) :
    ∃ bits', encodeU16Loop lookup params.computeBasesU64 params.computeBits
          (nextPow2 params.numPartitions) src bits (done.map (bucketOf params)) =
        some (bits', (done ++ src).map (bucketOf params)) ∧
      Written bits' room ((done ++ src).map (fieldOf params)) := by
  match src, hsrc with
  | v0 :: v1 :: v2 :: v3 :: src, hsrc =>
    have hvs : ∀ x ∈ [v0, v1, v2, v3], Lane params lookup 16 14 x := fun x hx =>
      hsrc x (List.mem_append_left src hx)
    have h0 := hvs v0 (by simp)
    have h1 := hvs v1 (by simp)
    have h2 := hvs v2 (by simp)
    have h3 := hvs v3 (by simp)
    have hsize : fieldsSize ([v0, v1, v2, v3].map (fieldOf params)) =
        (fieldOf params v0).2 + (fieldOf params v1).2 +
          ((fieldOf params v2).2 + (fieldOf params v3).2) := by
      simp only [List.map_cons, List.map_nil, fieldsSize_cons, fieldsSize_nil]
      omega
    have hfew : fieldsSize ([v0, v1, v2, v3].map (fieldOf params)) ≤ 56 := by
      have hw0 := h0.width
      have hw1 := h1.width
      have hw2 := h2.width
      have hw3 := h3.width
      omega
    have hbase : ∀ x, Lane params lookup 16 14 x → params.base (bucketOf params x) < 2 ^ 16 :=
      fun x hx => ((findBucket_spec hvalid hx.covers).2.1).trans_lt hx.lt
    have hmask : ∀ x, Lane params lookup 16 14 x → 2 ^ (fieldOf params x).2 - 1 < 2 ^ 16 := by
      intro x hx
      have hle : 2 ^ (fieldOf params x).2 ≤ 2 ^ 14 := Nat.pow_le_pow_right Nat.two_pos hx.width
      omega
    rw [show done ++ v0 :: v1 :: v2 :: v3 :: src = done ++ [v0, v1, v2, v3] ++ src by simp]
      at hroom ⊢
    obtain ⟨hbase01, hmask01, hbits01⟩ :=
      LUTx2_pair hvalid (by decide : 16 ≤ 32) (by decide) h0 h1
    obtain ⟨hbase23, hmask23, hbits23⟩ :=
      LUTx2_pair hvalid (by decide : 16 ≤ 32) (by decide) h2 h3
    obtain ⟨bits₁, hrun, hnext⟩ :=
      writeFlush_group hvalid h (rfl : 16 * [v0, v1, v2, v3].length = 64) (by decide) hfew hvs hroom
    obtain ⟨bits₂, hrest, hlast⟩ := encodeU16Loop_spec hvalid src (done ++ [v0, v1, v2, v3]) bits₁
      (fun x hx => hsrc x (List.mem_append_right [v0, v1, v2, v3] hx)) hnext hroom
    refine ⟨bits₂, ?_, hlast⟩
    rw [encodeU16Loop, h0.found, h1.found, h2.found, h3.found]
    simp only [Option.bind_eq_bind, Option.bind_some]
    rw [hbase01, hbase23, hmask01, hmask23, hbits01, hbits23,
      pairs_of_four (hbase v0 h0) (hbase v1 h1), ← hsize, laneMask, laneMask]
    simp only [List.map_cons, List.map_nil] at hrun ⊢
    rw [pairs_of_four (hmask v0 h0) (hmask v1 h1)]
    rw [laneMask, List.map_cons, List.map_cons, List.map_cons, List.map_singleton] at hrun
    rw [hrun, Option.bind_some, bucketOf_mod hvalid h0.covers, bucketOf_mod hvalid h1.covers,
      bucketOf_mod hvalid h2.covers, bucketOf_mod hvalid h3.covers, ← hrest, List.map_append]
    simp only [List.map_cons, List.map_nil]
  | [a, b, c], hsrc => exact encodeTail_spec hvalid (by decide) (by decide) _ hsrc h hroom
  | [a, b], hsrc => exact encodeTail_spec hvalid (by decide) (by decide) _ hsrc h hroom
  | [a], hsrc => exact encodeTail_spec hvalid (by decide) (by decide) _ hsrc h hroom
  | [], hsrc => exact encodeTail_spec hvalid (by decide) (by decide) _ hsrc h hroom

end Loops

section Ways

variable {params : PartitionParams}

theorem inputsCovered_iff (hvalid : params.Valid) {bound : Nat} {src : List Nat}
    (hlt : ∀ v ∈ src, v < bound) :
    inputsCovered params bound src = true ↔ ∀ v ∈ src, Covers params v := by
  have hmax := hvalid.maxValue
  rw [inputsCovered]
  split
  · rw [List.all_eq_true]
    refine forall₂_congr fun v _ => ?_
    rw [Bool.and_eq_true, decide_eq_true_iff, decide_eq_true_iff, Covers]
    omega
  · refine ⟨fun _ v hv => ?_, fun _ => rfl⟩
    have hv := hlt v hv
    rw [Covers]
    omega

theorem le_getLargestPartitionSize {k : Nat} (h : params.getLargestPartitionSize ≤ k) :
    ∀ size ∈ params.partitionSizes, size ≤ k :=
  fun size hsize => ((le_foldl_max params.partitionSizes 0).2 size hsize).trans h

section

variable (hw : params.Words) (hvalid : params.Valid)

include hw hvalid

/-- **The 16-bit way** agrees with the generic encoder. -/
theorem partitionEncodeU16_spec
    (hlargest : params.getLargestPartitionSize ≤ MAX_PARTITION_SIZE_FOR_UNROLL4)
    {bitsDst : List UInt8} {src : List Nat} (hlt : ∀ v ∈ src, v < 2 ^ 16)
    (hroom : fieldsSize (src.map (fieldOf params)) ≤ 8 * bitsDst.length) :
    partitionEncodeU16 bitsDst src params =
      if ∀ v ∈ src, Covers params v then .ok (encoded params src)
      else .error (.error .nodeInvalidInput) := by
  obtain ⟨k, hk, ha⟩ := getNumTrailingZeros_spec hw hvalid
  have hsizes := le_getLargestPartitionSize hlargest
  have hcovered := inputsCovered_iff hvalid hlt
  rw [partitionEncodeU16, hk]
  simp only [defined, ok_bind]
  by_cases hsrc : ∀ v ∈ src, Covers params v
  · have hlane : ∀ v ∈ src, Lane params
        (fun v => (buildPartitionLUT params k (65536 >>> k))[v >>> k]?) 16 14 v := fun v hv =>
      ⟨hsrc v hv, partitionLUT_u16 hvalid ha hsizes (hsrc v hv) (hlt v hv), hlt v hv,
        computeBits_le hw hsizes (findBucket_spec hvalid (hsrc v hv)).1⟩
    obtain ⟨bits, hrun, hwritten⟩ := encodeU16Loop_spec hvalid src [] _ hlane
      (Written.init bitsDst) hroom
    rw [List.map_nil, List.nil_append] at hrun
    rw [hcovered.2 hsrc, if_neg nofun, hrun, if_pos hsrc]
    exact finishEncode_spec hwritten hroom
  · rw [Bool.eq_false_iff.2 fun h => hsrc (hcovered.1 h), if_pos rfl, if_neg hsrc]

/-- **The 32-bit way** agrees with the generic encoder. -/
theorem partitionEncodeU32_spec
    (hlargest : params.getLargestPartitionSize ≤ MAX_PARTITION_SIZE_FOR_UNROLL2)
    (hhybrid : canUseHybridLUT params = true) {bitsDst : List UInt8} {src : List Nat}
    (hlt : ∀ v ∈ src, v < 2 ^ 32)
    (hroom : fieldsSize (src.map (fieldOf params)) ≤ 8 * bitsDst.length) :
    partitionEncodeU32 bitsDst src params =
      if ∀ v ∈ src, Covers params v then .ok (encoded params src)
      else .error (.error .nodeInvalidInput) := by
  obtain ⟨k, hk, ha⟩ := getNumTrailingZeros_spec hw hvalid
  have hsizes := le_getLargestPartitionSize hlargest
  have hcovered := inputsCovered_iff hvalid hlt
  rw [partitionEncodeU32, hk]
  simp only [defined, ok_bind]
  by_cases hsrc : ∀ v ∈ src, Covers params v
  · have hlane : ∀ v ∈ src, Lane params
        (u32Partition (buildPartitionLUT params k (max 1 (PB_LINEAR_THRESHOLD >>> k)))
          (logPartitions params) k) 32 28 v := fun v hv =>
      ⟨hsrc v hv, u32Partition_spec hvalid ha hhybrid (hsrc v hv), hlt v hv,
        computeBits_le hw hsizes (findBucket_spec hvalid (hsrc v hv)).1⟩
    obtain ⟨bits, hrun, hwritten⟩ := encodeU32Loop_spec hvalid src [] _ hlane
      (Written.init bitsDst) hroom
    rw [List.map_nil, List.nil_append] at hrun
    rw [hcovered.2 hsrc, if_neg nofun, hrun, if_pos hsrc]
    exact finishEncode_spec hwritten hroom
  · rw [Bool.eq_false_iff.2 fun h => hsrc (hcovered.1 h), if_pos rfl, if_neg hsrc]

/-- **The generic encoder.** -/
theorem partitionEncode_generic_spec {bitsDst : List UInt8} {src : List Nat}
    (hroom : fieldsSize (src.map (fieldOf params)) ≤ 8 * bitsDst.length) :
    partitionEncode_generic bitsDst src params =
      if ∀ v ∈ src, Covers params v then .ok (encoded params src)
      else .error (.error .GENERIC) := by
  by_cases hsrc : ∀ v ∈ src, Covers params v
  · rw [if_pos hsrc, partitionEncode_generic_covered hw hvalid hsrc hroom]
  · rw [if_neg hsrc, partitionEncode_generic_uncovered hw hvalid hsrc hroom]

theorem partitionEncode_spec {eltWidth : Nat} {bitsDst : List UInt8} {src : List Nat}
    (hlt : ∀ v ∈ src, v < 2 ^ (8 * eltWidth))
    (hroom : fieldsSize (src.map (fieldOf params)) ≤ 8 * bitsDst.length) :
    ∃ e, partitionEncode bitsDst src eltWidth params =
      if ∀ v ∈ src, Covers params v then .ok (encoded params src) else .error (.error e) := by
  rw [partitionEncode, if_pos ((PartitionParams.validate_iff hw).2 hvalid)]
  by_cases h16 : eltWidth = 2 ∧ params.getLargestPartitionSize ≤ MAX_PARTITION_SIZE_FOR_UNROLL4
  · obtain ⟨rfl, hlargest⟩ := h16
    rw [if_pos ⟨rfl, hlargest⟩]
    exact ⟨_, partitionEncodeU16_spec hw hvalid hlargest hlt hroom⟩
  · rw [if_neg h16]
    by_cases h32 : eltWidth = 4 ∧ params.getLargestPartitionSize ≤ MAX_PARTITION_SIZE_FOR_UNROLL2 ∧
        canUseHybridLUT params = true
    · obtain ⟨rfl, hlargest, hhybrid⟩ := h32
      rw [if_pos ⟨rfl, hlargest, hhybrid⟩]
      exact ⟨_, partitionEncodeU32_spec hw hvalid hlargest hhybrid hlt hroom⟩
    · rw [if_neg h32]
      exact ⟨_, partitionEncode_generic_spec hw hvalid hroom⟩

end

theorem fieldsSize_le_bitsCapacity (src : List Nat) {room : Nat}
    (h : bitsCapacity params src.length ≤ room) :
    fieldsSize (src.map (fieldOf params)) ≤ 8 * room := by
  have hfield : ∀ v, (fieldOf params v).2 ≤ params.computeBits.foldl max 0 := by
    intro v
    rw [fieldOf, List.getD_eq_getElem?_getD]
    cases hbits : params.computeBits[bucketOf params v]? with
    | none => exact Nat.zero_le _
    | some b => exact (le_foldl_max _ _).2 b (List.mem_of_getElem? hbits)
  have hsum : fieldsSize (src.map (fieldOf params)) ≤
      params.computeBits.foldl max 0 * src.length := by
    clear h
    induction src with
    | nil => exact Nat.zero_le _
    | cons v src ih =>
      rw [List.map_cons, fieldsSize_cons, List.length_cons, Nat.mul_succ]
      have hv := hfield v
      omega
  rw [bitsCapacity] at h
  omega

end Ways

end OpenZL.Codecs.Partition
