import OpenZL.Codecs.BitpackEncode
import OpenZL.Lib.Shuffles

/-!
# The BMI2 bitpack encoders

`ZS_BITPACK_ENCODE_8_T` and `ZS_BITPACK_ENCODE_16_T`: sixteen or eight elements are narrowed to
8-bit or 16-bit lanes by vector instructions, packed by `_pext_u64` and written eight bytes at a
time; the other elements go to a generic encoder.

Principal results: `Encodes.bitpackEncode8T`, `Encodes.bitpackEncode16T`, `narrows_…`.
-/

namespace OpenZL.Codecs.Bitpack.InMemory

open OpenZL.Lib
open OpenZL.Lib.Simd (pext_ofLanes_one pext_ofLanes_two)

/-! ## Conversions

Each reads the elements from memory and returns the register it stores. -/

/-- `convert16U8ToU8`. -/
def convert16U8ToU8 (src : List Nat) : List UInt8 := Simd.loadu (Simd.ofLanes 1 src) 0 16

/-- `convert16U16ToU8`. -/
def convert16U16ToU8 (src : List Nat) : List UInt8 :=
  let mem := Simd.ofLanes 2 src
  Simd.packus 1 (Simd.loadu mem 0 16) (Simd.loadu mem (2 * 8) 16)

/-- `convert16U32ToU8`. -/
def convert16U32ToU8 (src : List Nat) : List UInt8 :=
  let mem := Simd.ofLanes 4 src
  let src04V := Simd.packus 2 (Simd.loadu mem (4 * 0x0) 16) (Simd.loadu mem (4 * 0x4) 16)
  let src8CV := Simd.packus 2 (Simd.loadu mem (4 * 0x8) 16) (Simd.loadu mem (4 * 0xC) 16)
  Simd.packus 1 src04V src8CV

/-- The loads and shuffles of `convert16U64ToU8`, on the bytes of the elements. -/
def gather16U64 (src8 : List UInt8) : List UInt8 :=
  let src04V := Shuffles.orSi (Simd.loadu src8 0x00 32) (Simd.loadu src8 0x1F 32)
  let src8CV := Shuffles.orSi (Simd.loadu src8 0x3E 32) (Simd.loadu src8 0x5D 32)
  let src048CV := Shuffles.orSi src04V src8CV
  let packedV := Simd.castsi256 (Shuffles.permutevar8x32 src048CV [0, 2, 4, 6, 0, 2, 4, 6])
  Shuffles.shuffle128 packedV [0, 4, 8, 12, 1, 5, 9, 13, 2, 6, 10, 14, 3, 7, 11, 15]

/-- `convert16U64ToU8`. -/
def convert16U64ToU8 (src : List Nat) : List UInt8 := gather16U64 (Simd.ofLanes 8 src)

/-- `convert8U16ToU16`. -/
def convert8U16ToU16 (src : List Nat) : List UInt8 := Simd.loadu (Simd.ofLanes 2 src) 0 16

/-- `convert8U32ToU16`. -/
def convert8U32ToU16 (src : List Nat) : List UInt8 :=
  let mem := Simd.ofLanes 4 src
  Simd.packus 2 (Simd.loadu mem (4 * 0x0) 16) (Simd.loadu mem (4 * 0x4) 16)

/-- `convert8U64ToU16`; the offsets count elements of four bytes. -/
def convert8U64ToU16 (src : List Nat) : List UInt8 :=
  let src32 := Simd.ofLanes 8 src
  let src02V := Shuffles.orSi (Simd.loadu src32 (4 * 0x0) 16) (Simd.loadu src32 (4 * 0x3) 16)
  let src46V := Shuffles.orSi (Simd.loadu src32 (4 * 0x8) 16) (Simd.loadu src32 (4 * 0xB) 16)
  Shuffles.shuffle128 (Simd.packus 2 src02V src46V)
    [0, 1, 4, 5, 2, 3, 6, 7, 8, 9, 12, 13, 10, 11, 14, 15]

/-- The loop of `ZS_BITPACK_ENCODE_8_T`; the conversion reads sixteen elements. -/
def encode8Fast (convert16Fn : List Nat → List UInt8) (nbBits oend : Nat) (dst : List UInt8)
    (op : Nat) (ip : List Nat) : Option (List UInt8 × Nat × List Nat) :=
  if op + nbBits + 7 < oend then
    if _h : ip.length < 16 then none
    else do
      let ints := convert16Fn ip
      let dst ← store dst op 8 (pext (ofLE (Simd.loadu ints 0 8)) (byteMask nbBits))
      let op := op + nbBits
      let dst ← store dst op 8 (pext (ofLE (Simd.loadu ints 8 8)) (byteMask nbBits))
      encode8Fast convert16Fn nbBits oend dst (op + nbBits) (ip.drop 16)
  else some (dst, op, ip)
termination_by ip.length
decreasing_by
  rw [List.length_drop]
  omega

/-- The loop of `ZS_BITPACK_ENCODE_16_T` for even `nbBits`; the conversion reads eight
elements. -/
def encode16FastEven (convert8Fn : List Nat → List UInt8) (nbBits oend : Nat) (dst : List UInt8)
    (op : Nat) (ip : List Nat) : Option (List UInt8 × Nat × List Nat) :=
  if op + max (nbBits / 2 + 7) nbBits < oend then
    if _h : ip.length < 8 then none
    else do
      let ints := convert8Fn ip
      let dst ← store dst op 8 (pext (ofLE (Simd.loadu ints (2 * 0) 8)) (wordMask nbBits))
      let op := op + nbBits / 2
      let dst ← store dst op 8 (pext (ofLE (Simd.loadu ints (2 * 4) 8)) (wordMask nbBits))
      encode16FastEven convert8Fn nbBits oend dst (op + nbBits / 2) (ip.drop 8)
  else some (dst, op, ip)
termination_by ip.length
decreasing_by
  rw [List.length_drop]
  omega

/-- The loop of `ZS_BITPACK_ENCODE_16_T` for odd `nbBits`: the two halves of a round meet in the
middle of a byte. -/
def encode16FastOdd (convert8Fn : List Nat → List UInt8) (nbBits oend : Nat) (dst : List UInt8)
    (op : Nat) (ip : List Nat) : Option (List UInt8 × Nat × List Nat) :=
  if op + max (nbBits / 2 + 7) nbBits < oend then
    if _h : ip.length < 8 then none
    else do
      let ints := convert8Fn ip
      let bits0 := pext (ofLE (Simd.loadu ints (2 * 0) 8)) (wordMask nbBits)
      let dst ← store dst op 8 bits0
      let bits1 := pext (ofLE (Simd.loadu ints (2 * 4) 8)) (wordMask nbBits)
      let dst ← store dst (op + nbBits / 2) 8
        (bits0 >>> (nbBits * 4 - 4) ||| (bits1 <<< 4) % 2 ^ 64)
      encode16FastOdd convert8Fn nbBits oend dst (op + nbBits) (ip.drop 8)
  else some (dst, op, ip)
termination_by ip.length
decreasing_by
  rw [List.length_drop]
  omega

/-- The end of both templates: the leftovers go behind what the loop has written, and have to
end at `oend`. -/
def encodeLeftovers (leftoversFn : Encoder) (nbBits oend : Nat)
    (r : Option (List UInt8 × Nat × List Nat)) : Option (Nat × List UInt8) := do
  let (dst, op, ip) ← r
  let (n, out) ← leftoversFn (dst.drop op) ip nbBits
  if op + n = oend then some (oend, dst.take op ++ out) else none

/-- `ZS_BITPACK_ENCODE_8_T`. -/
def bitpackEncode8T (convert16Fn : List Nat → List UInt8) (leftoversFn : Encoder) : Encoder :=
  fun dst ip nbBits =>
    let oend := bitpackEncodeBound ip.length nbBits
    encodeLeftovers leftoversFn nbBits oend (encode8Fast convert16Fn nbBits oend dst 0 ip)

/-- `ZS_BITPACK_ENCODE_16_T`. -/
def bitpackEncode16T (convert8Fn : List Nat → List UInt8) (leftoversFn : Encoder) : Encoder :=
  fun dst ip nbBits =>
    let oend := bitpackEncodeBound ip.length nbBits
    encodeLeftovers leftoversFn nbBits oend
      (if nbBits % 2 = 0 then encode16FastEven convert8Fn nbBits oend dst 0 ip
        else encode16FastOdd convert8Fn nbBits oend dst 0 ip)

/-- The conversion yields the first `n` elements in lanes of `k` bytes, if they fit there. -/
def Narrows (convert : List Nat → List UInt8) (k n : Nat) : Prop :=
  ∀ src : List Nat, n ≤ src.length → (∀ v ∈ src, v < 2 ^ (8 * k)) →
    convert src = Simd.ofLanes k (src.take n)

theorem mem_take_drop {p : Nat → Prop} {src : List Nat} (h : ∀ v ∈ src, p v) (i n : Nat) :
    ∀ v ∈ (src.drop i).take n, p v :=
  fun v hv => h v (List.mem_of_mem_drop (List.mem_of_mem_take hv))

theorem length_take_drop {src : List Nat} {i n : Nat} (h : i + n ≤ src.length) :
    ((src.drop i).take n).length = n := by
  rw [List.length_take, List.length_drop]
  omega

theorem narrows_convert16U8ToU8 : Narrows convert16U8ToU8 1 16 :=
  fun src _ _ => Simd.loadu_ofLanes 1 src 0 16

theorem narrows_convert16U16ToU8 : Narrows convert16U16ToU8 1 16 := by
  intro src hlen hsrc
  have h0 := Simd.loadu_ofLanes 2 src 0 8
  have h8 := Simd.loadu_ofLanes 2 src 8 8
  rw [convert16U16ToU8]
  rw [h0, h8, Simd.packus_ofLanes (k := 1) (by decide) (mem_take_drop hsrc 0 8)
    (mem_take_drop hsrc 8 8) (length_take_drop (by omega)) (length_take_drop hlen)]
  rw [List.drop_zero, ← List.take_add]

theorem narrows_convert16U32ToU8 : Narrows convert16U32ToU8 1 16 := by
  intro src hlen hsrc
  have hsrc' := lt_two_pow_of_le (by decide : 8 * 1 ≤ 8 * 2) hsrc
  have hload : ∀ i, Simd.loadu (Simd.ofLanes 4 src) (4 * i) 16 =
      Simd.ofLanes 4 ((src.drop i).take 4) := fun i => Simd.loadu_ofLanes 4 src i 4
  rw [convert16U32ToU8]
  rw [hload, hload, hload, hload,
    Simd.packus_ofLanes (k := 2) (by decide) (mem_take_drop hsrc' 0 4) (mem_take_drop hsrc' 4 4)
      (length_take_drop (by omega)) (length_take_drop (by omega)),
    Simd.packus_ofLanes (k := 2) (by decide) (mem_take_drop hsrc' 8 4) (mem_take_drop hsrc' 12 4)
      (length_take_drop (by omega)) (length_take_drop hlen)]
  have hjoin : ∀ i, (src.drop i).take 4 ++ (src.drop (i + 4)).take 4 = (src.drop i).take 8 := by
    intro i
    rw [← List.drop_drop, ← List.take_add]
  rw [show (4 : Nat) = 0 + 4 from rfl, hjoin 0, show (0xC : Nat) = 8 + 4 from rfl, hjoin 8,
    Simd.packus_ofLanes (k := 1) (by decide) (mem_take_drop hsrc 0 8) (mem_take_drop hsrc 8 8)
      (length_take_drop (by omega)) (length_take_drop hlen)]
  rw [List.drop_zero, ← List.take_add]

theorem toLE_eight_of_lt {v : Nat} (h : v < 2 ^ 16) :
    toLE 8 v = UInt8.ofNat v :: UInt8.ofNat (v / 256) :: List.replicate 6 0 := by
  simp [toLE, Nat.div_div_eq_div_mul, Nat.div_eq_of_lt (by omega : v < 65536)]

theorem toLE_four_of_lt {v : Nat} (h : v < 2 ^ 16) :
    toLE 4 v = UInt8.ofNat v :: UInt8.ofNat (v / 256) :: List.replicate 2 0 := by
  simp [toLE, Nat.div_div_eq_div_mul, Nat.div_eq_of_lt (by omega : v < 65536)]

theorem gather16U64_eq {bs : List UInt8} (hlen : bs.length = 16) (rest : List UInt8) :
    gather16U64 (bs.flatMap (fun b => b :: List.replicate 7 0) ++ rest) = bs := by
  match bs, hlen with
  | [b0, b1, b2, b3, b4, b5, b6, b7, b8, b9, bA, bB, bC, bD, bE, bF], _ =>
    have hor : ∀ b : UInt8, b ||| 0 = b := fun b => UInt8.or_zero
    have hor' : ∀ b : UInt8, 0 ||| b = b := fun b => UInt8.zero_or
    simp only [gather16U64, Simd.loadu, Shuffles.orSi, List.flatMap_cons, List.flatMap_nil,
      List.replicate, List.cons_append, List.nil_append, List.append_nil, List.drop_succ_cons,
      List.drop_zero, List.take_succ_cons, List.take_zero, List.zipWith_cons_cons,
      List.zipWith_nil_left, Shuffles.or_uint8, hor, hor']
    rfl

theorem narrows_convert16U64ToU8 : Narrows convert16U64ToU8 1 16 := by
  intro src hlen hsrc
  have hcell : ∀ v ∈ src.take 16, toLE 8 v = UInt8.ofNat v :: List.replicate 7 0 := by
    intro v hv
    have hv := hsrc v (List.mem_of_mem_take hv)
    rw [toLE_eight_of_lt (by omega), Nat.div_eq_of_lt (by omega)]
    rfl
  have hcells : Simd.ofLanes 8 (src.take 16) =
      ((src.take 16).map UInt8.ofNat).flatMap (fun b => b :: List.replicate 7 0) := by
    rw [List.flatMap_map]
    exact List.flatMap_congr hcell
  have hlow : (src.take 16).map UInt8.ofNat = Simd.ofLanes 1 (src.take 16) := List.map_eq_flatMap
  rw [convert16U64ToU8]
  conv_lhs => rw [← List.take_append_drop 16 src]
  rw [Simd.ofLanes_append, hcells, gather16U64_eq, hlow]
  rw [List.length_map, List.length_take]
  omega

theorem narrows_convert8U16ToU16 : Narrows convert8U16ToU16 2 8 :=
  fun src _ _ => Simd.loadu_ofLanes 2 src 0 8

theorem narrows_convert8U32ToU16 : Narrows convert8U32ToU16 2 8 := by
  intro src hlen hsrc
  have h0 := Simd.loadu_ofLanes 4 src 0 4
  have h4 := Simd.loadu_ofLanes 4 src 4 4
  rw [convert8U32ToU16]
  rw [h0, h4, Simd.packus_ofLanes (k := 2) (by decide) (mem_take_drop hsrc 0 4)
    (mem_take_drop hsrc 4 4) (length_take_drop (by omega)) (length_take_drop hlen)]
  rw [List.drop_zero, ← List.take_add]

theorem orSi_loadu {a b c d : Nat} (h : ∀ v ∈ [a, b, c, d], v < 2 ^ 16) (rest : List UInt8) :
    Shuffles.orSi (Simd.loadu (Simd.ofLanes 8 [a, b, c, d] ++ rest) 0 16)
        (Simd.loadu (Simd.ofLanes 8 [a, b, c, d] ++ rest) 12 16) =
      Simd.ofLanes 4 [a, c, b, d] := by
  have hor : ∀ b : UInt8, b ||| 0 = b := fun b => UInt8.or_zero
  have hor' : ∀ b : UInt8, 0 ||| b = b := fun b => UInt8.zero_or
  simp only [List.forall_mem_cons] at h
  obtain ⟨ha, hb, hc, hd, -⟩ := h
  simp only [Simd.ofLanes, List.flatMap_cons, List.flatMap_nil, toLE_eight_of_lt ha,
    toLE_eight_of_lt hb, toLE_eight_of_lt hc, toLE_eight_of_lt hd, toLE_four_of_lt ha,
    toLE_four_of_lt hb, toLE_four_of_lt hc, toLE_four_of_lt hd, Simd.loadu, Shuffles.orSi,
    List.replicate, List.cons_append, List.nil_append, List.append_nil, List.drop_succ_cons,
    List.drop_zero, List.take_succ_cons, List.take_zero, List.zipWith_cons_cons,
    List.zipWith_nil_left, Shuffles.or_uint8, hor, hor']

theorem narrows_convert8U64ToU16 : Narrows convert8U64ToU16 2 8 := by
  intro src hlen hsrc
  have htake : (src.take 8).length = 8 := by
    rw [List.length_take]
    omega
  have hall : ∀ v ∈ src.take 8, v < 2 ^ 16 := fun v hv => hsrc v (List.mem_of_mem_take hv)
  rw [convert8U64ToU16]
  conv_lhs => rw [← List.take_append_drop 8 src]
  generalize src.take 8 = vs at htake hall
  match vs, htake with
  | [a, b, c, d, e, f, g, i], _ =>
    have hlow : ∀ v ∈ [a, b, c, d], v < 2 ^ 16 := fun v hv => hall v (by simp at hv ⊢; tauto)
    have hhigh : ∀ v ∈ [e, f, g, i], v < 2 ^ 16 := fun v hv => hall v (by simp at hv ⊢; tauto)
    have hmem : Simd.ofLanes 8 ([a, b, c, d, e, f, g, i] ++ src.drop 8) =
        Simd.ofLanes 8 [a, b, c, d] ++
          (Simd.ofLanes 8 [e, f, g, i] ++ Simd.ofLanes 8 (src.drop 8)) := by
      rw [← Simd.ofLanes_append, ← Simd.ofLanes_append]
      rfl
    have hshift : ∀ off n, Simd.loadu (Simd.ofLanes 8 [a, b, c, d] ++
          (Simd.ofLanes 8 [e, f, g, i] ++ Simd.ofLanes 8 (src.drop 8))) (32 + off) n =
        Simd.loadu (Simd.ofLanes 8 [e, f, g, i] ++ Simd.ofLanes 8 (src.drop 8)) off n := by
      intro off n
      have h32 : (Simd.ofLanes 8 [a, b, c, d]).length = 32 := Simd.length_ofLanes 8 _
      rw [Simd.loadu, ← List.drop_drop, List.drop_left' h32]
      rfl
    have h0 := orSi_loadu hlow (Simd.ofLanes 8 [e, f, g, i] ++ Simd.ofLanes 8 (src.drop 8))
    have h8 := orSi_loadu hhigh (Simd.ofLanes 8 (src.drop 8))
    rw [← hshift, ← hshift] at h8
    have hpack : Simd.packus 2 (Simd.ofLanes 4 [a, c, b, d]) (Simd.ofLanes 4 [e, g, f, i]) =
        Simd.ofLanes 2 ([a, c, b, d] ++ [e, g, f, i]) :=
      Simd.packus_ofLanes (by decide) (by simp at hlow ⊢; tauto) (by simp at hhigh ⊢; tauto) rfl rfl
    rw [hmem, h0, h8, hpack]
    rfl

/-- A loop that starts after the `size` bits of `D` packs some of the elements and hands on the
others, on a whole byte. -/
def Advances (r : Option (List UInt8 × Nat × List Nat)) (capacity size D nbBits : Nat)
    (ip : List Nat) : Prop :=
  ∃ dst' op' us ip', r = some (dst', op', ip') ∧ ip = us ++ ip' ∧ dst'.length = capacity ∧
    Packed (size + us.length * nbBits) (D + 2 ^ size * Nat.ofDigits (2 ^ nbBits) us) dst' op' 0 0

section Loops

variable {r : Option (List UInt8 × Nat × List Nat)} {capacity size D nbBits op oend k : Nat}
  {dst : List UInt8} {ip us vs : List Nat} {convert : List Nat → List UInt8}

theorem Advances.done (h : Packed size D dst op 0 0) :
    Advances (some (dst, op, ip)) dst.length size D nbBits ip :=
  ⟨dst, op, [], ip, rfl, rfl, rfl, by simpa using h⟩

theorem Advances.append (us : List Nat)
    (h : Advances r capacity (size + us.length * nbBits)
      (D + 2 ^ size * Nat.ofDigits (2 ^ nbBits) us) nbBits ip) :
    Advances r capacity size D nbBits (us ++ ip) := by
  obtain ⟨dst', op', vs, ip', hr, rfl, hlen, hpacked⟩ := h
  refine ⟨dst', op', us ++ vs, ip', hr, (List.append_assoc _ _ _).symm, hlen, ?_⟩
  have hsize : size + (us ++ vs).length * nbBits =
      size + us.length * nbBits + vs.length * nbBits := by
    rw [List.length_append]
    ring
  rwa [hsize, add_ofDigits_append]

theorem put_group (h : Packed size D dst op 0 0) (hus : ∀ v ∈ us, v < 2 ^ nbBits)
    (hbits : us.length * nbBits = 8 * k) (hk : k ≤ 8) (hroom : op + 8 ≤ dst.length) :
    ∃ dst', store dst op 8 (Nat.ofDigits (2 ^ nbBits) us) = some dst' ∧
      dst'.length = dst.length ∧
        Packed (size + us.length * nbBits) (D + 2 ^ size * Nat.ofDigits (2 ^ nbBits) us) dst'
          (op + k) 0 0 := by
  have hlt := ofDigits_lt hus
  rw [hbits] at hlt ⊢
  exact h.put hlt hk hroom

theorem le_length_of_guard {m n : Nat}
    (hguard : op + m < op + bitpackEncodeBound n nbBits) (hm : 8 * m + 1 > (k - 1) * nbBits) :
    k ≤ n := by
  by_contra hlt
  have hmul : n * nbBits ≤ (k - 1) * nbBits := Nat.mul_le_mul_right nbBits (by omega)
  rw [bitpackEncodeBound] at hguard
  omega

/-- The two halves of a round, `q` elements each, and what `pext` makes of them. -/
theorem round_halves {q mask n a b : Nat}
    (hpext : ∀ {xs : List Nat}, xs.length = q → (∀ x ∈ xs, x < 2 ^ nbBits) →
      pext (ofLE (Simd.ofLanes k xs)) mask = Nat.ofDigits (2 ^ nbBits) xs)
    (hq : k * q = 8) (hn : n = q + q) (ha : a = 0) (hb : b = 8) (hlen : n ≤ ip.length)
    (hip : ∀ v ∈ ip, v < 2 ^ nbBits) :
    ∃ us vs, ip = us ++ (vs ++ ip.drop n) ∧ us.length = q ∧ vs.length = q ∧
      (∀ v ∈ us, v < 2 ^ nbBits) ∧ (∀ v ∈ vs, v < 2 ^ nbBits) ∧
      pext (ofLE (Simd.loadu (Simd.ofLanes k (ip.take n)) a 8)) mask =
        Nat.ofDigits (2 ^ nbBits) us ∧
      pext (ofLE (Simd.loadu (Simd.ofLanes k (ip.take n)) b 8)) mask =
        Nat.ofDigits (2 ^ nbBits) vs := by
  subst hn ha hb
  have hload : ∀ i, i + q ≤ q + q →
      Simd.loadu (Simd.ofLanes k (ip.take (q + q))) (k * i) 8 =
        Simd.ofLanes k ((ip.drop i).take q) := by
    intro i hi
    rw [← hq, Simd.loadu_ofLanes, List.drop_take, List.take_take, Nat.min_eq_left (by omega)]
  have hlow := hload 0 (by omega)
  have hhigh := hload q (Nat.le_refl _)
  rw [Nat.mul_zero, List.drop_zero] at hlow
  rw [hq] at hhigh
  have hus : (ip.take q).length = q := List.length_take_of_le (by omega)
  have hvs : ((ip.drop q).take q).length = q := length_take_drop hlen
  have husmall := mem_take_drop hip 0 q
  have hvsmall := mem_take_drop hip q q
  refine ⟨ip.take q, (ip.drop q).take q, ?_, hus, hvs, husmall, hvsmall, ?_, ?_⟩
  · rw [← List.drop_drop, List.take_append_drop, List.take_append_drop]
  · rw [hlow, hpext hus husmall]
  · rw [hhigh, hpext hvs hvsmall]

theorem bound_drop {m x : Nat} (hm : m ≤ ip.length) (hx : m * nbBits = 8 * x) :
    bitpackEncodeBound ip.length nbBits =
      x + bitpackEncodeBound (ip.drop m).length nbBits := by
  obtain ⟨n, hn⟩ := Nat.exists_eq_add_of_le hm
  rw [bitpackEncodeBound, bitpackEncodeBound, List.length_drop, hn, Nat.add_sub_cancel_left,
    Nat.add_mul, hx]
  omega

theorem encode8Fast_spec (hconv : Narrows convert 1 16) (hn : nbBits ≤ 8) (ip : List Nat)
    {dst : List UInt8} {size D op : Nat} (hip : ∀ v ∈ ip, v < 2 ^ nbBits)
    (h : Packed size D dst op 0 0) (hend : oend = op + bitpackEncodeBound ip.length nbBits)
    (hroom : oend ≤ dst.length) :
    Advances (encode8Fast convert nbBits oend dst op ip) dst.length size D nbBits ip := by
  rw [encode8Fast]
  split
  · rename_i hguard
    have h16 : 16 ≤ ip.length :=
      le_length_of_guard (m := nbBits + 7) (by rw [← hend]; omega) (by omega)
    obtain ⟨us, vs, hsplit, hus, hvs, husmall, hvsmall, hlow, hhigh⟩ :=
      round_halves (k := 1) (q := 8) (n := 16) (a := 0) (b := 8) (pext_ofLanes_one hn) rfl rfl rfl
        rfl h16 hip
    obtain ⟨dst₁, hstore₁, hlen₁, hp₁⟩ := put_group (k := nbBits) h husmall (by rw [hus]) hn
      (by omega)
    obtain ⟨dst₂, hstore₂, hlen₂, hp₂⟩ := put_group (k := nbBits) hp₁ hvsmall (by rw [hvs]) hn
      (by omega)
    have hbound := bound_drop h16 (by omega : 16 * nbBits = 8 * (nbBits + nbBits))
    have hrest := encode8Fast_spec hconv hn (ip.drop 16)
      (fun v hv => hip v (List.mem_of_mem_drop hv)) hp₂ (by omega) (by omega)
    rw [hlen₂, hlen₁] at hrest
    rw [dif_neg (by omega), hconv ip h16 (lt_two_pow_of_le hn hip)]
    simp only [hlow, hhigh, hstore₁, hstore₂, Option.bind_eq_bind, Option.bind_some]
    have hround := Advances.append _ (Advances.append _ hrest)
    rwa [← hsplit] at hround
  · exact Advances.done h
termination_by ip.length
decreasing_by
  rw [List.length_drop]
  omega

theorem encode16FastEven_spec (hconv : Narrows convert 2 8) (h2 : nbBits % 2 = 0)
    (hn : nbBits ≤ 16) (ip : List Nat) {dst : List UInt8} {size D op : Nat}
    (hip : ∀ v ∈ ip, v < 2 ^ nbBits) (h : Packed size D dst op 0 0)
    (hend : oend = op + bitpackEncodeBound ip.length nbBits) (hroom : oend ≤ dst.length) :
    Advances (encode16FastEven convert nbBits oend dst op ip) dst.length size D nbBits ip := by
  rw [encode16FastEven]
  split
  · rename_i hguard
    have h8 : 8 ≤ ip.length :=
      le_length_of_guard (m := max (nbBits / 2 + 7) nbBits) (by rw [← hend]; omega) (by omega)
    obtain ⟨us, vs, hsplit, hus, hvs, husmall, hvsmall, hlow, hhigh⟩ :=
      round_halves (k := 2) (q := 4) (n := 8) (a := 2 * 0) (b := 2 * 4) (pext_ofLanes_two hn) rfl
        rfl rfl rfl h8 hip
    obtain ⟨dst₁, hstore₁, hlen₁, hp₁⟩ := put_group (k := nbBits / 2) h husmall
      (by rw [hus]; omega) (by omega) (by omega)
    obtain ⟨dst₂, hstore₂, hlen₂, hp₂⟩ := put_group (k := nbBits / 2) hp₁ hvsmall
      (by rw [hvs]; omega) (by omega) (by omega)
    have hbound := bound_drop h8 (by omega : 8 * nbBits = 8 * (nbBits / 2 + nbBits / 2))
    have hrest := encode16FastEven_spec hconv h2 hn (ip.drop 8)
      (fun v hv => hip v (List.mem_of_mem_drop hv)) hp₂ (by omega) (by omega)
    rw [hlen₂, hlen₁] at hrest
    rw [dif_neg (by omega), hconv ip h8 (lt_two_pow_of_le hn hip)]
    simp only [hlow, hhigh, hstore₁, hstore₂, Option.bind_eq_bind, Option.bind_some]
    have hround := Advances.append _ (Advances.append _ hrest)
    rwa [← hsplit] at hround
  · exact Advances.done h
termination_by ip.length
decreasing_by
  rw [List.length_drop]
  omega

theorem put_halves (h : Packed size D dst op 0 0) (hus : ∀ v ∈ us, v < 2 ^ nbBits)
    (hvs : ∀ v ∈ vs, v < 2 ^ nbBits) (hlen : us.length = 4) (hlen' : vs.length = 4)
    (h2 : nbBits % 2 = 1) (hn : nbBits ≤ 15) (hroom : op + nbBits / 2 + 8 ≤ dst.length) :
    ∃ dst₁ dst₂, store dst op 8 (Nat.ofDigits (2 ^ nbBits) us) = some dst₁ ∧
      store dst₁ (op + nbBits / 2) 8 (Nat.ofDigits (2 ^ nbBits) us >>> (nbBits * 4 - 4) |||
        (Nat.ofDigits (2 ^ nbBits) vs <<< 4) % 2 ^ 64) = some dst₂ ∧
      dst₂.length = dst.length ∧
      Packed (size + us.length * nbBits + vs.length * nbBits)
        (D + 2 ^ size * Nat.ofDigits (2 ^ nbBits) us +
          2 ^ (size + us.length * nbBits) * Nat.ofDigits (2 ^ nbBits) vs) dst₂ (op + nbBits)
        0 0 := by
  have hlt := ofDigits_lt hus
  have hlt' := ofDigits_lt hvs
  rw [hlen] at hlt ⊢
  rw [hlen'] at hlt' ⊢
  have happend := h.append hlt
  rw [Nat.zero_add, Nat.zero_add, Nat.pow_zero, Nat.one_mul] at happend
  obtain ⟨dst₁, hstore₁, hlen₁, hcommit₁⟩ := happend.commit (k := nbBits / 2) (n := 8)
    (by omega) (by omega) (by omega)
  rw [show 4 * nbBits - 8 * (nbBits / 2) = 4 by omega,
    show nbBits / 2 * 8 = nbBits * 4 - 4 by omega] at hcommit₁
  have habsorb := hcommit₁.absorb hlt' (by omega)
  obtain ⟨dst₂, hstore₂, hlen₂, hcommit₂⟩ := habsorb.commit (k := (nbBits + 1) / 2) (n := 8)
    (by omega) (by omega) (by omega)
  refine ⟨dst₁, dst₂, hstore₁, hstore₂, hlen₂.trans hlen₁, ?_⟩
  rw [show 4 + 4 * nbBits - 8 * ((nbBits + 1) / 2) = 0 by omega,
    show op + nbBits / 2 + (nbBits + 1) / 2 = op + nbBits by omega] at hcommit₂
  have hacc := hcommit₂.acc_lt
  rw [Nat.pow_zero, Nat.lt_one_iff] at hacc
  rwa [hacc] at hcommit₂

theorem encode16FastOdd_spec (hconv : Narrows convert 2 8) (h2 : nbBits % 2 = 1)
    (hn : nbBits ≤ 15) (ip : List Nat) {dst : List UInt8} {size D op : Nat}
    (hip : ∀ v ∈ ip, v < 2 ^ nbBits) (h : Packed size D dst op 0 0)
    (hend : oend = op + bitpackEncodeBound ip.length nbBits) (hroom : oend ≤ dst.length) :
    Advances (encode16FastOdd convert nbBits oend dst op ip) dst.length size D nbBits ip := by
  rw [encode16FastOdd]
  split
  · rename_i hguard
    have h8 : 8 ≤ ip.length :=
      le_length_of_guard (m := max (nbBits / 2 + 7) nbBits) (by rw [← hend]; omega) (by omega)
    obtain ⟨us, vs, hsplit, hus, hvs, husmall, hvsmall, hlow, hhigh⟩ :=
      round_halves (k := 2) (q := 4) (n := 8) (a := 2 * 0) (b := 2 * 4)
        (pext_ofLanes_two (by omega)) rfl
        rfl rfl rfl h8 hip
    obtain ⟨dst₁, dst₂, hstore₁, hstore₂, hlen₂, hp₂⟩ :=
      put_halves h husmall hvsmall hus hvs h2 hn (by omega)
    have hbound := bound_drop h8 (rfl : 8 * nbBits = 8 * nbBits)
    have hrest := encode16FastOdd_spec hconv h2 hn (ip.drop 8)
      (fun v hv => hip v (List.mem_of_mem_drop hv)) hp₂ (by omega) (by omega)
    rw [hlen₂] at hrest
    rw [dif_neg (by omega), hconv ip h8 (lt_two_pow_of_le (by omega) hip)]
    simp only [hlow, hhigh, hstore₁, hstore₂, Option.bind_eq_bind, Option.bind_some]
    have hround := Advances.append _ (Advances.append _ hrest)
    rwa [← hsplit] at hround
  · exact Advances.done h
termination_by ip.length
decreasing_by
  rw [List.length_drop]
  omega

theorem encodeLeftovers_spec {leftovers : Encoder} {ip : List Nat}
    {r : Option (List UInt8 × Nat × List Nat)} (hleft : Encodes leftovers nbBits)
    (hip : ∀ v ∈ ip, v < 2 ^ nbBits) (hroom : bitpackEncodeBound ip.length nbBits ≤ capacity)
    (h : Advances r capacity 0 0 nbBits ip) :
    ∃ dst', encodeLeftovers leftovers nbBits (bitpackEncodeBound ip.length nbBits) r =
        some (bitpackEncodeBound ip.length nbBits, dst') ∧
      dst'.length = capacity ∧ Stored (ip.length * nbBits) (Nat.ofDigits (2 ^ nbBits) ip) dst' := by
  obtain ⟨dst, op, us, vs, rfl, rfl, rfl, hpacked⟩ := h
  have hbits := hpacked.bits
  rw [Nat.zero_add, Nat.add_zero] at hbits
  have hbound : bitpackEncodeBound (us ++ vs).length nbBits =
      op + bitpackEncodeBound vs.length nbBits := by
    rw [bitpackEncodeBound, bitpackEncodeBound, List.length_append, Nat.add_mul, ← hbits]
    omega
  obtain ⟨out, hrun, hlen, hstored⟩ := hleft (dst.drop op) vs
    (fun v hv => hip v (List.mem_append_right _ hv)) (by rw [List.length_drop]; omega)
  have hjoin := hpacked.join hstored
  rw [← add_ofDigits_append, Nat.zero_add, ← Nat.add_mul, ← List.length_append, Nat.zero_add,
    Nat.pow_zero, Nat.one_mul] at hjoin
  refine ⟨dst.take op ++ out, ?_, ?_, hjoin⟩
  · simp only [encodeLeftovers, Option.bind_eq_bind, Option.bind_some, hrun]
    rw [if_pos hbound.symm]
  · rw [List.length_append, List.length_take, hlen, List.length_drop]
    omega

end Loops

variable {convert : List Nat → List UInt8} {leftovers : Encoder} {nbBits : Nat}

theorem Encodes.bitpackEncode8T (hleft : Encodes leftovers nbBits) (hconv : Narrows convert 1 16)
    (hn : nbBits ≤ 8) : Encodes (bitpackEncode8T convert leftovers) nbBits := by
  intro dst src hsrc hroom
  exact encodeLeftovers_spec hleft hsrc hroom
    (encode8Fast_spec hconv hn src hsrc (Packed.start dst) (Nat.zero_add _).symm hroom)

theorem Encodes.bitpackEncode16T (hleft : Encodes leftovers nbBits) (hconv : Narrows convert 2 8)
    (hn : nbBits ≤ 16) : Encodes (bitpackEncode16T convert leftovers) nbBits := by
  intro dst src hsrc hroom
  refine encodeLeftovers_spec hleft hsrc hroom ?_
  split
  · rename_i h2
    exact encode16FastEven_spec hconv h2 hn src hsrc (Packed.start dst) (Nat.zero_add _).symm hroom
  · exact encode16FastOdd_spec hconv (by omega) (by omega) src hsrc (Packed.start dst)
      (Nat.zero_add _).symm hroom

end OpenZL.Codecs.Bitpack.InMemory
