import OpenZL.Codecs.BitpackDecode

/-!
# The BMI2 bitpack decoders

`ZS_BITPACK_DECODE_8_T` and `ZS_BITPACK_DECODE_16_T`: eight bytes of the source are spread out to
lanes by `_pdep_u64`, and sixteen or eight lanes are widened to elements by vector instructions;
the other elements come from a generic decoder.

Principal results: `Decodes.bitpackDecode8T`, `Decodes.bitpackDecode16T`, `widens_…`.
-/

namespace OpenZL.Codecs.Bitpack.InMemory

open OpenZL.Lib

/-! ## Conversions

Each reads a register of lanes and returns the bytes of the elements it stores. -/

/-- `convert16U8ToU8`, when decoding. -/
def convert16U8FromU8 (src : List UInt8) : List UInt8 := Simd.loadu src 0 16

/-- `convert16U8ToU16`. -/
def convert16U8ToU16 (src : List UInt8) : List UInt8 := Simd.cvtepu 1 2 16 (Simd.loadu src 0 16)

/-- `convert16U8ToU32`. -/
def convert16U8ToU32 (src : List UInt8) : List UInt8 :=
  let srcV := Simd.loadu src 0 16
  Simd.cvtepu 1 4 8 srcV ++ Simd.cvtepu 1 4 8 (Simd.srli srcV 8)

/-- `convert16U8ToU64`. -/
def convert16U8ToU64 (src : List UInt8) : List UInt8 :=
  let srcV := Simd.loadu src 0 16
  Simd.cvtepu 1 8 4 srcV ++ Simd.cvtepu 1 8 4 (Simd.srli srcV 4) ++
    Simd.cvtepu 1 8 4 (Simd.srli srcV 8) ++ Simd.cvtepu 1 8 4 (Simd.srli srcV 12)

/-- `convert8U16ToU16`, when decoding. -/
def convert8U16FromU16 (src : List UInt8) : List UInt8 := Simd.loadu src 0 16

/-- `convert8U16ToU32`. -/
def convert8U16ToU32 (src : List UInt8) : List UInt8 := Simd.cvtepu 2 4 8 (Simd.loadu src 0 16)

/-- `convert8U16ToU64`. -/
def convert8U16ToU64 (src : List UInt8) : List UInt8 :=
  let srcV := Simd.loadu src 0 16
  Simd.cvtepu 2 8 4 srcV ++ Simd.cvtepu 2 8 4 (Simd.srli srcV 8)

/-- The loop of `ZS_BITPACK_DECODE_8_T`; the conversion stores sixteen elements of `width`
bytes. -/
def decode8Fast (convert16Fn : List UInt8 → List UInt8) (width nbBits iend : Nat)
    (src : List UInt8) (ip n : Nat) : Option (List Nat × Nat × Nat) :=
  if ip + nbBits + 7 < iend then
    if _h : n < 16 then none
    else do
      let bits0 ← load src ip 8
      let ip := ip + nbBits
      let bits1 ← load src ip 8
      let ints := toLE 8 (pdep bits0 (byteMask nbBits)) ++ toLE 8 (pdep bits1 (byteMask nbBits))
      let (vs, ip, n) ← decode8Fast convert16Fn width nbBits iend src (ip + nbBits) (n - 16)
      some (Simd.lanes width 16 (convert16Fn ints) ++ vs, ip, n)
  else some ([], ip, n)
termination_by n

/-- The loop of `ZS_BITPACK_DECODE_16_T` for even `nbBits`; the conversion stores eight
elements. -/
def decode16FastEven (convert8Fn : List UInt8 → List UInt8) (width nbBits iend : Nat)
    (src : List UInt8) (ip n : Nat) : Option (List Nat × Nat × Nat) :=
  if ip + nbBits / 2 + 7 < iend then
    if _h : n < 8 then none
    else do
      let bits0 ← load src ip 8
      let ip := ip + nbBits / 2
      let bits1 ← load src ip 8
      let ints := toLE 8 (pdep bits0 (wordMask nbBits)) ++ toLE 8 (pdep bits1 (wordMask nbBits))
      let (vs, ip, n) ← decode16FastEven convert8Fn width nbBits iend src (ip + nbBits / 2) (n - 8)
      some (Simd.lanes width 8 (convert8Fn ints) ++ vs, ip, n)
  else some ([], ip, n)
termination_by n

/-- The loop of `ZS_BITPACK_DECODE_16_T` for odd `nbBits`. -/
def decode16FastOdd (convert8Fn : List UInt8 → List UInt8) (width nbBits iend : Nat)
    (src : List UInt8) (ip n : Nat) : Option (List Nat × Nat × Nat) :=
  if ip + nbBits / 2 + 7 < iend then
    if _h : n < 8 then none
    else do
      let bits0 ← load src ip 8
      let bits1 ← load src (ip + nbBits / 2) 8
      let ints := toLE 8 (pdep bits0 (wordMask nbBits)) ++
        toLE 8 (pdep (bits1 >>> 4) (wordMask nbBits))
      let (vs, ip, n) ← decode16FastOdd convert8Fn width nbBits iend src (ip + nbBits) (n - 8)
      some (Simd.lanes width 8 (convert8Fn ints) ++ vs, ip, n)
  else some ([], ip, n)
termination_by n

/-- The end of both templates: the leftovers come from behind what the loop has read, and have to
end at `iend`. -/
def decodeLeftovers (leftoversFn : Decoder) (nbBits iend : Nat) (src : List UInt8)
    (r : Option (List Nat × Nat × Nat)) : Option (Nat × List Nat) := do
  let (vs, ip, n) ← r
  let (consumed, rest) ← leftoversFn n (src.drop ip) nbBits
  if ip + consumed = iend then some (iend, vs ++ rest) else none

/-- `ZS_BITPACK_DECODE_8_T`. -/
def bitpackDecode8T (width : Nat) (convert16Fn : List UInt8 → List UInt8)
    (leftoversFn : Decoder) : Decoder := fun nbElts src nbBits =>
  let iend := bitpackEncodeBound nbElts nbBits
  decodeLeftovers leftoversFn nbBits iend src
    (decode8Fast convert16Fn width nbBits iend src 0 nbElts)

/-- `ZS_BITPACK_DECODE_16_T`. -/
def bitpackDecode16T (width : Nat) (convert8Fn : List UInt8 → List UInt8)
    (leftoversFn : Decoder) : Decoder := fun nbElts src nbBits =>
  let iend := bitpackEncodeBound nbElts nbBits
  decodeLeftovers leftoversFn nbBits iend src
    (if nbBits % 2 = 0 then decode16FastEven convert8Fn width nbBits iend src 0 nbElts
      else decode16FastOdd convert8Fn width nbBits iend src 0 nbElts)

/-- The conversion stores elements of `width` bytes that are its `n` lanes of `k` bytes. -/
def Widens (convert : List UInt8 → List UInt8) (k n width : Nat) : Prop :=
  ∀ es : List Nat, es.length = n → (∀ e ∈ es, e < 2 ^ (8 * k)) →
    Simd.lanes width n (convert (Simd.ofLanes k es)) = es

section Widening

variable {k width n : Nat} {es : List Nat}

theorem loadu_register (hlen : k * es.length = 16) :
    Simd.loadu (Simd.ofLanes k es) 0 16 = Simd.ofLanes k es := by
  rw [Simd.loadu, List.drop_zero, List.take_of_length_le]
  rw [Simd.length_ofLanes, hlen]

theorem cvtepu_append {xs : List Nat} (hxs : ∀ x ∈ xs, x < 2 ^ (8 * k)) (rest : List UInt8) :
    Simd.cvtepu k width xs.length (Simd.ofLanes k xs ++ rest) = Simd.ofLanes width xs := by
  rw [Simd.cvtepu, Simd.lanes, ofLE_append, Simd.ofLE_ofLanes hxs, Simd.length_ofLanes, pow256,
    ← Nat.mul_assoc, fields_add_mul, fields_ofDigits hxs]

theorem cvtepu_srli (width : Nat) {i m : Nat} (hi : i + m ≤ es.length)
    (hes : ∀ e ∈ es, e < 2 ^ (8 * k)) :
    Simd.cvtepu k width m (Simd.srli (Simd.ofLanes k es) (k * i)) =
      Simd.ofLanes width ((es.drop i).take m) := by
  have hdrop : (Simd.ofLanes k es).drop (k * i) =
      Simd.ofLanes k ((es.drop i).take m) ++ Simd.ofLanes k (es.drop (i + m)) := by
    conv_lhs => rw [← List.take_append_drop i es, Simd.ofLanes_append]
    rw [List.drop_left', ← Simd.ofLanes_append, ← List.drop_drop, List.take_append_drop]
    rw [Simd.length_ofLanes, List.length_take, Nat.min_eq_left (by omega)]
  have hlen : ((es.drop i).take m).length = m := by
    rw [List.length_take, List.length_drop]
    omega
  rw [Simd.srli, hdrop, List.append_assoc]
  nth_rewrite 1 [← hlen]
  exact cvtepu_append (fun x hx => hes x (List.mem_of_mem_drop (List.mem_of_mem_take hx))) _

theorem cvtepu_low {m : Nat} (hm : m ≤ es.length) (hes : ∀ e ∈ es, e < 2 ^ (8 * k)) :
    Simd.cvtepu k width m (Simd.ofLanes k es) = Simd.ofLanes width (es.take m) := by
  have hlen : (es.take m).length = m := by
    rw [List.length_take]
    omega
  conv_lhs => rw [← List.take_append_drop m es, Simd.ofLanes_append]
  nth_rewrite 1 [← hlen]
  exact cvtepu_append (fun x hx => hes x (List.mem_of_mem_take hx)) _

theorem Widens.of_ofLanes {convert : List UInt8 → List UInt8} (hk : k ≤ width)
    (h : ∀ es : List Nat, es.length = n → (∀ e ∈ es, e < 2 ^ (8 * k)) →
      convert (Simd.ofLanes k es) = Simd.ofLanes width es) : Widens convert k n width := by
  intro es hlen hes
  rw [h es hlen hes, ← hlen]
  exact Simd.lanes_ofLanes (lt_two_pow_of_le (by omega) hes)

end Widening

theorem widens_convert16U8FromU8 : Widens convert16U8FromU8 1 16 1 :=
  Widens.of_ofLanes (by decide) fun es hlen _ => loadu_register (by rw [hlen])

theorem widens_convert16U8ToU16 : Widens convert16U8ToU16 1 16 2 := by
  refine Widens.of_ofLanes (by decide) fun es hlen hes => ?_
  rw [convert16U8ToU16, loadu_register (by rw [hlen])]
  exact Simd.cvtepu_ofLanes hes hlen

theorem widens_convert16U8ToU32 : Widens convert16U8ToU32 1 16 4 := by
  refine Widens.of_ofLanes (by decide) fun es hlen hes => ?_
  have hhigh := cvtepu_srli 4 (i := 8) (m := 8) (by omega) hes
  rw [convert16U8ToU32, loadu_register (by rw [hlen]), cvtepu_low (by omega) hes]
  rw [show Simd.srli (Simd.ofLanes 1 es) 8 = Simd.srli (Simd.ofLanes 1 es) (1 * 8) from rfl, hhigh,
    ← Simd.ofLanes_append, ← List.take_add, List.take_of_length_le (by omega)]

theorem widens_convert16U8ToU64 : Widens convert16U8ToU64 1 16 8 := by
  refine Widens.of_ofLanes (by decide) fun es hlen hes => ?_
  have hshift : ∀ i, i + 4 ≤ 16 → Simd.cvtepu 1 8 4 (Simd.srli (Simd.ofLanes 1 es) i) =
      Simd.ofLanes 8 ((es.drop i).take 4) := by
    intro i hi
    have := cvtepu_srli 8 (i := i) (m := 4) (by omega) hes
    rwa [Nat.one_mul] at this
  rw [convert16U8ToU64, loadu_register (by rw [hlen]), cvtepu_low (by omega) hes,
    hshift 4 (by decide), hshift 8 (by decide), hshift 12 (by decide), ← Simd.ofLanes_append,
    ← Simd.ofLanes_append, ← Simd.ofLanes_append, ← List.take_add, ← List.take_add,
    ← List.take_add, List.take_of_length_le (by omega)]

theorem widens_convert8U16FromU16 : Widens convert8U16FromU16 2 8 2 :=
  Widens.of_ofLanes (by decide) fun es hlen _ => loadu_register (by rw [hlen])

theorem widens_convert8U16ToU32 : Widens convert8U16ToU32 2 8 4 := by
  refine Widens.of_ofLanes (by decide) fun es hlen hes => ?_
  rw [convert8U16ToU32, loadu_register (by rw [hlen])]
  exact Simd.cvtepu_ofLanes hes hlen

theorem widens_convert8U16ToU64 : Widens convert8U16ToU64 2 8 8 := by
  refine Widens.of_ofLanes (by decide) fun es hlen hes => ?_
  have hhigh := cvtepu_srli 8 (i := 4) (m := 4) (by omega) hes
  rw [convert8U16ToU64, loadu_register (by rw [hlen]), cvtepu_low (by omega) hes]
  rw [show Simd.srli (Simd.ofLanes 2 es) 8 = Simd.srli (Simd.ofLanes 2 es) (2 * 4) from rfl, hhigh,
    ← Simd.ofLanes_append, ← List.take_add, List.take_of_length_le (by omega)]

/-- A loop at byte `ip` of the source returns some of the `n` fields there and hands on the
others, on a whole byte. -/
def Returns (r : Option (List Nat × Nat × Nat)) (src : List UInt8) (ip nbBits n : Nat) : Prop :=
  ∃ m n' ip', r = some (fields nbBits m (ofLE src / 2 ^ (8 * ip)), ip', n') ∧ m + n' = n ∧
    8 * ip + m * nbBits = 8 * ip'

section Loops

variable {src : List UInt8} {ip iend nbBits n k w width c : Nat}
  {convert : List UInt8 → List UInt8}

theorem Returns.done : Returns (some ([], ip, n)) src ip nbBits n :=
  ⟨0, n, ip, rfl, Nat.zero_add n, by rw [Nat.zero_mul, Nat.add_zero]⟩

theorem toLE_ofDigits {es : List Nat} (hes : ∀ e ∈ es, e < 2 ^ (8 * k)) :
    toLE (k * es.length) (Nat.ofDigits (2 ^ (8 * k)) es) = Simd.ofLanes k es := by
  rw [← Simd.ofLE_ofLanes hes, ← Simd.length_ofLanes, toLE_ofLE]

theorem toLE_pdep_byteMask (hw : w ≤ 8) (x : Nat) :
    toLE 8 (pdep x (byteMask w)) = Simd.ofLanes 1 (fields w 8 x) := by
  rw [pdep_byteMask hw]
  have h := toLE_ofDigits (k := 1)
    (lt_two_pow_of_le (by omega) fun e (he : e ∈ fields w 8 x) => lt_of_mem_fields he)
  rwa [length_fields] at h

theorem toLE_pdep_wordMask (hw : w ≤ 16) (x : Nat) :
    toLE 8 (pdep x (wordMask w)) = Simd.ofLanes 2 (fields w 4 x) := by
  rw [pdep_wordMask hw]
  have h := toLE_ofDigits (k := 2)
    (lt_two_pow_of_le (by omega) fun e (he : e ∈ fields w 4 x) => lt_of_mem_fields he)
  rwa [length_fields] at h

theorem lanes_round {j k : Nat} (hconv : Widens convert j (k + k) width) (hw : nbBits ≤ 8 * j)
    (N c : Nat) :
    Simd.lanes width (k + k) (convert (Simd.ofLanes j (fields nbBits k (N / 2 ^ c)) ++
      Simd.ofLanes j (fields nbBits k (N / 2 ^ (c + k * nbBits))))) =
        fields nbBits (k + k) (N / 2 ^ c) := by
  rw [← Simd.ofLanes_append, ← fields_split]
  exact hconv _ (length_fields _ _ _)
    (lt_two_pow_of_le hw fun e he => lt_of_mem_fields he)

theorem Returns.round {r : Option (List Nat × Nat × Nat)} {ip' : Nat} (m : Nat)
    (h : Returns r src ip' nbBits n) (hpos : 8 * ip + m * nbBits = 8 * ip') :
    Returns (r.bind fun s => some (fields nbBits m (ofLE src / 2 ^ (8 * ip)) ++ s.1, s.2)) src ip
      nbBits (m + n) := by
  obtain ⟨m', n', ip'', rfl, rfl, hend⟩ := h
  refine ⟨m + m', n', ip'', ?_, Nat.add_assoc _ _ _, by rw [Nat.add_mul]; omega⟩
  rw [fields_split, hpos]
  rfl

theorem le_of_guard {m : Nat} (hguard : ip + m < iend)
    (hend : iend = ip + bitpackEncodeBound n nbBits) (hm : 8 * m + 1 > (k - 1) * nbBits) :
    k ≤ n := by
  by_contra hlt
  have hmul : n * nbBits ≤ (k - 1) * nbBits := Nat.mul_le_mul_right nbBits (by omega)
  rw [bitpackEncodeBound] at hend
  omega

theorem bound_add {k x : Nat} (m : Nat) (hx : k * nbBits = 8 * x) :
    bitpackEncodeBound (k + m) nbBits = x + bitpackEncodeBound m nbBits := by
  rw [bitpackEncodeBound, bitpackEncodeBound, Nat.add_mul, hx]
  omega

theorem decode8Fast_spec (hconv : Widens convert 1 16 width) (hn : nbBits ≤ 8) (n ip : Nat)
    (hend : iend = ip + bitpackEncodeBound n nbBits) (hroom : iend ≤ src.length) :
    Returns (decode8Fast convert width nbBits iend src ip n) src ip nbBits n := by
  rw [decode8Fast]
  split
  · rename_i hguard
    have h16 : 16 ≤ n := le_of_guard (m := nbBits + 7) (by omega) hend (by omega)
    obtain ⟨m, rfl⟩ := Nat.exists_eq_add_of_le h16
    obtain ⟨x, hx, hxw, -⟩ := Window.load (by omega : ip + 8 ≤ src.length)
    obtain ⟨y, hy, hyw, -⟩ := Window.load (by omega : ip + nbBits + 8 ≤ src.length)
    have hfx := hxw.fields_eq (by omega : nbBits * 8 ≤ 8 * 8)
    have hfy := hyw.fields_eq (by omega : nbBits * 8 ≤ 8 * 8)
    rw [Nat.mul_add] at hfy
    have hbound := bound_add m (by omega : 16 * nbBits = 8 * (nbBits + nbBits))
    have hrest := decode8Fast_spec hconv hn m (ip + nbBits + nbBits) (by omega) hroom
    have hround := lanes_round (k := 8) hconv (by omega : nbBits ≤ 8 * 1) (ofLE src) (8 * ip)
    rw [dif_neg (by omega)]
    simp only [hx, hy, Option.bind_eq_bind, Option.bind_some, toLE_pdep_byteMask hn, hfx, hfy,
      Nat.add_sub_cancel_left]
    rw [hround]
    exact hrest.round 16 (by omega)
  · exact Returns.done
termination_by n

theorem decode16FastEven_spec (hconv : Widens convert 2 8 width) (h2 : nbBits % 2 = 0)
    (hn : nbBits ≤ 16) (n ip : Nat) (hend : iend = ip + bitpackEncodeBound n nbBits)
    (hroom : iend ≤ src.length) :
    Returns (decode16FastEven convert width nbBits iend src ip n) src ip nbBits n := by
  rw [decode16FastEven]
  split
  · rename_i hguard
    have h8 : 8 ≤ n := le_of_guard (m := nbBits / 2 + 7) (by omega) hend (by omega)
    obtain ⟨m, rfl⟩ := Nat.exists_eq_add_of_le h8
    obtain ⟨x, hx, hxw, -⟩ := Window.load (by omega : ip + 8 ≤ src.length)
    obtain ⟨y, hy, hyw, -⟩ := Window.load (by omega : ip + nbBits / 2 + 8 ≤ src.length)
    have hfx := hxw.fields_eq (by omega : nbBits * 4 ≤ 8 * 8)
    have hfy := hyw.fields_eq (by omega : nbBits * 4 ≤ 8 * 8)
    rw [show 8 * (ip + nbBits / 2) = 8 * ip + 4 * nbBits by omega] at hfy
    have hbound := bound_add m (by omega : 8 * nbBits = 8 * (nbBits / 2 + nbBits / 2))
    have hrest := decode16FastEven_spec hconv h2 hn m (ip + nbBits / 2 + nbBits / 2) (by omega)
      hroom
    have hround := lanes_round (k := 4) hconv (by omega : nbBits ≤ 8 * 2) (ofLE src) (8 * ip)
    rw [dif_neg (by omega)]
    simp only [hx, hy, Option.bind_eq_bind, Option.bind_some, toLE_pdep_wordMask hn, hfx, hfy,
      Nat.add_sub_cancel_left]
    rw [hround]
    exact hrest.round 8 (by omega)
  · exact Returns.done
termination_by n

theorem decode16FastOdd_spec (hconv : Widens convert 2 8 width) (h2 : nbBits % 2 = 1)
    (hn : nbBits ≤ 15) (n ip : Nat) (hend : iend = ip + bitpackEncodeBound n nbBits)
    (hroom : iend ≤ src.length) :
    Returns (decode16FastOdd convert width nbBits iend src ip n) src ip nbBits n := by
  rw [decode16FastOdd]
  split
  · rename_i hguard
    have h8 : 8 ≤ n := le_of_guard (m := nbBits / 2 + 7) (by omega) hend (by omega)
    obtain ⟨m, rfl⟩ := Nat.exists_eq_add_of_le h8
    obtain ⟨x, hx, hxw, -⟩ := Window.load (by omega : ip + 8 ≤ src.length)
    obtain ⟨y, hy, hyw, -⟩ := Window.load (by omega : ip + nbBits / 2 + 8 ≤ src.length)
    have hfx := hxw.fields_eq (by omega : nbBits * 4 ≤ 8 * 8)
    -- The second half starts in the middle of a byte.
    have hfy := (hyw.shift (by decide : 4 ≤ 8 * 8)).fields_eq
      (by omega : nbBits * 4 ≤ 8 * 8 - 4)
    rw [show 8 * (ip + nbBits / 2) + 4 = 8 * ip + 4 * nbBits by omega] at hfy
    have hbound : bitpackEncodeBound (8 + m) nbBits = nbBits + bitpackEncodeBound m nbBits :=
      bound_add m rfl
    have hrest := decode16FastOdd_spec hconv h2 hn m (ip + nbBits) (by omega) hroom
    have hround := lanes_round (k := 4) hconv (by omega : nbBits ≤ 8 * 2) (ofLE src) (8 * ip)
    rw [dif_neg (by omega)]
    simp only [hx, hy, Option.bind_eq_bind, Option.bind_some,
      toLE_pdep_wordMask (by omega : nbBits ≤ 16), hfx, hfy, Nat.add_sub_cancel_left]
    rw [hround]
    exact hrest.round 8 (by omega)
  · exact Returns.done
termination_by n

theorem decodeLeftovers_spec {leftovers : Decoder} {r : Option (List Nat × Nat × Nat)}
    (hleft : Decodes leftovers nbBits) (hlen : bitpackEncodeBound n nbBits = src.length)
    (h : Returns r src 0 nbBits n) :
    decodeLeftovers leftovers nbBits (bitpackEncodeBound n nbBits) src r =
      some (src.length, fields nbBits n (ofLE src)) := by
  obtain ⟨m, n', ip, rfl, rfl, hpos⟩ := h
  rw [Nat.mul_zero, Nat.zero_add] at hpos
  have hbound : bitpackEncodeBound (m + n') nbBits = ip + bitpackEncodeBound n' nbBits :=
    bound_add n' hpos
  have hdrop : bitpackEncodeBound n' nbBits = (src.drop ip).length := by
    rw [List.length_drop]
    omega
  have hvalue : ofLE (src.drop ip) = ofLE src / 2 ^ (0 + m * nbBits) := by
    rw [ofLE_drop, pow256, Nat.zero_add, hpos]
  simp only [decodeLeftovers, Option.bind_eq_bind, Option.bind_some, hleft n' _ hdrop]
  rw [if_pos (by omega), hlen, hvalue, Nat.mul_zero, ← fields_split, Nat.pow_zero, Nat.div_one]

end Loops

variable {convert : List UInt8 → List UInt8} {leftovers : Decoder} {width nbBits : Nat}

theorem Decodes.bitpackDecode8T (hleft : Decodes leftovers nbBits)
    (hconv : Widens convert 1 16 width) (hn : nbBits ≤ 8) :
    Decodes (bitpackDecode8T width convert leftovers) nbBits := by
  intro n src hlen
  exact decodeLeftovers_spec hleft hlen
    (decode8Fast_spec hconv hn n 0 (Nat.zero_add _).symm hlen.le)

theorem Decodes.bitpackDecode16T (hleft : Decodes leftovers nbBits)
    (hconv : Widens convert 2 8 width) (hn : nbBits ≤ 16) :
    Decodes (bitpackDecode16T width convert leftovers) nbBits := by
  intro n src hlen
  refine decodeLeftovers_spec hleft hlen ?_
  split
  · rename_i h2
    exact decode16FastEven_spec hconv h2 hn n 0 (Nat.zero_add _).symm hlen.le
  · exact decode16FastOdd_spec hconv (by omega) (by omega) n 0 (Nat.zero_add _).symm hlen.le

end OpenZL.Codecs.Bitpack.InMemory
