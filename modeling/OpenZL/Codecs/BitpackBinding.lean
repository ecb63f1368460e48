import OpenZL.Codecs.BitpackCanonical
import OpenZL.Lib.Result

/-!
# The bitpack codec

`encode_bitpack_binding.c` and `decode_bitpack_binding.c`: the encoder takes the number of bits from
the largest element and writes a codec header of one or two bytes.

Principal results: `computeNbBits_spec`, `maxNbElts_sub_lt`, `bitpack_roundTrip`.
-/

namespace OpenZL.Codecs.Bitpack.InMemory

open OpenZL.Lib

/-- The stream types that the codec takes. -/
inductive BitpackType
  | serial | numeric
  deriving DecidableEq, Repr

/-- An input stream of the encoder. -/
structure BitpackInput where
  type : BitpackType
  eltWidth : Nat
  elts : List Nat
  fits : ∀ v ∈ elts, v < 2 ^ (8 * eltWidth)
  serial_width : type = .serial → eltWidth = 1

/-- The errors of the bindings. -/
inductive BindingError
  | eltWidth
  | headerUnknown
  | corruption
  deriving DecidableEq, Repr

/-- `computeMaxValue8` and the like. -/
def computeMaxValue (src : List Nat) : Nat := src.foldl max 0

/-- `computeNbBits`; one bit is spent when every element is zero. -/
def computeNbBits (src : List Nat) : Nat :=
  let maxValue := computeMaxValue src
  1 + (if maxValue = 0 then 0 else maxValue.log2)

/-- `checkEtlWidth` -/
def checkEltWidth (eltWidth : Nat) : Except BindingError Unit :=
  match eltWidth with
  | 1 | 2 | 4 | 8 => .ok ()
  | _ => .error .eltWidth

/-- `log2EltWidth` -/
def log2EltWidth : List Nat := [0, 0, 1, 0, 2, 0, 0, 0, 3]

/-- The codec header for `nbElts` elements in `dstSize` packed bytes. -/
def bitpackHeader (eltWidth nbBits nbElts dstSize : Nat) : List UInt8 :=
  let maxNbElts := dstSize * 8 / nbBits
  let first := UInt8.ofNat ((log2EltWidth.getD eltWidth 0 <<< 6) ||| (nbBits - 1))
  if nbElts < maxNbElts then [first, UInt8.ofNat (maxNbElts - nbElts)] else [first]

/-- What the encoder sends: the codec header and the packed bytes. -/
structure BitpackEncoded where
  header : List UInt8
  packed : List UInt8
  deriving DecidableEq, Repr

/-- `EI_bitpack_typed`; the new output stream starts with the bytes `fresh`. -/
def EI_bitpack_typed (fast : Bool) (fresh : Nat → UInt8) (input : BitpackInput) :
    Option (Except BindingError BitpackEncoded) :=
  match checkEltWidth input.eltWidth with
  | .error e => some (.error e)
  | .ok () => do
      let nbBits := computeNbBits input.elts
      let dstCapacity := bitpackEncodeBound input.elts.length nbBits
      let out := (List.range dstCapacity).map fresh
      let (dstSize, out) ← bitpackEncode fast out input.elts input.eltWidth nbBits
      some (.ok ⟨bitpackHeader input.eltWidth nbBits input.elts.length dstSize, out.take dstSize⟩)

/-- `ZL_BitpackHeader`. -/
structure BitpackHeader where
  eltWidth : Nat
  nbBits : Nat
  numElts : Nat
  deriving DecidableEq, Repr

/-- `ZL_BitpackHeader_parse` -/
def BitpackHeader.parse (header : List UInt8) (packedSize : Nat) :
    Except BindingError BitpackHeader := do
  failWhen (header.length ≤ 0) .headerUnknown
  failWhen (2 < header.length) .headerUnknown
  let first := (header.getD 0 0).toNat
  let eltWidth := 1 <<< ((first >>> 6) &&& 0x3)
  let nbBits := 1 + (first &&& 0x3F)
  failWhen (eltWidth * 8 < nbBits) .corruption
  let nbExtraElts := if 1 < header.length then (header.getD 1 0).toNat else 0
  let maxNbElts := packedSize * 8 / nbBits
  failWhen (maxNbElts < nbExtraElts) .corruption
  .ok ⟨eltWidth, nbBits, maxNbElts - nbExtraElts⟩

/-- `DI_bitpack_typed`: the width and the elements of the regenerated stream. -/
def DI_bitpack_typed (fast : Bool) (type : BitpackType) (header src : List UInt8) :
    Option (Except BindingError (Nat × List Nat)) :=
  match BitpackHeader.parse header src.length with
  | .error e => some (.error e)
  | .ok bpHeader =>
      if type = .serial ∧ bpHeader.eltWidth ≠ 1 then some (.error .headerUnknown)
      else do
        let (srcConsumed, elts) ←
          bitpackDecode fast bpHeader.numElts bpHeader.eltWidth src bpHeader.nbBits
        if srcConsumed ≠ src.length then some (.error .corruption)
        else some (.ok (bpHeader.eltWidth, elts))

theorem le_foldl_max : ∀ (src : List Nat) (m : Nat), m ≤ src.foldl max m ∧
    ∀ v ∈ src, v ≤ src.foldl max m
  | [], m => ⟨Nat.le_refl _, by simp⟩
  | v :: src, m => by
      obtain ⟨hm, hall⟩ := le_foldl_max src (max m v)
      rw [List.foldl_cons]
      refine ⟨(Nat.le_max_left _ _).trans hm, fun u hu => ?_⟩
      rcases List.mem_cons.1 hu with rfl | hu
      · exact (Nat.le_max_right _ _).trans hm
      · exact hall u hu

theorem foldl_max_mem : ∀ (src : List Nat) (m : Nat),
    src.foldl max m = m ∨ src.foldl max m ∈ src
  | [], _ => .inl rfl
  | v :: src, m => by
      rw [List.foldl_cons]
      rcases foldl_max_mem src (max m v) with h | h
      · rcases Nat.le_total m v with hle | hle
        · rw [Nat.max_eq_right hle] at h ⊢
          exact .inr (List.mem_cons.2 (.inl h))
        · rw [Nat.max_eq_left hle] at h ⊢
          exact .inl h
      · exact .inr (List.mem_cons_of_mem _ h)

theorem computeNbBits_spec (src : List Nat) :
    (∀ v ∈ src, v < 2 ^ computeNbBits src) ∧
      (computeNbBits src = 1 ∨ ∃ v ∈ src, 2 ^ (computeNbBits src - 1) ≤ v) := by
  have hle := (le_foldl_max src 0).2
  unfold computeNbBits computeMaxValue
  dsimp only
  split
  · rename_i hz
    refine ⟨fun v hv => ?_, .inl rfl⟩
    have := hle v hv
    omega
  · rename_i hz
    constructor
    · intro v hv
      rw [Nat.add_comm]
      exact (hle v hv).trans_lt Nat.lt_log2_self
    · right
      refine ⟨src.foldl max 0, (foldl_max_mem src 0).resolve_left hz, ?_⟩
      rw [Nat.add_sub_cancel_left]
      exact Nat.log2_self_le hz

theorem computeNbBits_pos (src : List Nat) : 0 < computeNbBits src := by
  unfold computeNbBits
  dsimp only
  omega

theorem computeNbBits_le {src : List Nat} {w : Nat} (hw : 0 < w)
    (h : ∀ v ∈ src, v < 2 ^ w) : computeNbBits src ≤ w := by
  rcases (computeNbBits_spec src).2 with h1 | ⟨v, hv, hle⟩
  · omega
  · have hlt := (Nat.pow_lt_pow_iff_right (by omega : 1 < 2)).1 (hle.trans_lt (h v hv))
    omega

theorem maxNbElts_sub_lt (nbElts : Nat) {nbBits : Nat} (h : 0 < nbBits) :
    nbElts ≤ bitpackEncodeBound nbElts nbBits * 8 / nbBits ∧
      bitpackEncodeBound nbElts nbBits * 8 / nbBits - nbElts < 8 := by
  have hlow : nbElts * nbBits ≤ bitpackEncodeBound nbElts nbBits * 8 := by
    unfold bitpackEncodeBound
    omega
  have hhigh : bitpackEncodeBound nbElts nbBits * 8 < nbElts * nbBits + 8 := by
    unfold bitpackEncodeBound
    omega
  refine ⟨(Nat.le_div_iff_mul_le h).2 hlow, ?_⟩
  have hlt : bitpackEncodeBound nbElts nbBits * 8 / nbBits < nbElts + 8 := by
    rw [Nat.div_lt_iff_lt_mul h, Nat.add_mul]
    have : 8 ≤ 8 * nbBits := Nat.le_mul_of_pos_right 8 h
    omega
  omega

theorem first_byte {eltWidth nbBits : Nat} (hw : eltWidth ∈ [1, 2, 4, 8]) (h0 : 0 < nbBits)
    (h64 : nbBits ≤ 64) :
    let first := (UInt8.ofNat ((log2EltWidth.getD eltWidth 0 <<< 6) ||| (nbBits - 1))).toNat
    1 <<< ((first >>> 6) &&& 0x3) = eltWidth ∧ 1 + (first &&& 0x3F) = nbBits := by
  obtain ⟨b, rfl⟩ : ∃ b, nbBits = b + 1 := ⟨nbBits - 1, by omega⟩
  have all : ∀ w ∈ [1, 2, 4, 8], ∀ b < 64,
      let first := (UInt8.ofNat ((log2EltWidth.getD w 0 <<< 6) ||| b)).toNat
      1 <<< ((first >>> 6) &&& 0x3) = w ∧ 1 + (first &&& 0x3F) = b + 1 := by
    decide
  exact all eltWidth hw b (by omega)

theorem parse_cons {first : UInt8} {rest : List UInt8} {eltWidth nbBits packedSize : Nat}
    (hrest : rest.length ≤ 1) (hwidth : 1 <<< ((first.toNat >>> 6) &&& 0x3) = eltWidth)
    (hbits : 1 + (first.toNat &&& 0x3F) = nbBits) (hn : nbBits ≤ eltWidth * 8)
    (hextra : (rest.getD 0 0).toNat ≤ packedSize * 8 / nbBits) :
    BitpackHeader.parse (first :: rest) packedSize
      = .ok ⟨eltWidth, nbBits, packedSize * 8 / nbBits - (rest.getD 0 0).toNat⟩ := by
  have hnone : (if 1 < (first :: rest).length then ((first :: rest).getD 1 0).toNat else 0)
      = (rest.getD 0 0).toNat := by
    cases rest <;> rfl
  unfold BitpackHeader.parse
  rw [failWhen_of_not _ (by simp), failWhen_of_not _ (by rw [List.length_cons]; omega)]
  simp only [ok_bind, List.getD_cons_zero, hwidth, hbits, hnone]
  rw [failWhen_of_not _ (by omega), failWhen_of_not _ (by omega)]
  rfl

theorem parse_bitpackHeader {eltWidth nbBits : Nat} (nbElts : Nat) (hw : eltWidth ∈ [1, 2, 4, 8])
    (h0 : 0 < nbBits) (hn : nbBits ≤ 8 * eltWidth) :
    BitpackHeader.parse (bitpackHeader eltWidth nbBits nbElts (bitpackEncodeBound nbElts nbBits))
      (bitpackEncodeBound nbElts nbBits) = .ok ⟨eltWidth, nbBits, nbElts⟩ := by
  have h64 : nbBits ≤ 64 := by
    simp only [List.mem_cons, List.not_mem_nil, or_false] at hw
    omega
  obtain ⟨hwidth, hbits⟩ := first_byte hw h0 h64
  obtain ⟨hge, hlt⟩ := maxNbElts_sub_lt nbElts h0
  unfold bitpackHeader
  dsimp only
  split
  · have hextra : (UInt8.ofNat (bitpackEncodeBound nbElts nbBits * 8 / nbBits - nbElts)).toNat
        = bitpackEncodeBound nbElts nbBits * 8 / nbBits - nbElts := by
      rw [UInt8.toNat_ofNat']
      exact Nat.mod_eq_of_lt (by omega)
    rw [parse_cons (by simp) hwidth hbits (by omega)]
    · rw [List.getD_cons_zero, hextra, Nat.sub_sub_self hge]
    · rw [List.getD_cons_zero, hextra]
      omega
  · rw [parse_cons (by simp) hwidth hbits (by omega) (by simp)]
    have heq : bitpackEncodeBound nbElts nbBits * 8 / nbBits = nbElts := by omega
    rw [heq]
    rfl

theorem EI_bitpack_typed_eq (fast : Bool) (fresh : Nat → UInt8) (input : BitpackInput)
    (hw : input.eltWidth ∈ [1, 2, 4, 8]) :
    EI_bitpack_typed fast fresh input = some (.ok
      ⟨bitpackHeader input.eltWidth (computeNbBits input.elts) input.elts.length
        (bitpackEncodeBound input.elts.length (computeNbBits input.elts)),
        packedBytes (computeNbBits input.elts) input.elts⟩) := by
  have hpos : 0 < 8 * input.eltWidth := by
    simp only [List.mem_cons, List.not_mem_nil, or_false] at hw
    omega
  have hcheck : checkEltWidth input.eltWidth = .ok () := by
    simp only [List.mem_cons, List.not_mem_nil, or_false] at hw
    rcases hw with h | h | h | h <;> rw [h] <;> rfl
  have hroom : bitpackEncodeBound input.elts.length (computeNbBits input.elts) ≤
      ((List.range (bitpackEncodeBound input.elts.length (computeNbBits input.elts))).map
        fresh).length := by
    rw [List.length_map, List.length_range]
  obtain ⟨dst, henc, -, hbytes⟩ := encode_canonical fast hw
    (computeNbBits_le hpos input.fits) (computeNbBits_spec input.elts).1 hroom
  unfold EI_bitpack_typed
  rw [hcheck]
  simp only [henc]
  rw [← hbytes]
  rfl

/-- **The bitpack codec recovers the exact elements.** The number of bits is the least that holds
every element; the byte count less the stored excess is the number of elements, for every number of
bits; and the decoder accepts the header and gives back the width and the elements. -/
theorem bitpack_roundTrip (fast fast' : Bool) (fresh : Nat → UInt8) (input : BitpackInput)
    (hw : input.eltWidth ∈ [1, 2, 4, 8]) :
    (∃ enc, EI_bitpack_typed fast fresh input = some (.ok enc) ∧
      enc.header.length ∈ [1, 2] ∧
      BitpackHeader.parse enc.header enc.packed.length
        = .ok ⟨input.eltWidth, computeNbBits input.elts, input.elts.length⟩ ∧
      DI_bitpack_typed fast' input.type enc.header enc.packed
        = some (.ok (input.eltWidth, input.elts))) ∧
    ((∀ v ∈ input.elts, v < 2 ^ computeNbBits input.elts) ∧
      (computeNbBits input.elts = 1 ∨
        ∃ v ∈ input.elts, 2 ^ (computeNbBits input.elts - 1) ≤ v)) ∧
    ∀ nbBits nbElts, 0 < nbBits →
      nbElts ≤ bitpackEncodeBound nbElts nbBits * 8 / nbBits ∧
        bitpackEncodeBound nbElts nbBits * 8 / nbBits - nbElts < 8 := by
  have hpos : 0 < 8 * input.eltWidth := by
    simp only [List.mem_cons, List.not_mem_nil, or_false] at hw
    omega
  have hspec := computeNbBits_spec input.elts
  have hle := computeNbBits_le hpos input.fits
  have hlen := length_packedBytes hspec.1
  have hparse := parse_bitpackHeader input.elts.length hw (computeNbBits_pos input.elts) hle
  refine ⟨⟨_, EI_bitpack_typed_eq fast fresh input hw, ?_, ?_, ?_⟩, hspec,
    fun nbBits nbElts h => maxNbElts_sub_lt nbElts h⟩
  · unfold bitpackHeader
    dsimp only
    split <;> simp
  · rw [hlen]
    exact hparse
  · have hserial : ¬(input.type = .serial ∧ input.eltWidth ≠ 1) := fun h =>
      h.2 (input.serial_width h.1)
    unfold DI_bitpack_typed
    rw [hlen, hparse]
    simp only [hserial, if_false, decode_canonical fast' hw hle hspec.1]
    simp

/-- Three numeric elements of two bytes: three bits each, and two extra elements could be held. -/
def threeElements : BitpackInput where
  type := .numeric
  eltWidth := 2
  elts := [1, 5, 0]
  fits := by decide
  serial_width := by decide

theorem bitpack_roundTrip_three :
    ∃ enc, EI_bitpack_typed true (fun _ => 0xAA) threeElements = some (.ok enc) ∧
      enc.header.length ∈ [1, 2] ∧
      BitpackHeader.parse enc.header enc.packed.length = .ok ⟨2, 3, 3⟩ ∧
      DI_bitpack_typed false .numeric enc.header enc.packed = some (.ok (2, [1, 5, 0])) :=
  (bitpack_roundTrip true false (fun _ => 0xAA) threeElements (by decide)).1

end OpenZL.Codecs.Bitpack.InMemory
