import OpenZL.Codecs.BitpackDecodeFast
import OpenZL.Codecs.Flatpack
import Mathlib.Data.List.GetD

/-!
# The decoders of flatpack

The plain decoder accepts the fields of its input exactly if all of them are indices into the
alphabet and the bit above them ends the last byte.

Principal results: `decodeLoop_eq`, `fastDecode_eq`, `flatpackDecode_agrees_iff`.
-/

namespace OpenZL.Codecs.Flatpack

open OpenZL.Lib
open OpenZL.Codecs.Bitpack (readLE64 readLE64_eq)
open OpenZL.Codecs.Bitpack.InMemory (toLE_pdep_byteMask)

/-- Of the `total` bits of `V`, the lowest are `n` indices into an alphabet, and the bit above them
is the only other one and ends the last byte. -/
def Accepts (alphabetSize nbBits n V total : Nat) : Prop :=
  nbBits * n ≤ total ∧ (∀ idx ∈ fields nbBits n V, idx < alphabetSize) ∧
    V / 2 ^ (nbBits * n) = 1 ∧ total - nbBits * n ≤ 8

instance (alphabetSize nbBits n V total : Nat) :
    Decidable (Accepts alphabetSize nbBits n V total) :=
  inferInstanceAs (Decidable (_ ∧ _))

/-- The symbols of indices. -/
def symbolsOf (alphabet : List UInt8) (indices : List Nat) : List UInt8 :=
  indices.map fun idx => alphabet.getD idx 0

section Plain

variable {alphabet packed : List UInt8} {nbBits n bits state : Nat}

theorem refill_cons (hs : state < 2 ^ bits) (b : UInt8) (packed : List UInt8) :
    ∃ state', refill (b :: packed) bits state = some (packed, bits + 8, state') ∧
      state + 2 ^ bits * ofLE (b :: packed) = state' + 2 ^ (bits + 8) * ofLE packed ∧
      state' < 2 ^ (bits + 8) := by
  refine ⟨_, rfl, ?_, ?_⟩
  · rw [or_shiftLeft hs, ofLE_cons, Nat.pow_add]
    ring
  · rw [or_shiftLeft hs]
    exact add_mul_lt hs (UInt8.toNat_lt b)

theorem accepts_zero_iff {alphabetSize V total : Nat} :
    Accepts alphabetSize nbBits 0 V total ↔ V = 1 ∧ total ≤ 8 := by
  simp [Accepts, fields]

theorem accepts_succ_iff {alphabetSize V total : Nat} (h : nbBits ≤ total) :
    Accepts alphabetSize nbBits (n + 1) V total ↔
      V % 2 ^ nbBits < alphabetSize ∧
        Accepts alphabetSize nbBits n (V / 2 ^ nbBits) (total - nbBits) := by
  have hmul : nbBits * (n + 1) = nbBits + nbBits * n := by ring
  rw [Accepts, Accepts, fields, List.forall_mem_cons, hmul, Nat.pow_add, ← Nat.div_div_eq_div_mul,
    Nat.sub_sub]
  constructor
  · rintro ⟨hle, ⟨hidx, hrest⟩, hone, hend⟩
    exact ⟨hidx, by omega, hrest, hone, hend⟩
  · rintro ⟨hidx, hle, hrest, hone, hend⟩
    exact ⟨by omega, ⟨hidx, hrest⟩, hone, hend⟩

theorem checkEnd_nil (alphabet : List UInt8) {total : Nat} (h : total = bits) :
    checkEnd [] bits state = if state = 1 ∧ total ≤ 8 then
      .ok (symbolsOf alphabet (fields nbBits 0 state)) else .error kError := by
  subst h
  rw [checkEnd, if_neg (not_not_intro rfl)]
  by_cases h1 : state = 1 ∧ total ≤ 8
  · rw [if_neg (by omega), if_pos h1]
    rfl
  · rw [if_pos (by omega), if_neg h1]

/-- **The plain decoder** accepts what it should, and gives the symbols of the fields. -/
theorem decodeLoop_eq (alphabet : List UInt8) (hn : nbBits ≤ 8) :
    ∀ (n : Nat) (packed : List UInt8) (bits state : Nat), state < 2 ^ bits → bits < 8 →
      decodeLoop alphabet nbBits n packed bits state =
        if Accepts alphabet.length nbBits n (state + 2 ^ bits * ofLE packed)
            (bits + 8 * packed.length) then
          .ok (symbolsOf alphabet (fields nbBits n (state + 2 ^ bits * ofLE packed)))
        else .error kError
  | 0, packed, bits, state, hs, hb => by
    simp only [accepts_zero_iff]
    rw [decodeLoop]
    match packed with
    | [] =>
      rw [refill, ofLE_nil, Nat.mul_zero, Nat.add_zero]
      exact checkEnd_nil alphabet (by simp)
    | [b] =>
      obtain ⟨state', hrefill, hval, -⟩ := refill_cons hs b []
      rw [hrefill, hval, ofLE_nil, Nat.mul_zero, Nat.add_zero]
      exact checkEnd_nil alphabet (by simp)
    | b :: c :: packed =>
      have hlong : ¬bits + 8 * (b :: c :: packed).length ≤ 8 := by
        simp only [List.length_cons]
        omega
      have hmore : checkEnd (c :: packed) (bits + 8) (state ||| b.toNat <<< bits) =
          .error kError := if_pos (List.cons_ne_nil c packed)
      rw [if_neg fun h => hlong h.2]
      exact hmore
  | n + 1, packed, bits, state, hs, hb => by
    rw [decodeLoop]
    by_cases hshort : bits < nbBits ∧ packed = []
    · -- no byte is left for the field
      obtain ⟨hlt, rfl⟩ := hshort
      have hmul : nbBits * (n + 1) = nbBits + nbBits * n := by ring
      rw [if_pos hlt, refill, if_neg]
      rintro ⟨hle, -⟩
      rw [List.length_nil] at hle
      omega
    · obtain ⟨packed', bits', state', hst, hval, htotal, hs', hle, hlt⟩ :
          ∃ packed' bits' state', (if bits < nbBits then refill packed bits state
              else some (packed, bits, state)) = some (packed', bits', state') ∧
            state + 2 ^ bits * ofLE packed = state' + 2 ^ bits' * ofLE packed' ∧
            bits + 8 * packed.length = bits' + 8 * packed'.length ∧ state' < 2 ^ bits' ∧
            nbBits ≤ bits' ∧ bits' < nbBits + 8 := by
        by_cases hlt : bits < nbBits
        · match packed with
          | [] => exact absurd ⟨hlt, rfl⟩ hshort
          | b :: packed =>
            obtain ⟨state', hrefill, hval, hs'⟩ := refill_cons hs b packed
            refine ⟨_, _, _, (if_pos hlt).trans hrefill, hval, ?_, hs', by omega, by omega⟩
            rw [List.length_cons]
            omega
        · exact ⟨_, _, _, if_neg hlt, rfl, rfl, hs, by omega, by omega⟩
      have hpow : 2 ^ bits' = 2 ^ nbBits * 2 ^ (bits' - nbBits) := by
        rw [← Nat.pow_add, Nat.add_sub_cancel' hle]
      have hsh : state' >>> nbBits < 2 ^ (bits' - nbBits) := by
        rw [Nat.shiftRight_eq_div_pow, Nat.div_lt_iff_lt_mul (Nat.two_pow_pos _), Nat.mul_comm]
        rwa [hpow] at hs'
      have hidx : state' &&& (1 <<< nbBits) - 1 =
          (state' + 2 ^ bits' * ofLE packed') % 2 ^ nbBits := by
        rw [Nat.one_shiftLeft, Bitpack.and_mask, hpow, Nat.mul_assoc, Nat.add_mul_mod_self_left]
      have hrest : (state' + 2 ^ bits' * ofLE packed') / 2 ^ nbBits =
          state' >>> nbBits + 2 ^ (bits' - nbBits) * ofLE packed' := by
        rw [hpow, Nat.mul_assoc, Nat.add_mul_div_left _ _ (Nat.two_pow_pos _),
          Nat.shiftRight_eq_div_pow]
      have hsub : bits' + 8 * packed'.length - nbBits = bits' - nbBits + 8 * packed'.length := by
        omega
      have hle' : nbBits ≤ bits' + 8 * packed'.length := by omega
      simp only [hst, hidx, hval, htotal, accepts_succ_iff hle']
      rw [decodeLoop_eq alphabet hn n packed' _ _ hsh (by omega), fields]
      simp only [hrest, hsub]
      by_cases hgood : (state' + 2 ^ bits' * ofLE packed') % 2 ^ nbBits < alphabet.length
      · rw [if_neg (by omega)]
        simp only [hgood, true_and]
        split <;> rfl
      · rw [if_pos (by omega), if_neg fun h => hgood h.1]

theorem decodeEnd_eq (alphabet packed : List UInt8) (hn : nbBits ≤ 8) (n : Nat) :
    decodeEnd alphabet nbBits n packed =
      if Accepts alphabet.length nbBits n (ofLE packed) (8 * packed.length) then
        .ok (symbolsOf alphabet (fields nbBits n (ofLE packed)))
      else .error kError := by
  have h := decodeLoop_eq alphabet hn n packed 0 0 Nat.one_pos (by decide)
  rwa [Nat.pow_zero, Nat.one_mul, Nat.zero_add, Nat.zero_add] at h

end Plain

/-! ## Lookups -/

section Lookups

variable {alphabet indices : List UInt8}

/-- The symbol of an index in sixteen symbols of the alphabet. -/
def lane (alphabet : List UInt8) (offset : Nat) (i : UInt8) : UInt8 :=
  alphabet.getD (offset + i.toNat % 16) 0

theorem getD_loadAlphabet16 (alphabet : List UInt8) (offset : Nat) {j : Nat} (hj : j < 16) :
    (loadAlphabet16 alphabet offset).getD j 0 = alphabet.getD (offset + j) 0 := by
  rw [loadAlphabet16]
  split
  · rw [List.getD_eq_getElem?_getD, List.getElem?_replicate, if_pos hj, List.getD_eq_default _ _
      (by omega)]
    rfl
  · split
    · rw [Simd.loadu, List.getD_eq_getElem?_getD, List.getElem?_take, if_pos hj,
        List.getElem?_drop, List.getD_eq_getElem?_getD]
    · rw [Buffer.write, List.take_zero, List.nil_append, Nat.zero_add, List.drop_replicate]
      by_cases hin : j < (alphabet.drop offset).length
      · rw [List.getD_append _ _ _ _ hin, List.getD_eq_getElem?_getD, List.getElem?_drop,
          List.getD_eq_getElem?_getD]
      · rw [List.getD_append_right _ _ _ _ (by omega), List.getD_eq_getElem?_getD,
          List.getElem?_replicate]
        rw [List.length_drop] at hin ⊢
        rw [if_pos (by omega), List.getD_eq_default _ _ (by omega)]
        rfl

theorem pshufb_load (alphabet : List UInt8) (offset : Nat)
    (h : ∀ i ∈ indices, i.toNat < 128) :
    Simd.pshufb (loadAlphabet16 alphabet offset) indices = indices.map (lane alphabet offset) := by
  rw [Simd.pshufb_eq]
  refine List.map_congr_left fun i hi => ?_
  have hlt := h i hi
  rw [if_neg (by omega), getD_loadAlphabet16 alphabet offset (Nat.mod_lt _ (by decide)), lane]

theorem toInt_toInt8 {i : UInt8} (h : i.toNat < 128) : i.toInt8.toInt = i.toNat :=
  BitVec.toInt_eq_toNat_of_lt (by
    show 2 * i.toNat < 2 ^ 8
    omega)

theorem zipWith_map_self {α β γ δ : Type} (op : β → γ → δ) (f : α → β) (g : α → γ) (xs : List α) :
    List.zipWith op (xs.map f) (xs.map g) = xs.map fun x => op (f x) (g x) := by
  rw [List.zipWith_map, List.zipWith_self]

theorem cmpgtEpi8_set1 (hlen : indices.length = 16) (h : ∀ i ∈ indices, i.toNat < 128)
    {c : UInt8} (hc : c.toNat < 128) :
    Simd.cmpgtEpi8 indices (Simd.set1Epi8 16 c) =
      indices.map fun i => Simd.flagByte (decide (c.toNat < i.toNat)) := by
  have hconst : Simd.set1Epi8 16 c = indices.map fun _ => c := by
    rw [List.map_const', hlen, Simd.set1Epi8]
  rw [Simd.cmpgtEpi8, hconst, List.zipWith_map_right, List.zipWith_self]
  refine List.map_congr_left fun i hi => ?_
  have hiff : i.toInt8 > c.toInt8 ↔ c.toNat < i.toNat := by
    rw [gt_iff_lt, Int8.lt_iff_toInt_lt, toInt_toInt8 (h i hi), toInt_toInt8 hc, Nat.cast_lt]
  rw [decide_eq_decide.2 hiff]

/-- One symbol for the indices above `c`, another for the others. -/
def choose (c : UInt8) (f g : UInt8 → UInt8) (i : UInt8) : UInt8 :=
  if c.toNat < i.toNat then g i else f i

section

variable {c : UInt8} (hlen : indices.length = 16) (h : ∀ i ∈ indices, i.toNat < 128)
  (hc : c.toNat < 128)

include hlen h hc

theorem blend1_choose (f g : UInt8 → UInt8) :
    blend1 (Simd.cmpgtEpi8 indices (Simd.set1Epi8 16 c)) (indices.map f) (indices.map g) =
      indices.map (choose c f g) := by
  rw [cmpgtEpi8_set1 hlen h hc, blend1, andnotSi, Simd.andSi, Shuffles.orSi, zipWith_map_self,
    zipWith_map_self, zipWith_map_self]
  refine List.map_congr_left fun i _ => ?_
  rw [choose]
  by_cases hlt : c.toNat < i.toNat
  · have hall : Simd.flagByte true = -1 := rfl
    rw [decide_eq_true hlt, if_pos hlt, hall, UInt8.neg_one_and]
    simp
  · have hnone : Simd.flagByte false = 0 := rfl
    rw [decide_eq_false hlt, if_neg hlt, hnone]
    simp

theorem blend0_choose (f g : UInt8 → UInt8) :
    blend0 (Simd.cmpgtEpi8 indices (Simd.set1Epi8 16 c)) (indices.map f) (indices.map g) =
      indices.map (choose c f g) := by
  rw [cmpgtEpi8_set1 hlen h hc, blend0, List.zip_map', zipWith_map_self]
  refine List.map_congr_left fun i _ => ?_
  rw [choose]
  by_cases hlt : c.toNat < i.toNat
  · rw [decide_eq_true hlt, if_pos hlt]
    rfl
  · rw [decide_eq_false hlt, if_neg hlt]
    rfl

end

theorem lane_eq (alphabet : List UInt8) {offset : Nat} {i : UInt8} (hoff : offset % 16 = 0)
    (hle : offset ≤ i.toNat) (hlt : i.toNat < offset + 16) :
    lane alphabet offset i = alphabet.getD i.toNat 0 := by
  rw [lane, show offset + i.toNat % 16 = i.toNat by omega]

/-- A lookup of sixteen indices works one by one, and gives the symbols of those into the
alphabet. -/
def Looks (lookup : List UInt8 → List UInt8 → List UInt8) (alphabet : List UInt8) : Prop :=
  ∃ f : UInt8 → UInt8, (∀ i, i.toNat < alphabet.length → f i = alphabet.getD i.toNat 0) ∧
    ∀ indices : List UInt8, indices.length = 16 → (∀ i ∈ indices, i.toNat < 128) →
      lookup alphabet indices = indices.map f

theorem looks_lookup16 (h : alphabet.length ≤ 16) : Looks lookup16 alphabet := by
  refine ⟨lane alphabet 0, fun i hi => lane_eq alphabet rfl (Nat.zero_le _) (by omega), ?_⟩
  intro indices _ hsmall
  exact pshufb_load alphabet 0 hsmall

theorem looks_lookup32 (h : alphabet.length ≤ 32) : Looks lookup32 alphabet := by
  refine ⟨choose 15 (lane alphabet 0) (lane alphabet 16), fun i hi => ?_, ?_⟩
  · simp only [choose, UInt8.reduceToNat]
    split <;> exact lane_eq alphabet rfl (by omega) (by omega)
  · intro indices hlen hsmall
    simp only [lookup32, pshufb_load alphabet _ hsmall]
    exact blend1_choose hlen hsmall (by decide) _ _

theorem looks_lookup48 (h : alphabet.length ≤ 48) : Looks lookup48 alphabet := by
  refine ⟨choose 31 (choose 15 (lane alphabet 0) (lane alphabet 16)) (lane alphabet 32),
    fun i hi => ?_, ?_⟩
  · simp only [choose, UInt8.reduceToNat]
    split_ifs <;> exact lane_eq alphabet rfl (by omega) (by omega)
  · intro indices hlen hsmall
    simp only [lookup48, pshufb_load alphabet _ hsmall]
    rw [blend1_choose hlen hsmall (by decide), blend1_choose hlen hsmall (by decide)]

theorem looks_lookup64 (h : alphabet.length ≤ 64) : Looks lookup64 alphabet := by
  refine ⟨choose 31 (choose 15 (lane alphabet 0) (lane alphabet 16))
    (choose 47 (lane alphabet 32) (lane alphabet 48)), fun i hi => ?_, ?_⟩
  · simp only [choose, UInt8.reduceToNat]
    split_ifs <;> exact lane_eq alphabet rfl (by omega) (by omega)
  · intro indices hlen hsmall
    simp only [lookup64, pshufb_load alphabet _ hsmall]
    rw [blend1_choose hlen hsmall (by decide), blend0_choose hlen hsmall (by decide),
      blend1_choose hlen hsmall (by decide)]

theorem looks_lookup128 (h : alphabet.length ≤ 128) : Looks lookup128 alphabet := by
  refine ⟨choose 63
      (choose 31 (choose 15 (lane alphabet 0) (lane alphabet 16))
        (choose 47 (lane alphabet 32) (lane alphabet 48)))
      (choose 95 (choose 79 (lane alphabet 64) (lane alphabet 80))
        (choose 111 (lane alphabet 96) (lane alphabet 112))), fun i hi => ?_, ?_⟩
  · simp only [choose, UInt8.reduceToNat]
    split_ifs <;> exact lane_eq alphabet rfl (by omega) (by omega)
  · intro indices hlen hsmall
    simp only [lookup128, pshufb_load alphabet _ hsmall]
    rw [blend1_choose hlen hsmall (by decide), blend0_choose hlen hsmall (by decide),
      blend1_choose hlen hsmall (by decide), blend0_choose hlen hsmall (by decide),
      blend1_choose hlen hsmall (by decide), blend1_choose hlen hsmall (by decide),
      blend1_choose hlen hsmall (by decide)]

end Lookups

/-! ## Rounds -/

/-- The number of rounds of a fast decoder on `size` bytes. -/
def rounds (limit bytesPerLoop size : Nat) : Nat :=
  if size > limit then (size - limit - 1) / bytesPerLoop + 1 else 0

section Rounds

variable {alphabet packed : List UInt8} {nbBits nbSymbols bytesPerLoop n : Nat}
  {round : List UInt8 → List UInt8} {f : Nat → UInt8}

theorem rounds_of_le {limit size : Nat} (h : size ≤ limit) : rounds limit bytesPerLoop size = 0 :=
  if_neg (by omega)

theorem rounds_of_lt {limit size : Nat} (hpos : 0 < bytesPerLoop) (h : limit < size) :
    rounds limit bytesPerLoop size = rounds limit bytesPerLoop (size - bytesPerLoop) + 1 := by
  rw [rounds, if_pos h, rounds]
  split
  · rw [show size - limit - 1 = size - bytesPerLoop - limit - 1 + bytesPerLoop by omega,
      Nat.add_div_right _ hpos]
  · rw [Nat.div_eq_of_lt (by omega)]

theorem accepts_add_iff {alphabetSize k V total : Nat} (h : nbBits * k ≤ total) :
    Accepts alphabetSize nbBits (k + n) V total ↔
      (∀ idx ∈ fields nbBits k V, idx < alphabetSize) ∧
        Accepts alphabetSize nbBits n (V / 2 ^ (nbBits * k)) (total - nbBits * k) := by
  rw [Accepts, Accepts, fields_append, List.forall_mem_append, Nat.mul_add, Nat.pow_add,
    ← Nat.div_div_eq_div_mul, Nat.sub_sub]
  constructor
  · rintro ⟨hle, ⟨hfirst, hrest⟩, hone, hend⟩
    exact ⟨hfirst, by omega, hrest, hone, hend⟩
  · rintro ⟨hfirst, hle, hrest, hone, hend⟩
    exact ⟨by omega, ⟨hfirst, hrest⟩, hone, hend⟩

/-- A round writes the symbols of its fields, as `f` gives them. -/
def WritesFields (round : List UInt8 → List UInt8) (nbBits nbSymbols : Nat) (f : Nat → UInt8) :
    Prop :=
  ∀ packed : List UInt8, nbSymbols < packed.length →
    round packed = (fields nbBits nbSymbols (ofLE packed)).map f

theorem le_of_round (hn : nbBits ≤ 8) (hsize : 8 * packed.length ≤ nbBits * n + 15)
    (hmore : nbSymbols < packed.length) : nbSymbols ≤ n := by
  by_contra hlt
  have hmul : nbBits * n ≤ 8 * n := Nat.mul_le_mul_right n hn
  omega

section

variable (hpos : 0 < nbBits) (hn : nbBits ≤ 8) (hbytes : nbBits * nbSymbols = 8 * bytesPerLoop)
  (hsymbols : 0 < nbSymbols)

include hpos hn hbytes hsymbols

theorem fastLoop_eq (hround : WritesFields round nbBits nbSymbols f) (n : Nat) (packed : List UInt8)
    (hsize : 8 * packed.length ≤ nbBits * n + 15) :
    ∃ k, k = nbSymbols * rounds nbSymbols bytesPerLoop packed.length ∧ k ≤ n ∧
      fastLoop nbSymbols nbSymbols bytesPerLoop round packed n =
        some ((fields nbBits k (ofLE packed)).map f,
          packed.drop (bytesPerLoop * rounds nbSymbols bytesPerLoop packed.length), n - k) := by
  have hbytes' : 0 < bytesPerLoop := by
    have := Nat.mul_pos hpos hsymbols
    omega
  induction n using Nat.strong_induction_on generalizing packed with
  | h n ih =>
    refine ⟨_, rfl, ?_⟩
    rw [fastLoop]
    split
    · rename_i hmore
      have hle := le_of_round hn hsize hmore
      have hlen : (packed.drop bytesPerLoop).length = packed.length - bytesPerLoop :=
        List.length_drop
      have hsub : nbBits * (n - nbSymbols) = nbBits * n - nbBits * nbSymbols :=
        Nat.mul_sub nbBits n nbSymbols
      have hrest := ih (n - nbSymbols) (by omega) (packed.drop bytesPerLoop)
        (by rw [hlen]; omega)
      obtain ⟨k, hk, hkn, hloop⟩ := hrest
      rw [hlen] at hk hloop
      have hsplit : nbSymbols * rounds nbSymbols bytesPerLoop packed.length = nbSymbols + k := by
        rw [rounds_of_lt hbytes' hmore, hk]
        ring
      rw [dif_neg (by omega), hloop, hsplit, fields_append, rounds_of_lt hbytes' hmore,
        hround packed hmore]
      refine ⟨by omega, ?_⟩
      rw [ofLE_drop, pow256, ← hbytes, List.drop_drop, Nat.sub_sub, List.map_append, Nat.mul_succ,
        Nat.add_comm bytesPerLoop]
      rfl
    · rename_i hless
      rw [rounds_of_le (by omega), Nat.mul_zero, Nat.mul_zero]
      exact ⟨Nat.zero_le n, rfl⟩

theorem rounds_le (hsize : 8 * packed.length ≤ nbBits * n + 15) :
    nbSymbols * rounds nbSymbols bytesPerLoop packed.length ≤ n := by
  have hround : WritesFields (fun packed => (fields nbBits nbSymbols (ofLE packed)).map fun _ => 0)
      nbBits nbSymbols fun _ => 0 := fun _ _ => rfl
  obtain ⟨k, rfl, hk, -⟩ := fastLoop_eq hpos hn hbytes hsymbols hround n packed hsize
  exact hk

/-- **A fast decoder** gives the symbols of its rounds as they are looked up, and those of the rest
if the plain decoder accepts it. -/
theorem fastDecode_eq (hround : WritesFields round nbBits nbSymbols f)
    (hsize : 8 * packed.length ≤ nbBits * n + 15) :
    ∃ k, k = nbSymbols * rounds nbSymbols bytesPerLoop packed.length ∧ k ≤ n ∧
      fastDecode nbSymbols nbSymbols bytesPerLoop round alphabet nbBits n packed =
        some (if Accepts alphabet.length nbBits (n - k) (ofLE packed / 2 ^ (nbBits * k))
            (8 * packed.length - nbBits * k) then
          .ok ((fields nbBits k (ofLE packed)).map f ++
            symbolsOf alphabet (fields nbBits (n - k) (ofLE packed / 2 ^ (nbBits * k))))
        else .error kError) := by
  obtain ⟨k, hk, hkn, hloop⟩ := fastLoop_eq hpos hn hbytes hsymbols hround n packed hsize
  refine ⟨k, hk, hkn, ?_⟩
  have hbits : 8 * (bytesPerLoop * rounds nbSymbols bytesPerLoop packed.length) = nbBits * k := by
    rw [hk, ← Nat.mul_assoc, ← hbytes]
    ring
  have hlen : 8 * (packed.drop (bytesPerLoop * rounds nbSymbols bytesPerLoop packed.length)).length
      = 8 * packed.length - nbBits * k := by
    rw [List.length_drop]
    omega
  rw [fastDecode, hloop, Option.bind_eq_bind, Option.bind_some]
  simp only [decodeEnd_eq alphabet _ hn, ofLE_drop, pow256, hbits, hlen]
  split <;> rfl

theorem fastDecode_agrees_iff (hround : WritesFields round nbBits nbSymbols f)
    (hf : ∀ idx, idx < alphabet.length → f idx = alphabet.getD idx 0)
    (hsize : 8 * packed.length ≤ nbBits * n + 15) (hfit : nbBits * n ≤ 8 * packed.length) {k : Nat}
    (hk : k = nbSymbols * rounds nbSymbols bytesPerLoop packed.length) :
    fastDecode nbSymbols nbSymbols bytesPerLoop round alphabet nbBits n packed =
        some (decodeEnd alphabet nbBits n packed) ↔
      (∀ idx ∈ fields nbBits k (ofLE packed), idx < alphabet.length) ∨
        ¬Accepts alphabet.length nbBits (n - k) (ofLE packed / 2 ^ (nbBits * k))
          (8 * packed.length - nbBits * k) := by
  subst hk
  obtain ⟨k, hk, hkn, hfast⟩ := @fastDecode_eq alphabet packed nbBits nbSymbols bytesPerLoop n round
    f hpos hn hbytes hsymbols hround hsize
  rw [← hk, hfast, decodeEnd_eq alphabet packed hn]
  obtain ⟨m, rfl⟩ := Nat.exists_eq_add_of_le hkn
  have hmul : nbBits * (k + m) = nbBits * k + nbBits * m := Nat.mul_add _ _ _
  simp only [accepts_add_iff (n := m) (by omega : nbBits * k ≤ 8 * packed.length),
    Nat.add_sub_cancel_left, Option.some.injEq]
  by_cases hrest : Accepts alphabet.length nbBits m (ofLE packed / 2 ^ (nbBits * k))
      (8 * packed.length - nbBits * k)
  · by_cases hgood : ∀ idx ∈ fields nbBits k (ofLE packed), idx < alphabet.length
    · have hsame : (fields nbBits k (ofLE packed)).map f =
          symbolsOf alphabet (fields nbBits k (ofLE packed)) :=
        List.map_congr_left fun idx hidx => hf idx (hgood idx hidx)
      have hjoin : (fields nbBits k (ofLE packed)).map f ++
          symbolsOf alphabet (fields nbBits m (ofLE packed / 2 ^ (nbBits * k))) =
            symbolsOf alphabet (fields nbBits (k + m) (ofLE packed)) := by
        rw [hsame, fields_append, symbolsOf, symbolsOf, symbolsOf, List.map_append]
      rw [if_pos hrest, if_pos ⟨hgood, hrest⟩, hjoin]
      exact iff_of_true rfl (Or.inl hgood)
    · rw [if_pos hrest, if_neg fun h => hgood h.1]
      simp only [hrest, hgood, reduceCtorEq, not_true_eq_false, or_self]
  · rw [if_neg hrest, if_neg fun h => hrest h.2]
    simp only [hrest, not_false_eq_true, or_true]

end

theorem fields_readLE64 (packed : List UInt8) (hn : nbBits ≤ 8) :
    fields nbBits 8 (readLE64 packed) = fields nbBits 8 (ofLE packed) := by
  rw [readLE64_eq, fields_mod_of_le (by omega)]

theorem indices16_eq (packed : List UInt8) (hn : nbBits ≤ 8) :
    indices16 nbBits packed = (fields nbBits 16 (ofLE packed)).map UInt8.ofNat := by
  have hlanes : ∀ es : List Nat, Simd.ofLanes 1 es = es.map UInt8.ofNat := fun es =>
    List.map_eq_flatMap.symm
  rw [indices16, toLE_pdep_byteMask hn, toLE_pdep_byteMask hn, hlanes, hlanes, ← List.map_append,
    fields_readLE64 _ hn, fields_readLE64 _ hn, ofLE_drop, pow256, Nat.mul_comm 8 nbBits,
    ← fields_append]

theorem writesFields_lookup {lookup : List UInt8 → List UInt8 → List UInt8}
    (h : Looks lookup alphabet) (hn : nbBits ≤ 7) (halphabet : alphabet.length ≤ 256) :
    ∃ f : Nat → UInt8, (∀ idx, idx < alphabet.length → f idx = alphabet.getD idx 0) ∧
      WritesFields (fun packed => lookup alphabet (indices16 nbBits packed)) nbBits 16 f := by
  obtain ⟨f, hf, hlookup⟩ := h
  refine ⟨fun idx => f (UInt8.ofNat idx), fun idx hidx => ?_, fun packed _ => ?_⟩
  · have hto : (UInt8.ofNat idx).toNat = idx := by
      rw [UInt8.toNat_ofNat', Nat.mod_eq_of_lt (by omega)]
    show f (UInt8.ofNat idx) = alphabet.getD idx 0
    rw [hf _ (by rwa [hto]), hto]
  · have hsmall : ∀ i ∈ indices16 nbBits packed, i.toNat < 128 := by
      intro i hi
      rw [indices16_eq packed (by omega)] at hi
      obtain ⟨idx, hidx, rfl⟩ := List.mem_map.1 hi
      have hlt := lt_of_mem_fields hidx
      have hpow : 2 ^ nbBits ≤ 2 ^ 7 := Nat.pow_le_pow_right Nat.two_pos hn
      rw [UInt8.toNat_ofNat', Nat.mod_eq_of_lt (by omega)]
      omega
    have hlen : (indices16 nbBits packed).length = 16 := by
      rw [indices16_eq packed (by omega), List.length_map, length_fields]
    refine (hlookup _ hlen hsmall).trans ?_
    rw [indices16_eq packed (by omega), List.map_map]
    rfl

theorem fields_eq_map_range (w n N : Nat) :
    fields w n N = (List.range n).map fun i => N >>> (w * i) &&& 2 ^ w - 1 := by
  induction n generalizing N with
  | zero => rfl
  | succ n ih =>
    rw [fields, ih, List.range_succ_eq_map, List.map_cons, List.map_map, Nat.mul_zero,
      Nat.shiftRight_zero, Bitpack.and_mask]
    congr 1
    refine List.map_congr_left fun i _ => ?_
    rw [Function.comp_apply, Nat.shiftRight_eq_div_pow, Nat.shiftRight_eq_div_pow,
      Nat.div_div_eq_div_mul, ← Nat.pow_add, Nat.mul_succ, Nat.add_comm w]

theorem writesFields_round8 (alphabet : List UInt8) (hn : nbBits ≤ 8) :
    ∃ f : Nat → UInt8, (∀ idx, idx < alphabet.length → f idx = alphabet.getD idx 0) ∧
      WritesFields (round8 alphabet nbBits) nbBits 8 f := by
  refine ⟨fun idx => (alphabet ++ List.replicate (256 - alphabet.length) 0).getD idx 0,
    fun idx hidx => List.getD_append _ _ _ _ hidx, fun packed _ => ?_⟩
  have hbytes : fields 8 8 (pdep (readLE64 packed) (byteMask nbBits)) =
      fields nbBits 8 (ofLE packed) := by
    have h := fields_ofDigits (lt_two_pow_of_le hn
      fun e (he : e ∈ fields nbBits 8 (readLE64 packed)) => lt_of_mem_fields he)
    rw [length_fields] at h
    rw [pdep_byteMask hn, h, fields_readLE64 packed hn]
  rw [← hbytes, fields_eq_map_range 8 8, List.map_map]
  rfl

end Rounds

/-! ## Agreement -/

theorem nbBits_pos {alphabetSize : Nat} (h : 0 < alphabetSize) : 0 < nbBits alphabetSize := by
  rw [nbBits]
  split <;> omega

theorem nbBits_le {alphabetSize b : Nat} (hb : 0 < b) (h : alphabetSize ≤ 2 ^ b) :
    nbBits alphabetSize ≤ b := by
  rw [nbBits]
  split
  · omega
  · have := (Nat.log2_lt (by omega : alphabetSize - 1 ≠ 0)).2 (by omega : alphabetSize - 1 < 2 ^ b)
    omega

theorem le_two_pow_nbBits (alphabetSize : Nat) : alphabetSize ≤ 2 ^ nbBits alphabetSize := by
  rw [nbBits]
  split
  · rename_i h
    exact h.trans (Nat.one_le_two_pow)
  · have := Nat.lt_log2_self (n := alphabetSize - 1)
    rw [Nat.add_comm]
    omega

theorem log2_shiftLeft {x : Nat} (hx : x ≠ 0) (k : Nat) : (x <<< k).log2 = x.log2 + k := by
  induction k with
  | zero => rfl
  | succ k ih =>
    have hne : x <<< k ≠ 0 := by
      rw [Nat.shiftLeft_eq]
      exact Nat.mul_ne_zero hx (Nat.two_pow_pos k).ne'
    rw [Nat.shiftLeft_succ, Nat.log2_two_mul hne, ih, Nat.add_assoc]

theorem clz32_lastByte (b : UInt8) :
    clz32 ((b.toNat ||| 1) <<< 24) = 7 - (b.toNat ||| 1).log2 ∧ (b.toNat ||| 1).log2 ≤ 7 := by
  have hlt : b.toNat ||| 1 < 2 ^ 8 := Nat.or_lt_two_pow (UInt8.toNat_lt b) (by decide)
  have hle : 1 ≤ b.toNat ||| 1 := Nat.right_le_or
  have hlog := (Nat.log2_lt (by omega : b.toNat ||| 1 ≠ 0)).2 hlt
  refine ⟨?_, by omega⟩
  rw [clz32, log2_shiftLeft (by omega)]
  omega

theorem nbElts_bounds {alphabetSize : Nat} {packed : List UInt8} (hsize : 0 < alphabetSize)
    (hle : alphabetSize ≤ 256) (hpacked : packed ≠ []) :
    nbBits alphabetSize * nbElts alphabetSize packed ≤ 8 * packed.length ∧
      8 * packed.length ≤ nbBits alphabetSize * nbElts alphabetSize packed + 15 := by
  have hpos := nbBits_pos hsize
  have hn : nbBits alphabetSize ≤ 8 := nbBits_le (by decide) hle
  have hlen := List.length_pos_of_ne_nil hpacked
  obtain ⟨hclz, hlog⟩ := clz32_lastByte (packed.getLastD 0)
  rw [nbElts, if_neg (by omega)]
  simp only [hclz]
  generalize ((packed.getLastD 0).toNat ||| 1).log2 = top at hlog
  have hdiv := Nat.div_add_mod (8 * packed.length - (7 - top + 1)) (nbBits alphabetSize)
  have hmod := Nat.mod_lt (8 * packed.length - (7 - top + 1)) hpos
  omega

/-- The symbols that the rounds of the fast decoder write, for the sizes of its inputs. -/
def fastSymbols (alphabetSize packedSize : Nat) : Nat :=
  if alphabetSize ≤ 128 then 16 * rounds 16 (2 * nbBits alphabetSize) packedSize
  else 8 * rounds 8 (nbBits alphabetSize) packedSize

/-- The fields from the `k`-th on are refused by the plain decoder: one of them is no index, or the
bit above them does not end the last byte. -/
def RestRefused (alphabetSize : Nat) (packed : List UInt8) (k : Nat) : Prop :=
  ¬Accepts alphabetSize (nbBits alphabetSize) (nbElts alphabetSize packed - k)
    (ofLE packed / 2 ^ (nbBits alphabetSize * k))
    (8 * packed.length - nbBits alphabetSize * k)

/-- Each field that a round of the fast decoder writes a symbol for is an index into the
alphabet, or the rest is refused anyway. -/
def IndicesSeen (alphabetSize : Nat) (packed : List UInt8) : Prop :=
  (∀ idx ∈ fields (nbBits alphabetSize) (fastSymbols alphabetSize packed.length) (ofLE packed),
    idx < alphabetSize) ∨
  RestRefused alphabetSize packed (fastSymbols alphabetSize packed.length)

instance (alphabetSize : Nat) (packed : List UInt8) (k : Nat) :
    Decidable (RestRefused alphabetSize packed k) :=
  inferInstanceAs (Decidable (¬_))

instance (alphabetSize : Nat) (packed : List UInt8) :
    Decidable (IndicesSeen alphabetSize packed) :=
  inferInstanceAs (Decidable (_ ∨ _))

section Dispatch

variable {alphabet packed : List UInt8}

theorem decodeVector_agrees_iff {lookup : List UInt8 → List UInt8 → List UInt8}
    (h : Looks lookup alphabet) (hsize : 0 < alphabet.length) (hle : alphabet.length ≤ 128)
    (hpacked : packed ≠ []) :
    decodeVector lookup alphabet (nbBits alphabet.length) (nbElts alphabet.length packed) packed =
        some (decodeEnd alphabet (nbBits alphabet.length) (nbElts alphabet.length packed) packed) ↔
      IndicesSeen alphabet.length packed := by
  have hn : nbBits alphabet.length ≤ 7 := nbBits_le (by decide) hle
  obtain ⟨f, hf, hround⟩ := writesFields_lookup h hn (by omega)
  obtain ⟨hfit, hbytes⟩ := nbElts_bounds hsize (by omega) hpacked
  exact fastDecode_agrees_iff (nbBits_pos hsize) (by omega) (by ring) (by decide) hround hf hbytes
    hfit (if_pos hle)

theorem decodeGeneric_agrees_iff (hsize : 128 < alphabet.length) (hle : alphabet.length ≤ 256)
    (hpacked : packed ≠ []) :
    decodeGeneric alphabet (nbBits alphabet.length) (nbElts alphabet.length packed) packed =
        some (decodeEnd alphabet (nbBits alphabet.length) (nbElts alphabet.length packed) packed) ↔
      IndicesSeen alphabet.length packed := by
  have hn : nbBits alphabet.length ≤ 8 := nbBits_le (by decide) hle
  obtain ⟨f, hf, hround⟩ := writesFields_round8 alphabet hn
  obtain ⟨hfit, hbytes⟩ := nbElts_bounds (by omega) hle hpacked
  exact fastDecode_agrees_iff (nbBits_pos (by omega)) hn (Nat.mul_comm _ _) (by decide) hround hf
    hbytes hfit (if_neg (by omega))

theorem flatpackDecode_agrees_iff (dstCapacity : Nat) (hle : alphabet.length ≤ 256) :
    flatpackDecode true dstCapacity alphabet packed =
        flatpackDecode false dstCapacity alphabet packed ↔
      packed = [] ∨ alphabet = [] ∨ dstCapacity < nbElts alphabet.length packed ∨
        IndicesSeen alphabet.length packed := by
  rw [flatpackDecode, flatpackDecode]
  by_cases hnone : packed.length = 0 ∨ alphabet.length = 0
  · rw [if_pos hnone, if_pos hnone]
    rw [List.length_eq_zero_iff, List.length_eq_zero_iff] at hnone
    refine iff_of_true rfl ?_
    rcases hnone with h | h
    · exact Or.inl h
    · exact Or.inr (Or.inl h)
  · rw [if_neg hnone, if_neg hnone]
    have hpacked : packed ≠ [] := fun h => hnone (Or.inl (by rw [h]; rfl))
    have halphabet : alphabet ≠ [] := fun h => hnone (Or.inr (by rw [h]; rfl))
    have hpos := List.length_pos_of_ne_nil halphabet
    simp only [hpacked, halphabet, false_or, if_true, Bool.false_eq_true, if_false]
    by_cases hroom : dstCapacity < nbElts alphabet.length packed
    · rw [if_pos hroom, if_pos hroom]
      exact iff_of_true rfl (Or.inl hroom)
    · rw [if_neg hroom, if_neg hroom]
      simp only [hroom, false_or]
      split_ifs with h16 h32 h48 h64 h128
      · exact decodeVector_agrees_iff (looks_lookup16 h16) hpos (by omega) hpacked
      · exact decodeVector_agrees_iff (looks_lookup32 h32) hpos (by omega) hpacked
      · exact decodeVector_agrees_iff (looks_lookup48 h48) hpos (by omega) hpacked
      · exact decodeVector_agrees_iff (looks_lookup64 h64) hpos (by omega) hpacked
      · exact decodeVector_agrees_iff (looks_lookup128 h128) hpos h128 hpacked
      · exact decodeGeneric_agrees_iff (by omega) hle hpacked

end Dispatch

end OpenZL.Codecs.Flatpack
