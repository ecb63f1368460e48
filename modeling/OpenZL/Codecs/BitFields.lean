import OpenZL.Codecs.ForwardBitstreamRoundTrip

/-!
# Fields of different widths

A codec that writes each value in a width of its own, with a flush behind each write, leaves the
fields one behind the other, as long as the destination has room for all of them.

Principal results: `pext_laneMask`, `Written.writeSplit`, `Written.finish`, `ReadUpTo.readSplit`.
-/

namespace OpenZL.Codecs.Bitpack.InMemory

open OpenZL.Lib

/-- The bits of fields, each a value and a width. -/
def fieldsSize (fs : List (Nat × Nat)) : Nat := (fs.map Prod.snd).sum

/-- The number whose bits are those of fields, the first one lowest. -/
def fieldsCode : List (Nat × Nat) → Nat
  | [] => 0
  | (value, nbBits) :: fs => value % 2 ^ nbBits + 2 ^ nbBits * fieldsCode fs

/-- The bytes of fields; zero bits fill up the last one. -/
def bytesOfFields (fs : List (Nat × Nat)) : List UInt8 :=
  toLE ((fieldsSize fs + 7) / 8) (fieldsCode fs)

@[simp] theorem fieldsSize_nil : fieldsSize [] = 0 := rfl

@[simp] theorem fieldsSize_cons (f : Nat × Nat) (fs : List (Nat × Nat)) :
    fieldsSize (f :: fs) = f.2 + fieldsSize fs := by
  rw [fieldsSize, List.map_cons, List.sum_cons, fieldsSize]

theorem fieldsSize_append (fs gs : List (Nat × Nat)) :
    fieldsSize (fs ++ gs) = fieldsSize fs + fieldsSize gs := by
  rw [fieldsSize, List.map_append, List.sum_append, fieldsSize, fieldsSize]

theorem fieldsCode_append (fs gs : List (Nat × Nat)) :
    fieldsCode (fs ++ gs) = fieldsCode fs + 2 ^ fieldsSize fs * fieldsCode gs := by
  induction fs with
  | nil => rw [List.nil_append, fieldsCode, fieldsSize_nil, Nat.pow_zero, Nat.one_mul, Nat.zero_add]
  | cons f fs ih =>
    rw [List.cons_append, fieldsCode, fieldsCode, ih, fieldsSize_cons, Nat.pow_add]
    ring

theorem fieldsCode_lt (fs : List (Nat × Nat)) : fieldsCode fs < 2 ^ fieldsSize fs := by
  induction fs with
  | nil => exact Nat.one_pos
  | cons f fs ih =>
    rw [fieldsCode, fieldsSize_cons]
    exact add_mul_lt (Nat.mod_lt _ (by positivity)) ih

theorem fieldsCode_field (fs : List (Nat × Nat)) (value nbBits : Nat) (gs : List (Nat × Nat)) :
    fieldsCode (fs ++ (value, nbBits) :: gs) / 2 ^ fieldsSize fs % 2 ^ nbBits =
      value % 2 ^ nbBits := by
  rw [fieldsCode_append, Nat.add_mul_div_left _ _ (by positivity),
    Nat.div_eq_of_lt (fieldsCode_lt fs), Nat.zero_add, fieldsCode, Nat.add_mul_mod_self_left,
    Nat.mod_mod]

theorem fieldsCode_split (value : Nat) {nbBits : Nat} (h : 32 ≤ nbBits) (gs : List (Nat × Nat)) :
    fieldsCode ((value, 32) :: (value >>> 32, nbBits - 32) :: gs) =
      fieldsCode ((value, nbBits) :: gs) := by
  have hsplit : value % 2 ^ nbBits =
      value % 2 ^ 32 + 2 ^ 32 * (value / 2 ^ 32 % 2 ^ (nbBits - 32)) := by
    rw [← Nat.mod_mul, ← Nat.pow_add, Nat.add_sub_cancel' h]
  have hpow : 2 ^ nbBits = 2 ^ 32 * 2 ^ (nbBits - 32) := by
    rw [← Nat.pow_add, Nat.add_sub_cancel' h]
  rw [fieldsCode, fieldsCode, fieldsCode, Nat.shiftRight_eq_div_pow, hsplit, hpow]
  ring

theorem length_bytesOfFields (fs : List (Nat × Nat)) :
    (bytesOfFields fs).length = (fieldsSize fs + 7) / 8 := length_toLE _ _

theorem ofLE_bytesOfFields (fs : List (Nat × Nat)) : ofLE (bytesOfFields fs) = fieldsCode fs := by
  have hlt := fieldsCode_lt fs
  have hle : 2 ^ fieldsSize fs ≤ 2 ^ (8 * ((fieldsSize fs + 7) / 8)) :=
    Nat.pow_le_pow_right Nat.two_pos (by omega)
  rw [bytesOfFields, ofLE_toLE, pow256, Nat.mod_eq_of_lt (by omega)]

/-- The number whose lanes of `L` bits have their low bits set, as many as the list tells. -/
def laneMask (L : Nat) (ws : List Nat) : Nat := Nat.ofDigits (2 ^ L) (ws.map fun w => 2 ^ w - 1)

/-- The positions of the bits of such a mask. -/
def fieldPositions (L : Nat) : List Nat → Nat → List Nat
  | [], _ => []
  | w :: ws, base => List.range' base w ++ fieldPositions L ws (base + L)

theorem testBit_two_pow_sub_one_add {L w : Nat} (hw : w ≤ L) (rest i : Nat) :
    (2 ^ w - 1 + 2 ^ L * rest).testBit i =
      if i < L then decide (i < w) else rest.testBit (i - L) := by
  have hle : 2 ^ w ≤ 2 ^ L := Nat.pow_le_pow_right Nat.two_pos hw
  have hpos : 0 < 2 ^ w := Nat.two_pow_pos w
  rw [Nat.add_comm, Nat.testBit_two_pow_mul_add rest (by omega), Nat.testBit_two_pow_sub_one]

theorem filter_range'_lt (base w : Nat) {L : Nat} (hw : w ≤ L) :
    (List.range' base L).filter (fun i => decide (i - base < w)) = List.range' base w := by
  obtain ⟨r, rfl⟩ := Nat.exists_eq_add_of_le hw
  rw [← List.range'_append_1, List.filter_append, List.filter_eq_self.2, List.filter_eq_nil_iff.2,
    List.append_nil]
  · intro i hi
    rw [List.mem_range'_1] at hi
    rw [decide_eq_true_iff]
    omega
  · intro i hi
    rw [List.mem_range'_1] at hi
    rw [decide_eq_true_iff]
    omega

theorem filter_laneMask {L : Nat} (ws : List Nat) : ∀ (base : Nat), (∀ w ∈ ws, w ≤ L) →
    (List.range' base (L * ws.length)).filter (fun i => (laneMask L ws).testBit (i - base)) =
      fieldPositions L ws base := by
  induction ws with
  | nil => exact fun base _ => rfl
  | cons w ws ih =>
    intro base h
    have hw := h w List.mem_cons_self
    have hbit : ∀ i, (laneMask L (w :: ws)).testBit i =
        if i < L then decide (i < w) else (laneMask L ws).testBit (i - L) := fun i => by
      rw [laneMask, List.map_cons, Nat.ofDigits_cons, testBit_two_pow_sub_one_add hw, laneMask]
    rw [List.length_cons, Nat.mul_succ, Nat.add_comm, ← List.range'_append_1, List.filter_append,
      fieldPositions, ← filter_range'_lt base w hw,
      ← ih (base + L) fun w hw => h w (List.mem_cons_of_mem _ hw)]
    congr 1
    · refine List.filter_congr fun i hi => ?_
      rw [List.mem_range'_1] at hi
      rw [hbit, if_pos (by omega)]
    · refine List.filter_congr fun i hi => ?_
      rw [List.mem_range'_1] at hi
      rw [hbit, if_neg (by omega), Nat.sub_sub]

theorem pextList_fieldPositions {L : Nat} (ws : List Nat) : ∀ {es : List Nat} {base x : Nat},
    (∀ w ∈ ws, w ≤ L) → (∀ e ∈ es, e < 2 ^ L) → es.length = ws.length →
      x / 2 ^ base = Nat.ofDigits (2 ^ L) es →
      pextList (fieldPositions L ws base) x = fieldsCode (es.zip ws) := by
  induction ws with
  | nil =>
    intro es base x _ _ hlen _
    rw [List.length_eq_zero_iff.1 hlen]
    rfl
  | cons w ws ih =>
    intro es base x hws hes hlen hx
    cases es with
    | nil => cases hlen
    | cons e es =>
      have he := hes e List.mem_cons_self
      have hdvd : 2 ^ w ∣ 2 ^ L := Nat.pow_dvd_pow 2 (hws w List.mem_cons_self)
      have hrest : x / 2 ^ (base + L) = Nat.ofDigits (2 ^ L) es := by
        rw [Nat.pow_add, ← Nat.div_div_eq_div_mul, hx, Nat.ofDigits_cons,
          Nat.add_mul_div_left _ _ (Nat.two_pow_pos L), Nat.div_eq_of_lt he, Nat.zero_add]
      have hlow : x / 2 ^ base % 2 ^ w = e % 2 ^ w := by
        rw [hx, Nat.ofDigits_cons, Nat.add_mod, Nat.mod_eq_zero_of_dvd (hdvd.mul_right _),
          Nat.add_zero, Nat.mod_mod]
      rw [fieldPositions, pextList_range', hlow,
        ih (fun w hw => hws w (List.mem_cons_of_mem _ hw))
          (fun e he => hes e (List.mem_cons_of_mem _ he)) (Nat.succ.inj hlen) hrest]
      rfl

/-- **Extracting fields**: each lane gives its low bits. -/
theorem pext_laneMask {L : Nat} {es ws : List Nat} (hL : L * ws.length = 64)
    (hws : ∀ w ∈ ws, w ≤ L) (hes : ∀ e ∈ es, e < 2 ^ L) (hlen : es.length = ws.length) :
    pext (Nat.ofDigits (2 ^ L) es) (laneMask L ws) = fieldsCode (es.zip ws) := by
  have hpos := filter_laneMask ws 0 hws
  rw [hL] at hpos
  simp only [Nat.sub_zero] at hpos
  rw [pext, maskPositions, List.range_eq_range', hpos,
    pextList_fieldPositions ws hws hes hlen (by rw [Nat.pow_zero, Nat.div_one])]
/-- `ZS_BitCStreamFF_write`, whose assertion must hold, and `ZS_BitCStreamFF_flush`. -/
def writeFlush (bits : BitCStreamFF) (value nbBits : Nat) : Option BitCStreamFF :=
  if bits.nbBits + nbBits ≤ 63 then (bits.write value nbBits).flush else none

/-- A write and a flush, or two of each for a value of more than 56 bits. -/
def writeSplit (bits : BitCStreamFF) (value nbBits : Nat) : Option BitCStreamFF :=
  if nbBits ≤ 56 then writeFlush bits value nbBits
  else do
    let bits ← writeFlush bits value 32
    writeFlush bits (value >>> 32) (nbBits - 32)

theorem Writing.finish_fields {bits : BitCStreamFF} {room : Nat} {fs : List (Nat × Nat)}
    (h : Writing bits room room (fieldsSize fs) (fieldsCode fs))
    (hroom : fieldsSize fs ≤ 8 * room) :
    ∃ dst, bits.finish = some ((fieldsSize fs + 7) / 8, dst) ∧
      dst.take ((fieldsSize fs + 7) / 8) = bytesOfFields fs := by
  have hbits := h.packed.bits
  have hstop := h.stop
  have hlength := h.length
  rw [BitCStreamFF.finish]
  simp only [if_neg (by omega : ¬bits.stop - bits.ptr < (bits.nbBits + 7) / 8)]
  split
  · have hnone : bits.nbBits = 0 := by omega
    have hpacked := h.packed
    rw [hnone] at hpacked
    exact ⟨bits.dst, by rw [show bits.ptr = (fieldsSize fs + 7) / 8 by omega], hpacked.stored⟩
  · obtain ⟨dst', hstore, -, hstored⟩ :=
      h.packed.finish (Nat.le_refl ((bits.nbBits + 7) / 8)) (by omega)
    refine ⟨dst', ?_, hstored⟩
    rw [hstore, show (fieldsSize fs + 7) / 8 = bits.ptr + (bits.nbBits + 7) / 8 by omega]
    rfl

/-- The writer stands behind fields, after a flush, in a destination of `room` bytes. -/
structure Written (bits : BitCStreamFF) (room : Nat) (fs : List (Nat × Nat)) : Prop where
  writing : Writing bits room room (fieldsSize fs) (fieldsCode fs)
  flushed : Flushed bits

namespace Written

variable {bits : BitCStreamFF} {room : Nat} {fs : List (Nat × Nat)}

theorem init (dst : List UInt8) : Written (BitCStreamFF.init dst dst.length) dst.length [] :=
  ⟨Writing.init (Nat.le_refl _), Or.inl (by decide : 0 < 8)⟩

theorem writeFlush (h : Written bits room fs) {gs : List (Nat × Nat)} {value nbBits : Nat}
    (hvalue : value % 2 ^ nbBits = fieldsCode gs) (hsize : nbBits = fieldsSize gs)
    (hfew : nbBits ≤ 56) (hroom : fieldsSize (fs ++ gs) ≤ 8 * room) :
    ∃ bits', InMemory.writeFlush bits value nbBits = some bits' ∧ Written bits' room (fs ++ gs) := by
  rw [fieldsSize_append, ← hsize] at hroom
  have hfit := h.writing.fits h.flushed hroom hfew
  have hwrite := h.writing.write (k := nbBits) value (by omega)
  obtain ⟨bits', hflush, hwriting, hflushed⟩ := hwrite.flush
    (by rw [BitCStreamFF.write]; dsimp only; omega)
  rw [hvalue, ← fieldsCode_append, hsize, ← fieldsSize_append] at hwriting
  exact ⟨bits', by rw [InMemory.writeFlush, if_pos hfit, hflush], hwriting, hflushed⟩

/-- **One field.** -/
theorem writeSplit (h : Written bits room fs) (value : Nat) {nbBits : Nat} (hmany : nbBits ≤ 64)
    (hroom : fieldsSize (fs ++ [(value, nbBits)]) ≤ 8 * room) :
    ∃ bits', InMemory.writeSplit bits value nbBits = some bits' ∧
      Written bits' room (fs ++ [(value, nbBits)]) := by
  have hone : ∀ v n : Nat, v % 2 ^ n = fieldsCode [(v, n)] := fun v n => by
    rw [fieldsCode, fieldsCode, Nat.mul_zero, Nat.add_zero]
  rw [InMemory.writeSplit]
  by_cases hfew : nbBits ≤ 56
  · rw [if_pos hfew]
    exact h.writeFlush (hone value nbBits) rfl hfew hroom
  · rw [fieldsSize_append, fieldsSize_cons, fieldsSize_nil] at hroom
    rw [if_neg hfew]
    obtain ⟨bits₁, hrun₁, h₁⟩ := h.writeFlush (hone value 32) rfl (by decide)
      (by rw [fieldsSize_append, fieldsSize_cons, fieldsSize_nil]; omega)
    obtain ⟨bits₂, hrun₂, h₂⟩ := h₁.writeFlush (hone (value >>> 32) (nbBits - 32)) rfl (by omega)
      (by
        simp only [fieldsSize_append, fieldsSize_cons, fieldsSize_nil]
        omega)
    refine ⟨bits₂, by rw [hrun₁, Option.bind_eq_bind, Option.bind_some, hrun₂], ?_, h₂.flushed⟩
    have hwriting := h₂.writing
    rw [List.append_assoc, List.singleton_append, fieldsCode_append,
      fieldsCode_split value (by omega), ← fieldsCode_append] at hwriting
    have hsize : fieldsSize (fs ++ [(value, 32), (value >>> 32, nbBits - 32)]) =
        fieldsSize (fs ++ [(value, nbBits)]) := by
      simp only [fieldsSize_append, fieldsSize_cons, fieldsSize_nil]
      omega
    rwa [hsize] at hwriting

/-- **The end of a run**: the bytes of all fields. -/
theorem finish (h : Written bits room fs) (hroom : fieldsSize fs ≤ 8 * room) :
    ∃ dst, bits.finish = some ((fieldsSize fs + 7) / 8, dst) ∧
      dst.take ((fieldsSize fs + 7) / 8) = bytesOfFields fs := h.writing.finish_fields hroom

end Written

/-- A read, or two for a value of more than 56 bits, with a reload between them. -/
def readSplit (bits : BitDStreamFF) (nbBits : Nat) : Option (Nat × BitDStreamFF) :=
  if nbBits ≤ 56 then some (bits.peek nbBits, bits.skip nbBits)
  else do
    let lo := bits.peek 32
    let bits ← (bits.skip 32).reload
    let hi := bits.peek (nbBits - 32)
    some (lo ||| (hi <<< 32) % 2 ^ 64, bits.skip (nbBits - 32))

/-- The reader stands behind `fs`, after a reload, and `gs` are the fields that come. -/
structure ReadUpTo (bits : BitDStreamFF) (src : List UInt8) (fs gs : List (Nat × Nat)) :
    Prop where
  reader : Reader bits src (fieldsSize fs % 8) (fieldsSize fs)
  source : ofLE src = fieldsCode (fs ++ gs)
  inside : fieldsSize (fs ++ gs) ≤ 8 * src.length

namespace ReadUpTo

variable {bits : BitDStreamFF} {src : List UInt8} {fs gs : List (Nat × Nat)} {value nbBits : Nat}

theorem init (fs : List (Nat × Nat)) :
    ∃ bits, BitDStreamFF.init (bytesOfFields fs) (bytesOfFields fs).length = some bits ∧
      ReadUpTo bits (bytesOfFields fs) [] fs := by
  obtain ⟨bits, hinit, hreader⟩ := Reader.init (bytesOfFields fs)
  refine ⟨bits, hinit, hreader, ofLE_bytesOfFields fs, ?_⟩
  rw [List.nil_append, length_bytesOfFields]
  omega

theorem read (h : ReadUpTo bits src fs ((value, nbBits) :: gs)) (hfew : nbBits ≤ 57) :
    bits.peek nbBits = value % 2 ^ nbBits ∧
      ∃ bits', (bits.skip nbBits).reload = some bits' ∧
        ReadUpTo bits' src (fs ++ [(value, nbBits)]) gs := by
  have hinside := h.inside
  rw [fieldsSize_append, fieldsSize_cons] at hinside
  dsimp only at hinside
  have hsize : fieldsSize (fs ++ [(value, nbBits)]) = fieldsSize fs + nbBits := by
    rw [fieldsSize_append, fieldsSize_cons, fieldsSize_nil, Nat.add_zero]
  have hpeek := h.reader.peek (n := nbBits) (by omega) (by omega) (by omega)
  rw [h.source, fieldsCode_field] at hpeek
  have hskip := h.reader.skip (n := nbBits) (by omega) (by omega)
  obtain ⟨bits', hreload, hreader⟩ := hskip.reload
  refine ⟨hpeek, bits', hreload, ?_, ?_, ?_⟩
  · rwa [hsize]
  · rw [h.source, List.append_assoc, List.singleton_append]
  · rw [List.append_assoc, List.singleton_append, fieldsSize_append, fieldsSize_cons]
    exact hinside

theorem split (h : ReadUpTo bits src fs ((value, nbBits) :: gs)) (hmany : 32 ≤ nbBits) :
    ReadUpTo bits src fs ((value, 32) :: (value >>> 32, nbBits - 32) :: gs) := by
  have hinside := h.inside
  refine ⟨h.reader, ?_, ?_⟩
  · rw [h.source, fieldsCode_append, fieldsCode_append, fieldsCode_split value hmany]
  · simp only [fieldsSize_append, fieldsSize_cons] at hinside ⊢
    omega

theorem unsplit (h : ReadUpTo bits src (fs ++ [(value, 32)] ++ [(value >>> 32, nbBits - 32)]) gs)
    (hmany : 32 ≤ nbBits) : ReadUpTo bits src (fs ++ [(value, nbBits)]) gs := by
  have hsize : fieldsSize (fs ++ [(value, 32)] ++ [(value >>> 32, nbBits - 32)]) =
      fieldsSize (fs ++ [(value, nbBits)]) := by
    simp only [fieldsSize_append, fieldsSize_cons, fieldsSize_nil]
    omega
  have hinside := h.inside
  refine ⟨hsize ▸ h.reader, ?_, ?_⟩
  · rw [h.source, List.append_assoc, List.append_assoc, List.append_assoc, List.singleton_append,
      List.singleton_append, List.singleton_append, fieldsCode_append, fieldsCode_append,
      fieldsCode_split value hmany]
  · rw [fieldsSize_append, hsize] at hinside
    rwa [fieldsSize_append]

/-- **One field**, in one read or two, up to a reload. -/
theorem readSplit (h : ReadUpTo bits src fs ((value, nbBits) :: gs)) (hmany : nbBits ≤ 64) :
    ∃ bits₁ bits₂, InMemory.readSplit bits nbBits = some (value % 2 ^ nbBits, bits₁) ∧
      bits₁.reload = some bits₂ ∧ ReadUpTo bits₂ src (fs ++ [(value, nbBits)]) gs := by
  rw [InMemory.readSplit]
  by_cases hfew : nbBits ≤ 56
  · obtain ⟨hpeek, bits', hreload, hnext⟩ := h.read (by omega)
    rw [if_pos hfew, hpeek]
    exact ⟨_, bits', rfl, hreload, hnext⟩
  · obtain ⟨hlo, bits₁, hreload₁, h₁⟩ := (h.split (by omega)).read (by decide)
    obtain ⟨hhi, bits₂, hreload₂, h₂⟩ := h₁.read (by omega)
    have hlt : (value >>> 32 % 2 ^ (nbBits - 32)) <<< 32 < 2 ^ 64 := by
      have hmod : value >>> 32 % 2 ^ (nbBits - 32) < 2 ^ 32 :=
        (Nat.mod_lt _ (by positivity)).trans_le (Nat.pow_le_pow_right Nat.two_pos (by omega))
      rw [Nat.shiftLeft_eq]
      omega
    have hvalue : value % 2 ^ 32 ||| ((value >>> 32 % 2 ^ (nbBits - 32)) <<< 32) % 2 ^ 64 =
        value % 2 ^ nbBits := by
      rw [Nat.mod_eq_of_lt hlt, or_shiftLeft (Nat.mod_lt _ (by positivity)),
        Nat.shiftRight_eq_div_pow, ← Nat.mod_mul, ← Nat.pow_add,
        Nat.add_sub_cancel' (by omega : 32 ≤ nbBits)]
    rw [if_neg hfew, hreload₁]
    dsimp only [Option.bind_eq_bind, Option.bind_some]
    rw [hlo, hhi, hvalue]
    exact ⟨_, bits₂, rfl, hreload₂, h₂.unsplit (by omega)⟩

theorem finish (h : ReadUpTo bits src fs gs) : bits.finish ≠ none := by
  rw [BitDStreamFF.finish, if_neg (Nat.not_lt.2 h.reader.read_le)]
  exact nofun

end ReadUpTo

end OpenZL.Codecs.Bitpack.InMemory
