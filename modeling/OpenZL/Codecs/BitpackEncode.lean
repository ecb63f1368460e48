import OpenZL.Lib.BitStreams
import OpenZL.Lib.Intrinsics

/-!
# The bitpack encoders in memory

The portable encoders of `ZS_bitpackEncode`, writing into a destination of bytes. A write that would
leave the destination is undefined (`none`), and so are an encoder's own checks when they fail.

Principal results: `encodes_generic8`, `encodes_generic16`, `encodes_generic32`,
`encodes_generic64`, `encodes_bytepack`, `bit1pack32_spec`.
-/

namespace OpenZL.Codecs.Bitpack.InMemory

open OpenZL.Lib

/-- `ZS_bitpackEncodeBound`. -/
def bitpackEncodeBound (nbElts nbBits : Nat) : Nat := (nbElts * nbBits + 7) / 8

/-- An encoder takes a destination, elements and a number of bits to the number of bytes of the
result and the destination after the writes. -/
abbrev Encoder : Type := List UInt8 → List Nat → Nat → Option (Nat × List UInt8)

/-- The loop of `ZS_bitpackEncode8_generic`, with its tail. -/
def encode8Loop (nbBits : Nat) :
    List Nat → List UInt8 → Nat → Nat → Nat → Option (Nat × List UInt8)
  | [], dst, op, bits, state =>
    if bits > 0 then (store dst op 1 state).map (op + 1, ·) else some (op, dst)
  | v :: ip, dst, op, bits, state =>
    let state := state ||| (v <<< bits) % 2 ^ 64
    let bits := bits + nbBits
    if bits ≥ 8 then do
      let dst ← store dst op 1 state
      encode8Loop nbBits ip dst (op + 1) (bits - 8) (state >>> 8)
    else encode8Loop nbBits ip dst op bits state

/-- `ZS_bitpackEncode8_generic`. -/
def bitpackEncode8Generic : Encoder := fun dst src nbBits =>
  (encode8Loop nbBits src dst 0 0 0).map fun r => (bitpackEncodeBound src.length nbBits, r.2)

/-- The inner loop of `ZS_bitpackEncode16_generic`: whole bytes leave the state. -/
def flushBytes (dst : List UInt8) (op bits state : Nat) : Option (List UInt8 × Nat × Nat × Nat) :=
  if 8 ≤ bits then do
    let dst ← store dst op 1 state
    flushBytes dst (op + 1) (bits - 8) (state >>> 8)
  else some (dst, op, bits, state)
termination_by bits

/-- The loop of `ZS_bitpackEncode16_generic`, with its tail. -/
def encode16Loop (nbBits : Nat) :
    List Nat → List UInt8 → Nat → Nat → Nat → Option (Nat × List UInt8)
  | [], dst, op, bits, state =>
    if bits > 0 then (store dst op 1 state).map (op + 1, ·) else some (op, dst)
  | v :: ip, dst, op, bits, state => do
    let (dst, op, bits, state) ←
      flushBytes dst op (bits + nbBits) (state ||| (v <<< bits) % 2 ^ 64)
    encode16Loop nbBits ip dst op bits state

/-- `ZS_bitpackEncode16_generic`. -/
def bitpackEncode16Generic : Encoder := fun dst src nbBits =>
  (encode16Loop nbBits src dst 0 0 0).map fun r => (bitpackEncodeBound src.length nbBits, r.2)

/-- Near the end of the destination no more bytes are written than are committed. -/
def commitWidth (dstPtr dstEnd nbBytesCommitted : Nat) : Nat :=
  if dstPtr + 8 ≤ dstEnd then 8 else nbBytesCommitted

/-- The last round of `ZS_bitpackEncode32_generic`, with the final commit. -/
def encode32LastRound (nbBits dstEnd : Nat) :
    List Nat → List UInt8 → Nat → Nat → Nat → Option (Nat × List UInt8)
  | [], dst, dstPtr, acc64, bitPos =>
    let nbBytesCommitted := (bitPos + 7) / 8
    (store dst dstPtr (commitWidth dstPtr dstEnd nbBytesCommitted) acc64).map
      (dstPtr + nbBytesCommitted, ·)
  | v :: src32, dst, dstPtr, acc64, bitPos =>
    let acc64 := acc64 ||| (v <<< bitPos) % 2 ^ 64
    let bitPos := bitPos + nbBits
    if bitPos > 63 - nbBits then do
      let nbBytesCommitted := bitPos / 8
      let dst ← store dst dstPtr (commitWidth dstPtr dstEnd nbBytesCommitted) acc64
      encode32LastRound nbBits dstEnd src32 dst (dstPtr + nbBytesCommitted)
        (acc64 >>> (nbBytesCommitted * 8)) (bitPos % 8)
    else encode32LastRound nbBits dstEnd src32 dst dstPtr acc64 bitPos

/-- The inner loop of a full round: no commit between the packs. -/
def packRound (nbBits : Nat) : List Nat → Nat → Nat → Nat × Nat
  | [], acc64, bitPos => (acc64, bitPos)
  | v :: src32, acc64, bitPos =>
    packRound nbBits src32 (acc64 ||| (v <<< bitPos) % 2 ^ 64) (bitPos + nbBits)

/-- The full rounds of `ZS_bitpackEncode32_generic`: eight bytes are written in each, hence the
guard `dstPtr < dstEnd - 7`. -/
def encode32FullRounds (nbBits dstEnd : Nat) :
    Nat → List Nat → List UInt8 → Nat → Nat → Nat → Option (Nat × List UInt8)
  | 0, src32, dst, dstPtr, acc64, bitPos =>
    encode32LastRound nbBits dstEnd src32 dst dstPtr acc64 bitPos
  | nr + 1, src32, dst, dstPtr, acc64, bitPos =>
    if dstPtr + 7 < dstEnd then do
      let (acc64, bitPos) := packRound nbBits (src32.take (56 / nbBits)) acc64 bitPos
      let dst ← store dst dstPtr 8 acc64
      let nbBytesCommitted := bitPos / 8
      encode32FullRounds nbBits dstEnd nr (src32.drop (56 / nbBits)) dst
        (dstPtr + nbBytesCommitted) (acc64 >>> (nbBytesCommitted * 8)) (bitPos % 8)
    else encode32LastRound nbBits dstEnd src32 dst dstPtr acc64 bitPos

/-- `ZS_bitpackEncode32_generic`. -/
def bitpackEncode32Generic : Encoder := fun dst src32 nbBits =>
  encode32FullRounds nbBits (bitpackEncodeBound src32.length nbBits)
    (src32.length / (56 / nbBits)) src32 dst 0 0 0

/-- `ZS_BitCStreamFF`, with the buffer its pointers lead into; `begin` is 0. -/
structure BitCStreamFF where
  container : Nat
  nbBits : Nat
  ptr : Nat
  limit : Nat
  stop : Nat
  dst : List UInt8

namespace BitCStreamFF

/-- `ZS_BitCStreamFF_init`. -/
def init (dst : List UInt8) (dstCapacity : Nat) : BitCStreamFF where
  container := 0
  nbBits := 0
  ptr := 0
  limit := if dstCapacity < 8 then 0 else dstCapacity - 8 + 1
  stop := dstCapacity
  dst := dst

/-- `ZS_BitCStreamFF_write`. -/
def write (bits : BitCStreamFF) (value nbBits : Nat) : BitCStreamFF :=
  { bits with
    container := bits.container ||| ((value &&& (2 ^ nbBits - 1)) <<< bits.nbBits) % 2 ^ 64
    nbBits := bits.nbBits + nbBits }

/-- `ZS_BitCStreamFF_flush`. -/
def flush (bits : BitCStreamFF) : Option BitCStreamFF :=
  if bits.ptr ≥ bits.limit then some bits
  else
    let nbBytes := bits.nbBits >>> 3
    (store bits.dst bits.ptr 8 bits.container).map fun dst =>
      { bits with
        dst := dst
        ptr := bits.ptr + nbBytes
        nbBits := bits.nbBits % 8
        container := bits.container >>> (nbBytes <<< 3) }

/-- `ZS_BitCStreamFF_finish`; an error is `none`. -/
def finish (bits : BitCStreamFF) : Option (Nat × List UInt8) :=
  let bytesToWrite := (bits.nbBits + 7) / 8
  if bits.stop - bits.ptr < bytesToWrite then none
  else if bytesToWrite = 0 then some (bits.ptr, bits.dst)
  else (store bits.dst bits.ptr bytesToWrite bits.container).map (bits.ptr + bytesToWrite, ·)

end BitCStreamFF

/-- The writes of `ZS_bitpackEncode64_generic` between two flushes. -/
def writePacks (nbBits : Nat) : List Nat → BitCStreamFF → BitCStreamFF
  | [], bs => bs
  | v :: src, bs => writePacks nbBits src (bs.write v nbBits)

/-- The rounds of `nbPacks` elements, then the other elements. -/
def encode64Rounds (nbBits nbPacks : Nat) : Nat → List Nat → BitCStreamFF → Option BitCStreamFF
  | 0, src, bs => (writePacks nbBits src bs).flush
  | nr + 1, src, bs => do
    let bs ← (writePacks nbBits (src.take nbPacks) bs).flush
    encode64Rounds nbBits nbPacks nr (src.drop nbPacks) bs

/-- The loop for values of more than 56 bits: two writes and two flushes for each. -/
def encode64Halves (nbBits : Nat) : List Nat → BitCStreamFF → Option BitCStreamFF
  | [], bs => some bs
  | v :: src, bs => do
    let bs ← (bs.write v 32).flush
    let bs ← (bs.write (v >>> 32) (nbBits - 32)).flush
    encode64Halves nbBits src bs

/-- The two loops of `ZS_bitpackEncode64_generic`. -/
def encode64Write (nbBits : Nat) (src : List Nat) (bs : BitCStreamFF) : Option BitCStreamFF :=
  if nbBits ≤ 56 then encode64Rounds nbBits (56 / nbBits) (src.length / (56 / nbBits)) src bs
  else encode64Halves nbBits src bs

/-- `ZS_bitpackEncode64_generic`. -/
def bitpackEncode64Generic : Encoder := fun dst src nbBits => do
  let bs ← encode64Write nbBits src
    (BitCStreamFF.init dst (bitpackEncodeBound src.length nbBits))
  bs.finish

/-- The loop of `ZS_bytepackEncode16`, `ZS_bytepackEncode32_impl` and
`ZS_bytepackEncode64_impl`, at index `i`. -/
def bytepackLoop (n : Nat) : List Nat → List UInt8 → Nat → Option (List UInt8)
  | [], dst, _ => some dst
  | v :: src, dst, i => do
    let dst ← store dst (n * i) n v
    bytepackLoop n src dst (i + 1)

/-- `ZS_bytepackEncode16`, `ZS_bytepackEncode32` and `ZS_bytepackEncode64`, for elements of
`nbBits / 8` bytes. -/
def bytepackEncode : Encoder := fun dst src nbBits =>
  (bytepackLoop (nbBits / 8) src dst 0).map (nbBits / 8 * src.length, ·)

/-- The loop of `bit1pack32`, from the last element to the first. -/
def bit1packAcc (src32 : List Nat) : Nat := src32.foldr (fun v acc => (acc <<< 1) % 2 ^ 64 + v) 0

/-- `bit1pack32`. -/
def bit1pack32 : Encoder := fun dst src32 _ =>
  let dstSize := (src32.length + 7) / 8
  (store dst 0 (if dst.length ≥ 8 then 8 else dstSize) (bit1packAcc src32)).map (dstSize, ·)

/-- `ZS_bitpackEncodeEdgeCase`; `none` inside is the source's `(size_t)-1`. -/
def bitpackEncodeEdgeCase (dst : List UInt8) (src : List Nat) (eltSize nbBits : Nat) :
    Option (Option (Nat × List UInt8)) :=
  if src.length = 0 ∨ nbBits = 0 then some (some (0, dst))
  else if dst.length < bitpackEncodeBound src.length nbBits then none
  else if nbBits = eltSize * 8 then
    some (some (src.length * eltSize, Buffer.write dst 0 (Simd.ofLanes eltSize src)))
  else some none

/-! ## 8, 16 and 32 bits -/

/-- The encoder stores the values, least significant bit first, and returns their size. -/
def Encodes (f : Encoder) (nbBits : Nat) : Prop :=
  ∀ (dst : List UInt8) (src : List Nat), (∀ v ∈ src, v < 2 ^ nbBits) →
    bitpackEncodeBound src.length nbBits ≤ dst.length →
      ∃ dst', f dst src nbBits = some (bitpackEncodeBound src.length nbBits, dst') ∧
        dst'.length = dst.length ∧ Stored (src.length * nbBits) (Nat.ofDigits (2 ^ nbBits) src) dst'

/-- The rest of a run, once the `size` bits of `D` are packed, stores `src` behind them. -/
def Finishes (r : Option (Nat × List UInt8)) (capacity size D nbBits : Nat) (src : List Nat) :
    Prop :=
  ∃ dst', r = some ((size + src.length * nbBits + 7) / 8, dst') ∧ dst'.length = capacity ∧
    Stored (size + src.length * nbBits) (D + 2 ^ size * Nat.ofDigits (2 ^ nbBits) src) dst'

section Finishing

variable {r : Option (Nat × List UInt8)} {capacity size D nbBits v : Nat} {src : List Nat}

theorem Finishes.append (us : List Nat)
    (h : Finishes r capacity (size + us.length * nbBits)
      (D + 2 ^ size * Nat.ofDigits (2 ^ nbBits) us) nbBits src) :
    Finishes r capacity size D nbBits (us ++ src) := by
  have hsize : size + (us ++ src).length * nbBits =
      size + us.length * nbBits + src.length * nbBits := by
    rw [List.length_append]
    ring
  rwa [Finishes, hsize, add_ofDigits_append]

theorem Finishes.cons (h : Finishes r capacity (size + nbBits) (D + 2 ^ size * v) nbBits src) :
    Finishes r capacity size D nbBits (v :: src) := by
  refine Finishes.append [v] ?_
  simpa using h

theorem Finishes.encodes {f : Encoder} {dst : List UInt8}
    (h : Finishes (f dst src nbBits) dst.length 0 0 nbBits src) :
    ∃ dst', f dst src nbBits = some (bitpackEncodeBound src.length nbBits, dst') ∧
      dst'.length = dst.length ∧
        Stored (src.length * nbBits) (Nat.ofDigits (2 ^ nbBits) src) dst' := by
  simpa [Finishes, bitpackEncodeBound] using h

end Finishing

section Loops

variable {size D pos acc bits nbBits dstEnd : Nat} {dst : List UInt8}

theorem succ_length_mul (v : Nat) (src : List Nat) (nbBits : Nat) :
    (v :: src).length * nbBits = src.length * nbBits + nbBits := by
  rw [List.length_cons, Nat.succ_mul]

theorem Packed.finishes_nil {r : Option (Nat × List UInt8)} {dst' : List UInt8} {capacity : Nat}
    (hr : r = some ((size + 7) / 8, dst')) (hlen : dst'.length = capacity)
    (hstored : Stored size D dst') : Finishes r capacity size D nbBits [] :=
  ⟨dst', by simpa using hr, hlen, by simpa using hstored⟩

theorem finishes_byte (h : Packed size D dst pos acc bits) (hbits : bits < 8)
    (hroom : (size + 7) / 8 ≤ dst.length) :
    Finishes (if bits > 0 then (store dst pos 1 acc).map (pos + 1, ·) else some (pos, dst))
      dst.length size D nbBits [] := by
  have hsize := h.bits
  by_cases hpos : bits > 0
  · obtain ⟨dst', hstore, hlen, hstored⟩ := h.finish (n := 1) (by omega) (by omega)
    refine Packed.finishes_nil ?_ hlen hstored
    rw [if_pos hpos, hstore, show (size + 7) / 8 = pos + 1 by omega]
    rfl
  · obtain rfl : bits = 0 := by omega
    refine Packed.finishes_nil ?_ rfl h.stored
    rw [if_neg hpos, show (size + 7) / 8 = pos by omega]

theorem encode8Loop_spec (hn : nbBits ≤ 8) : ∀ (src : List Nat) {dst : List UInt8}
    {size D pos acc bits : Nat}, (∀ v ∈ src, v < 2 ^ nbBits) → Packed size D dst pos acc bits →
      bits < 8 → (size + src.length * nbBits + 7) / 8 ≤ dst.length →
        Finishes (encode8Loop nbBits src dst pos bits acc) dst.length size D nbBits src
  | [], dst, size, D, pos, acc, bits, _, h, hbits, hroom => by
    rw [encode8Loop]
    exact finishes_byte h hbits (by simpa using hroom)
  | v :: src, dst, size, D, pos, acc, bits, hsrc, h, hbits, hroom => by
    have hsize := h.bits
    have hrest : ∀ x ∈ src, x < 2 ^ nbBits := fun x hx => hsrc x (List.mem_cons_of_mem _ hx)
    have habsorb := h.absorb (hsrc v List.mem_cons_self) (by omega)
    rw [succ_length_mul] at hroom
    refine Finishes.cons ?_
    rw [encode8Loop]
    split
    · rename_i hfull
      obtain ⟨dst', hstore, hlen, hcommit⟩ :=
        habsorb.commit (k := 1) (n := 1) hfull (Nat.le_refl 1) (by omega)
      rw [hstore, ← hlen]
      exact encode8Loop_spec hn src hrest hcommit (by omega) (by omega)
    · exact encode8Loop_spec hn src hrest habsorb (by omega) (by omega)

theorem encodes_generic8 (hn : nbBits ≤ 8) : Encodes bitpackEncode8Generic nbBits := by
  intro dst src hsrc hroom
  obtain ⟨dst', hrun, hlen, hstored⟩ := encode8Loop_spec hn src hsrc (Packed.start dst)
    (by omega) (by simpa [bitpackEncodeBound] using hroom)
  refine ⟨dst', ?_, hlen, by simpa using hstored⟩
  rw [bitpackEncode8Generic, hrun]
  rfl

theorem flushBytes_spec (h : Packed size D dst pos acc bits) (hroom : pos + bits / 8 ≤ dst.length) :
    ∃ dst' pos' bits' acc', flushBytes dst pos bits acc = some (dst', pos', bits', acc') ∧
      dst'.length = dst.length ∧ bits' < 8 ∧ Packed size D dst' pos' acc' bits' := by
  induction bits using Nat.strong_induction_on generalizing dst pos acc with
  | h bits ih =>
    rw [flushBytes]
    split
    · rename_i hfull
      obtain ⟨dst', hstore, hlen, hcommit⟩ :=
        h.commit (k := 1) (n := 1) hfull (Nat.le_refl 1) (by omega)
      obtain ⟨dst'', pos', bits', acc', hrun, hlen', hrest⟩ :=
        ih (bits - 8 * 1) (by omega) hcommit (by omega)
      refine ⟨dst'', pos', bits', acc', ?_, hlen'.trans hlen, hrest⟩
      rw [hstore]
      exact hrun
    · exact ⟨dst, pos, bits, acc, rfl, rfl, by omega, h⟩

theorem encode16Loop_spec (hn : nbBits ≤ 16) : ∀ (src : List Nat) {dst : List UInt8}
    {size D pos acc bits : Nat}, (∀ v ∈ src, v < 2 ^ nbBits) → Packed size D dst pos acc bits →
      bits < 8 → (size + src.length * nbBits + 7) / 8 ≤ dst.length →
        Finishes (encode16Loop nbBits src dst pos bits acc) dst.length size D nbBits src
  | [], dst, size, D, pos, acc, bits, _, h, hbits, hroom => by
    rw [encode16Loop]
    exact finishes_byte h hbits (by simpa using hroom)
  | v :: src, dst, size, D, pos, acc, bits, hsrc, h, hbits, hroom => by
    have hsize := h.bits
    have habsorb := h.absorb (hsrc v List.mem_cons_self) (by omega)
    rw [succ_length_mul] at hroom
    obtain ⟨dst', pos', bits', acc', hflush, hlen, hbits', hpacked⟩ :=
      flushBytes_spec habsorb (by omega)
    refine Finishes.cons ?_
    rw [encode16Loop, hflush, ← hlen]
    exact encode16Loop_spec hn src (fun x hx => hsrc x (List.mem_cons_of_mem _ hx)) hpacked hbits'
      (by omega)

theorem encodes_generic16 (hn : nbBits ≤ 16) : Encodes bitpackEncode16Generic nbBits := by
  intro dst src hsrc hroom
  obtain ⟨dst', hrun, hlen, hstored⟩ := encode16Loop_spec hn src hsrc (Packed.start dst)
    (by omega) (by simpa [bitpackEncodeBound] using hroom)
  refine ⟨dst', ?_, hlen, by simpa using hstored⟩
  rw [bitpackEncode16Generic, hrun]
  rfl

theorem commitWidth_spec {k : Nat} (hle : k ≤ 8) (hend : pos + k ≤ dstEnd) :
    k ≤ commitWidth pos dstEnd k ∧ pos + commitWidth pos dstEnd k ≤ dstEnd := by
  unfold commitWidth
  split <;> omega

theorem encode32LastRound_spec (h0 : 0 < nbBits) (hn : nbBits < 32) : ∀ (src : List Nat)
    {dst : List UInt8} {size D pos acc bits : Nat}, (∀ v ∈ src, v < 2 ^ nbBits) →
      Packed size D dst pos acc bits → bits ≤ 63 - nbBits →
        dstEnd = (size + src.length * nbBits + 7) / 8 → dstEnd ≤ dst.length →
          Finishes (encode32LastRound nbBits dstEnd src dst pos acc bits)
            dst.length size D nbBits src
  | [], dst, size, D, pos, acc, bits, _, h, hbits, hend, hroom => by
    have hsize := h.bits
    rw [List.length_nil, Nat.zero_mul] at hend
    obtain ⟨hwide, hin⟩ := commitWidth_spec (by omega : (bits + 7) / 8 ≤ 8)
      (by omega : pos + (bits + 7) / 8 ≤ dstEnd)
    obtain ⟨dst', hstore, hlen, hstored⟩ := h.finish hwide (hin.trans hroom)
    refine Packed.finishes_nil ?_ hlen hstored
    rw [encode32LastRound, hstore, show (size + 7) / 8 = pos + (bits + 7) / 8 by omega]
    rfl
  | v :: src, dst, size, D, pos, acc, bits, hsrc, h, hbits, hend, hroom => by
    have hsize := h.bits
    have hrest : ∀ x ∈ src, x < 2 ^ nbBits := fun x hx => hsrc x (List.mem_cons_of_mem _ hx)
    have habsorb := h.absorb (hsrc v List.mem_cons_self) (by omega)
    rw [succ_length_mul] at hend
    refine Finishes.cons ?_
    rw [encode32LastRound]
    dsimp only
    split
    · obtain ⟨hwide, hin⟩ := commitWidth_spec (by omega : (bits + nbBits) / 8 ≤ 8)
        (by omega : pos + (bits + nbBits) / 8 ≤ dstEnd)
      obtain ⟨dst', hstore, hlen, hcommit⟩ := habsorb.commit (by omega) hwide (hin.trans hroom)
      rw [show bits + nbBits - 8 * ((bits + nbBits) / 8) = (bits + nbBits) % 8 by omega] at hcommit
      rw [hstore, ← hlen]
      exact encode32LastRound_spec h0 hn src hrest hcommit (by omega) (by omega) (by omega)
    · exact encode32LastRound_spec h0 hn src hrest habsorb (by omega) (by omega) hroom

theorem packRound_spec : ∀ (us : List Nat) {size D acc bits : Nat}, (∀ v ∈ us, v < 2 ^ nbBits) →
    Packed size D dst pos acc bits → bits + us.length * nbBits ≤ 64 →
      ∃ acc', packRound nbBits us acc bits = (acc', bits + us.length * nbBits) ∧
        Packed (size + us.length * nbBits) (D + 2 ^ size * Nat.ofDigits (2 ^ nbBits) us) dst pos
          acc' (bits + us.length * nbBits)
  | [], size, D, acc, bits, _, h, _ => ⟨acc, by simp [packRound], by simpa using h⟩
  | v :: us, size, D, acc, bits, hus, h, hfit => by
    rw [succ_length_mul] at hfit ⊢
    have habsorb := h.absorb (hus v List.mem_cons_self) (by omega)
    obtain ⟨acc', hrun, hpacked⟩ := packRound_spec us
      (fun x hx => hus x (List.mem_cons_of_mem _ hx)) habsorb (by omega)
    have hbits : bits + nbBits + us.length * nbBits = bits + (us.length * nbBits + nbBits) := by
      omega
    have hsize : size + nbBits + us.length * nbBits = size + (us.length * nbBits + nbBits) := by
      omega
    rw [hbits] at hrun hpacked
    rw [hsize, ← add_ofDigits_cons] at hpacked
    exact ⟨acc', by rw [packRound, hrun], hpacked⟩

theorem encode32FullRounds_spec (h0 : 0 < nbBits) (hn : nbBits < 32) : ∀ (nr : Nat)
    (src : List Nat) {dst : List UInt8} {size D pos acc bits : Nat}, (∀ v ∈ src, v < 2 ^ nbBits) →
      Packed size D dst pos acc bits → bits < 8 →
        nr * (56 / nbBits) ≤ src.length →
        dstEnd = (size + src.length * nbBits + 7) / 8 → dstEnd ≤ dst.length →
          Finishes (encode32FullRounds nbBits dstEnd nr src dst pos acc bits)
            dst.length size D nbBits src
  | 0, src, dst, size, D, pos, acc, bits, hsrc, h, hbits, _, hend, hroom =>
    encode32LastRound_spec h0 hn src hsrc h (by omega) hend hroom
  | nr + 1, src, dst, size, D, pos, acc, bits, hsrc, h, hbits, hnr, hend, hroom => by
    rw [encode32FullRounds]
    split
    · rename_i hguard
      have hpacks : 56 / nbBits * nbBits ≤ 56 := Nat.div_mul_le_self 56 nbBits
      rw [Nat.succ_mul] at hnr
      have hlen : (src.take (56 / nbBits)).length = 56 / nbBits := by
        rw [List.length_take]
        omega
      have hsplit : src.length * nbBits =
          56 / nbBits * nbBits + (src.drop (56 / nbBits)).length * nbBits := by
        rw [← Nat.add_mul, List.length_drop]
        congr 1
        omega
      obtain ⟨acc', hround, hpacked⟩ := packRound_spec (src.take (56 / nbBits))
        (fun x hx => hsrc x (List.mem_of_mem_take hx)) h (by rw [hlen]; omega)
      rw [hlen] at hround hpacked
      obtain ⟨dst', hstore, hlen', hcommit⟩ := hpacked.commit
        (k := (bits + 56 / nbBits * nbBits) / 8) (n := 8) (by omega) (by omega) (by omega)
      rw [show bits + 56 / nbBits * nbBits - 8 * ((bits + 56 / nbBits * nbBits) / 8) =
        (bits + 56 / nbBits * nbBits) % 8 by omega] at hcommit
      suffices hsuff : Finishes _ dst.length size D nbBits
          (src.take (56 / nbBits) ++ src.drop (56 / nbBits)) by
        rwa [List.take_append_drop] at hsuff
      refine Finishes.append _ ?_
      rw [hround]
      dsimp only
      rw [hstore, hlen, ← hlen']
      exact encode32FullRounds_spec h0 hn nr _ (fun x hx => hsrc x (List.mem_of_mem_drop hx))
        hcommit (by omega) (by rw [List.length_drop]; omega) (by omega) (by omega)
    · exact encode32LastRound_spec h0 hn src hsrc h (by omega) hend hroom

theorem encodes_generic32 (h0 : 0 < nbBits) (hn : nbBits < 32) :
    Encodes bitpackEncode32Generic nbBits := by
  intro dst src hsrc hroom
  refine Finishes.encodes (encode32FullRounds_spec h0 hn _ src hsrc (Packed.start dst) (by omega)
    (Nat.div_mul_le_self _ _) ?_ hroom)
  rw [Nat.zero_add]
  rfl

end Loops

/-! ## 64 bits -/

/-- The stream has packed the `size` bits of `D`, in a destination of `room` bytes of which it may
use `capacity`. -/
structure Writing (bs : BitCStreamFF) (capacity room size D : Nat) : Prop where
  packed : Packed size D bs.dst bs.ptr bs.container bs.nbBits
  limit : bs.limit = if capacity < 8 then 0 else capacity - 8 + 1
  stop : bs.stop = capacity
  length : bs.dst.length = room
  capacity_le : capacity ≤ room

/-- Either whole bytes have left the container, or the rest of the destination fits in it. -/
def Flushed (bs : BitCStreamFF) : Prop := bs.nbBits < 8 ∨ bs.limit ≤ bs.ptr

namespace Writing

variable {bs : BitCStreamFF} {capacity room size D k nbBits : Nat}

theorem init {dst : List UInt8} (h : capacity ≤ dst.length) :
    Writing (BitCStreamFF.init dst capacity) capacity dst.length 0 0 :=
  ⟨Packed.start dst, rfl, rfl, rfl, h⟩

section

variable (h : Writing bs capacity room size D)

include h

theorem fits (hf : Flushed bs) (hsize : size + k ≤ 8 * capacity) (hk : k ≤ 56) :
    bs.nbBits + k ≤ 63 := by
  have hbits := h.packed.bits
  have hlimit := h.limit
  rcases hf with hf | hf
  · omega
  · split at hlimit <;> omega

theorem write (value : Nat) (hfit : bs.nbBits + k ≤ 64) :
    Writing (bs.write value k) capacity room (size + k) (D + 2 ^ size * (value % 2 ^ k)) := by
  refine ⟨?_, h.limit, h.stop, h.length, h.capacity_le⟩
  rw [BitCStreamFF.write, Nat.and_two_pow_sub_one_eq_mod]
  exact h.packed.absorb (Nat.mod_lt _ (by positivity)) hfit

theorem flush (hfit : bs.nbBits ≤ 64) :
    ∃ bs', bs.flush = some bs' ∧ Writing bs' capacity room size D ∧ Flushed bs' := by
  rw [BitCStreamFF.flush]
  split
  · rename_i hlimit
    exact ⟨bs, rfl, h, Or.inr hlimit⟩
  · rename_i hlimit
    have hlim := h.limit
    have hcap := h.capacity_le
    have hroom : bs.ptr + 8 ≤ bs.dst.length := by
      rw [h.length]
      split at hlim <;> omega
    obtain ⟨dst', hstore, hlen, hcommit⟩ := h.packed.commit (k := bs.nbBits / 8) (n := 8)
      (by omega) (by omega) hroom
    rw [show bs.nbBits - 8 * (bs.nbBits / 8) = bs.nbBits % 8 by omega] at hcommit
    have hbytes : bs.nbBits >>> 3 = bs.nbBits / 8 := Nat.shiftRight_eq_div_pow _ _
    have hback : (bs.nbBits / 8) <<< 3 = bs.nbBits / 8 * 8 := by rw [Nat.shiftLeft_eq]
    dsimp only
    rw [hstore, hbytes, hback]
    exact ⟨_, rfl, ⟨hcommit, h.limit, h.stop, hlen.trans h.length, hcap⟩,
      Or.inl (Nat.mod_lt _ (by decide))⟩

theorem finish (hsize : (size + 7) / 8 = capacity) :
    ∃ dst', bs.finish = some (capacity, dst') ∧ dst'.length = room ∧ Stored size D dst' := by
  have hbits := h.packed.bits
  have hstop := h.stop
  have hcap := h.capacity_le
  have hlength := h.length
  rw [BitCStreamFF.finish]
  simp only [if_neg (by omega : ¬bs.stop - bs.ptr < (bs.nbBits + 7) / 8)]
  split
  · obtain hnil : bs.nbBits = 0 := by omega
    have hpacked := h.packed
    rw [hnil] at hpacked
    exact ⟨bs.dst, by rw [show bs.ptr = capacity by omega], h.length, hpacked.stored⟩
  · obtain ⟨dst', hstore, hlen, hstored⟩ :=
      h.packed.finish (Nat.le_refl ((bs.nbBits + 7) / 8)) (by omega)
    refine ⟨dst', ?_, hlen.trans h.length, hstored⟩
    rw [hstore, ← hsize, show (size + 7) / 8 = bs.ptr + (bs.nbBits + 7) / 8 by omega]
    rfl

end

theorem writePacks : ∀ (us : List Nat) {bs : BitCStreamFF} {size D : Nat},
    (∀ v ∈ us, v < 2 ^ nbBits) → Writing bs capacity room size D →
      bs.nbBits + us.length * nbBits ≤ 64 →
        Writing (writePacks nbBits us bs) capacity room (size + us.length * nbBits)
            (D + 2 ^ size * Nat.ofDigits (2 ^ nbBits) us) ∧
          (InMemory.writePacks nbBits us bs).nbBits = bs.nbBits + us.length * nbBits
  | [], bs, size, D, _, h, _ => by
    simpa [InMemory.writePacks] using h
  | v :: us, bs, size, D, hus, h, hfit => by
    rw [succ_length_mul] at hfit ⊢
    have hwrite := h.write v (k := nbBits) (by omega)
    rw [Nat.mod_eq_of_lt (hus v List.mem_cons_self)] at hwrite
    obtain ⟨hrest, hbits⟩ := writePacks us (fun x hx => hus x (List.mem_cons_of_mem _ hx)) hwrite
      (by rw [BitCStreamFF.write]; dsimp only; omega)
    have hsize : size + nbBits + us.length * nbBits = size + (us.length * nbBits + nbBits) := by
      omega
    rw [hsize, ← add_ofDigits_cons] at hrest
    refine ⟨hrest, ?_⟩
    rw [InMemory.writePacks, hbits, BitCStreamFF.write]
    dsimp only
    omega

end Writing

section Streams

variable {capacity room nbBits : Nat}

theorem take_drop_mul (k : Nat) (src : List Nat) (nbBits : Nat) :
    src.length * nbBits = (src.take k).length * nbBits + (src.drop k).length * nbBits := by
  rw [← Nat.add_mul, ← List.length_append, List.take_append_drop]

theorem encode64Rounds_spec (hn : nbBits ≤ 56) (h0 : 0 < nbBits) : ∀ (nr : Nat) (src : List Nat)
    {bs : BitCStreamFF} {size D : Nat}, (∀ v ∈ src, v < 2 ^ nbBits) →
      Writing bs capacity room size D → Flushed bs → size + src.length * nbBits ≤ 8 * capacity →
        src.length < (nr + 1) * (56 / nbBits) →
        ∃ bs', encode64Rounds nbBits (56 / nbBits) nr src bs = some bs' ∧
          Writing bs' capacity room (size + src.length * nbBits)
            (D + 2 ^ size * Nat.ofDigits (2 ^ nbBits) src)
  | 0, src, bs, size, D, hsrc, h, hf, hsize, hnr => by
    have hpacks : src.length * nbBits ≤ 56 :=
      (Nat.mul_le_mul_right nbBits (by omega)).trans (Nat.div_mul_le_self 56 nbBits)
    have hfit := h.fits hf hsize hpacks
    obtain ⟨hwrite, hbits⟩ := Writing.writePacks src hsrc h (by omega)
    obtain ⟨bs', hflush, hwriting, -⟩ := hwrite.flush (by omega)
    exact ⟨bs', hflush, hwriting⟩
  | nr + 1, src, bs, size, D, hsrc, h, hf, hsize, hnr => by
    have hlen : (src.take (56 / nbBits)).length ≤ 56 / nbBits := List.length_take_le _ _
    have hpacks : (src.take (56 / nbBits)).length * nbBits ≤ 56 :=
      (Nat.mul_le_mul_right nbBits hlen).trans (Nat.div_mul_le_self 56 nbBits)
    have hsplit := take_drop_mul (56 / nbBits) src nbBits
    have hpos : 0 < (nr + 1) * (56 / nbBits) :=
      Nat.mul_pos (Nat.succ_pos nr) (Nat.div_pos hn h0)
    have hfit := h.fits hf (by omega) hpacks
    obtain ⟨hwrite, hbits⟩ := Writing.writePacks (src.take (56 / nbBits))
      (fun x hx => hsrc x (List.mem_of_mem_take hx)) h (by omega)
    obtain ⟨bs₁, hflush, hwriting, hflushed⟩ := hwrite.flush (by omega)
    obtain ⟨bs', hrun, hdone⟩ := encode64Rounds_spec hn h0 nr (src.drop (56 / nbBits))
      (fun x hx => hsrc x (List.mem_of_mem_drop hx)) hwriting hflushed (by omega)
      (by rw [List.length_drop]; rw [Nat.succ_mul] at hnr; omega)
    refine ⟨bs', by rw [encode64Rounds, hflush]; exact hrun, ?_⟩
    rwa [← add_ofDigits_append, List.take_append_drop, Nat.add_assoc, ← hsplit] at hdone

theorem encode64Halves_spec (hlow : 56 < nbBits) (hn : nbBits ≤ 64) : ∀ (src : List Nat)
    {bs : BitCStreamFF} {size D : Nat}, (∀ v ∈ src, v < 2 ^ nbBits) →
      Writing bs capacity room size D → Flushed bs → size + src.length * nbBits ≤ 8 * capacity →
        ∃ bs', encode64Halves nbBits src bs = some bs' ∧
          Writing bs' capacity room (size + src.length * nbBits)
            (D + 2 ^ size * Nat.ofDigits (2 ^ nbBits) src)
  | [], bs, size, D, _, h, _, _ => ⟨bs, rfl, by simpa using h⟩
  | v :: src, bs, size, D, hsrc, h, hf, hsize => by
    rw [succ_length_mul] at hsize
    have hv := hsrc v List.mem_cons_self
    have hfit := h.fits (k := 32) hf (by omega) (by omega)
    have hlowWrite := h.write v (k := 32) (by omega)
    obtain ⟨bs₁, hflush₁, hw₁, hf₁⟩ := hlowWrite.flush
      (by rw [BitCStreamFF.write]; dsimp only; omega)
    have hfit₁ := hw₁.fits (k := nbBits - 32) hf₁ (by omega) (by omega)
    have hhighWrite := hw₁.write (v >>> 32) (k := nbBits - 32) (by omega)
    obtain ⟨bs₂, hflush₂, hw₂, hf₂⟩ := hhighWrite.flush
      (by rw [BitCStreamFF.write]; dsimp only; omega)
    have hhigh : (v >>> 32) % 2 ^ (nbBits - 32) = v / 2 ^ 32 := by
      rw [Nat.shiftRight_eq_div_pow, Nat.mod_eq_of_lt]
      rw [Nat.div_lt_iff_lt_mul (by positivity), ← Nat.pow_add]
      rwa [show nbBits - 32 + 32 = nbBits by omega]
    have hjoin : D + 2 ^ size * (v % 2 ^ 32) + 2 ^ (size + 32) * (v / 2 ^ 32) =
        D + 2 ^ size * v := by
      conv_rhs => rw [← Nat.mod_add_div v (2 ^ 32)]
      rw [Nat.pow_add]
      ring
    rw [hhigh, hjoin, show size + 32 + (nbBits - 32) = size + nbBits by omega] at hw₂
    obtain ⟨bs', hrun, hdone⟩ := encode64Halves_spec hlow hn src
      (fun x hx => hsrc x (List.mem_cons_of_mem _ hx)) hw₂ hf₂ (by omega)
    refine ⟨bs', ?_, ?_⟩
    · rw [encode64Halves, hflush₁]
      simp only [Option.bind_eq_bind, Option.bind_some]
      rw [hflush₂]
      exact hrun
    · rw [← add_ofDigits_cons] at hdone
      rwa [succ_length_mul, Nat.add_comm (src.length * nbBits), ← Nat.add_assoc]

end Streams

theorem encodes_generic64 {nbBits : Nat} (h0 : 0 < nbBits) (hn : nbBits ≤ 64) :
    Encodes bitpackEncode64Generic nbBits := by
  intro dst src hsrc hroom
  have hstart := Writing.init hroom
  have hflushed : Flushed (BitCStreamFF.init dst (bitpackEncodeBound src.length nbBits)) :=
    Or.inl (by decide : 0 < 8)
  have hsize : 0 + src.length * nbBits ≤ 8 * bitpackEncodeBound src.length nbBits := by
    rw [bitpackEncodeBound]
    omega
  have hrun : ∃ bs', encode64Write nbBits src
        (BitCStreamFF.init dst (bitpackEncodeBound src.length nbBits)) = some bs' ∧
      Writing bs' (bitpackEncodeBound src.length nbBits) dst.length (0 + src.length * nbBits)
        (0 + 2 ^ 0 * Nat.ofDigits (2 ^ nbBits) src) := by
    rw [encode64Write]
    split
    · rename_i hsmall
      have hpos : 0 < 56 / nbBits := Nat.div_pos hsmall h0
      refine encode64Rounds_spec hsmall h0 _ src hsrc hstart hflushed hsize ?_
      rw [Nat.mul_comm]
      exact Nat.lt_mul_div_succ _ hpos
    · exact encode64Halves_spec (by omega) hn src hsrc hstart hflushed hsize
  obtain ⟨bs', hbs, hwriting⟩ := hrun
  simp only [Nat.zero_add, Nat.pow_zero, Nat.one_mul] at hwriting
  rw [bitpackEncode64Generic, hbs]
  exact hwriting.finish rfl

/-! ## Edge cases -/

theorem bytepackLoop_spec {n : Nat} : ∀ (src : List Nat) {dst : List UInt8} {size D i : Nat},
    (∀ v ∈ src, v < 2 ^ (8 * n)) → Packed size D dst (n * i) 0 0 →
      n * (i + src.length) ≤ dst.length →
        ∃ dst', bytepackLoop n src dst i = some dst' ∧ dst'.length = dst.length ∧
          Stored (size + src.length * (8 * n)) (D + 2 ^ size * Nat.ofDigits (2 ^ (8 * n)) src) dst'
  | [], dst, size, D, i, _, h, _ => ⟨dst, rfl, rfl, by simpa using h.stored⟩
  | v :: src, dst, size, D, i, hsrc, h, hroom => by
    rw [List.length_cons, ← Nat.add_assoc, Nat.add_right_comm, Nat.mul_add, Nat.mul_add] at hroom
    rw [succ_length_mul]
    obtain ⟨dst₁, hstore, hlen, hput⟩ :=
      h.put (hsrc v List.mem_cons_self) (Nat.le_refl n) (by omega)
    rw [show n * i + n = n * (i + 1) from (Nat.mul_succ n i).symm] at hput
    obtain ⟨dst', hrun, hlen', hstored⟩ := bytepackLoop_spec src
      (fun x hx => hsrc x (List.mem_cons_of_mem _ hx)) hput
      (by rw [hlen, Nat.mul_add, Nat.mul_succ]; omega)
    refine ⟨dst', by rw [bytepackLoop, hstore]; exact hrun, hlen'.trans hlen, ?_⟩
    have hsize : size + 8 * n + src.length * (8 * n) = size + (src.length * (8 * n) + 8 * n) := by
      omega
    rwa [hsize, ← add_ofDigits_cons] at hstored

theorem bitpackEncodeBound_bytes (nbElts n : Nat) :
    bitpackEncodeBound nbElts (8 * n) = n * nbElts := by
  rw [bitpackEncodeBound, show nbElts * (8 * n) = 8 * (n * nbElts) by ring]
  omega

theorem encodes_bytepack {nbBits : Nat} (h : nbBits % 8 = 0) : Encodes bytepackEncode nbBits := by
  obtain ⟨n, rfl⟩ := Nat.dvd_of_mod_eq_zero h
  intro dst src hsrc hroom
  rw [bitpackEncodeBound_bytes] at hroom ⊢
  obtain ⟨dst', hrun, hlen, hstored⟩ := bytepackLoop_spec src hsrc (i := 0) (Packed.start dst)
    (by rwa [Nat.zero_add])
  refine ⟨dst', ?_, hlen, by simpa using hstored⟩
  rw [bytepackEncode, Nat.mul_div_cancel_left n (by decide), hrun]
  rfl

theorem bit1pack32_spec {dst : List UInt8} {src : List Nat} (hsrc : ∀ v ∈ src, v < 2 ^ 1)
    (hlen : src.length ≤ 64) (hroom : bitpackEncodeBound src.length 1 ≤ dst.length) :
    ∃ dst', bit1pack32 dst src 1 = some (bitpackEncodeBound src.length 1, dst') ∧
      dst'.length = dst.length ∧ Stored (src.length * 1) (Nat.ofDigits (2 ^ 1) src) dst' := by
  rw [bitpackEncodeBound, Nat.mul_one] at hroom ⊢
  have hacc : bit1packAcc src = Nat.ofDigits (2 ^ 1) src := foldr_bits hsrc hlen
  have hlt := ofDigits_lt hsrc
  have hpacked := (Packed.start dst).append hlt
  rw [Nat.mul_one, Nat.zero_add, Nat.zero_add, Nat.pow_zero, Nat.one_mul] at hpacked
  obtain ⟨dst', hstore, hlen', hstored⟩ := hpacked.finish
    (n := if dst.length ≥ 8 then 8 else (src.length + 7) / 8) (by split <;> omega)
    (by split <;> omega)
  refine ⟨dst', ?_, hlen', hstored⟩
  rw [bit1pack32, hacc, hstore]
  rfl

theorem edgeCase_spec {dst : List UInt8} {src : List Nat} {eltSize nbBits : Nat}
    (hsrc : ∀ v ∈ src, v < 2 ^ nbBits) (hroom : bitpackEncodeBound src.length nbBits ≤ dst.length)
    (hn : nbBits ≤ 8 * eltSize) :
    (bitpackEncodeEdgeCase dst src eltSize nbBits = some none ∧ 0 < nbBits ∧ nbBits < 8 * eltSize) ∨
      ∃ dst', bitpackEncodeEdgeCase dst src eltSize nbBits =
          some (some (bitpackEncodeBound src.length nbBits, dst')) ∧
        dst'.length = dst.length ∧
          Stored (src.length * nbBits) (Nat.ofDigits (2 ^ nbBits) src) dst' := by
  rw [bitpackEncodeEdgeCase]
  by_cases hnone : src.length = 0 ∨ nbBits = 0
  · have hsize : src.length * nbBits = 0 := Nat.mul_eq_zero.2 hnone
    refine Or.inr ⟨dst, ?_, rfl, ?_⟩
    · rw [if_pos hnone, bitpackEncodeBound, hsize]
    · rw [Stored, hsize]
      rfl
  · rw [if_neg hnone, if_neg (by omega)]
    rw [not_or] at hnone
    by_cases hfull : nbBits = eltSize * 8
    · obtain rfl : nbBits = 8 * eltSize := by omega
      rw [bitpackEncodeBound_bytes] at hroom ⊢
      have hlen := Simd.length_ofLanes eltSize src
      refine Or.inr ⟨Buffer.write dst 0 (Simd.ofLanes eltSize src), ?_,
        Buffer.length_write (by omega), ?_⟩
      · rw [if_pos hfull, Nat.mul_comm src.length]
      · have hbytes : (src.length * (8 * eltSize) + 7) / 8 = eltSize * src.length :=
          bitpackEncodeBound_bytes src.length eltSize
        have hle := toLE_ofLE (Simd.ofLanes eltSize src)
        rw [hlen, Simd.ofLE_ofLanes hsrc] at hle
        rw [Stored, hbytes, hle, Buffer.write, List.take_zero, List.nil_append, ← hlen]
        exact List.take_left' rfl
    · exact Or.inl ⟨if_neg hfull, by omega, by omega⟩

end OpenZL.Codecs.Bitpack.InMemory
