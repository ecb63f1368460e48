import OpenZL.Codecs.BitpackEncode

/-!
# The bitpack decoders in memory

The portable decoders of `ZS_bitpackDecode`, reading from a source of bytes. A read that would leave
the source is undefined (`none`).

Principal results: `decodes_generic8`, `decodes_generic16`, `decodes_generic32`,
`decodes_generic64`, `decodes_bytepack`, `bit1depack_spec`.
-/

namespace OpenZL.Codecs.Bitpack.InMemory

open OpenZL.Lib

/-- A decoder takes a number of elements, a source and a number of bits to the number of bytes it
consumes and the elements. -/
abbrev Decoder : Type := Nat → List UInt8 → Nat → Option (Nat × List Nat)

/-- The `if` of `ZS_bitpackDecode8_generic`: a byte enters the state. -/
def fetchByte (nbBits : Nat) (src : List UInt8) (ip bits state : Nat) : Option (Nat × Nat × Nat) :=
  if bits < nbBits then
    (load src ip 1).map fun b => (ip + 1, bits + 8, state ||| (b <<< bits) % 2 ^ 64)
  else some (ip, bits, state)

/-- The loop of `ZS_bitpackDecode8_generic`. -/
def decode8Loop (nbBits : Nat) (src : List UInt8) : Nat → Nat → Nat → Nat → Option (List Nat)
  | 0, _, _, _ => some []
  | n + 1, ip, bits, state => do
    let (ip, bits, state) ← fetchByte nbBits src ip bits state
    let rest ← decode8Loop nbBits src n ip (bits - nbBits) (state >>> nbBits)
    some ((state &&& (2 ^ nbBits - 1)) :: rest)

/-- `ZS_bitpackDecode8_generic`. -/
def bitpackDecode8Generic : Decoder := fun nbElts src nbBits =>
  (decode8Loop nbBits src nbElts 0 0 0).map (bitpackEncodeBound nbElts nbBits, ·)

/-- The inner loop of `ZS_bitpackDecode16_generic`: bytes enter the state. -/
def fetchBytes (nbBits : Nat) (src : List UInt8) (ip bits state : Nat) : Option (Nat × Nat × Nat) :=
  if bits < nbBits then do
    let b ← load src ip 1
    fetchBytes nbBits src (ip + 1) (bits + 8) (state ||| (b <<< bits) % 2 ^ 64)
  else some (ip, bits, state)
termination_by nbBits - bits

/-- The loop of `ZS_bitpackDecode16_generic`. -/
def decode16Loop (nbBits : Nat) (src : List UInt8) : Nat → Nat → Nat → Nat → Option (List Nat)
  | 0, _, _, _ => some []
  | n + 1, ip, bits, state => do
    let (ip, bits, state) ← fetchBytes nbBits src ip bits state
    let rest ← decode16Loop nbBits src n ip (bits - nbBits) (state >>> nbBits)
    some ((state &&& (2 ^ nbBits - 1)) :: rest)

/-- `ZS_bitpackDecode16_generic`. -/
def bitpackDecode16Generic : Decoder := fun nbElts src nbBits =>
  (decode16Loop nbBits src nbElts 0 0 0).map (bitpackEncodeBound nbElts nbBits, ·)

/-- Values taken from an accumulator that is not reloaded in between. -/
def depacks (nbBits : Nat) : Nat → Nat → List Nat
  | 0, _ => []
  | n + 1, acc64 => (acc64 &&& (2 ^ nbBits - 1)) :: depacks nbBits n (acc64 >>> nbBits)

/-- `ZL_readLE64`, or `ZL_readLE64_N` where fewer than eight bytes remain. -/
def readRemaining (src : List UInt8) (srcPtr remainingSrc : Nat) : Option Nat :=
  load src srcPtr (if remainingSrc < 8 then remainingSrc else 8)

/-- The last round of `ZS_bitpackDecode32_generic`. -/
def decode32LastRound (nbBits srcEnd : Nat) (src : List UInt8) :
    Nat → Nat → Nat → Nat → Option (List Nat)
  | 0, _, _, _ => some []
  | n + 1, srcPtr, acc64, bitPos => do
    let v := acc64 &&& (2 ^ nbBits - 1)
    let acc64 := acc64 >>> nbBits
    let bitPos := bitPos + nbBits
    if bitPos > 63 - nbBits then
      let srcPtr := srcPtr + bitPos / 8
      let acc64 ← readRemaining src srcPtr (srcEnd - srcPtr)
      let rest ←
        decode32LastRound nbBits srcEnd src n srcPtr (acc64 >>> (bitPos % 8)) (bitPos % 8)
      some (v :: rest)
    else
      let rest ← decode32LastRound nbBits srcEnd src n srcPtr acc64 bitPos
      some (v :: rest)

/-- The full rounds of `ZS_bitpackDecode32_generic`: the loop breaks where fewer than eight bytes
remain. -/
def decode32FullRounds (nbBits srcEnd : Nat) (src : List UInt8) :
    Nat → Nat → Nat → Nat → Nat → Option (List Nat)
  | 0, n, srcPtr, acc64, bitPos => decode32LastRound nbBits srcEnd src n srcPtr acc64 bitPos
  | nr + 1, n, srcPtr, acc64, bitPos => do
    let vs := depacks nbBits (56 / nbBits) acc64
    let bitPos := bitPos + 56 / nbBits * nbBits
    let srcPtr := srcPtr + bitPos / 8
    if srcPtr + 7 < srcEnd then
      let acc64 ← load src srcPtr 8
      let rest ← decode32FullRounds nbBits srcEnd src nr (n - 56 / nbBits) srcPtr
        (acc64 >>> (bitPos % 8)) (bitPos % 8)
      some (vs ++ rest)
    else
      let acc64 ← load src srcPtr (srcEnd - srcPtr)
      let rest ← decode32LastRound nbBits srcEnd src (n - 56 / nbBits) srcPtr
        (acc64 >>> (bitPos % 8)) (bitPos % 8)
      some (vs ++ rest)

/-- `ZS_bitpackDecode32_generic`. -/
def bitpackDecode32Generic : Decoder := fun nbValues src nbBits =>
  if nbValues = 0 then some (0, [])
  else do
    let srcCapacity := bitpackEncodeBound nbValues nbBits
    let acc64 ← readRemaining src 0 srcCapacity
    let vs ← decode32FullRounds nbBits srcCapacity src (nbValues / (56 / nbBits)) nbValues 0 acc64 0
    some (srcCapacity, vs)

/-- `ZS_BitDStreamFF`, with the buffer its pointers lead into; `begin` is 0. -/
structure BitDStreamFF where
  container : Nat
  nbBitsRead : Nat
  ptr : Nat
  limit : Nat
  stop : Nat
  src : List UInt8

namespace BitDStreamFF

/-- `ZS_BitDStreamFF_init`. -/
def init (src : List UInt8) (srcSize : Nat) : Option BitDStreamFF :=
  if srcSize ≥ 8 then
    (load src 0 8).map fun container =>
      { container := container
        nbBitsRead := 0
        ptr := 0
        limit := srcSize - 8 + 1
        stop := srcSize
        src := src }
  else
    (load src 0 srcSize).map fun container =>
      { container := container
        nbBitsRead := (8 - srcSize) * 8
        ptr := srcSize
        limit := 0
        stop := srcSize
        src := src }

/-- `ZS_BitDStreamFF_peek`; `_bzhi_u64` is the same below 64 bits. -/
def peek (bits : BitDStreamFF) (nbBits : Nat) : Nat :=
  bits.container &&& (2 ^ (nbBits % 64) - 1)

/-- `ZS_BitDStreamFF_skip`. -/
def skip (bits : BitDStreamFF) (nbBits : Nat) : BitDStreamFF :=
  { bits with
    container := bits.container >>> nbBits
    nbBitsRead := bits.nbBitsRead + nbBits }

/-- `ZS_BitDStreamFF_reload`. -/
def reload (bits : BitDStreamFF) : Option BitDStreamFF :=
  let ptr := bits.ptr + bits.nbBitsRead / 8
  let nbBitsRead := bits.nbBitsRead % 8
  if ptr < bits.limit then
    (load bits.src ptr 8).map fun word =>
      { bits with ptr := ptr, nbBitsRead := nbBitsRead, container := word >>> nbBitsRead }
  else if ptr ≥ bits.stop then some bits
  else
    let tail := bits.limit - 1
    let skippedBits := (ptr - tail) * 8
    (load bits.src tail 8).map fun word =>
      { bits with
        ptr := ptr
        nbBitsRead := nbBitsRead
        container := word >>> (nbBitsRead + skippedBits) }

end BitDStreamFF

/-- `ZS_BitDStreamFF_read`, `n` times. -/
def readPacks (nbBits : Nat) : Nat → BitDStreamFF → List Nat × BitDStreamFF
  | 0, bs => ([], bs)
  | n + 1, bs =>
    let r := readPacks nbBits n (bs.skip nbBits)
    (bs.peek nbBits :: r.1, r.2)

/-- The last loop for values of at most 57 bits: a reload for each. -/
def decode64Singles (nbBits : Nat) : Nat → BitDStreamFF → Option (List Nat)
  | 0, _ => some []
  | n + 1, bs => do
    let v := bs.peek nbBits
    let bs ← (bs.skip nbBits).reload
    let rest ← decode64Singles nbBits n bs
    some (v :: rest)

/-- The rounds of `nbPacks` values, then the other values. -/
def decode64Rounds (nbBits nbPacks : Nat) : Nat → Nat → BitDStreamFF → Option (List Nat)
  | 0, n, bs => decode64Singles nbBits n bs
  | nr + 1, n, bs => do
    let (vs, bs) := readPacks nbBits nbPacks bs
    let bs ← bs.reload
    let rest ← decode64Rounds nbBits nbPacks nr (n - nbPacks) bs
    some (vs ++ rest)

/-- The loop for values of more than 57 bits: two reads and two reloads for each. -/
def decode64Halves (nbBits : Nat) : Nat → BitDStreamFF → Option (List Nat)
  | 0, _ => some []
  | n + 1, bs => do
    let low := bs.peek 32
    let bs ← (bs.skip 32).reload
    let high := bs.peek (nbBits - 32)
    let bs ← (bs.skip (nbBits - 32)).reload
    let rest ← decode64Halves nbBits n bs
    some ((low ||| (high <<< 32) % 2 ^ 64) :: rest)

/-- The loops of `ZS_bitpackDecode64_generic`. -/
def decode64Read (nbBits n : Nat) (bs : BitDStreamFF) : Option (List Nat) :=
  if nbBits ≤ 57 then decode64Rounds nbBits (57 / nbBits) (n / (57 / nbBits)) n bs
  else decode64Halves nbBits n bs

/-- `ZS_bitpackDecode64_generic`. -/
def bitpackDecode64Generic : Decoder := fun nbElts src nbBits => do
  let srcSize := bitpackEncodeBound nbElts nbBits
  let bs ← BitDStreamFF.init src srcSize
  let bs ← bs.reload
  let vs ← decode64Read nbBits nbElts bs
  some (srcSize, vs)

/-- The loop of `ZS_bytepackDecode16`, `ZS_bytepackDecode32_impl` and
`ZS_bytepackDecode64_impl`, at index `i`. -/
def byteunpackLoop (n : Nat) (src : List UInt8) : Nat → Nat → Option (List Nat)
  | 0, _ => some []
  | k + 1, i => do
    let v ← load src (n * i) n
    let rest ← byteunpackLoop n src k (i + 1)
    some (v :: rest)

/-- `ZS_bytepackDecode16`, `ZS_bytepackDecode32` and `ZS_bytepackDecode64`, for elements of
`nbBits / 8` bytes. -/
def bytepackDecode : Decoder := fun nbElts src nbBits =>
  (byteunpackLoop (nbBits / 8) src nbElts 0).map (nbBits / 8 * nbElts, ·)

/-- `bit1depack8` and `bit1depack32`. -/
def bit1depack : Decoder := fun nb1BitValues src _ => do
  let acc ← readRemaining src 0 src.length
  some ((nb1BitValues + 7) / 8, depacks 1 nb1BitValues acc)

/-- `ZS_bitpackDecodeEdgeCase`; `none` inside is the source's `(size_t)-1`. -/
def bitpackDecodeEdgeCase (nbElts : Nat) (src : List UInt8) (eltSize nbBits : Nat) :
    Option (Option (Nat × List Nat)) :=
  let srcSize := bitpackEncodeBound nbElts nbBits
  if nbElts = 0 then some (some (0, []))
  else if nbBits = 0 then some (some (0, List.replicate nbElts 0))
  else if src.length < srcSize then none
  else if nbBits = eltSize * 8 then
    some (some (srcSize, Simd.lanes eltSize nbElts (src.take srcSize)))
  else some none

/-! ## 8, 16 and 32 bits -/

/-- On a source of exactly the size it needs, the decoder consumes it and returns its fields. -/
def Decodes (f : Decoder) (nbBits : Nat) : Prop :=
  ∀ (nbElts : Nat) (src : List UInt8), bitpackEncodeBound nbElts nbBits = src.length →
    f nbElts src nbBits = some (src.length, fields nbBits nbElts (ofLE src))

section Fields

variable {N c acc b w : Nat}

theorem fields_succ (w n N c : Nat) :
    fields w (n + 1) (N / 2 ^ c) = N / 2 ^ c % 2 ^ w :: fields w n (N / 2 ^ (c + w)) := by
  rw [fields, Nat.div_div_eq_div_mul, ← Nat.pow_add]

theorem fields_split (w m n N c : Nat) :
    fields w (m + n) (N / 2 ^ c) =
      fields w m (N / 2 ^ c) ++ fields w n (N / 2 ^ (c + m * w)) := by
  rw [fields_append, Nat.div_div_eq_div_mul, ← Nat.pow_add, Nat.mul_comm w]

theorem and_mask (h : Window N c acc b) (hw : w ≤ b) : acc &&& (2 ^ w - 1) = N / 2 ^ c % 2 ^ w := by
  rw [Nat.and_two_pow_sub_one_eq_mod, h.field hw]

theorem depacks_spec (w : Nat) : ∀ (n : Nat) {c acc b : Nat}, Window N c acc b →
    n * w ≤ b → depacks w n acc = fields w n (N / 2 ^ c)
  | 0, _, _, _, _, _ => rfl
  | n + 1, c, acc, b, h, hw => by
    rw [Nat.succ_mul] at hw
    rw [depacks, fields_succ, and_mask h (by omega),
      depacks_spec w n (h.shift (by omega : w ≤ b)) (by omega)]

end Fields

/-- The state holds the `bits` bits of the source between position `c` and the next byte. -/
structure Fetched (src : List UInt8) (c ip bits state : Nat) : Prop where
  window : Window (ofLE src) c state bits
  lt : state < 2 ^ bits
  pos : c + bits = 8 * ip

namespace Fetched

variable {src : List UInt8} {c ip bits state nbBits : Nat}

theorem start (src : List UInt8) : Fetched src 0 0 0 0 :=
  ⟨by rw [Window, Nat.pow_zero, Nat.mod_one, Nat.mod_one], Nat.one_pos, rfl⟩

theorem grow (h : Fetched src c ip bits state) (hfit : bits + 8 ≤ 64) (hroom : ip < src.length) :
    ∃ b, load src ip 1 = some b ∧
      Fetched src c (ip + 1) (bits + 8) (state ||| (b <<< bits) % 2 ^ 64) := by
  obtain ⟨v, hload, hwindow, hv⟩ := Window.load (by omega : ip + 1 ≤ src.length)
  rw [← h.pos] at hwindow
  obtain ⟨hgrow, hgrown⟩ := h.window.grow h.lt hwindow hv hfit
  have hpos := h.pos
  exact ⟨v, hload, hgrow, hgrown, by omega⟩

theorem shift (h : Fetched src c ip bits state) (hle : nbBits ≤ bits) :
    Fetched src (c + nbBits) ip (bits - nbBits) (state >>> nbBits) := by
  have hpos := h.pos
  refine ⟨h.window.shift hle, ?_, by omega⟩
  rw [Nat.shiftRight_eq_div_pow, Nat.div_lt_iff_lt_mul (by positivity), ← Nat.pow_add,
    Nat.sub_add_cancel hle]
  exact h.lt

theorem fetchByte (h : Fetched src c ip bits state) (hn : nbBits ≤ 8) (hbits : bits < 8)
    (hroom : c + nbBits ≤ 8 * src.length) :
    ∃ ip' bits' state', fetchByte nbBits src ip bits state = some (ip', bits', state') ∧
      Fetched src c ip' bits' state' ∧ nbBits ≤ bits' ∧ bits' < nbBits + 8 := by
  have hpos := h.pos
  rw [InMemory.fetchByte]
  split
  · obtain ⟨b, hload, hgrow⟩ := h.grow (by omega) (by omega)
    exact ⟨_, _, _, by rw [hload]; rfl, hgrow, by omega, by omega⟩
  · exact ⟨_, _, _, rfl, h, by omega, by omega⟩

theorem fetchBytes (hn : nbBits ≤ 16) {ip bits state : Nat} (h : Fetched src c ip bits state)
    (hbits : bits < nbBits + 8) (hroom : c + nbBits ≤ 8 * src.length) :
    ∃ ip' bits' state', fetchBytes nbBits src ip bits state = some (ip', bits', state') ∧
      Fetched src c ip' bits' state' ∧ nbBits ≤ bits' ∧ bits' < nbBits + 8 := by
  have hpos := h.pos
  rw [InMemory.fetchBytes]
  split
  · obtain ⟨b, hload, hgrow⟩ := h.grow (by omega) (by omega)
    rw [hload]
    exact fetchBytes hn hgrow (by omega) hroom
  · exact ⟨_, _, _, rfl, h, by omega, hbits⟩
termination_by nbBits - bits

end Fetched

section Loops

variable {src : List UInt8} {nbBits : Nat}

theorem decode8Loop_spec (hn : nbBits ≤ 8) : ∀ (n : Nat) {c ip bits state : Nat},
    Fetched src c ip bits state → bits < 8 → c + n * nbBits ≤ 8 * src.length →
      decode8Loop nbBits src n ip bits state = some (fields nbBits n (ofLE src / 2 ^ c))
  | 0, _, _, _, _, _, _, _ => rfl
  | n + 1, c, ip, bits, state, h, hbits, hroom => by
    rw [Nat.succ_mul n] at hroom
    obtain ⟨ip', bits', state', hfetch, h', hle, hlt⟩ := h.fetchByte hn hbits (by omega)
    rw [decode8Loop, hfetch]
    simp only [Option.bind_eq_bind, Option.bind_some]
    rw [decode8Loop_spec hn n (h'.shift hle) (by omega) (by omega), and_mask h'.window hle,
      fields_succ]
    rfl

theorem decodes_generic8 (hn : nbBits ≤ 8) : Decodes bitpackDecode8Generic nbBits := by
  intro n src hlen
  have hroom : 0 + n * nbBits ≤ 8 * src.length := by
    rw [← hlen, bitpackEncodeBound]
    omega
  rw [bitpackDecode8Generic, decode8Loop_spec hn n (Fetched.start src) (by decide) hroom, ← hlen,
    Nat.pow_zero, Nat.div_one]
  rfl

theorem decode16Loop_spec (hn : nbBits ≤ 16) : ∀ (n : Nat) {c ip bits state : Nat},
    Fetched src c ip bits state → bits < 8 → c + n * nbBits ≤ 8 * src.length →
      decode16Loop nbBits src n ip bits state = some (fields nbBits n (ofLE src / 2 ^ c))
  | 0, _, _, _, _, _, _, _ => rfl
  | n + 1, c, ip, bits, state, h, hbits, hroom => by
    rw [Nat.succ_mul n] at hroom
    obtain ⟨ip', bits', state', hfetch, h', hle, hlt⟩ :=
      Fetched.fetchBytes hn h (by omega) (by omega : c + nbBits ≤ 8 * src.length)
    rw [decode16Loop, hfetch]
    simp only [Option.bind_eq_bind, Option.bind_some]
    rw [decode16Loop_spec hn n (h'.shift hle) (by omega) (by omega), and_mask h'.window hle,
      fields_succ]
    rfl

theorem decodes_generic16 (hn : nbBits ≤ 16) : Decodes bitpackDecode16Generic nbBits := by
  intro n src hlen
  have hroom : 0 + n * nbBits ≤ 8 * src.length := by
    rw [← hlen, bitpackEncodeBound]
    omega
  rw [bitpackDecode16Generic, decode16Loop_spec hn n (Fetched.start src) (by decide) hroom, ← hlen,
    Nat.pow_zero, Nat.div_one]
  rfl

theorem readRemaining_spec {pos : Nat} (hpos : pos ≤ src.length) :
    ∃ v, readRemaining src pos (src.length - pos) = some v ∧
      Window (ofLE src) (8 * pos) v 64 := by
  rw [readRemaining]
  split
  · exact Window.load_tail (by omega) 64
  · obtain ⟨v, hload, hwindow, -⟩ := Window.load (by omega : pos + 8 ≤ src.length)
    exact ⟨v, hload, hwindow⟩

theorem decode32LastRound_spec (h0 : 0 < nbBits) (hn : nbBits < 32) : ∀ (n : Nat)
    {srcPtr acc bitPos : Nat}, Window (ofLE src) (8 * srcPtr + bitPos) acc (64 - bitPos) →
      bitPos ≤ 63 - nbBits → 8 * srcPtr + bitPos + n * nbBits ≤ 8 * src.length →
        decode32LastRound nbBits src.length src n srcPtr acc bitPos =
          some (fields nbBits n (ofLE src / 2 ^ (8 * srcPtr + bitPos)))
  | 0, _, _, _, _, _, _ => rfl
  | n + 1, srcPtr, acc, bitPos, h, hbits, hroom => by
    rw [Nat.succ_mul n] at hroom
    have hshift := h.shift (by omega : nbBits ≤ 64 - bitPos)
    rw [decode32LastRound, fields_succ, and_mask h (by omega)]
    dsimp only
    split
    · obtain ⟨v, hload, hwindow⟩ :=
        readRemaining_spec (by omega : srcPtr + (bitPos + nbBits) / 8 ≤ src.length)
      have hnext := hwindow.shift (by omega : (bitPos + nbBits) % 8 ≤ 64)
      have hrest := decode32LastRound_spec h0 hn n hnext (by omega) (by omega)
      rw [show 8 * (srcPtr + (bitPos + nbBits) / 8) + (bitPos + nbBits) % 8 =
        8 * srcPtr + bitPos + nbBits by omega] at hrest
      rw [hload]
      simp only [Option.bind_eq_bind, Option.bind_some]
      rw [hrest]
      rfl
    · rw [show 64 - bitPos - nbBits = 64 - (bitPos + nbBits) by omega, Nat.add_assoc] at hshift
      rw [decode32LastRound_spec h0 hn n hshift (by omega) (by omega), Nat.add_assoc]
      rfl

theorem decode32FullRounds_spec (h0 : 0 < nbBits) (hn : nbBits < 32) : ∀ (nr n : Nat)
    {srcPtr acc bitPos : Nat}, Window (ofLE src) (8 * srcPtr + bitPos) acc (64 - bitPos) →
      bitPos < 8 → nr * (56 / nbBits) ≤ n → 8 * srcPtr + bitPos + n * nbBits ≤ 8 * src.length →
        decode32FullRounds nbBits src.length src nr n srcPtr acc bitPos =
          some (fields nbBits n (ofLE src / 2 ^ (8 * srcPtr + bitPos)))
  | 0, n, _, _, _, h, hbits, _, hroom => decode32LastRound_spec h0 hn n h (by omega) hroom
  | nr + 1, n, srcPtr, acc, bitPos, h, hbits, hnr, hroom => by
    have hpacks : 56 / nbBits * nbBits ≤ 56 := Nat.div_mul_le_self 56 nbBits
    rw [Nat.succ_mul] at hnr
    obtain ⟨m, rfl⟩ := Nat.exists_eq_add_of_le (by omega : 56 / nbBits ≤ n)
    rw [Nat.add_mul] at hroom
    have hvs := depacks_spec nbBits (56 / nbBits) h (by omega)
    have hpos : 8 * (srcPtr + (bitPos + 56 / nbBits * nbBits) / 8) +
        (bitPos + 56 / nbBits * nbBits) % 8 = 8 * srcPtr + bitPos + 56 / nbBits * nbBits := by
      omega
    rw [decode32FullRounds, fields_split, hvs, Nat.add_sub_cancel_left]
    split
    · obtain ⟨v, hload, hwindow, -⟩ := Window.load
        (by omega : srcPtr + (bitPos + 56 / nbBits * nbBits) / 8 + 8 ≤ src.length)
      have hnext := hwindow.shift (by omega : (bitPos + 56 / nbBits * nbBits) % 8 ≤ 8 * 8)
      have hrest := decode32FullRounds_spec h0 hn nr m hnext (by omega) (by omega) (by omega)
      rw [hpos] at hrest
      rw [hload]
      simp only [Option.bind_eq_bind, Option.bind_some]
      rw [hrest]
      rfl
    · obtain ⟨v, hload, hwindow⟩ := Window.load_tail (by omega :
        srcPtr + (bitPos + 56 / nbBits * nbBits) / 8 +
          (src.length - (srcPtr + (bitPos + 56 / nbBits * nbBits) / 8)) = src.length) 64
      have hnext := hwindow.shift (by omega : (bitPos + 56 / nbBits * nbBits) % 8 ≤ 64)
      have hrest := decode32LastRound_spec h0 hn m hnext (by omega) (by omega)
      rw [hpos] at hrest
      rw [hload]
      simp only [Option.bind_eq_bind, Option.bind_some]
      rw [hrest]
      rfl

theorem decodes_generic32 (h0 : 0 < nbBits) (hn : nbBits < 32) :
    Decodes bitpackDecode32Generic nbBits := by
  intro n src hlen
  rw [bitpackDecode32Generic]
  split
  · rename_i hnone
    obtain rfl := hnone
    rw [bitpackEncodeBound, Nat.zero_mul] at hlen
    rw [← hlen]
    rfl
  · have hroom : 8 * 0 + 0 + n * nbBits ≤ 8 * src.length := by
      rw [← hlen, bitpackEncodeBound]
      omega
    obtain ⟨v, hload, hwindow⟩ := readRemaining_spec (Nat.zero_le src.length)
    rw [Nat.sub_zero] at hload
    rw [hlen]
    simp only [hload, Option.bind_eq_bind, Option.bind_some]
    rw [decode32FullRounds_spec h0 hn _ n hwindow (by decide) (Nat.div_mul_le_self _ _) hroom,
      Nat.mul_zero, Nat.add_zero, Nat.pow_zero, Nat.div_one]
    rfl

end Loops

/-! ## 64 bits -/

/-- The stream stands at bit `c` of the source.  A source of fewer than eight bytes is in the
container from the start. -/
structure Reading (bs : BitDStreamFF) (src : List UInt8) (c : Nat) : Prop where
  source : bs.src = src
  stop : bs.stop = src.length
  long : 8 ≤ src.length → bs.limit = src.length - 8 + 1 ∧ 8 * bs.ptr + bs.nbBitsRead = c
  short : src.length < 8 →
    bs.limit = 0 ∧ bs.ptr = src.length ∧ bs.container = ofLE src / 2 ^ c

namespace Reading

variable {bs : BitDStreamFF} {src : List UInt8} {c b nbBits : Nat}

theorem init (src : List UInt8) :
    ∃ bs, BitDStreamFF.init src src.length = some bs ∧ Reading bs src 0 := by
  rw [BitDStreamFF.init]
  split
  · rename_i hlong
    obtain ⟨v, hload, -⟩ := Window.load (by omega : 0 + 8 ≤ src.length)
    rw [hload]
    exact ⟨_, rfl, rfl, rfl, fun _ => ⟨rfl, rfl⟩, fun hshort => absurd hshort (by omega)⟩
  · rename_i hshort
    have hload := load_eq_some (by omega : 0 + src.length ≤ src.length)
    have hlt := ofLE_lt src
    rw [pow256] at hlt
    rw [Nat.mul_zero, Nat.pow_zero, Nat.div_one, Nat.mod_eq_of_lt hlt] at hload
    rw [hload]
    refine ⟨_, rfl, rfl, rfl, fun hlong => absurd hlong (by omega), fun _ => ⟨rfl, rfl, ?_⟩⟩
    rw [Nat.pow_zero, Nat.div_one]

theorem reload_window (h : Reading bs src c) :
    ∃ bs', bs.reload = some bs' ∧ Reading bs' src c ∧
      (c < 8 * src.length → Window (ofLE src) c bs'.container (64 - c % 8)) ∧
      (8 ≤ src.length → c < 8 * src.length → bs'.ptr = c / 8) ∧
      (8 * src.length ≤ c ∨ src.length < 8 → bs' = bs) := by
  have hstop := h.stop
  have hsource := h.source
  rw [BitDStreamFF.reload]
  dsimp only
  by_cases hlong : 8 ≤ src.length
  · obtain ⟨hlimit, hpos⟩ := h.long hlong
    have hcut : 8 * (bs.ptr + bs.nbBitsRead / 8) + bs.nbBitsRead % 8 = c := by omega
    split
    · obtain ⟨v, hload, hwindow, -⟩ := Window.load
        (by omega : bs.ptr + bs.nbBitsRead / 8 + 8 ≤ src.length)
      have hshift := hwindow.shift (by omega : bs.nbBitsRead % 8 ≤ 8 * 8)
      rw [hcut] at hshift
      rw [hsource, hload]
      refine ⟨_, rfl, ⟨rfl, hstop, fun _ => ⟨hlimit, hcut⟩, fun hs => absurd hs (by omega)⟩,
        fun _ => hshift.narrow (by omega), fun _ _ => ?_, fun hc => ?_⟩
      · dsimp only
        omega
      · omega
    · split
      · exact ⟨bs, rfl, h, fun hc => absurd hc (by omega), fun _ hc => absurd hc (by omega),
          fun _ => rfl⟩
      · obtain ⟨v, hload, hwindow⟩ := Window.load_tail
          (by omega : bs.limit - 1 + 8 = src.length)
          (64 - c % 8 + (bs.nbBitsRead % 8 + (bs.ptr + bs.nbBitsRead / 8 - (bs.limit - 1)) * 8))
        have hshift := hwindow.shift (Nat.le_add_left
          (bs.nbBitsRead % 8 + (bs.ptr + bs.nbBitsRead / 8 - (bs.limit - 1)) * 8) (64 - c % 8))
        rw [Nat.add_sub_cancel, show 8 * (bs.limit - 1) +
          (bs.nbBitsRead % 8 + (bs.ptr + bs.nbBitsRead / 8 - (bs.limit - 1)) * 8) = c by omega]
          at hshift
        rw [hsource, hload]
        refine ⟨_, rfl, ⟨rfl, hstop, fun _ => ⟨hlimit, hcut⟩, fun hs => absurd hs (by omega)⟩,
          fun _ => hshift, fun _ _ => ?_, fun hc => ?_⟩
        · dsimp only
          omega
        · omega
  · obtain ⟨hlimit, hptr, hcontainer⟩ := h.short (by omega)
    rw [if_neg (by omega), if_pos (by omega)]
    exact ⟨bs, rfl, h, fun _ => by rw [hcontainer, Window], fun hl => absurd hl (by omega),
      fun _ => rfl⟩

theorem reload (h : Reading bs src c) :
    ∃ bs', bs.reload = some bs' ∧ Reading bs' src c ∧
      (c < 8 * src.length → Window (ofLE src) c bs'.container 57) := by
  obtain ⟨bs', hreload, hreading, hwindow, -⟩ := h.reload_window
  exact ⟨bs', hreload, hreading, fun hc => (hwindow hc).narrow (by omega)⟩

theorem peek (h : Window (ofLE src) c bs.container b) (hle : nbBits ≤ b) (hn : nbBits < 64) :
    bs.peek nbBits = ofLE src / 2 ^ c % 2 ^ nbBits := by
  rw [BitDStreamFF.peek, Nat.mod_eq_of_lt hn, and_mask h hle]

theorem skip (h : Reading bs src c) (nbBits : Nat) : Reading (bs.skip nbBits) src (c + nbBits) := by
  refine ⟨h.source, h.stop, fun hlong => ?_, fun hshort => ?_⟩
  · obtain ⟨hlimit, hpos⟩ := h.long hlong
    refine ⟨hlimit, ?_⟩
    rw [BitDStreamFF.skip, ← hpos, Nat.add_assoc]
  · obtain ⟨hlimit, hptr, hcontainer⟩ := h.short hshort
    refine ⟨hlimit, hptr, ?_⟩
    rw [BitDStreamFF.skip, hcontainer, Nat.shiftRight_eq_div_pow, Nat.div_div_eq_div_mul,
      ← Nat.pow_add]

theorem readPacks (hn : nbBits < 64) : ∀ (n : Nat) {bs : BitDStreamFF} {c b : Nat},
    Reading bs src c → Window (ofLE src) c bs.container b → n * nbBits ≤ b →
      (readPacks nbBits n bs).1 = fields nbBits n (ofLE src / 2 ^ c) ∧
        Reading (InMemory.readPacks nbBits n bs).2 src (c + n * nbBits)
  | 0, _, _, _, h, _, _ => ⟨rfl, by rwa [Nat.zero_mul]⟩
  | n + 1, bs, c, b, h, hwindow, hle => by
    rw [Nat.succ_mul n] at hle
    obtain ⟨hvs, hreading⟩ := readPacks hn n (h.skip nbBits)
      (hwindow.shift (by omega : nbBits ≤ b)) (by omega)
    refine ⟨?_, ?_⟩
    · rw [InMemory.readPacks, fields_succ]
      rw [hvs, peek hwindow (by omega) hn]
    · rwa [Nat.succ_mul n, Nat.add_comm (n * nbBits), ← Nat.add_assoc]

end Reading

section Streams

variable {src : List UInt8} {nbBits : Nat}

theorem decode64Singles_spec (h0 : 0 < nbBits) (hn : nbBits ≤ 57) : ∀ (n : Nat)
    {bs : BitDStreamFF} {c : Nat}, Reading bs src c →
      (c < 8 * src.length → Window (ofLE src) c bs.container 57) →
        c + n * nbBits ≤ 8 * src.length →
          decode64Singles nbBits n bs = some (fields nbBits n (ofLE src / 2 ^ c))
  | 0, _, _, _, _, _ => rfl
  | n + 1, bs, c, h, hready, hroom => by
    rw [Nat.succ_mul n] at hroom
    have hwindow := hready (by omega)
    obtain ⟨bs', hreload, h', hready'⟩ := (h.skip nbBits).reload
    rw [decode64Singles, hreload]
    simp only [Option.bind_eq_bind, Option.bind_some]
    rw [decode64Singles_spec h0 hn n h' hready' (by omega), Reading.peek hwindow hn (by omega),
      fields_succ]
    rfl

theorem decode64Rounds_spec (h0 : 0 < nbBits) (hn : nbBits ≤ 57) : ∀ (nr n : Nat)
    {bs : BitDStreamFF} {c : Nat}, Reading bs src c →
      (c < 8 * src.length → Window (ofLE src) c bs.container 57) →
        nr * (57 / nbBits) ≤ n → c + n * nbBits ≤ 8 * src.length →
          decode64Rounds nbBits (57 / nbBits) nr n bs = some (fields nbBits n (ofLE src / 2 ^ c))
  | 0, n, _, _, h, hready, _, hroom => decode64Singles_spec h0 hn n h hready hroom
  | nr + 1, n, bs, c, h, hready, hnr, hroom => by
    have hpacks : 57 / nbBits * nbBits ≤ 57 := Nat.div_mul_le_self 57 nbBits
    have hpos : 0 < 57 / nbBits * nbBits := Nat.mul_pos (Nat.div_pos hn h0) h0
    rw [Nat.succ_mul] at hnr
    obtain ⟨m, rfl⟩ := Nat.exists_eq_add_of_le (by omega : 57 / nbBits ≤ n)
    rw [Nat.add_mul] at hroom
    obtain ⟨hvs, hreading⟩ :=
      Reading.readPacks (by omega : nbBits < 64) _ h (hready (by omega)) hpacks
    obtain ⟨bs', hreload, h', hready'⟩ := hreading.reload
    have hrest := decode64Rounds_spec h0 hn nr m h' hready' (by omega) (by omega)
    rw [decode64Rounds, fields_split, Nat.add_sub_cancel_left]
    simp only [hreload, hrest, hvs, Option.bind_eq_bind, Option.bind_some]

theorem decode64Halves_spec (hlow : 57 < nbBits) (hn : nbBits ≤ 64) : ∀ (n : Nat)
    {bs : BitDStreamFF} {c : Nat}, Reading bs src c →
      (c < 8 * src.length → Window (ofLE src) c bs.container 57) →
        c + n * nbBits ≤ 8 * src.length →
          decode64Halves nbBits n bs = some (fields nbBits n (ofLE src / 2 ^ c))
  | 0, _, _, _, _, _ => rfl
  | n + 1, bs, c, h, hready, hroom => by
    rw [Nat.succ_mul n] at hroom
    have hwindow := hready (by omega)
    obtain ⟨bs₁, hreload₁, h₁, hready₁⟩ := (h.skip 32).reload
    have hwindow₁ := hready₁ (by omega)
    obtain ⟨bs₂, hreload₂, h₂, hready₂⟩ := (h₁.skip (nbBits - 32)).reload
    rw [show c + 32 + (nbBits - 32) = c + nbBits by omega] at h₂ hready₂
    have hrest := decode64Halves_spec hlow hn n h₂ hready₂ (by omega)
    have hhigh : ofLE src / 2 ^ (c + 32) % 2 ^ (nbBits - 32) < 2 ^ 32 :=
      (Nat.mod_lt _ (by positivity)).trans_le (Nat.pow_le_pow_right Nat.two_pos (by omega))
    have hvalue : ofLE src / 2 ^ c % 2 ^ 32 |||
        ((ofLE src / 2 ^ (c + 32) % 2 ^ (nbBits - 32)) <<< 32) % 2 ^ 64 =
          ofLE src / 2 ^ c % 2 ^ nbBits := by
      have hfit : (ofLE src / 2 ^ (c + 32) % 2 ^ (nbBits - 32)) <<< 32 < 2 ^ 64 := by
        rw [Nat.shiftLeft_eq]
        omega
      rw [Nat.mod_eq_of_lt hfit, or_shiftLeft (Nat.mod_lt _ (by positivity)), Nat.pow_add 2 c,
        ← Nat.div_div_eq_div_mul, ← Nat.mod_mul, ← Nat.pow_add]
      rw [show 32 + (nbBits - 32) = nbBits by omega]
    rw [decode64Halves, hreload₁]
    simp only [hreload₂, hrest, Option.bind_eq_bind, Option.bind_some]
    rw [Reading.peek hwindow (by decide) (by decide), Reading.peek hwindow₁ (by omega) (by omega),
      hvalue, fields_succ]

theorem decodes_generic64 (h0 : 0 < nbBits) (hn : nbBits ≤ 64) :
    Decodes bitpackDecode64Generic nbBits := by
  intro n src hlen
  have hroom : 0 + n * nbBits ≤ 8 * src.length := by
    rw [← hlen, bitpackEncodeBound]
    omega
  obtain ⟨bs, hinit, hstart⟩ := Reading.init src
  obtain ⟨bs', hreload, h', hready⟩ := hstart.reload
  have hread : decode64Read nbBits n bs' = some (fields nbBits n (ofLE src)) := by
    rw [decode64Read, ← Nat.div_one (ofLE src), ← Nat.pow_zero 2]
    split
    · rename_i hsmall
      exact decode64Rounds_spec h0 hsmall _ n h' hready (Nat.div_mul_le_self _ _) hroom
    · exact decode64Halves_spec (by omega) hn n h' hready hroom
  rw [bitpackDecode64Generic, hlen]
  simp only [hinit, hreload, hread, Option.bind_eq_bind, Option.bind_some]

/-! ## Edge cases -/

theorem byteunpackLoop_spec {n : Nat} : ∀ (k : Nat) {i : Nat}, n * (i + k) ≤ src.length →
    byteunpackLoop n src k i = some (fields (8 * n) k (ofLE src / 2 ^ (8 * (n * i))))
  | 0, _, _ => rfl
  | k + 1, i, hroom => by
    have hstep : n * i + n ≤ n * (i + (k + 1)) := by
      rw [← Nat.mul_succ]
      exact Nat.mul_le_mul_left n (by omega)
    have hrest := byteunpackLoop_spec k (i := i + 1) (by rwa [Nat.add_assoc, Nat.add_comm 1 k])
    rw [byteunpackLoop, load_eq_some (hstep.trans hroom), fields_succ]
    simp only [hrest, Option.bind_eq_bind, Option.bind_some]
    rw [Nat.mul_succ, Nat.mul_add]

theorem decodes_bytepack (h : nbBits % 8 = 0) : Decodes bytepackDecode nbBits := by
  obtain ⟨n, rfl⟩ := Nat.dvd_of_mod_eq_zero h
  intro nbElts src hlen
  rw [bitpackEncodeBound_bytes] at hlen
  have hrun := byteunpackLoop_spec nbElts (i := 0)
    (by rw [Nat.zero_add, hlen] : n * (0 + nbElts) ≤ src.length)
  rw [Nat.mul_zero, Nat.mul_zero, Nat.pow_zero, Nat.div_one] at hrun
  rw [bytepackDecode, Nat.mul_div_cancel_left n (by decide), hrun, hlen]
  rfl

theorem bit1depack_spec {n : Nat} (hn : n ≤ 64) (hlen : bitpackEncodeBound n 1 = src.length) :
    bit1depack n src 1 = some (src.length, fields 1 n (ofLE src)) := by
  obtain ⟨v, hload, hwindow⟩ := readRemaining_spec (Nat.zero_le src.length)
  rw [bitpackEncodeBound, Nat.mul_one] at hlen
  rw [Nat.sub_zero] at hload
  rw [bit1depack, hload]
  simp only [Option.bind_eq_bind, Option.bind_some]
  rw [depacks_spec 1 n hwindow (by omega), hlen, Nat.mul_zero, Nat.pow_zero, Nat.div_one]

theorem decodeEdgeCase_spec {n eltSize : Nat} (hlen : bitpackEncodeBound n nbBits = src.length)
    (hn : nbBits ≤ 8 * eltSize) :
    (bitpackDecodeEdgeCase n src eltSize nbBits = some none ∧ 0 < nbBits ∧ nbBits < 8 * eltSize) ∨
      bitpackDecodeEdgeCase n src eltSize nbBits =
        some (some (src.length, fields nbBits n (ofLE src))) := by
  rw [bitpackDecodeEdgeCase]
  by_cases hnone : n = 0
  · subst hnone
    rw [bitpackEncodeBound, Nat.zero_mul] at hlen
    refine Or.inr ?_
    rw [if_pos rfl, ← hlen]
    rfl
  · by_cases hzero : nbBits = 0
    · subst hzero
      rw [bitpackEncodeBound, Nat.mul_zero] at hlen
      refine Or.inr ?_
      rw [if_neg hnone, if_pos rfl, ← hlen, fields_zero_width]
    · rw [if_neg hnone, if_neg hzero, if_neg (by omega)]
      by_cases hfull : nbBits = eltSize * 8
      · refine Or.inr ?_
        rw [if_pos hfull, hlen, List.take_length, Simd.lanes, hfull, Nat.mul_comm 8]
      · exact Or.inl ⟨if_neg hfull, by omega, by omega⟩

end Streams

end OpenZL.Codecs.Bitpack.InMemory
