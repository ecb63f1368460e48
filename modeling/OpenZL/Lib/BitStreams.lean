import OpenZL.Lib.Buffer
import OpenZL.Lib.LittleEndian
import Mathlib.Tactic.Ring

/-!
# Bit streams in memory

A writer packs values of `w` bits, least significant bit first, through an accumulator that it
commits to a buffer a few bytes at a time; it may write more bytes than it commits, to be
overwritten by what follows.  A reader takes values of `w` bits from a window on its source that it
reloads.  Every read and write stays inside its buffer.

Principal results: `Packed.absorb`, `Packed.commit`, `Packed.finish`, `bytesOf_flatMap_bitsOf`,
`Window.load`, `Window.shift`, `Window.field`.
-/

namespace OpenZL.Lib

/-- Write the `n` low bytes of `v` at `pos`. -/
def store (dst : List UInt8) (pos n v : Nat) : Option (List UInt8) :=
  Buffer.store dst pos (toLE n v)

/-- Read `n` bytes at `pos` as a number. -/
def load (src : List UInt8) (pos n : Nat) : Option Nat :=
  (Buffer.load src pos n).map ofLE

theorem store_eq_some {dst : List UInt8} {pos n : Nat} (h : pos + n ≤ dst.length) (v : Nat) :
    ∃ dst', store dst pos n v = some dst' ∧ dst'.length = dst.length ∧
      ∀ k, k ≤ n → dst'.take (pos + k) = dst.take pos ++ toLE k v := by
  refine ⟨Buffer.write dst pos (toLE n v), Buffer.store_of_le (by simpa using h),
    Buffer.length_write (by simpa using h), ?_⟩
  intro k hk
  obtain ⟨m, rfl⟩ := Nat.exists_eq_add_of_le hk
  have hlen : (dst.take pos ++ toLE k v).length = pos + k := by
    rw [List.length_append, List.length_take, length_toLE]
    omega
  rw [Buffer.write, toLE_add, ← List.append_assoc, List.append_assoc]
  exact List.take_left' hlen

theorem load_eq_some {src : List UInt8} {pos n : Nat} (h : pos + n ≤ src.length) :
    load src pos n = some (ofLE src / 2 ^ (8 * pos) % 2 ^ (8 * n)) := by
  rw [load, Buffer.load_of_le h, Option.map_some, Buffer.read_eq, ofLE_take, ofLE_drop, pow256,
    pow256]

/-- The `size` bits of `D` are packed: `bitPos` of them are in the accumulator, the others in the
first `pos` bytes of the buffer. -/
structure Packed (size D : Nat) (dst : List UInt8) (pos acc bitPos : Nat) : Prop where
  pos_le : pos ≤ dst.length
  acc_lt : acc < 2 ^ bitPos
  bits : 8 * pos + bitPos = size
  value : ofLE (dst.take pos) + 2 ^ (8 * pos) * acc = D

/-- The buffer starts with the `size` bits of `D`, padded with zero bits. -/
def Stored (size D : Nat) (dst : List UInt8) : Prop :=
  dst.take ((size + 7) / 8) = toLE ((size + 7) / 8) D

theorem ofDigits_lt {w : Nat} {us : List Nat} (h : ∀ u ∈ us, u < 2 ^ w) :
    Nat.ofDigits (2 ^ w) us < 2 ^ (us.length * w) := by
  induction us with
  | nil => simp
  | cons u us ih =>
    have hrest := ih fun x hx => h x (List.mem_cons_of_mem _ hx)
    rw [Nat.ofDigits_cons, List.length_cons, Nat.succ_mul, Nat.add_comm (us.length * w)]
    exact add_mul_lt (h u List.mem_cons_self) hrest

namespace Packed

variable {size D pos acc bitPos n k : Nat} {dst : List UInt8}

theorem start (dst : List UInt8) : Packed 0 0 dst 0 0 0 :=
  ⟨Nat.zero_le _, Nat.one_pos, rfl, by simp⟩

theorem append {v : Nat} (h : Packed size D dst pos acc bitPos) (hv : v < 2 ^ n) :
    Packed (size + n) (D + 2 ^ size * v) dst pos (acc + 2 ^ bitPos * v) (bitPos + n) := by
  refine ⟨h.pos_le, add_mul_lt h.acc_lt hv, ?_, ?_⟩
  · have := h.bits
    omega
  · rw [← h.value, ← h.bits, Nat.pow_add]
    ring

theorem absorb {v : Nat} (h : Packed size D dst pos acc bitPos) (hv : v < 2 ^ n)
    (hfit : bitPos + n ≤ 64) :
    Packed (size + n) (D + 2 ^ size * v) dst pos (acc ||| (v <<< bitPos) % 2 ^ 64)
      (bitPos + n) := by
  have hlt : v <<< bitPos < 2 ^ 64 := by
    rw [Nat.shiftLeft_eq, Nat.mul_comm]
    calc 2 ^ bitPos * v < 2 ^ bitPos * 2 ^ n := by gcongr
      _ = 2 ^ (bitPos + n) := (Nat.pow_add 2 bitPos n).symm
      _ ≤ 2 ^ 64 := Nat.pow_le_pow_right (by norm_num) hfit
  rw [Nat.mod_eq_of_lt hlt, or_shiftLeft h.acc_lt]
  exact h.append hv

theorem commit (h : Packed size D dst pos acc bitPos) (hk : 8 * k ≤ bitPos) (hkn : k ≤ n)
    (hroom : pos + n ≤ dst.length) :
    ∃ dst', store dst pos n acc = some dst' ∧ dst'.length = dst.length ∧
      Packed size D dst' (pos + k) (acc >>> (k * 8)) (bitPos - 8 * k) := by
  obtain ⟨dst', hstore, hlen, htake⟩ := store_eq_some hroom acc
  refine ⟨dst', hstore, hlen, ⟨by omega, ?_, ?_, ?_⟩⟩
  · rw [Nat.shiftRight_eq_div_pow, Nat.div_lt_iff_lt_mul (by positivity), ← Nat.pow_add]
    rw [show bitPos - 8 * k + k * 8 = bitPos by omega]
    exact h.acc_lt
  · have := h.bits
    omega
  · have hpos : (dst.take pos).length = pos := by
      rw [List.length_take]
      omega
    rw [htake k hkn, ofLE_append, hpos, ofLE_toLE, ← h.value, Nat.shiftRight_eq_div_pow,
      Nat.mul_comm k 8, ← pow256, ← pow256, ← pow256, Nat.pow_add, Nat.add_assoc,
      Nat.mul_assoc, ← Nat.mul_add, Nat.mod_add_div]

theorem put {v : Nat} (h : Packed size D dst pos 0 0) (hv : v < 2 ^ (8 * k)) (hkn : k ≤ n)
    (hroom : pos + n ≤ dst.length) :
    ∃ dst', store dst pos n v = some dst' ∧ dst'.length = dst.length ∧
      Packed (size + 8 * k) (D + 2 ^ size * v) dst' (pos + k) 0 0 := by
  have happend := h.append hv
  rw [Nat.zero_add, Nat.zero_add, Nat.pow_zero, Nat.one_mul] at happend
  obtain ⟨dst', hstore, hlen, hcommit⟩ := happend.commit (Nat.le_refl _) hkn hroom
  have hacc : v >>> (k * 8) = 0 := by
    rw [Nat.shiftRight_eq_div_pow, Nat.mul_comm k]
    exact Nat.div_eq_of_lt hv
  rw [hacc, Nat.sub_self] at hcommit
  exact ⟨dst', hstore, hlen, hcommit⟩

theorem stored (h : Packed size D dst pos acc 0) : Stored size D dst := by
  have hacc : acc = 0 := by simpa using h.acc_lt
  have hsize : (size + 7) / 8 = pos := by
    have := h.bits
    omega
  have hlen : (dst.take pos).length = pos := by
    have := h.pos_le
    rw [List.length_take]
    omega
  have hvalue := h.value
  rw [hacc, Nat.mul_zero, Nat.add_zero] at hvalue
  have hle := toLE_ofLE (dst.take pos)
  rw [hlen, hvalue] at hle
  rw [Stored, hsize, hle]

theorem finish (h : Packed size D dst pos acc bitPos) (hn : (bitPos + 7) / 8 ≤ n)
    (hroom : pos + n ≤ dst.length) :
    ∃ dst', store dst pos n acc = some dst' ∧ dst'.length = dst.length ∧ Stored size D dst' := by
  obtain ⟨dst', hstore, hlen, htake⟩ := store_eq_some hroom acc
  have hsize : (size + 7) / 8 = pos + (bitPos + 7) / 8 := by
    have := h.bits
    omega
  have hpos : (dst.take pos).length = pos := by
    rw [List.length_take]
    omega
  have hacc : acc < 256 ^ ((bitPos + 7) / 8) := by
    rw [pow256]
    exact h.acc_lt.trans_le (Nat.pow_le_pow_right (by norm_num) (by omega))
  refine ⟨dst', hstore, hlen, ?_⟩
  have hbytes := htake _ hn
  have hle := toLE_ofLE (dst.take pos ++ toLE ((bitPos + 7) / 8) acc)
  rw [ofLE_append, hpos, ofLE_toLE, Nat.mod_eq_of_lt hacc, pow256, h.value, List.length_append,
    hpos, length_toLE] at hle
  rw [Stored, hsize, hbytes, hle]

theorem lt (h : Packed size D dst pos acc bitPos) : D < 2 ^ size := by
  have hlow := ofLE_lt (dst.take pos)
  rw [List.length_take, Nat.min_eq_left h.pos_le, pow256] at hlow
  rw [← h.value, ← h.bits]
  exact add_mul_lt hlow h.acc_lt

theorem align (h : Packed size D dst pos acc bitPos)
    (hroom : pos + (bitPos + 7) / 8 ≤ dst.length) :
    ∃ dst', store dst pos ((bitPos + 7) / 8) acc = some dst' ∧ dst'.length = dst.length ∧
      Packed ((size + 7) / 8 * 8) D dst' (pos + (bitPos + 7) / 8) 0 0 := by
  have hbits := h.bits
  have hpad := h.append (n := (bitPos + 7) / 8 * 8 - bitPos) (v := 0) (by positivity)
  simp only [Nat.mul_zero, Nat.add_zero] at hpad
  rw [show bitPos + ((bitPos + 7) / 8 * 8 - bitPos) = 8 * ((bitPos + 7) / 8) by omega,
    show size + ((bitPos + 7) / 8 * 8 - bitPos) = (size + 7) / 8 * 8 by omega] at hpad
  obtain ⟨dst', hstore, hlen, hcommit⟩ := hpad.commit (Nat.le_refl _) (Nat.le_refl _) hroom
  have hacc : acc >>> ((bitPos + 7) / 8 * 8) = 0 := by
    have := hpad.acc_lt
    rw [Nat.shiftRight_eq_div_pow, Nat.mul_comm]
    exact Nat.div_eq_of_lt this
  rw [hacc, Nat.sub_self] at hcommit
  exact ⟨dst', hstore, hlen, hcommit⟩

theorem copy {fill : List UInt8} (h : Packed size D dst pos 0 0)
    (hlen : fill.length = (n + 7) / 8) (hroom : pos + fill.length ≤ dst.length) :
    Packed (size + n) (D + 2 ^ size * (ofLE fill % 2 ^ n)) (Buffer.write dst pos fill)
      (pos + n / 8) (ofLE fill / 2 ^ (8 * (n / 8)) % 2 ^ (n % 8)) (n % 8) := by
  have hbits := h.bits
  have hvalue := h.value
  rw [Nat.mul_zero, Nat.add_zero] at hvalue
  have hpos : (dst.take pos).length = pos := by
    have := h.pos_le
    rw [List.length_take]
    omega
  have hsplit : n = 8 * (n / 8) + n % 8 := (Nat.div_add_mod n 8).symm
  refine ⟨?_, Nat.mod_lt _ (by positivity), by omega, ?_⟩
  · rw [Buffer.length_write hroom]
    omega
  · have htake : (Buffer.write dst pos fill).take (pos + n / 8)
        = dst.take pos ++ fill.take (n / 8) := by
      rw [Buffer.write, List.append_assoc, List.take_append, hpos, Nat.add_sub_cancel_left,
        List.take_of_length_le (by omega), List.take_append_of_le_length (by omega)]
    have hmod : ofLE fill % 2 ^ n = ofLE fill % 2 ^ (8 * (n / 8)) +
        2 ^ (8 * (n / 8)) * (ofLE fill / 2 ^ (8 * (n / 8)) % 2 ^ (n % 8)) := by
      rw [← Nat.mod_mul, ← Nat.pow_add, ← hsplit]
    rw [htake, ofLE_append, hpos, hvalue, ofLE_take, hmod, pow256, pow256, ← hbits, Nat.mul_add,
      Nat.pow_add]
    ring

theorem load_copy {fill : List UInt8} (h : Packed size D dst pos 0 0)
    (hlen : fill.length = n / 8 + 1) (hroom : pos + fill.length ≤ dst.length) :
    load (Buffer.write dst pos fill) (pos + n / 8) 1 = some (ofLE fill / 2 ^ (8 * (n / 8))) := by
  have hread := Buffer.read_write_self h.pos_le fill
  have hlow : (Buffer.read (Buffer.write dst pos fill) pos (n / 8)).length = n / 8 :=
    Buffer.length_read (by rw [Buffer.length_write hroom]; omega)
  have hlt := ofLE_lt (Buffer.read (Buffer.write dst pos fill) pos (n / 8))
  rw [hlow] at hlt
  rw [hlen, Buffer.read_add] at hread
  have hvalue := congrArg ofLE hread
  rw [ofLE_append, hlow] at hvalue
  rw [load, Buffer.load_of_le (by rw [Buffer.length_write hroom]; omega), Option.map_some,
    ← hvalue, ← pow256, Nat.add_mul_div_left _ _ (by positivity), Nat.div_eq_of_lt hlt, Nat.zero_add]

theorem join {out : List UInt8} {size' D' : Nat} (h : Packed size D dst pos acc 0)
    (hout : Stored size' D' out) :
    Stored (size + size') (D + 2 ^ size * D') (dst.take pos ++ out) := by
  have hacc : acc = 0 := by simpa using h.acc_lt
  have hbits := h.bits
  have hsize : (size + size' + 7) / 8 = pos + (size' + 7) / 8 := by omega
  have hlen : (dst.take pos).length = pos := by
    have := h.pos_le
    rw [List.length_take]
    omega
  have hvalue := h.value
  rw [hacc, Nat.mul_zero, Nat.add_zero] at hvalue
  have hlow : D < 256 ^ pos := by
    have := ofLE_lt (dst.take pos)
    rwa [hvalue, hlen] at this
  have hpow : 2 ^ size = 256 ^ pos := by
    rw [pow256]
    congr 1
    omega
  rw [Stored, hsize, List.take_append, hlen, Nat.add_sub_cancel_left, hout, toLE_add, hpow,
    Nat.add_mul_div_left _ _ (by positivity), Nat.div_eq_of_lt hlow, Nat.zero_add,
    ← toLE_mod pos (D + _), Nat.add_mul_mod_self_left, toLE_mod, List.take_of_length_le (by omega)]
  congr 1
  have hle := toLE_ofLE (dst.take pos)
  rw [hlen, hvalue] at hle
  exact hle.symm

end Packed

/-- The low `w` bits of a number, least significant first. -/
def bitsOf : Nat → Nat → List Bool
  | 0, _ => []
  | w + 1, v => v.testBit 0 :: bitsOf w (v / 2)

/-- The number of a bit string, least significant bit first. -/
def ofBits : List Bool → Nat
  | [] => 0
  | b :: bits => b.toNat + 2 * ofBits bits

/-- The bytes of a bit string, eight bits each; zero bits fill up the last one. -/
def bytesOf (bits : List Bool) : List UInt8 :=
  if _h : bits = [] then [] else UInt8.ofNat (ofBits (bits.take 8)) :: bytesOf (bits.drop 8)
termination_by bits.length
decreasing_by
  rw [List.length_drop]
  have := List.length_pos_iff.2 _h
  omega

@[simp] theorem length_bitsOf (w v : Nat) : (bitsOf w v).length = w := by
  induction w generalizing v with
  | zero => rfl
  | succ w ih => rw [bitsOf, List.length_cons, ih]

theorem ofBits_bitsOf (w v : Nat) : ofBits (bitsOf w v) = v % 2 ^ w := by
  induction w generalizing v with
  | zero => rw [Nat.pow_zero, Nat.mod_one, bitsOf, ofBits]
  | succ w ih =>
    have hbit : (v.testBit 0).toNat = v % 2 := by
      rw [Nat.testBit_zero]
      rcases Nat.mod_two_eq_zero_or_one v with h | h <;> simp [h]
    rw [bitsOf, ofBits, ih, hbit, Nat.pow_succ', Nat.mod_mul]

theorem ofBits_append (xs ys : List Bool) :
    ofBits (xs ++ ys) = ofBits xs + 2 ^ xs.length * ofBits ys := by
  induction xs with
  | nil => rw [List.nil_append, ofBits, List.length_nil, Nat.pow_zero, Nat.one_mul, Nat.zero_add]
  | cons b xs ih =>
    rw [List.cons_append, ofBits, ih, ofBits, List.length_cons, Nat.pow_succ]
    ring

theorem ofBits_lt (bits : List Bool) : ofBits bits < 2 ^ bits.length := by
  induction bits with
  | nil => exact Nat.one_pos
  | cons b bits ih =>
    have hb := b.toNat_lt
    rw [ofBits, List.length_cons, Nat.pow_succ]
    omega

theorem bytesOf_eq (bits : List Bool) :
    bytesOf bits = toLE ((bits.length + 7) / 8) (ofBits bits) := by
  rw [bytesOf]
  split
  · rename_i h
    rw [h]
    rfl
  · rename_i h
    have hpos := List.length_pos_iff.2 h
    have hsize : (bits.length + 7) / 8 = ((bits.drop 8).length + 7) / 8 + 1 := by
      rw [List.length_drop]
      omega
    have hvalue := ofBits_append (bits.take 8) (bits.drop 8)
    have hlow := ofBits_lt (bits.take 8)
    rw [List.take_append_drop] at hvalue
    rw [bytesOf_eq (bits.drop 8), hsize, toLE]
    rcases Nat.lt_or_ge bits.length 8 with hshort | hlong
    · have hnil : bits.drop 8 = [] := List.drop_eq_nil_of_le hshort.le
      rw [hnil, List.take_of_length_le hshort.le]
      rfl
    · have hlen : (bits.take 8).length = 8 := List.length_take_of_le hlong
      rw [hlen] at hlow hvalue
      rw [hvalue, show (256 : Nat) = 2 ^ 8 from rfl, Nat.add_mul_div_left _ _ (by positivity),
        Nat.div_eq_of_lt hlow, Nat.zero_add]
      congr 1
      apply UInt8.toNat_inj.1
      rw [UInt8.toNat_ofNat', UInt8.toNat_ofNat', Nat.add_mul_mod_self_left]
termination_by bits.length
decreasing_by
  rw [List.length_drop]
  omega

theorem length_flatMap_bitsOf (w : Nat) (vs : List Nat) :
    (vs.flatMap (bitsOf w)).length = vs.length * w := by
  induction vs with
  | nil => rw [List.flatMap_nil, List.length_nil, List.length_nil, Nat.zero_mul]
  | cons v vs ih =>
    rw [List.flatMap_cons, List.length_append, ih, length_bitsOf, List.length_cons, Nat.succ_mul,
      Nat.add_comm]

theorem ofBits_flatMap_bitsOf {w : Nat} {vs : List Nat} (h : ∀ v ∈ vs, v < 2 ^ w) :
    ofBits (vs.flatMap (bitsOf w)) = Nat.ofDigits (2 ^ w) vs := by
  induction vs with
  | nil => rfl
  | cons v vs ih =>
    rw [List.flatMap_cons, ofBits_append, ofBits_bitsOf, length_bitsOf, Nat.ofDigits_cons,
      ih fun x hx => h x (List.mem_cons_of_mem _ hx), Nat.mod_eq_of_lt (h v List.mem_cons_self)]

theorem bytesOf_flatMap_bitsOf {w : Nat} {vs : List Nat} (h : ∀ v ∈ vs, v < 2 ^ w) :
    bytesOf (vs.flatMap (bitsOf w)) =
      toLE ((vs.length * w + 7) / 8) (Nat.ofDigits (2 ^ w) vs) := by
  rw [bytesOf_eq, length_flatMap_bitsOf, ofBits_flatMap_bitsOf h]

/-- `acc` shows `b` bits of `N` from bit `c` on. -/
def Window (N c acc b : Nat) : Prop := acc % 2 ^ b = N / 2 ^ c % 2 ^ b

namespace Window

variable {N c acc b w : Nat}

section

variable (h : Window N c acc b)

include h

theorem field (hw : w ≤ b) : acc % 2 ^ w = N / 2 ^ c % 2 ^ w := by
  have hdvd := Nat.pow_dvd_pow 2 hw
  rw [← Nat.mod_mod_of_dvd acc hdvd, h, Nat.mod_mod_of_dvd _ hdvd]

theorem fields_eq {n : Nat} (hw : w * n ≤ b) :
    fields w n acc = fields w n (N / 2 ^ c) := by
  rw [← fields_mod_of_le hw, h, fields_mod_of_le hw]

theorem narrow (hw : w ≤ b) : Window N c acc w := h.field hw

theorem shift (hw : w ≤ b) : Window N (c + w) (acc >>> w) (b - w) := by
  have hpow : 2 ^ b = 2 ^ w * 2 ^ (b - w) := by rw [← Nat.pow_add, Nat.add_sub_cancel' hw]
  rw [Window, hpow] at h
  rw [Window, Nat.shiftRight_eq_div_pow, Nat.pow_add, ← Nat.div_div_eq_div_mul,
    ← Nat.mod_mul_right_div_self, h, Nat.mod_mul_right_div_self]

theorem grow {v : Nat} (hlt : acc < 2 ^ b) (hv : Window N (c + b) v 8) (hv8 : v < 2 ^ 8)
    (hfit : b + 8 ≤ 64) :
    Window N c (acc ||| (v <<< b) % 2 ^ 64) (b + 8) ∧
      acc ||| (v <<< b) % 2 ^ 64 < 2 ^ (b + 8) := by
  have hbound : v <<< b < 2 ^ 64 := by
    rw [Nat.shiftLeft_eq, Nat.mul_comm]
    calc 2 ^ b * v < 2 ^ b * 2 ^ 8 := by gcongr
      _ = 2 ^ (b + 8) := (Nat.pow_add 2 b 8).symm
      _ ≤ 2 ^ 64 := Nat.pow_le_pow_right (by norm_num) hfit
  rw [Nat.mod_eq_of_lt hbound, or_shiftLeft hlt]
  refine ⟨?_, add_mul_lt hlt hv8⟩
  rw [Window, Nat.mod_eq_of_lt hlt] at h
  rw [Window, Nat.mod_eq_of_lt hv8, Nat.pow_add, ← Nat.div_div_eq_div_mul] at hv
  rw [Window, Nat.mod_eq_of_lt (add_mul_lt hlt hv8), Nat.pow_add, Nat.mod_mul, ← h, ← hv]

end

theorem load {src : List UInt8} {pos n : Nat} (h : pos + n ≤ src.length) :
    ∃ v, Lib.load src pos n = some v ∧ Window (ofLE src) (8 * pos) v (8 * n) ∧ v < 2 ^ (8 * n) :=
  ⟨_, load_eq_some h, Nat.mod_mod _ _, Nat.mod_lt _ (by positivity)⟩

theorem load_tail {src : List UInt8} {pos n : Nat} (h : pos + n = src.length) (b : Nat) :
    ∃ v, Lib.load src pos n = some v ∧ Window (ofLE src) (8 * pos) v b := by
  have hlt : ofLE src / 2 ^ (8 * pos) < 2 ^ (8 * n) := by
    rw [Nat.div_lt_iff_lt_mul (by positivity), ← Nat.pow_add]
    have := ofLE_lt src
    rwa [pow256, ← h, Nat.mul_add, Nat.add_comm] at this
  exact ⟨_, load_eq_some h.le, by rw [Window, Nat.mod_eq_of_lt hlt]⟩

end Window

end OpenZL.Lib
