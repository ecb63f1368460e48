import OpenZL.Lib.LittleEndian
import OpenZL.Lib.Buffer
import OpenZL.Lib.OddPart
import Mathlib.Data.Nat.Bitwise

/-!
# The common beginning of two sequences

How far two sequences agree, how it is found a block at a time, and how the first difference of two
blocks of bytes shows as the lowest set bit of the exclusive or of their numbers.

Principal results: `take_commonPrefix`, `commonPrefix_append`, `lowestBit_xor`.
-/

namespace OpenZL.Lib

section Lists

variable {α : Type} [DecidableEq α]

/-- The number of leading elements that two lists share. -/
def commonPrefix : List α → List α → Nat
  | x :: xs, y :: ys => if x = y then commonPrefix xs ys + 1 else 0
  | _, _ => 0

@[simp] theorem commonPrefix_nil_left (ys : List α) : commonPrefix [] ys = 0 := by
  cases ys <;> rfl

@[simp] theorem commonPrefix_nil_right (xs : List α) : commonPrefix xs [] = 0 := by
  cases xs <;> rfl

theorem commonPrefix_comm (xs : List α) : ∀ ys : List α,
    commonPrefix xs ys = commonPrefix ys xs := by
  induction xs with
  | nil =>
    intro ys
    rw [commonPrefix_nil_left, commonPrefix_nil_right]
  | cons x xs ih =>
    intro ys
    cases ys with
    | nil => rfl
    | cons y ys => simp only [commonPrefix, ih ys, eq_comm]

theorem commonPrefix_le_left (xs : List α) : ∀ ys : List α, commonPrefix xs ys ≤ xs.length := by
  induction xs with
  | nil =>
    intro ys
    rw [commonPrefix_nil_left]
    exact Nat.zero_le _
  | cons x xs ih =>
    intro ys
    cases ys with
    | nil => exact Nat.zero_le _
    | cons y ys =>
      have := ih ys
      rw [commonPrefix, List.length_cons]
      split <;> omega

theorem commonPrefix_le_right (xs ys : List α) : commonPrefix xs ys ≤ ys.length := by
  rw [commonPrefix_comm]
  exact commonPrefix_le_left ys xs

theorem take_commonPrefix (xs : List α) : ∀ ys : List α,
    xs.take (commonPrefix xs ys) = ys.take (commonPrefix xs ys) := by
  induction xs with
  | nil =>
    intro ys
    rw [commonPrefix_nil_left, List.take_zero, List.take_zero]
  | cons x xs ih =>
    intro ys
    cases ys with
    | nil => rfl
    | cons y ys =>
      rw [commonPrefix]
      by_cases hxy : x = y
      · rw [if_pos hxy, List.take_succ_cons, List.take_succ_cons, hxy, ih ys]
      · rw [if_neg hxy, List.take_zero, List.take_zero]

theorem commonPrefix_append (as xs ys : List α) :
    commonPrefix (as ++ xs) (as ++ ys) = as.length + commonPrefix xs ys := by
  induction as with
  | nil => rw [List.nil_append, List.nil_append, List.length_nil, Nat.zero_add]
  | cons a as ih =>
    rw [List.cons_append, List.cons_append, commonPrefix, if_pos rfl, ih, List.length_cons]
    omega

theorem commonPrefix_append_of_ne {as : List α} : ∀ {bs : List α} (xs ys : List α),
    as.length = bs.length → as ≠ bs →
      commonPrefix (as ++ xs) (bs ++ ys) = commonPrefix as bs := by
  induction as with
  | nil =>
    intro bs xs ys hlen hne
    exact absurd (List.length_eq_zero_iff.1 hlen.symm).symm hne
  | cons a as ih =>
    intro bs xs ys hlen hne
    cases bs with
    | nil => cases hlen
    | cons b bs =>
      rw [List.cons_append, List.cons_append, commonPrefix, commonPrefix]
      by_cases hab : a = b
      · rw [if_pos hab, if_pos hab, ih _ _ (Nat.succ.inj hlen) fun h => hne (by rw [hab, h])]
      · rw [if_neg hab, if_neg hab]

theorem commonPrefix_lt {as bs : List α} (hlen : as.length = bs.length) (hne : as ≠ bs) :
    commonPrefix as bs < as.length := by
  refine Nat.lt_of_le_of_ne (commonPrefix_le_left as bs) fun h => hne ?_
  have htake := take_commonPrefix as bs
  rwa [h, List.take_length, hlen, List.take_length] at htake

theorem commonPrefix_take (n : Nat) : ∀ xs ys : List α,
    commonPrefix (xs.take n) (ys.take n) = min n (commonPrefix xs ys) := by
  induction n with
  | zero =>
    intro xs ys
    rw [List.take_zero, commonPrefix_nil_left, Nat.zero_min]
  | succ n ih =>
    intro xs ys
    cases xs with
    | nil => rw [List.take_nil, commonPrefix_nil_left, commonPrefix_nil_left, Nat.min_zero]
    | cons x xs =>
      cases ys with
      | nil => rw [List.take_nil, commonPrefix_nil_right, commonPrefix_nil_right, Nat.min_zero]
      | cons y ys =>
        rw [List.take_succ_cons, List.take_succ_cons, commonPrefix, commonPrefix, ih]
        split <;> omega

end Lists

section Blocks

variable {α : Type} [DecidableEq α] {buf : List α} {p q n : Nat}

theorem commonPrefix_drop_of_eq (hp : p + n ≤ buf.length)
    (h : Buffer.read buf p n = Buffer.read buf q n) :
    commonPrefix (buf.drop p) (buf.drop q) =
      n + commonPrefix (buf.drop (p + n)) (buf.drop (q + n)) := by
  rw [Buffer.drop_eq buf p n, Buffer.drop_eq buf q n, ← h, commonPrefix_append,
    Buffer.length_read hp]

theorem commonPrefix_drop_of_ne (hp : p + n ≤ buf.length) (hq : q + n ≤ buf.length)
    (h : Buffer.read buf p n ≠ Buffer.read buf q n) :
    commonPrefix (buf.drop p) (buf.drop q) =
      commonPrefix (Buffer.read buf p n) (Buffer.read buf q n) ∧
    commonPrefix (buf.drop p) (buf.drop q) < n := by
  have hlen : (Buffer.read buf p n).length = (Buffer.read buf q n).length := by
    rw [Buffer.length_read hp, Buffer.length_read hq]
  have hlt := commonPrefix_lt hlen h
  rw [Buffer.drop_eq buf p n, Buffer.drop_eq buf q n, commonPrefix_append_of_ne _ _ hlen h]
  rw [Buffer.length_read hp] at hlt
  exact ⟨rfl, hlt⟩

end Blocks

theorem ofLE_inj {as bs : List UInt8} (hlen : as.length = bs.length) (h : ofLE as = ofLE bs) :
    as = bs := by
  rw [← toLE_ofLE as, ← toLE_ofLE bs, hlen, h]

theorem testBit_ofLE_cons (b : UInt8) (bs : List UInt8) (i : Nat) :
    (ofLE (b :: bs)).testBit i = if i < 8 then b.toNat.testBit i else (ofLE bs).testBit (i - 8) := by
  rw [ofLE_cons, Nat.add_comm, show (256 : Nat) = 2 ^ 8 from rfl]
  exact Nat.testBit_two_pow_mul_add _ b.toNat_lt i

theorem exists_lowest_diff {a b : UInt8} (h : a ≠ b) :
    ∃ k, k < 8 ∧ a.toNat.testBit k ≠ b.toNat.testBit k ∧
      ∀ j, j < k → a.toNat.testBit j = b.toNat.testBit j := by
  have hex : ∃ k, a.toNat.testBit k ≠ b.toNat.testBit k := by
    by_contra hall
    exact h (UInt8.toNat_inj.1 (Nat.eq_of_testBit_eq fun i =>
      not_not.1 fun hi => hall ⟨i, hi⟩))
  refine ⟨Nat.find hex, ?_, Nat.find_spec hex, fun j hj => not_not.1 (Nat.find_min hex hj)⟩
  by_contra hge
  have ha : a.toNat.testBit (Nat.find hex) = false :=
    Nat.testBit_lt_two_pow (a.toNat_lt.trans_le (Nat.pow_le_pow_right Nat.two_pos (by omega)))
  have hb : b.toNat.testBit (Nat.find hex) = false :=
    Nat.testBit_lt_two_pow (b.toNat_lt.trans_le (Nat.pow_le_pow_right Nat.two_pos (by omega)))
  exact Nat.find_spec hex (ha.trans hb.symm)

/-- **The lowest bit in which two numbers differ** lies in the first byte in which they do. -/
theorem lowestBit_xor {as : List UInt8} : ∀ {bs : List UInt8}, as.length = bs.length → as ≠ bs →
    ∃ k, lowestBit (8 * as.length) (ofLE as ^^^ ofLE bs) = some k ∧
      k / 8 = commonPrefix as bs := by
  induction as with
  | nil =>
    intro bs hlen hne
    exact absurd (List.length_eq_zero_iff.1 hlen.symm).symm hne
  | cons a as ih =>
    intro bs hlen hne
    cases bs with
    | nil => cases hlen
    | cons b bs =>
      rw [commonPrefix]
      by_cases hab : a = b
      · obtain ⟨k, hk, hdiv⟩ := ih (Nat.succ.inj hlen) fun h => hne (by rw [hab, h])
        obtain ⟨hlt, hbit, hbelow⟩ := lowestBit_eq_some.1 hk
        refine ⟨k + 8, lowestBit_eq_some.2 ⟨?_, ?_, fun j hj => ?_⟩, ?_⟩
        · rw [List.length_cons]
          omega
        · rw [Nat.testBit_xor, testBit_ofLE_cons, testBit_ofLE_cons, if_neg (by omega),
            if_neg (by omega), Nat.add_sub_cancel, ← Nat.testBit_xor, hbit]
        · rw [Nat.testBit_xor, testBit_ofLE_cons, testBit_ofLE_cons]
          by_cases hlow : j < 8
          · rw [if_pos hlow, if_pos hlow, hab, Bool.xor_self]
          · rw [if_neg hlow, if_neg hlow, ← Nat.testBit_xor, hbelow _ (by omega)]
        · rw [if_pos hab, ← hdiv]
          omega
      · obtain ⟨k, hlt, hbit, hbelow⟩ := exists_lowest_diff hab
        refine ⟨k, lowestBit_eq_some.2 ⟨?_, ?_, fun j hj => ?_⟩, ?_⟩
        · rw [List.length_cons]
          omega
        · rw [Nat.testBit_xor, testBit_ofLE_cons, testBit_ofLE_cons, if_pos hlt, if_pos hlt]
          exact bne_iff_ne.2 hbit
        · rw [Nat.testBit_xor, testBit_ofLE_cons, testBit_ofLE_cons, if_pos (by omega),
            if_pos (by omega), hbelow j hj, Bool.xor_self]
        · rw [if_neg hab]
          omega

end OpenZL.Lib
