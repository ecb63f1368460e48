import Mathlib.Algebra.Order.Ring.Nat
import Mathlib.Data.List.Basic
import Mathlib.Data.List.Induction
import Mathlib.Tactic.Ring

/-!
# Decimal strings

A natural number and its decimal digits as bytes, most significant first: without leading zeros
(`ofNat`), and in a field of fixed width (`pad`).

Principal results: `value_ofNat`, `ofNat_value`, `length_ofNat_eq`, `pad_add`, `drop_pad`,
`ofInt_eq_iff`.
-/

namespace OpenZL.Lib.Decimal

/-- The byte of a digit. -/
def digit (d : Nat) : UInt8 := UInt8.ofNat (48 + d)

/-- The byte of the minus sign. -/
def MINUS : UInt8 := 45

/-- The byte is that of a digit. -/
def isDigit (b : UInt8) : Bool := 48 ≤ b.toNat && b.toNat ≤ 57

/-- The number a string of digits stands for, after the number `acc`. -/
def valueFrom (acc : Nat) (s : List UInt8) : Nat :=
  s.foldl (fun acc b => acc * 10 + (b.toNat - 48)) acc

/-- The number a string of digits stands for. -/
def value (s : List UInt8) : Nat := valueFrom 0 s

/-- The digits of a number. -/
def ofNat (n : Nat) : List UInt8 :=
  if n < 10 then [digit n] else ofNat (n / 10) ++ [digit (n % 10)]
termination_by n

/-- The last `k` digits of a number. -/
def pad : Nat → Nat → List UInt8
  | 0, _ => []
  | k + 1, n => pad k (n / 10) ++ [digit (n % 10)]

/-- The string of an integer. -/
def ofInt (v : Int) : List UInt8 := if v < 0 then MINUS :: ofNat v.natAbs else ofNat v.natAbs

theorem toNat_digit {d : Nat} (h : d < 10) : (digit d).toNat = 48 + d := by
  rw [digit, UInt8.toNat_ofNat']
  omega

theorem isDigit_iff (b : UInt8) : isDigit b = true ↔ 48 ≤ b.toNat ∧ b.toNat ≤ 57 := by
  rw [isDigit, Bool.and_eq_true, decide_eq_true_iff, decide_eq_true_iff]

theorem isDigit_digit {d : Nat} (h : d < 10) : isDigit (digit d) = true := by
  rw [isDigit_iff, toNat_digit h]
  omega

theorem digit_of_isDigit {b : UInt8} (h : isDigit b = true) : digit (b.toNat - 48) = b := by
  rw [isDigit_iff] at h
  apply UInt8.toNat_inj.1
  rw [toNat_digit (by omega)]
  omega

theorem isDigit_ofNat (n : Nat) : ∀ b ∈ ofNat n, isDigit b = true := by
  induction n using ofNat.induct with
  | case1 n h =>
    rw [ofNat, if_pos h]
    exact List.forall_mem_singleton.2 (isDigit_digit h)
  | case2 n h ih =>
    rw [ofNat, if_neg h]
    exact List.forall_mem_append.2
      ⟨ih, List.forall_mem_singleton.2 (isDigit_digit (Nat.mod_lt n (by decide)))⟩

theorem ofNat_ne_nil (n : Nat) : ofNat n ≠ [] := by
  rw [ofNat]
  split
  · exact List.cons_ne_nil _ _
  · exact List.append_ne_nil_of_right_ne_nil _ (List.cons_ne_nil _ _)

theorem head_ofNat {n : Nat} (h : n ≠ 0) : ∃ d s, ofNat n = digit d :: s ∧ 0 < d ∧ d < 10 := by
  induction n using ofNat.induct with
  | case1 n hlt =>
    rw [ofNat, if_pos hlt]
    exact ⟨n, [], rfl, Nat.pos_of_ne_zero h, hlt⟩
  | case2 n hlt ih =>
    obtain ⟨d, s, hs, hd⟩ := ih (by omega)
    rw [ofNat, if_neg hlt, hs]
    exact ⟨d, s ++ [digit (n % 10)], rfl, hd⟩

theorem valueFrom_append (acc : Nat) (s t : List UInt8) :
    valueFrom acc (s ++ t) = valueFrom (valueFrom acc s) t :=
  List.foldl_append

theorem valueFrom_eq (acc : Nat) (s : List UInt8) :
    valueFrom acc s = acc * 10 ^ s.length + value s := by
  induction s generalizing acc with
  | nil => rw [List.length_nil, Nat.pow_zero, Nat.mul_one]; rfl
  | cons b s ih =>
    have hcons : ∀ acc, valueFrom acc (b :: s) = valueFrom (acc * 10 + (b.toNat - 48)) s :=
      fun _ => rfl
    rw [value, hcons, hcons, ih, ih (0 * 10 + (b.toNat - 48)), List.length_cons, Nat.pow_succ]
    ring

theorem value_concat (s : List UInt8) (b : UInt8) :
    value (s ++ [b]) = value s * 10 + (b.toNat - 48) :=
  valueFrom_append 0 s [b]

theorem value_digit {d : Nat} (h : d < 10) : value [digit d] = d := by
  have hvalue : value [digit d] = 0 * 10 + ((digit d).toNat - 48) := rfl
  rw [hvalue, toNat_digit h]
  omega

/-- **The digits of a number stand for it.** -/
theorem value_ofNat (n : Nat) : value (ofNat n) = n := by
  induction n using ofNat.induct with
  | case1 n h => rw [ofNat, if_pos h, value_digit h]
  | case2 n h ih =>
    rw [ofNat, if_neg h, value_concat, ih, toNat_digit (Nat.mod_lt n (by decide))]
    omega

theorem ofNat_inj {m n : Nat} (h : ofNat m = ofNat n) : m = n := by
  rw [← value_ofNat m, h, value_ofNat]

theorem value_lt (s : List UInt8) (h : ∀ b ∈ s, isDigit b = true) : value s < 10 ^ s.length := by
  induction s using List.reverseRec with
  | nil => exact Nat.one_pos
  | append_singleton s b ih =>
    rw [List.forall_mem_append, List.forall_mem_singleton, isDigit_iff] at h
    have := ih h.1
    rw [value_concat, List.length_append, List.length_singleton, Nat.pow_succ]
    omega

theorem le_value {s : List UInt8} {b : UInt8} (h : 48 < b.toNat) :
    10 ^ s.length ≤ value (b :: s) := by
  have hcons : value (b :: s) = valueFrom (0 * 10 + (b.toNat - 48)) s := rfl
  rw [hcons, valueFrom_eq]
  have := Nat.mul_le_mul_right (10 ^ s.length) (show 1 ≤ 0 * 10 + (b.toNat - 48) by omega)
  omega

/-- **A string without leading zeros is that of its value.** -/
theorem ofNat_value {b : UInt8} {s : List UInt8} (h : ∀ c ∈ b :: s, isDigit c = true)
    (hb : 48 < b.toNat) : ofNat (value (b :: s)) = b :: s := by
  induction s using List.reverseRec with
  | nil =>
    rw [List.forall_mem_singleton] at h
    have hd := digit_of_isDigit h
    rw [isDigit_iff] at h
    have hvalue : value [b] = b.toNat - 48 := by
      rw [← List.nil_append [b], value_concat]
      exact Nat.zero_add _
    rw [hvalue, ofNat, if_pos (by omega), hd]
  | append_singleton s c ih =>
    rw [← List.cons_append, List.forall_mem_append, List.forall_mem_singleton] at h
    have hc := digit_of_isDigit h.2
    have hge := @le_value s b hb
    have hpos : 0 < 10 ^ s.length := Nat.pow_pos (by decide)
    have hdigit := (isDigit_iff c).1 h.2
    rw [← List.cons_append, value_concat, ofNat, if_neg (by omega)]
    rw [show (value (b :: s) * 10 + (c.toNat - 48)) / 10 = value (b :: s) by omega,
      show (value (b :: s) * 10 + (c.toNat - 48)) % 10 = c.toNat - 48 by omega, hc, ih h.1]

/-- **The number of digits.** -/
theorem length_ofNat_eq {n k : Nat} (hlow : 10 ^ k ≤ n) (hhigh : n < 10 ^ (k + 1)) :
    (ofNat n).length = k + 1 := by
  induction k generalizing n with
  | zero =>
    rw [ofNat, if_pos (by omega)]
    rfl
  | succ k ih =>
    rw [Nat.pow_succ] at hlow
    rw [Nat.pow_succ, Nat.pow_succ] at hhigh
    rw [Nat.pow_succ] at ih
    rw [ofNat, if_neg (by omega), List.length_append, ih (by omega) (by omega)]
    rfl

theorem length_ofNat_le {n k : Nat} (hk : 0 < k) (h : n < 10 ^ k) : (ofNat n).length ≤ k := by
  by_cases hzero : n = 0
  · rw [hzero, ofNat, if_pos (by decide)]
    exact hk
  · obtain ⟨d, s, hs, hd, hd'⟩ := head_ofNat hzero
    have hge := @le_value s (digit d) (by rw [toNat_digit hd']; omega)
    rw [← hs, value_ofNat] at hge
    have hlt := (Nat.pow_lt_pow_iff_right (show 1 < 10 by decide)).1 (Nat.lt_of_le_of_lt hge h)
    rw [hs, List.length_cons]
    exact hlt

@[simp] theorem length_pad (k n : Nat) : (pad k n).length = k := by
  induction k generalizing n with
  | zero => rfl
  | succ k ih => rw [pad, List.length_append, ih, List.length_singleton]

/-- **A field splits** into the digits above and below a place. -/
theorem pad_add (j k n : Nat) : pad (j + k) n = pad j (n / 10 ^ k) ++ pad k n := by
  induction k generalizing n with
  | zero => rw [Nat.pow_zero, Nat.div_one, pad, List.append_nil, Nat.add_zero]
  | succ k ih =>
    rw [← Nat.add_assoc, pad, ih, pad, Nat.div_div_eq_div_mul, Nat.pow_succ', List.append_assoc]

theorem pad_mod (k n : Nat) : pad k (n % 10 ^ k) = pad k n := by
  induction k generalizing n with
  | zero => rfl
  | succ k ih =>
    rw [pad, pad, Nat.pow_succ', Nat.mod_mul_right_div_self, ih, Nat.mod_mul_right_mod]

/-- **A field ends in the digits of the number**, where it has room for them. -/
theorem drop_pad {n k : Nat} (h : (ofNat n).length ≤ k) :
    (pad k n).drop (k - (ofNat n).length) = ofNat n := by
  induction k generalizing n with
  | zero => exact absurd (List.length_pos_of_ne_nil (ofNat_ne_nil n)) (by omega)
  | succ k ih =>
    rw [ofNat] at h ⊢
    split at h
    · rename_i hlt
      rw [if_pos hlt, List.length_singleton, Nat.add_sub_cancel, pad,
        List.drop_left' (length_pad _ _), Nat.mod_eq_of_lt hlt]
    · rename_i hge
      rw [List.length_append, List.length_singleton] at h
      rw [if_neg hge, List.length_append, List.length_singleton, Nat.add_sub_add_right, pad,
        List.drop_append_of_le_length (by rw [length_pad]; omega), ih (by omega)]

theorem digit_ne_minus {b : UInt8} (h : isDigit b = true) : b ≠ MINUS := by
  rintro rfl
  exact absurd h (by decide)

theorem length_ofInt (v : Int) :
    (ofInt v).length = (ofNat v.natAbs).length + if v < 0 then 1 else 0 := by
  rw [ofInt]
  split <;> rfl

theorem ofNat_ne_minus (n : Nat) (s : List UInt8) : ofNat n ≠ MINUS :: s := fun heq =>
  digit_ne_minus (isDigit_ofNat n MINUS (heq ▸ List.mem_cons_self)) rfl

theorem ofInt_eq_minus_iff (v : Int) (s : List UInt8) :
    ofInt v = MINUS :: s ↔ v < 0 ∧ ofNat v.natAbs = s := by
  rw [ofInt]
  split
  · rename_i h
    exact ⟨fun heq => ⟨h, (List.cons.inj heq).2⟩, fun heq => by rw [heq.2]⟩
  · rename_i h
    exact ⟨fun heq => absurd heq (ofNat_ne_minus _ _), fun heq => absurd heq.1 h⟩

theorem ofInt_eq_iff {b : UInt8} (hb : b ≠ MINUS) (v : Int) (s : List UInt8) :
    ofInt v = b :: s ↔ 0 ≤ v ∧ ofNat v.natAbs = b :: s := by
  rw [ofInt]
  split
  · rename_i h
    refine ⟨fun heq => absurd (List.cons.inj heq).1.symm hb, fun heq => ?_⟩
    exact absurd heq.1 (Int.not_le.2 h)
  · rename_i h
    exact ⟨fun heq => ⟨Int.not_lt.1 h, heq⟩, fun heq => heq.2⟩

theorem ofInt_ne_nil (v : Int) : ofInt v ≠ [] := by
  rw [ofInt]
  split
  · exact List.cons_ne_nil _ _
  · exact ofNat_ne_nil _

end OpenZL.Lib.Decimal
