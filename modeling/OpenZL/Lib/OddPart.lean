import Mathlib.Data.Nat.Bitwise
import Mathlib.Data.Nat.GCD.Basic
import Mathlib.Tactic.Ring

/-!
# Trailing zeros, odd parts and exact division

A non-zero number is a power of two times an odd number.

Principal results: `two_pow_mul_oddPart`, `gcd_two_pow_mul`, `mul_inverse_shiftRight_mod`,
`mul_inverse_mod_shiftRight`.
-/

namespace OpenZL.Lib

/-- The lowest set bit among the first `n`. -/
def lowestBit (n x : Nat) : Option Nat := (List.range n).find? fun bit => x.testBit bit

theorem lowestBit_eq_some {n x k : Nat} :
    lowestBit n x = some k ↔ k < n ∧ x.testBit k = true ∧ ∀ j, j < k → x.testBit j = false := by
  rw [lowestBit, List.find?_range_eq_some]
  simp only [List.mem_range, Bool.not_eq_true']
  exact ⟨fun ⟨hk, hlt, hj⟩ => ⟨hlt, hk, hj⟩, fun ⟨hlt, hk, hj⟩ => ⟨hk, hlt, hj⟩⟩

/-- The number of zero bits below the lowest bit of a `w`-bit number, `w` for zero. -/
def ctz (w x : Nat) : Nat := (lowestBit w x).getD w

/-- A number without its trailing zeros. -/
def oddPart (w x : Nat) : Nat := x >>> ctz w x

variable {w x : Nat}

section

variable (hx : x ≠ 0) (hlt : x < 2 ^ w)

include hx hlt

theorem lowestBit_ctz : lowestBit w x = some (ctz w x) := by
  cases hfind : lowestBit w x with
  | some k => rw [ctz, hfind, Option.getD_some]
  | none =>
    obtain ⟨i, hi⟩ := Nat.exists_testBit_of_ne_zero hx
    rw [lowestBit, List.find?_eq_none] at hfind
    rcases Nat.lt_or_ge i w with hw | hw
    · exact absurd hi (hfind i (List.mem_range.2 hw))
    · rw [Nat.testBit_lt_two_pow (hlt.trans_le (Nat.pow_le_pow_right Nat.two_pos hw))] at hi
      exact absurd hi Bool.false_ne_true

theorem ctz_lt : ctz w x < w :=
  (lowestBit_eq_some.1 (lowestBit_ctz hx hlt)).1

theorem testBit_ctz : x.testBit (ctz w x) = true ∧ ∀ i < ctz w x, x.testBit i = false :=
  (lowestBit_eq_some.1 (lowestBit_ctz hx hlt)).2

/-- **A number** is a power of two times its odd part. -/
theorem two_pow_mul_oddPart : 2 ^ ctz w x * oddPart w x = x := by
  have hmod : x % 2 ^ ctz w x = 0 := by
    refine Nat.eq_of_testBit_eq fun i => ?_
    rw [Nat.testBit_mod_two_pow, Nat.zero_testBit]
    by_cases hi : i < ctz w x
    · rw [(testBit_ctz hx hlt).2 i hi, Bool.and_false]
    · rw [decide_eq_false hi, Bool.false_and]
  rw [oddPart, Nat.shiftRight_eq_div_pow, Nat.mul_div_cancel' (Nat.dvd_of_mod_eq_zero hmod)]

theorem two_pow_ctz_dvd : 2 ^ ctz w x ∣ x :=
  ⟨_, (two_pow_mul_oddPart hx hlt).symm⟩

theorem oddPart_odd : oddPart w x % 2 = 1 := by
  have hbit := (testBit_ctz hx hlt).1
  rw [Nat.testBit_eq_decide_div_mod_eq, decide_eq_true_eq] at hbit
  rwa [oddPart, Nat.shiftRight_eq_div_pow]

theorem oddPart_pos : 0 < oddPart w x := by
  have := oddPart_odd hx hlt
  omega

end

theorem oddPart_le (w x : Nat) : oddPart w x ≤ x := by
  rw [oddPart, Nat.shiftRight_eq_div_pow]
  exact Nat.div_le_self _ _

theorem coprime_two_pow_of_odd {a : Nat} (k : Nat) (ha : a % 2 = 1) : Nat.Coprime a (2 ^ k) := by
  refine Nat.Coprime.pow_right k ?_
  rw [Nat.coprime_comm, Nat.coprime_iff_gcd_eq_one, Nat.gcd_rec, ha, Nat.gcd_one_left]

theorem gcd_two_pow_mul_right {a : Nat} (k b : Nat) (ha : a % 2 = 1) :
    Nat.gcd a (2 ^ k * b) = Nat.gcd a b :=
  (coprime_two_pow_of_odd k ha).symm.gcd_mul_left_cancel_right b

/-- **Powers of two** in a greatest common divisor. -/
theorem gcd_two_pow_mul {a b : Nat} (i j : Nat) (ha : a % 2 = 1) (hb : b % 2 = 1) :
    Nat.gcd (2 ^ i * a) (2 ^ j * b) = Nat.gcd a b * 2 ^ min i j := by
  rcases Nat.le_total i j with hij | hij
  · rw [Nat.min_eq_left hij, ← Nat.add_sub_cancel' hij, Nat.pow_add, Nat.mul_assoc,
      Nat.gcd_mul_left, gcd_two_pow_mul_right _ _ ha, Nat.mul_comm]
  · rw [Nat.min_eq_right hij, ← Nat.add_sub_cancel' hij, Nat.pow_add, Nat.mul_assoc,
      Nat.gcd_mul_left, Nat.gcd_comm, gcd_two_pow_mul_right _ _ hb, Nat.gcd_comm, Nat.mul_comm]

theorem gcd_oddPart_sub {a b : Nat} (ha : a % 2 = 1) (hle : a < b) (hlt : b < 2 ^ w) :
    Nat.gcd a (oddPart w (b - a)) = Nat.gcd a b := by
  have hne : b - a ≠ 0 := by omega
  rw [← gcd_two_pow_mul_right (ctz w (b - a)) _ ha, two_pow_mul_oddPart hne (by omega),
    Nat.gcd_sub_self_right (by omega)]

theorem mul_inverse_eq (q s odd inverse : Nat) :
    q * (2 ^ s * odd) * inverse = q * (inverse * odd) * 2 ^ s := by ring

theorem mul_inverse_shiftRight_mod {odd inverse : Nat} (q s : Nat)
    (hinverse : inverse * odd % 2 ^ w = 1 % 2 ^ w) :
    (q * (2 ^ s * odd) * inverse) >>> s % 2 ^ w = q % 2 ^ w := by
  rw [mul_inverse_eq, Nat.shiftRight_eq_div_pow, Nat.mul_div_cancel _ (Nat.two_pow_pos s),
    Nat.mul_mod, hinverse, ← Nat.mul_mod, Nat.mul_one]

theorem mul_inverse_mod_shiftRight {odd inverse q s : Nat}
    (hinverse : inverse * odd % 2 ^ w = 1 % 2 ^ w) (hlt : q * 2 ^ s < 2 ^ w) :
    (q * (2 ^ s * odd) * inverse % 2 ^ w) >>> s = q := by
  have hprod : q * (2 ^ s * odd) * inverse % 2 ^ w = q * 2 ^ s := by
    rw [mul_inverse_eq, Nat.mul_right_comm, Nat.mul_mod, hinverse, ← Nat.mul_mod, Nat.mul_one,
      Nat.mod_eq_of_lt hlt]
  rw [hprod, Nat.shiftRight_eq_div_pow, Nat.mul_div_cancel _ (Nat.two_pow_pos s)]

end OpenZL.Lib
