import Mathlib.Data.Nat.Digits.Lemmas
import Mathlib.Tactic.Ring

/-!
# Little-endian numbers and fixed-width fields

Two readings of a natural number that binary formats mix freely:

Principal results: `ofLE_toLE`, `toLE_ofLE`, `toLE_add`, `fields_ofDigits`, `fields_add_mul`.
-/

namespace OpenZL.Lib

/-- The number whose base-256 digits are the bytes, least significant first. -/
def ofLE (bs : List UInt8) : Nat := Nat.ofDigits 256 (bs.map UInt8.toNat)

/-- The `k` low bytes of `n`, least significant first. -/
def toLE : Nat → Nat → List UInt8
  | 0, _ => []
  | k + 1, n => UInt8.ofNat n :: toLE k (n / 256)

@[simp] theorem ofLE_nil : ofLE [] = 0 := rfl

@[simp] theorem ofLE_cons (b : UInt8) (bs : List UInt8) :
    ofLE (b :: bs) = b.toNat + 256 * ofLE bs := by
  simp [ofLE, Nat.ofDigits_cons]

theorem ofLE_append (as bs : List UInt8) :
    ofLE (as ++ bs) = ofLE as + 256 ^ as.length * ofLE bs := by
  simp [ofLE, Nat.ofDigits_append]

theorem ofLE_lt (bs : List UInt8) : ofLE bs < 256 ^ bs.length := by
  have h := Nat.ofDigits_lt_base_pow_length (b := 256) (l := bs.map UInt8.toNat) (by norm_num)
    (by
      intro x hx
      obtain ⟨b, -, rfl⟩ := List.mem_map.1 hx
      exact b.toNat_lt)
  simpa [ofLE] using h

@[simp] theorem length_toLE (k n : Nat) : (toLE k n).length = k := by
  induction k generalizing n with
  | zero => rfl
  | succ k ih => simp [toLE, ih]

theorem ofLE_toLE (k n : Nat) : ofLE (toLE k n) = n % 256 ^ k := by
  induction k generalizing n with
  | zero => simp [toLE, Nat.mod_one]
  | succ k ih =>
    have h : n % (256 * 256 ^ k) = n % 256 + 256 * (n / 256 % 256 ^ k) := Nat.mod_mul
    rw [toLE, ofLE_cons, ih, UInt8.toNat_ofNat', Nat.pow_succ' (n := k), h]

theorem toLE_ofLE (bs : List UInt8) : toLE bs.length (ofLE bs) = bs := by
  induction bs with
  | nil => rfl
  | cons b bs ih =>
    have hb := b.toNat_lt
    have hdiv : (b.toNat + 256 * ofLE bs) / 256 = ofLE bs := by omega
    have hmod : UInt8.ofNat (b.toNat + 256 * ofLE bs) = b := by
      apply UInt8.toNat_inj.1
      rw [UInt8.toNat_ofNat']
      omega
    simp only [List.length_cons, toLE, ofLE_cons, hdiv, hmod, ih]

theorem toLE_add (j k n : Nat) : toLE (j + k) n = toLE j n ++ toLE k (n / 256 ^ j) := by
  induction j generalizing n with
  | zero => simp [toLE]
  | succ j ih =>
    rw [Nat.add_right_comm, toLE, ih, toLE, List.cons_append, Nat.div_div_eq_div_mul,
      Nat.pow_succ']

theorem toLE_mod (k n : Nat) : toLE k (n % 256 ^ k) = toLE k n := by
  have h := toLE_ofLE (toLE k n)
  rwa [ofLE_toLE, length_toLE] at h

theorem ofLE_toLE_append_mod (k n : Nat) (rest : List UInt8) :
    ofLE (toLE k n ++ rest) % 256 ^ k = n % 256 ^ k := by
  rw [ofLE_append, length_toLE, ofLE_toLE, Nat.add_mul_mod_self_left, Nat.mod_mod]

theorem pow256 (k : Nat) : 256 ^ k = 2 ^ (8 * k) := by
  rw [show (256 : Nat) = 2 ^ 8 from rfl, ← Nat.pow_mul]

theorem ofLE_take (ip : List UInt8) (k : Nat) : ofLE (ip.take k) = ofLE ip % 256 ^ k := by
  by_cases hk : k ≤ ip.length
  · have h := ofLE_append (ip.take k) (ip.drop k)
    have hlt := ofLE_lt (ip.take k)
    rw [List.length_take, Nat.min_eq_left hk] at h hlt
    rw [List.take_append_drop] at h
    rw [h, Nat.add_mul_mod_self_left, Nat.mod_eq_of_lt hlt]
  · rw [List.take_of_length_le (by omega), Nat.mod_eq_of_lt]
    exact (ofLE_lt ip).trans_le (Nat.pow_le_pow_right (by norm_num) (by omega))

theorem ofLE_drop (ip : List UInt8) (k : Nat) : ofLE (ip.drop k) = ofLE ip / 256 ^ k := by
  by_cases hk : k ≤ ip.length
  · have h := ofLE_append (ip.take k) (ip.drop k)
    have hlt := ofLE_lt (ip.take k)
    rw [List.length_take, Nat.min_eq_left hk] at h hlt
    rw [List.take_append_drop] at h
    rw [h, Nat.add_mul_div_left _ _ (by positivity), Nat.div_eq_of_lt hlt, Nat.zero_add]
  · rw [List.drop_eq_nil_of_le (by omega), ofLE_nil, Nat.div_eq_of_lt]
    exact (ofLE_lt ip).trans_le (Nat.pow_le_pow_right (by norm_num) (by omega))

theorem or_shiftLeft {acc b : Nat} (h : acc < 2 ^ b) (v : Nat) :
    acc ||| v <<< b = acc + 2 ^ b * v := by
  rw [Nat.or_comm, ← Nat.shiftLeft_add_eq_or_of_lt h, Nat.shiftLeft_eq]
  ring

theorem add_mul_lt {acc b w v : Nat} (h : acc < 2 ^ b) (hv : v < 2 ^ w) :
    acc + 2 ^ b * v < 2 ^ (b + w) := by
  calc acc + 2 ^ b * v < 2 ^ b + 2 ^ b * v := by omega
    _ = 2 ^ b * (v + 1) := by ring
    _ ≤ 2 ^ b * 2 ^ w := Nat.mul_le_mul_left _ hv
    _ = 2 ^ (b + w) := (Nat.pow_add 2 b w).symm

theorem add_ofDigits_cons (acc b w v : Nat) (vs : List Nat) :
    acc + 2 ^ b * Nat.ofDigits (2 ^ w) (v :: vs) =
      acc + 2 ^ b * v + 2 ^ (b + w) * Nat.ofDigits (2 ^ w) vs := by
  rw [Nat.ofDigits_cons, Nat.pow_add]
  ring

theorem add_ofDigits_append (acc b w : Nat) (us vs : List Nat) :
    acc + 2 ^ b * Nat.ofDigits (2 ^ w) (us ++ vs) =
      acc + 2 ^ b * Nat.ofDigits (2 ^ w) us +
        2 ^ (b + us.length * w) * Nat.ofDigits (2 ^ w) vs := by
  rw [Nat.ofDigits_append, ← Nat.pow_mul, Nat.mul_comm w, Nat.pow_add]
  ring

theorem foldr_bits {vs : List Nat} (h : ∀ v ∈ vs, v < 2) (hlen : vs.length ≤ 64) :
    vs.foldr (fun v acc => (acc <<< 1) % 2 ^ 64 + v) 0 = Nat.ofDigits 2 vs := by
  induction vs with
  | nil => rfl
  | cons v vs ih =>
    have ih := ih (fun x hx => h x (List.mem_cons_of_mem _ hx)) (by simp at hlen; omega)
    have hlt : Nat.ofDigits 2 vs < 2 ^ vs.length :=
      Nat.ofDigits_lt_base_pow_length (by norm_num) fun x hx => h x (List.mem_cons_of_mem _ hx)
    have hpow : 2 ^ vs.length ≤ 2 ^ 63 :=
      Nat.pow_le_pow_right (by norm_num) (by simp at hlen; omega)
    rw [List.foldr_cons, ih, Nat.ofDigits_cons, Nat.shiftLeft_eq, Nat.mod_eq_of_lt (by omega)]
    ring

/-- The `n` lowest fields of `w` bits of `N`, least significant first. -/
def fields (w : Nat) : Nat → Nat → List Nat
  | 0, _ => []
  | n + 1, N => N % 2 ^ w :: fields w n (N / 2 ^ w)

@[simp] theorem length_fields (w n N : Nat) : (fields w n N).length = n := by
  induction n generalizing N with
  | zero => rfl
  | succ n ih => simp [fields, ih]

theorem lt_of_mem_fields {w n N x : Nat} (h : x ∈ fields w n N) : x < 2 ^ w := by
  induction n generalizing N with
  | zero => simp [fields] at h
  | succ n ih =>
    rcases List.mem_cons.1 h with rfl | h
    · exact Nat.mod_lt _ (by positivity)
    · exact ih h

theorem fields_zero_width (n N : Nat) : fields 0 n N = List.replicate n 0 := by
  induction n generalizing N with
  | zero => rfl
  | succ n ih => simp [fields, ih, List.replicate_succ, Nat.mod_one]

theorem fields_add_mul (w n N M : Nat) : fields w n (N + 2 ^ (w * n) * M) = fields w n N := by
  induction n generalizing N with
  | zero => rfl
  | succ n ih =>
    have hsplit : 2 ^ (w * (n + 1)) * M = 2 ^ w * (2 ^ (w * n) * M) := by
      rw [Nat.mul_succ, Nat.pow_add]
      ring
    rw [fields, fields, hsplit, Nat.add_mul_mod_self_left,
      Nat.add_mul_div_left _ _ (by positivity), ih]

theorem fields_mod (w n N : Nat) : fields w n (N % 2 ^ (w * n)) = fields w n N := by
  conv_rhs => rw [← Nat.mod_add_div N (2 ^ (w * n))]
  rw [fields_add_mul]

theorem fields_mod_of_le {w n X m : Nat} (h : w * n ≤ m) :
    fields w n (X % 2 ^ m) = fields w n X := by
  rw [← fields_mod, Nat.mod_mod_of_dvd _ (Nat.pow_dvd_pow 2 h), fields_mod]

theorem fields_ofDigits {w : Nat} {vs : List Nat} (h : ∀ v ∈ vs, v < 2 ^ w) :
    fields w vs.length (Nat.ofDigits (2 ^ w) vs) = vs := by
  induction vs with
  | nil => rfl
  | cons v vs ih =>
    have hv := h v (by simp)
    rw [List.length_cons, fields, Nat.ofDigits_cons, Nat.add_mul_mod_self_left,
      Nat.mod_eq_of_lt hv, Nat.add_mul_div_left _ _ (by positivity), Nat.div_eq_of_lt hv,
      Nat.zero_add, ih fun x hx => h x (List.mem_cons_of_mem _ hx)]

theorem fields_append (w m n N : Nat) :
    fields w (m + n) N = fields w m N ++ fields w n (N / 2 ^ (w * m)) := by
  induction m generalizing N with
  | zero => simp [fields]
  | succ m ih =>
    rw [Nat.add_right_comm, fields, ih, fields, List.cons_append, Nat.div_div_eq_div_mul,
      ← Nat.pow_add, Nat.mul_succ, Nat.add_comm w]

end OpenZL.Lib
