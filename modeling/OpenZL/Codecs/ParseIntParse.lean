import Mathlib.Data.FinEnum
import Mathlib.Tactic.IntervalCases
import OpenZL.Codecs.ParseInt

/-!
# The parsers of parse_int take canonical decimals

Both parsers find the value of the digits, where these are digits and their value has 64 bits, so
they give one result, and it is an integer exactly for its own string.

Principal results: `fallbackFrom_eq`, `avxDigits_eq`, `parseInt64With_spec`, `parseInt_spec`.
-/

namespace OpenZL.Codecs.ParseInt

open OpenZL.Lib OpenZL.Lib.Simd

/-- The integer fits an `int64_t`. -/
def InRange (v : Int) : Prop := -2 ^ 63 ≤ v ∧ v < 2 ^ 63

/-- The value of a string of digits, where it fits a `uint64_t`. -/
def digitsOf (str : List UInt8) : Option Nat :=
  if (∀ b ∈ str, Decimal.isDigit b = true) ∧ Decimal.value str < 2 ^ 64 then
    some (Decimal.value str)
  else none

theorem char_digit_iff (c : UInt8) : ¬ (char c < 48 ∨ char c > 57) ↔ Decimal.isDigit c = true := by
  have hlt := c.toNat_lt
  rw [Decimal.isDigit_iff, char]
  split <;> omega

theorem toInt_toInt8 (b : UInt8) : b.toInt8.toInt = char b := by
  have hcond := BitVec.toInt_eq_toNat_cond b.toBitVec
  rw [char]
  change b.toInt8.toInt = if 2 * b.toNat < 2 ^ 8 then _ else _ at hcond
  rw [hcond]
  split <;> split <;> first | rfl | omega

theorem char_of_isDigit {c : UInt8} (h : Decimal.isDigit c = true) :
    (char c - 48).toNat = c.toNat - 48 := by
  rw [Decimal.isDigit_iff] at h
  rw [char, if_pos (by omega)]
  omega

theorem le_valueFrom (acc : Nat) (str : List UInt8) : acc ≤ Decimal.valueFrom acc str := by
  rw [Decimal.valueFrom_eq]
  have := Nat.mul_le_mul_left acc (show 1 ≤ 10 ^ str.length from Nat.pow_pos (by decide))
  omega

/-- **The portable loop** finds the value of digits. -/
theorem fallbackFrom_eq : ∀ (str : List UInt8) (uresult : Nat), uresult < 2 ^ 64 →
    fallbackFrom str uresult =
      if (∀ b ∈ str, Decimal.isDigit b = true) ∧ Decimal.valueFrom uresult str < 2 ^ 64 then
        some (Decimal.valueFrom uresult str)
      else none
  | [], uresult, h => by
      rw [if_pos ⟨nofun, h⟩]
      rfl
  | c :: str, uresult, h => by
      have hcons : Decimal.valueFrom uresult (c :: str) =
          Decimal.valueFrom (uresult * 10 + (c.toNat - 48)) str := rfl
      rw [fallbackFrom, hcons]
      by_cases hdigit : Decimal.isDigit c = true
      · have hbound := (Decimal.isDigit_iff c).1 hdigit
        rw [if_neg ((char_digit_iff c).2 hdigit)]
        rw [char_of_isDigit hdigit]
        by_cases hlt : uresult * 10 + (c.toNat - 48) < 2 ^ 64
        · rw [Nat.mod_eq_of_lt (show uresult * 10 < 2 ^ 64 by omega), if_neg (by omega),
            Nat.mod_eq_of_lt hlt, fallbackFrom_eq str _ hlt]
          refine if_congr ?_ rfl rfl
          rw [List.forall_mem_cons]
          exact ⟨fun h => ⟨⟨hdigit, h.1⟩, h.2⟩, fun h => ⟨h.1.2, h.2⟩⟩
        · have hge := le_valueFrom (uresult * 10 + (c.toNat - 48)) str
          rw [if_pos (by omega), if_neg (fun h => by have := h.2; omega)]
      · rw [if_pos (Decidable.not_not.1 fun h => hdigit ((char_digit_iff c).1 h)),
          if_neg (fun h => hdigit (h.1 c List.mem_cons_self))]

theorem fallback_digitsOf (str : List UInt8) : fallbackFrom str 0 = digitsOf str :=
  fallbackFrom_eq str 0 (by decide)

theorem kLookup_getD {u d : Nat} (hu : u < 4) (hd : d < 10) :
    (kLookup.getD u []).getD d 0 = d * 10 ^ (3 - u) := by
  interval_cases u <;> interval_cases d <;> rfl

theorem sumOf_eq {a b c d : UInt8} (ha : a.toNat < 10) (hb : b.toNat < 10) (hc : c.toNat < 10)
    (hd : d.toNat < 10) :
    sumOf a b c d = a.toNat * 1000 + b.toNat * 100 + c.toNat * 10 + d.toNat := by
  rw [sumOf, kLookup_getD (by decide) ha, kLookup_getD (by decide) hb, kLookup_getD (by decide) hc,
    kLookup_getD (by decide) hd, Nat.pow_zero, Nat.mul_one]
  rfl

theorem overflowAccumulate_eq {result add : Nat} (hresult : result < 2 ^ 64) (hadd : add < 10000) :
    overflowAccumulate result add =
      if result * 10000 + add < 2 ^ 64 then some (result * 10000 + add) else none := by
  rw [overflowAccumulate]
  by_cases hbig : result > (2 ^ 64 - 1) / 10000
  · rw [if_pos hbig, if_neg (by omega)]
  · have hlt : result * 10000 < 2 ^ 64 := by omega
    rw [if_neg hbig]
    dsimp only
    rw [Nat.mod_eq_of_lt hlt]
    by_cases hsum : result * 10000 + add < 2 ^ 64
    · rw [Nat.mod_eq_of_lt hsum, if_neg (by omega), if_pos hsum]
    · rw [if_pos (by omega), if_neg hsum]

/-! ## Digits as bytes -/

/-- The value of a list of digits, each the number of a byte. -/
def ofBytes (acc : Nat) (src : List UInt8) : Nat := src.foldl (fun acc d => acc * 10 + d.toNat) acc

theorem accumulate_eq : ∀ (n : Nat) (src : List UInt8) (uresult : Nat), src.length = 4 * (n + 1) →
    n ≤ 4 → uresult < 10 ^ (16 - 4 * n) → (∀ b ∈ src, b.toNat < 10) →
    accumulate src uresult =
      some (if ofBytes uresult src < 2 ^ 64 then some (ofBytes uresult src) else none) := by
  intro n
  induction n with
  | zero =>
    intro src uresult hlen _ hlt hsrc
    obtain ⟨a, b, c, d, rfl⟩ := List.length_eq_four.1 hlen
    simp only [List.forall_mem_cons] at hsrc
    obtain ⟨ha, hb, hc, hd, -⟩ := hsrc
    have hvalue : ofBytes uresult [a, b, c, d] = uresult * 10000 +
        (a.toNat * 1000 + b.toNat * 100 + c.toNat * 10 + d.toNat) := by
      simp only [ofBytes, List.foldl_cons, List.foldl_nil]
      omega
    have hsmall : (10 : Nat) ^ (16 - 4 * 0) < 2 ^ 64 := by decide
    rw [accumulate, if_pos ⟨ha, hb, hc, hd⟩, if_pos rfl, sumOf_eq ha hb hc hd,
      overflowAccumulate_eq (by omega) (by omega), hvalue]
  | succ n ih =>
    intro src uresult hlen hn hlt hsrc
    match src, hlen, hsrc with
    | a :: b :: c :: d :: src, hlen, hsrc =>
      simp only [List.length_cons] at hlen
      simp only [List.forall_mem_cons] at hsrc
      obtain ⟨ha, hb, hc, hd, hsrc⟩ := hsrc
      have hvalue : ofBytes uresult (a :: b :: c :: d :: src) = ofBytes (uresult * 10000 +
          (a.toNat * 1000 + b.toNat * 100 + c.toNat * 10 + d.toNat)) src := by
        simp only [ofBytes, List.foldl_cons]
        congr 1
        omega
      have hpow : (10 : Nat) ^ (16 - 4 * n) = 10 ^ (16 - 4 * (n + 1)) * 10000 := by
        rw [show 16 - 4 * n = 16 - 4 * (n + 1) + 4 by omega, Nat.pow_add]
      have hnext : uresult * 10000 +
          (a.toNat * 1000 + b.toNat * 100 + c.toNat * 10 + d.toNat) < 10 ^ (16 - 4 * n) := by
        omega
      have hsmall : (10 : Nat) ^ (16 - 4 * n) ≤ 10 ^ 16 :=
        Nat.pow_le_pow_right (by decide) (Nat.sub_le 16 _)
      have hne : src ≠ [] := fun hnil => by
        rw [hnil, List.length_nil] at hlen
        omega
      rw [accumulate, if_pos ⟨ha, hb, hc, hd⟩, if_neg hne, sumOf_eq ha hb hc hd,
        Nat.mod_eq_of_lt (by omega), hvalue]
      exact ih src _ (by omega) (by omega) hnext hsrc

theorem zipWith_replicate {α β γ : Type} (f : α → β → γ) (y : β) : ∀ {xs : List α} {n : Nat},
    xs.length = n → List.zipWith f xs (List.replicate n y) = xs.map fun x => f x y
  | [], _, h => by rw [← h]; rfl
  | x :: xs, n, h => by
      subst h
      rw [List.length_cons, List.replicate_succ, List.zipWith_cons_cons, zipWith_replicate f y rfl,
        List.map_cons]

theorem andSi_kNonZeroMask {front back : List UInt8} (h : front.length = 32 - back.length) :
    andSi (front ++ back) (kNonZeroMask back.length) =
      List.replicate (32 - back.length) 0 ++ back := by
  rw [andSi, kNonZeroMask, List.zipWith_append (by rw [h, List.length_replicate]),
    zipWith_replicate _ _ h, zipWith_replicate _ _ rfl]
  congr 1
  · rw [← h, ← List.map_const']
    exact List.map_congr_left fun b _ => UInt8.and_zero
  · conv_rhs => rw [← List.map_id back]
    exact List.map_congr_left fun b _ => UInt8.and_neg_one

theorem ofBytes_zeros (n : Nat) (src : List UInt8) :
    ofBytes 0 (List.replicate n 0 ++ src) = ofBytes 0 src := by
  induction n with
  | zero => rfl
  | succ n ih =>
    rw [List.replicate_succ, List.cons_append]
    exact ih

theorem toNat_sub_of_isDigit {b : UInt8} (h : Decimal.isDigit b = true) :
    (b - 48).toNat = b.toNat - 48 := by
  rw [Decimal.isDigit_iff] at h
  exact UInt8.toNat_sub_of_le _ _ (UInt8.le_iff_toNat_le.2 h.1)

theorem ofBytes_map_sub : ∀ (str : List UInt8) (acc : Nat), (∀ b ∈ str, Decimal.isDigit b = true) →
    ofBytes acc (str.map (· - 48)) = Decimal.valueFrom acc str
  | [], _, _ => rfl
  | b :: str, acc, h => by
      rw [List.forall_mem_cons] at h
      have hcons : ofBytes acc ((b :: str).map (· - 48)) =
          ofBytes (acc * 10 + (b - 48).toNat) (str.map (· - 48)) := rfl
      rw [hcons, toNat_sub_of_isDigit h.1, ofBytes_map_sub str _ h.2]
      rfl

theorem replicate_zipWith {α β γ : Type} (f : α → β → γ) (x : α) : ∀ {ys : List β} {n : Nat},
    ys.length = n → List.zipWith f (List.replicate n x) ys = ys.map fun y => f x y
  | [], _, h => by rw [← h]; rfl
  | y :: ys, n, h => by
      subst h
      rw [List.length_cons, List.replicate_succ, List.zipWith_cons_cons, replicate_zipWith f x rfl,
        List.map_cons]

theorem ofBits_eq_zero_iff (bs : List Bool) : ofBits bs = 0 ↔ ∀ b ∈ bs, b = false := by
  induction bs with
  | nil => exact ⟨fun _ => nofun, fun _ => rfl⟩
  | cons b bs ih =>
    rw [List.forall_mem_cons, ← ih, ofBits]
    cases b with
    | false => simp
    | true => simp

theorem invalid_eq {v : List UInt8} (h : v.length = 32) :
    Shuffles.orSi (cmpgtEpi8 v (set1Epi8 32 57)) (cmpgtEpi8 (set1Epi8 32 48) v) =
      v.map fun b => flagByte (!Decimal.isDigit b) := by
  rw [cmpgtEpi8, cmpgtEpi8, set1Epi8, set1Epi8, zipWith_replicate _ _ h, replicate_zipWith _ _ h,
    Shuffles.orSi, List.zipWith_map, List.zipWith_self]
  refine List.map_congr_left fun b _ => ?_
  have hiff := char_digit_iff b
  have h57 : b.toInt8 > UInt8.toInt8 57 ↔ char b > 57 := by
    rw [gt_iff_lt, Int8.lt_iff_toInt_lt, toInt_toInt8, toInt_toInt8]
    rfl
  have h48 : UInt8.toInt8 48 > b.toInt8 ↔ 48 > char b := by
    rw [gt_iff_lt, Int8.lt_iff_toInt_lt, toInt_toInt8, toInt_toInt8]
    rfl
  rw [decide_eq_decide.2 h57, decide_eq_decide.2 h48]
  by_cases hgt : char b > 57
  · have hnot : Decimal.isDigit b = false :=
      Bool.eq_false_iff.2 fun hd => hiff.2 hd (Or.inr hgt)
    have hle : ¬ 48 > char b := by omega
    rw [hnot, decide_eq_true hgt, decide_eq_false hle]
    rfl
  · by_cases hlt : 48 > char b
    · have hnot : Decimal.isDigit b = false :=
        Bool.eq_false_iff.2 fun hd => hiff.2 hd (Or.inl hlt)
      rw [hnot, decide_eq_true hlt, decide_eq_false hgt]
      rfl
    · rw [hiff.1 (fun h => h.elim hlt hgt), decide_eq_false hlt, decide_eq_false hgt]
      rfl

/-- **The vector parser** finds the value of the digits at the end of its register. -/
theorem avxDigits_eq {front str : List UInt8} (hlen : str.length ≤ 20)
    (hfront : front.length = 32 - str.length) :
    avxDigits (front ++ str) str.length = some (digitsOf str) := by
  have hv : (front ++ str).length = 32 := by
    rw [List.length_append]
    omega
  have hflags := @andSi_kNonZeroMask (front.map fun b => flagByte (!Decimal.isDigit b))
    (str.map fun b => flagByte (!Decimal.isDigit b)) (by simpa using hfront)
  have hdata := @andSi_kNonZeroMask (front.map (· - 48)) (str.map (· - 48)) (by simpa using hfront)
  rw [List.length_map] at hflags hdata
  have hbools : List.replicate (32 - str.length) (0 : UInt8) ++
      str.map (fun b => flagByte (!Decimal.isDigit b)) =
      (List.replicate (32 - str.length) false ++ str.map fun b => !Decimal.isDigit b).map
        flagByte := by
    rw [List.map_append, List.map_replicate, List.map_map]
    rfl
  have hmask : movemaskEpi8 (andSi (Shuffles.orSi (cmpgtEpi8 (front ++ str) (set1Epi8 32 57))
      (cmpgtEpi8 (set1Epi8 32 48) (front ++ str))) (kNonZeroMask str.length)) = 0 ↔
      ∀ b ∈ str, Decimal.isDigit b = true := by
    rw [invalid_eq hv, List.map_append, hflags, hbools, movemaskEpi8_flags, ofBits_eq_zero_iff,
      List.forall_mem_append, List.forall_mem_map]
    refine (and_iff_right fun b hb => (List.mem_replicate.1 hb).2).trans ?_
    exact forall₂_congr fun b _ => by rw [Bool.not_eq_false']
  rw [avxDigits]
  dsimp only
  by_cases hdigits : ∀ b ∈ str, Decimal.isDigit b = true
  · rw [if_neg (fun hne => hne (hmask.2 hdigits))]
    have hsub : subEpi8 (front ++ str) (set1Epi8 32 48) =
        front.map (· - 48) ++ str.map (· - 48) := by
      rw [subEpi8, set1Epi8, zipWith_replicate _ _ hv, List.map_append]
    have hdrop : (List.replicate (32 - str.length) (0 : UInt8) ++ str.map (· - 48)).drop (32 - 20) =
        List.replicate (20 - str.length) 0 ++ str.map (· - 48) := by
      rw [List.drop_append_of_le_length (by rw [List.length_replicate]; omega),
        List.drop_replicate]
      congr 2
      omega
    rw [hsub, hdata, List.take_left' List.length_replicate, if_pos (by simp), hdrop,
      accumulate_eq 4 _ 0 ?_ (by decide) (by decide) ?_, ofBytes_zeros,
      ofBytes_map_sub str 0 hdigits, digitsOf,
      show Decimal.valueFrom 0 str = Decimal.value str from rfl]
    · by_cases hlt : Decimal.value str < 2 ^ 64
      · rw [if_pos hlt, if_pos ⟨hdigits, hlt⟩]
      · rw [if_neg hlt, if_neg (fun h => hlt h.2)]
    · rw [List.length_append, List.length_replicate, List.length_map]
      omega
    · rw [List.forall_mem_append, List.forall_mem_map]
      refine ⟨fun b hb => ?_, fun b hb => ?_⟩
      · rw [(List.mem_replicate.1 hb).2]
        decide
      · have := (Decimal.isDigit_iff b).1 (hdigits b hb)
        rw [toNat_sub_of_isDigit (hdigits b hb)]
        omega
  · rw [if_pos (fun hzero => hdigits (hmask.1 hzero)), digitsOf, if_neg (fun h => hdigits h.1)]

theorem digitsOf_eq_some_iff {c : UInt8} {str : List UInt8} (hc : c ≠ 48) (n : Nat) :
    digitsOf (c :: str) = some n ↔ Decimal.ofNat n = c :: str ∧ n < 2 ^ 64 := by
  rw [digitsOf]
  constructor
  · intro h
    split at h
    · rename_i hall
      have hvalue := Option.some.inj h
      have hdigit := (Decimal.isDigit_iff c).1 (hall.1 c List.mem_cons_self)
      have hne : c.toNat ≠ 48 := fun heq => hc (UInt8.toNat_inj.1 heq)
      rw [← hvalue]
      exact ⟨Decimal.ofNat_value hall.1 (by omega), hall.2⟩
    · exact absurd h nofun
  · rintro ⟨heq, hlt⟩
    have hvalue : Decimal.value (c :: str) = n := by rw [← heq, Decimal.value_ofNat]
    rw [if_pos ⟨fun b hb => Decimal.isDigit_ofNat n b (heq ▸ hb), hvalue ▸ hlt⟩, hvalue]

theorem ofNat_digit_zero {str : List UInt8} {n : Nat} (h : Decimal.ofNat n = 48 :: str) :
    n = 0 ∧ str = [] := by
  by_cases hn : n = 0
  · subst hn
    rw [Decimal.ofNat, if_pos (by decide)] at h
    exact ⟨rfl, (List.cons.inj h).2.symm⟩
  · obtain ⟨d, s, hs, hpos, hlt⟩ := Decimal.head_ofNat hn
    have hd := congrArg UInt8.toNat (List.cons.inj (hs.symm.trans h)).1
    rw [Decimal.toNat_digit hlt] at hd
    have h48 : (48 : UInt8).toNat = 48 := rfl
    omega

theorem length_ofNat_natAbs {v : Int} (h : InRange v) : (Decimal.ofNat v.natAbs).length ≤ 19 := by
  refine Decimal.length_ofNat_le (by decide) ?_
  have := h.1
  have := h.2
  omega

theorem toInt64_nonneg_iff {n : Nat} (h : n < 2 ^ 64) :
    (¬ toInt64 n < 0 ↔ n < 2 ^ 63) ∧ (n < 2 ^ 63 → toInt64 n = n) := by
  rw [toInt64]
  constructor
  · split <;> omega
  · intro hlt
    rw [if_pos hlt]

theorem toInt64_neg {n : Nat} (hpos : 0 < n) (h : n < 2 ^ 64) :
    (¬ toInt64 ((2 ^ 64 - n) % 2 ^ 64) > 0 ↔ n ≤ 2 ^ 63) ∧
      (n ≤ 2 ^ 63 → toInt64 ((2 ^ 64 - n) % 2 ^ 64) = -(n : Int)) := by
  rw [Nat.mod_eq_of_lt (by omega), toInt64]
  constructor
  · split <;> omega
  · intro hle
    rw [if_neg (by omega)]
    omega

/-! ## Parsers -/

/-- What the parsers do with the digits of a string; `negative` says whether a sign came before. -/
def parseDigits (magnitude : List UInt8 → Option (Option Nat)) (negative : Bool) :
    List UInt8 → Option (Option Int)
  | [] => some none
  | digit :: rest =>
      if (digit :: rest).length > 20 then some none
      else if digit = 48 then
        if (digit :: rest).length ≠ 1 ∨ negative then some none else some (some 0)
      else do
        match ← magnitude (digit :: rest) with
        | none => return none
        | some uresult =>
            if negative then
              let value := toInt64 ((2 ^ 64 - uresult) % 2 ^ 64)
              return if value > 0 then none else some value
            else
              let value := toInt64 uresult
              return if value < 0 then none else some value

theorem parseInt64With_minus (magnitude : List UInt8 → Option (Option Nat)) (str : List UInt8) :
    parseInt64With magnitude (Decimal.MINUS :: str) = parseDigits magnitude true str := by
  cases str <;> rfl

theorem parseInt64With_cons (magnitude : List UInt8 → Option (Option Nat)) {first : UInt8}
    (h : first ≠ Decimal.MINUS) (str : List UInt8) :
    parseInt64With magnitude (first :: str) = parseDigits magnitude false (first :: str) := by
  have hfirst : (first == 45) = false := beq_eq_false_iff_ne.2 h
  rw [parseInt64With]
  simp only [hfirst]
  rfl

theorem parseDigits_spec {magnitude : List UInt8 → Option (Option Nat)} {negative : Bool}
    {str : List UInt8} (hmagnitude : str.length ≤ 20 → magnitude str = some (digitsOf str)) :
    ∃ r, parseDigits magnitude negative str = some r ∧
      ∀ v, r = some v ↔ InRange v ∧ (if negative then v < 0 else 0 ≤ v) ∧
        Decimal.ofNat v.natAbs = str := by
  cases str with
  | nil => exact ⟨none, rfl, fun v => ⟨nofun, fun h => absurd h.2.2 (Decimal.ofNat_ne_nil _)⟩⟩
  | cons digit rest =>
    rw [parseDigits]
    by_cases hlen : (digit :: rest).length > 20
    · rw [if_pos hlen]
      refine ⟨none, rfl, fun v => ⟨nofun, fun ⟨hrange, _, heq⟩ => ?_⟩⟩
      have := length_ofNat_natAbs hrange
      rw [heq] at this
      omega
    · rw [if_neg hlen]
      by_cases hzero : digit = 48
      · subst hzero
        rw [if_pos rfl]
        by_cases hbad : (48 :: rest).length ≠ 1 ∨ negative = true
        · rw [if_pos hbad]
          refine ⟨none, rfl, fun v => ⟨nofun, fun ⟨_, hsign, heq⟩ => ?_⟩⟩
          obtain ⟨hv, hrest⟩ := ofNat_digit_zero heq
          rcases hbad with hbad | hbad
          · exact absurd (by rw [hrest]; rfl) hbad
          · rw [if_pos hbad] at hsign
            omega
        · rw [if_neg hbad]
          have hrest : rest = [] := by
            have hone := Decidable.not_not.1 fun h => hbad (Or.inl h)
            exact List.eq_nil_of_length_eq_zero (Nat.succ.inj hone)
          have hsign : negative = false := Bool.eq_false_iff.2 fun h => hbad (Or.inr h)
          subst hrest hsign
          refine ⟨some 0, rfl, fun v => ⟨fun h => ?_, fun ⟨_, _, heq⟩ => ?_⟩⟩
          · obtain rfl := Option.some.inj h
            refine ⟨⟨by decide, by decide⟩, by decide, ?_⟩
            rw [Decimal.ofNat]
            rfl
          · have := (ofNat_digit_zero heq).1
            rw [show v = 0 by omega]
      · rw [if_neg hzero, hmagnitude (Nat.not_lt.1 hlen)]
        simp only [Option.bind_eq_bind, Option.bind_some]
        have hiff := fun n => @digitsOf_eq_some_iff digit rest hzero n
        cases hdigits : digitsOf (digit :: rest) with
        | none =>
          refine ⟨none, rfl, fun v => ⟨nofun, fun ⟨hrange, _, heq⟩ => ?_⟩⟩
          have hsome := (hiff v.natAbs).2 ⟨heq, by have := hrange.1; have := hrange.2; omega⟩
          rw [hdigits] at hsome
          cases hsome
        | some n =>
          obtain ⟨hn, hlt⟩ := (hiff n).1 hdigits
          have hpos : 0 < n := Nat.pos_of_ne_zero fun h => by
            rw [h, Decimal.ofNat, if_pos (by decide)] at hn
            exact hzero (List.cons.inj hn).1.symm
          have hsame : ∀ v : Int, Decimal.ofNat v.natAbs = digit :: rest ↔ v.natAbs = n :=
            fun v => ⟨fun h => Decimal.ofNat_inj (h.trans hn.symm), fun h => by rw [h, hn]⟩
          simp only [hsame, InRange]
          cases negative with
          | true =>
            obtain ⟨hfits, hvalue⟩ := toInt64_neg hpos hlt
            rw [if_pos rfl]
            by_cases hle : n ≤ 2 ^ 63
            · rw [if_neg (hfits.2 hle), hvalue hle]
              refine ⟨_, rfl, fun v => ?_⟩
              rw [Option.some.injEq, if_pos rfl]
              omega
            · rw [if_pos (Decidable.not_not.1 fun h => hle (hfits.1 h))]
              refine ⟨_, rfl, fun v => ⟨nofun, fun h => ?_⟩⟩
              rw [if_pos rfl] at h
              omega
          | false =>
            obtain ⟨hfits, hvalue⟩ := toInt64_nonneg_iff hlt
            rw [if_neg Bool.false_ne_true]
            by_cases hlt' : n < 2 ^ 63
            · rw [if_neg (hfits.2 hlt'), hvalue hlt']
              refine ⟨_, rfl, fun v => ?_⟩
              rw [Option.some.injEq, if_neg Bool.false_ne_true]
              omega
            · rw [if_pos (Decidable.not_not.1 fun h => hlt' (hfits.1 h))]
              refine ⟨_, rfl, fun v => ⟨nofun, fun h => ?_⟩⟩
              rw [if_neg Bool.false_ne_true] at h
              omega

theorem parseInt64With_spec {magnitude : List UInt8 → Option (Option Nat)} {str : List UInt8}
    (hmagnitude : ∀ s, s <:+ str → s.length ≤ 20 → magnitude s = some (digitsOf s)) :
    ∃ r, parseInt64With magnitude str = some r ∧
      ∀ v, r = some v ↔ InRange v ∧ Decimal.ofInt v = str := by
  cases str with
  | nil => exact ⟨none, rfl, fun v => ⟨nofun, fun h => absurd h.2 (Decimal.ofInt_ne_nil v)⟩⟩
  | cons first rest =>
    by_cases hminus : first = Decimal.MINUS
    · subst hminus
      obtain ⟨r, hrun, hr⟩ := @parseDigits_spec magnitude true rest
        (hmagnitude rest (List.suffix_cons _ _))
      refine ⟨r, (parseInt64With_minus magnitude rest).trans hrun, fun v => ?_⟩
      rw [hr, if_pos rfl, Decimal.ofInt_eq_minus_iff]
    · obtain ⟨r, hrun, hr⟩ := @parseDigits_spec magnitude false (first :: rest)
        (hmagnitude _ List.suffix_rfl)
      refine ⟨r, (parseInt64With_cons magnitude hminus rest).trans hrun, fun v => ?_⟩
      rw [hr, if_neg Bool.false_ne_true, Decimal.ofInt_eq_iff hminus]

theorem fallback_spec (str : List UInt8) :
    ∃ r, parseInt64_fallback str = some r ∧
      ∀ v, r = some v ↔ InRange v ∧ Decimal.ofInt v = str :=
  parseInt64With_spec fun s _ _ => congrArg some (fallback_digitsOf s)

theorem avx_spec {before str : List UInt8} (h : 32 ≤ (before ++ str).length) :
    ∃ r, parseInt64Unsafe_AVX before str = some r ∧
      ∀ v, r = some v ↔ InRange v ∧ Decimal.ofInt v = str := by
  rw [parseInt64Unsafe_AVX]
  refine parseInt64With_spec fun s hs hlen => ?_
  obtain ⟨front, rfl⟩ := hs
  rw [if_neg (Nat.not_lt.2 h)]
  rw [← List.append_assoc] at h ⊢
  rw [List.length_append] at h ⊢
  have hdrop : ((before ++ front) ++ s).drop ((before ++ front).length + s.length - 32) =
      (before ++ front).drop ((before ++ front).length + s.length - 32) ++ s :=
    List.drop_append_of_le_length (by omega)
  rw [hdrop]
  exact avxDigits_eq hlen (by rw [List.length_drop]; omega)

theorem unsafe_spec (hasAVX2 : Bool) {before str : List UInt8} (h : 32 ≤ before.length) :
    ∃ r, parseInt64Unsafe hasAVX2 before str = some r ∧
      ∀ v, r = some v ↔ InRange v ∧ Decimal.ofInt v = str := by
  rw [parseInt64Unsafe]
  split
  · exact avx_spec (by rw [List.length_append]; omega)
  · exact fallback_spec str

theorem avx_eq_fallback {before str : List UInt8} (h : 32 ≤ (before ++ str).length) :
    parseInt64Unsafe_AVX before str = parseInt64_fallback str := by
  obtain ⟨r, hrun, hr⟩ := avx_spec h
  obtain ⟨r', hrun', hr'⟩ := fallback_spec str
  rw [hrun, hrun']
  exact congrArg some (Option.ext fun v => (hr v).trans (hr' v).symm)

/-! ## Canonical numbers -/

/-- The integers are those of the strings. -/
def Canonical (nums : List Int) (fields : List (List UInt8)) : Prop :=
  (∀ v ∈ nums, InRange v) ∧ nums.map Decimal.ofInt = fields

theorem canonical_cons_iff {v : Int} {nums : List Int} {field : List UInt8}
    {fields : List (List UInt8)} : Canonical (v :: nums) (field :: fields) ↔
      (InRange v ∧ Decimal.ofInt v = field) ∧ Canonical nums fields := by
  rw [Canonical, List.forall_mem_cons, List.map_cons, List.cons.injEq]
  exact ⟨fun h => ⟨⟨h.1.1, h.2.1⟩, h.1.2, h.2.2⟩, fun h => ⟨⟨h.1.1, h.2.1⟩, h.1.2, h.2.2⟩⟩

theorem exists_canonical : ∀ {fields : List (List UInt8)},
    (∀ field ∈ fields, ∃ v, InRange v ∧ field = Decimal.ofInt v) → ∃ nums, Canonical nums fields
  | [], _ => ⟨[], nofun, rfl⟩
  | field :: fields, h => by
      rw [List.forall_mem_cons] at h
      obtain ⟨v, hv, hfield⟩ := h.1
      obtain ⟨nums, hnums⟩ := exists_canonical h.2
      exact ⟨v :: nums, canonical_cons_iff.2 ⟨⟨hv, hfield.symm⟩, hnums⟩⟩

theorem checkNumStringEquality_ofInt (v : Int) :
    checkNumStringEquality (Decimal.ofInt v) v = true := by
  rw [checkNumStringEquality, List.take_left' rfl]
  exact beq_iff_eq.2 rfl

theorem parse_step {parsed : Option (Option Int)} {rest : Option (Option (List Int))}
    {field : List UInt8} {fields : List (List UInt8)}
    (hparsed : ∃ r, parsed = some r ∧ ∀ v, r = some v ↔ InRange v ∧ Decimal.ofInt v = field)
    (hrest : ∃ r, rest = some r ∧ ∀ nums, r = some nums ↔ Canonical nums fields) :
    ∃ r, (do
        match ← parsed with
        | none => return none
        | some value =>
            if checkNumStringEquality field value then
              match ← rest with
              | none => return none
              | some nums => return some (value :: nums)
            else none : Option (Option (List Int))) = some r ∧
      ∀ nums, r = some nums ↔ Canonical nums (field :: fields) := by
  obtain ⟨r, rfl, hr⟩ := hparsed
  obtain ⟨r', rfl, hr'⟩ := hrest
  simp only [Option.bind_eq_bind, Option.bind_some]
  have hcons : ∀ nums, Canonical nums (field :: fields) →
      ∃ v nums', nums = v :: nums' ∧ r = some v ∧ r' = some nums' := by
    intro nums h
    cases nums with
    | nil => exact absurd h.2.symm (List.cons_ne_nil _ _)
    | cons v nums =>
      obtain ⟨hv, hnums⟩ := canonical_cons_iff.1 h
      exact ⟨v, nums, rfl, (hr v).2 hv, (hr' nums).2 hnums⟩
  cases r with
  | none =>
    refine ⟨none, rfl, fun nums => ⟨nofun, fun h => ?_⟩⟩
    obtain ⟨v, nums', -, hv, -⟩ := hcons nums h
    exact absurd hv nofun
  | some v =>
    obtain ⟨hrange, hfield⟩ := (hr v).1 rfl
    have hcheck := checkNumStringEquality_ofInt v
    rw [hfield] at hcheck
    dsimp only
    rw [if_pos hcheck]
    cases r' with
    | none =>
      refine ⟨none, rfl, fun nums => ⟨nofun, fun h => ?_⟩⟩
      obtain ⟨v, nums', -, -, hnums⟩ := hcons nums h
      exact absurd hnums nofun
    | some nums' =>
      refine ⟨some (v :: nums'), rfl, fun nums => ⟨fun h => ?_, fun h => ?_⟩⟩
      · obtain rfl := Option.some.inj h
        exact canonical_cons_iff.2 ⟨⟨hrange, hfield⟩, (hr' nums').1 rfl⟩
      · obtain ⟨w, nums'', rfl, hv, hnums⟩ := hcons nums h
        rw [Option.some.inj hv, Option.some.inj hnums]

theorem canonical_nil_iff (nums : List Int) : some [] = some nums ↔ Canonical nums [] := by
  rw [Option.some.injEq, Canonical, List.map_eq_nil_iff]
  constructor
  · rintro rfl
    exact ⟨nofun, rfl⟩
  · exact fun h => h.2.symm

theorem parseIntFast_spec (hasAVX2 : Bool) : ∀ (fields : List (List UInt8)) (before : List UInt8),
    32 ≤ before.length →
    ∃ r, parseIntFast hasAVX2 (fields.map List.length) before fields.flatten = some r ∧
      ∀ nums, r = some nums ↔ Canonical nums fields
  | [], _, _ => ⟨some [], rfl, canonical_nil_iff⟩
  | field :: fields, before, h => by
      have hrest := parseIntFast_spec hasAVX2 fields (before ++ field)
        (by rw [List.length_append]; omega)
      rw [List.map_cons, parseIntFast, List.flatten_cons, List.take_left' rfl,
        List.drop_left' rfl]
      exact parse_step (unsafe_spec hasAVX2 h) hrest

theorem parseIntFrom_spec (hasAVX2 : Bool) : ∀ (fields : List (List UInt8)) (before : List UInt8),
    ∃ r, parseIntFrom hasAVX2 (fields.map List.length) before fields.flatten = some r ∧
      ∀ nums, r = some nums ↔ Canonical nums fields
  | [], _ => ⟨some [], rfl, canonical_nil_iff⟩
  | field :: fields, before => by
      have hrest := parseIntFrom_spec hasAVX2 fields (before ++ field)
      rw [List.map_cons, parseIntFrom]
      by_cases h : before.length < 32
      · rw [if_pos h, List.flatten_cons, List.take_left' rfl, List.drop_left' rfl]
        exact parse_step (fallback_spec field) hrest
      · rw [if_neg h]
        exact parseIntFast_spec hasAVX2 (field :: fields) before (Nat.not_lt.1 h)

/-- **`ZL_parseInt` takes exactly canonical decimals**, and finds their integers. -/
theorem parseInt_spec (hasAVX2 : Bool) (fields : List (List UInt8)) :
    ∃ r, parseInt hasAVX2 fields.flatten (fields.map List.length) = some r ∧
      ∀ nums, r = some nums ↔ Canonical nums fields :=
  parseIntFrom_spec hasAVX2 fields []

end OpenZL.Codecs.ParseInt
