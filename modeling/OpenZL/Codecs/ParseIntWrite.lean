import OpenZL.Codecs.ParseIntParse
import OpenZL.Shared.VarintLaws

/-!
# The writer of parse_int

A number is written before its end, over up to 21 bytes; what is clobbered before it belongs to the
fields before it, which are written later.

Principal results: `writeBackwards_spec`, `writeForwards_spec`, `fillContent_eq`.
-/

namespace OpenZL.Codecs.ParseInt

open OpenZL.Lib

theorem approx_spec : ∀ l < 64,
    tenPower.getD (63 - l) 0 = (if l = 0 then 0 else 10 ^ (((l + 1) * 1233) >>> 12)) ∧
      2 ^ (l + 1) ≤ 10 ^ ((((l + 1) * 1233) >>> 12) + 1) ∧
      (0 < ((l + 1) * 1233) >>> 12 → 10 ^ ((((l + 1) * 1233) >>> 12) - 1) ≤ 2 ^ l) ∧
      (l = 0 → ((l + 1) * 1233) >>> 12 = 0) := by
  decide

theorem u64BaseTenDigits_eq {x : Nat} (hx : x < 2 ^ 64) :
    u64BaseTenDigits x = (Decimal.ofNat x).length := by
  by_cases hzero : x = 0
  · subst hzero
    rw [Decimal.ofNat]
    decide
  · have hlog := (Nat.log2_lt hzero).2 hx
    have hlow := Nat.log2_self_le hzero
    have hhigh := @Nat.lt_log2_self x
    obtain ⟨hten, hup, hdown, hsmall⟩ := approx_spec x.log2 hlog
    rw [u64BaseTenDigits, Shared.log2_or_one]
    rw [show 64 - (63 - x.log2) = x.log2 + 1 by omega, hten]
    generalize ((x.log2 + 1) * 1233) >>> 12 = approx at hup hdown hsmall ⊢
    by_cases hge : x ≥ if x.log2 = 0 then 0 else 10 ^ approx
    · rw [if_pos hge]
      refine (Decimal.length_ofNat_eq ?_ (Nat.lt_of_lt_of_le hhigh hup)).symm
      by_cases hl : x.log2 = 0
      · rw [hsmall hl, Nat.pow_zero]
        omega
      · rwa [if_neg hl] at hge
    · rw [if_neg hge, Nat.add_zero]
      have hl : x.log2 ≠ 0 := fun hl => hge (by rw [if_pos hl]; exact Nat.zero_le x)
      rw [if_neg hl, Nat.not_le] at hge
      have hpos : 0 < approx := Nat.pos_of_ne_zero fun h => by
        rw [h, Nat.pow_zero] at hge
        omega
      obtain ⟨k, rfl⟩ := Nat.exists_eq_succ_of_ne_zero (Nat.ne_of_gt hpos)
      exact (Decimal.length_ofNat_eq (Nat.le_trans (hdown hpos) hlow) hge).symm

theorem absValue_eq {v : Int} (h : InRange v) : absValue v = v.natAbs := by
  have := h.1
  have := h.2
  rw [absValue]
  split
  · have hmod : v % 2 ^ 64 = v + 2 ^ 64 := by omega
    rw [hmod]
    omega
  · omega

theorem natAbs_lt {v : Int} (h : InRange v) : v.natAbs < 2 ^ 64 := by
  have := h.1
  have := h.2
  omega

theorem numberStringLength_eq {v : Int} (h : InRange v) :
    numberStringLength v = (Decimal.ofInt v).length := by
  rw [numberStringLength, absValue_eq h, u64BaseTenDigits_eq (natAbs_lt h), Decimal.length_ofInt]

theorem fillFieldSizes_eq {nums : List Int} (h : ∀ v ∈ nums, InRange v) :
    fillFieldSizes nums =
      ((nums.map Decimal.ofInt).map List.length, (nums.map Decimal.ofInt).flatten.length) := by
  have hsizes : nums.map numberStringLength = (nums.map Decimal.ofInt).map List.length := by
    rw [List.map_map]
    exact List.map_congr_left fun v hv => numberStringLength_eq (h v hv)
  rw [fillFieldSizes, hsizes, List.length_flatten]

theorem copy4FromTable_eq {dst front mid back : List UInt8} {p : Nat} (out off : Nat) {x : Nat}
    (hx : x < 10000) (hmid : mid.length = 4) (hp : p ≤ dst.length)
    (hdst : dst.drop p = front ++ (mid ++ back)) (hout : p + front.length + off = out) :
    ∃ dst', copy4FromTable dst out off x = some dst' ∧ dst'.length = dst.length ∧
      dst'.drop p = front ++ (Decimal.pad 4 x ++ back) := by
  have hlen := congrArg List.length hdst
  rw [List.length_drop, List.length_append, List.length_append, hmid] at hlen
  have hpos : out - off = p + front.length := by omega
  rw [copy4FromTable, if_pos ⟨hx, by omega, by omega⟩, hpos]
  refine ⟨_, rfl, Buffer.length_write (by rw [Decimal.length_pad]; omega), ?_⟩
  rw [Buffer.drop_write (by omega) (by omega), hdst, Nat.add_sub_cancel_left,
    Buffer.write_append _ _ _ (by rw [Decimal.length_pad, hmid])]

theorem exists_drop_four {dst : List UInt8} {p : Nat} (h : p + 4 ≤ dst.length) :
    ∃ mid, mid.length = 4 ∧ dst.drop p = mid ++ dst.drop (p + 4) := by
  refine ⟨(dst.drop p).take 4, by rw [List.length_take, List.length_drop]; omega, ?_⟩
  rw [← List.drop_drop, List.take_append_drop]

theorem drop_of_pad {dst rest : List UInt8} {x k out : Nat} (hk : (Decimal.ofNat x).length ≤ k)
    (hout : k ≤ out) (hdst : dst.drop (out - k) = Decimal.pad k x ++ rest) :
    dst.drop (out - (Decimal.ofNat x).length) = Decimal.ofNat x ++ rest := by
  have hsplit : out - (Decimal.ofNat x).length = out - k + (k - (Decimal.ofNat x).length) := by
    omega
  rw [hsplit, ← List.drop_drop, hdst,
    List.drop_append_of_le_length (by rw [Decimal.length_pad]; omega), Decimal.drop_pad hk]

theorem pad_eight (x : Nat) :
    Decimal.pad 8 x = Decimal.pad 4 (x % 100000000 / 10000) ++
      Decimal.pad 4 (x % 100000000 % 10000) := by
  rw [← Decimal.pad_mod 8 x, Decimal.pad_add 4 4, ← Decimal.pad_mod 4 (x % 10 ^ 8)]
  rfl

theorem pad_twenty (x : Nat) :
    Decimal.pad 20 x = Decimal.pad 4 (x / 100000000 / 10000 / 10000) ++
      (Decimal.pad 4 (x / 100000000 / 10000 % 10000) ++
        (Decimal.pad 4 (x / 100000000 % 10000) ++ Decimal.pad 8 x)) := by
  rw [Decimal.pad_add 12 8, Decimal.pad_add 8 4 (x / 10 ^ 8), Decimal.pad_add 4 4,
    ← Decimal.pad_mod 4 (x / 10 ^ 8 / 10 ^ 4), ← Decimal.pad_mod 4 (x / 10 ^ 8),
    List.append_assoc, List.append_assoc]
  rfl

theorem u64numberToStringBackwards_spec {x : Nat} (hx : x < 2 ^ 64) {dst : List UInt8} {out : Nat}
    (hout : 20 ≤ out) (hle : out ≤ dst.length) :
    ∃ dst', u64numberToStringBackwards x dst out (Decimal.ofNat x).length = some dst' ∧
      dst'.length = dst.length ∧
      dst'.drop (out - (Decimal.ofNat x).length) = Decimal.ofNat x ++ dst.drop out := by
  have hdigits := Decimal.value_lt (Decimal.ofNat x) (Decimal.isDigit_ofNat x)
  rw [Decimal.value_ofNat] at hdigits
  -- the groups of four bytes before the end
  obtain ⟨m5, h5, hdrop5⟩ := exists_drop_four (show out - 4 + 4 ≤ dst.length by omega)
  obtain ⟨m4, h4, hdrop4⟩ := exists_drop_four (show out - 8 + 4 ≤ dst.length by omega)
  rw [show out - 4 + 4 = out by omega] at hdrop5
  rw [show out - 8 + 4 = out - 4 by omega, hdrop5] at hdrop4
  have hbottomtop : x % 100000000 / 10000 < 10000 := by omega
  have hbottombottom : x % 100000000 % 10000 < 10000 := by omega
  rw [u64numberToStringBackwards]
  by_cases hfour : (Decimal.ofNat x).length ≤ 4
  · have hsmall : x < 10000 :=
      Nat.lt_of_lt_of_le hdigits (Nat.pow_le_pow_right (by decide) hfour)
    obtain ⟨dst₁, hrun₁, hlen₁, hdst₁⟩ := copy4FromTable_eq out 4 hsmall h5 (by omega)
      (show dst.drop (out - 4) = [] ++ (m5 ++ dst.drop out) from hdrop5)
      (by rw [List.length_nil]; omega)
    rw [if_pos hfour]
    exact ⟨dst₁, hrun₁, hlen₁, drop_of_pad hfour (by omega) hdst₁⟩
  · rw [if_neg hfour]
    by_cases height : (Decimal.ofNat x).length ≥ 8
    · -- all 20 bytes before the end
      obtain ⟨m3, h3, hdrop3⟩ := exists_drop_four (show out - 12 + 4 ≤ dst.length by omega)
      obtain ⟨m2, h2, hdrop2⟩ := exists_drop_four (show out - 16 + 4 ≤ dst.length by omega)
      obtain ⟨m1, h1, hdrop1⟩ := exists_drop_four (show out - 20 + 4 ≤ dst.length by omega)
      rw [show out - 12 + 4 = out - 8 by omega, hdrop4] at hdrop3
      rw [show out - 16 + 4 = out - 12 by omega, hdrop3] at hdrop2
      rw [show out - 20 + 4 = out - 16 by omega, hdrop2] at hdrop1
      have hbase₁ : dst.drop (out - 20) =
          (m1 ++ (m2 ++ m3)) ++ (m4 ++ (m5 ++ dst.drop out)) := by
        rw [hdrop1, List.append_assoc, List.append_assoc]
      obtain ⟨dst₁, hrun₁, hlen₁, hdst₁⟩ := copy4FromTable_eq out 8 hbottomtop h4 (by omega) hbase₁
        (by simp only [List.length_append]; omega)
      rw [← List.append_assoc] at hdst₁
      obtain ⟨dst₂, hrun₂, hlen₂, hdst₂⟩ := copy4FromTable_eq out 4 hbottombottom h5 (by omega)
        hdst₁ (by simp only [List.length_append, Decimal.length_pad]; omega)
      simp only [List.append_assoc] at hdst₂
      obtain ⟨dst₃, hrun₃, hlen₃, hdst₃⟩ := copy4FromTable_eq out 20
        (show x / 100000000 / 10000 / 10000 < 10000 by omega) h1 (by omega)
        (show dst₂.drop (out - 20) = [] ++ (m1 ++ _) from hdst₂) (by rw [List.length_nil]; omega)
      rw [List.nil_append] at hdst₃
      obtain ⟨dst₄, hrun₄, hlen₄, hdst₄⟩ := copy4FromTable_eq out 16
        (show x / 100000000 / 10000 % 10000 < 10000 by omega) h2 (by omega) hdst₃
        (by rw [Decimal.length_pad]; omega)
      rw [← List.append_assoc] at hdst₄
      obtain ⟨dst₅, hrun₅, hlen₅, hdst₅⟩ := copy4FromTable_eq out 12
        (show x / 100000000 % 10000 < 10000 by omega) h3 (by omega) hdst₄
        (by simp only [List.length_append, Decimal.length_pad]; omega)
      simp only [hrun₁, hrun₂, hrun₃, hrun₄, hrun₅, Option.bind_eq_bind, Option.bind_some]
      rw [if_pos height]
      refine ⟨dst₅, rfl, by omega, @drop_of_pad _ _ x 20 out
        (Decimal.length_ofNat_le (by decide) (by omega)) hout ?_⟩
      rw [hdst₅, pad_twenty, pad_eight]
      simp only [List.append_assoc]
    · obtain ⟨dst₁, hrun₁, hlen₁, hdst₁⟩ := copy4FromTable_eq out 8 hbottomtop h4 (by omega)
        (show dst.drop (out - 8) = [] ++ (m4 ++ (m5 ++ dst.drop out)) from hdrop4)
        (by rw [List.length_nil]; omega)
      rw [List.nil_append] at hdst₁
      obtain ⟨dst₂, hrun₂, hlen₂, hdst₂⟩ := copy4FromTable_eq out 4 hbottombottom h5 (by omega)
        hdst₁ (by rw [Decimal.length_pad]; omega)
      simp only [hrun₁, hrun₂, Option.bind_eq_bind, Option.bind_some]
      rw [if_neg height]
      refine ⟨dst₂, rfl, hlen₂.trans hlen₁, @drop_of_pad _ _ x 8 out (by omega) (by omega) ?_⟩
      rw [hdst₂, pad_eight, List.append_assoc]

theorem numberToStringBackwards_spec {v : Int} (hv : InRange v) {dst : List UInt8} {out : Nat}
    (hout : 21 ≤ out) (hle : out ≤ dst.length) :
    ∃ dst', numberToStringBackwards v dst out (Decimal.ofInt v).length = some dst' ∧
      dst'.length = dst.length ∧
      dst'.drop (out - (Decimal.ofInt v).length) = Decimal.ofInt v ++ dst.drop out := by
  obtain ⟨dst₁, hrun, hlen, hdst⟩ :=
    u64numberToStringBackwards_spec (natAbs_lt hv) (show 20 ≤ out by omega) hle
  have hdigits := length_ofNat_natAbs hv
  have hsize := Decimal.length_ofInt v
  have hneg : (Decimal.ofInt v).length - (if v < 0 then 1 else 0) =
      (Decimal.ofNat v.natAbs).length := by
    rw [hsize, Nat.add_sub_cancel]
  rw [numberToStringBackwards]
  simp only [absValue_eq hv, hneg, hrun, Option.bind_eq_bind, Option.bind_some]
  have hpos : out + (if v < 0 then 1 else 0) - (Decimal.ofInt v).length - 1 =
      out - (Decimal.ofNat v.natAbs).length - 1 := by
    omega
  rw [if_pos (by omega), hpos]
  refine ⟨_, rfl, ?_, ?_⟩
  · rw [Buffer.length_write (by rw [List.length_singleton]; omega), hlen]
  · have hpred : out - (Decimal.ofNat v.natAbs).length =
        out - (Decimal.ofNat v.natAbs).length - 1 + 1 := by omega
    have hbyte : ∃ b, dst₁.drop (out - (Decimal.ofNat v.natAbs).length - 1) =
        b :: (Decimal.ofNat v.natAbs ++ dst.drop out) := by
      refine ⟨dst₁[out - (Decimal.ofNat v.natAbs).length - 1], ?_⟩
      rw [List.drop_eq_getElem_cons (by omega), ← hpred, hdst]
    obtain ⟨b, hb⟩ := hbyte
    have hwrite : (Buffer.write dst₁ (out - (Decimal.ofNat v.natAbs).length - 1) [45]).drop
        (out - (Decimal.ofNat v.natAbs).length - 1) =
        45 :: (Decimal.ofNat v.natAbs ++ dst.drop out) := by
      rw [Buffer.drop_write (Nat.le_refl _) (by omega), hb, Nat.sub_self]
      rfl
    generalize Buffer.write dst₁ (out - (Decimal.ofNat v.natAbs).length - 1) [45] = dst₂ at hwrite ⊢
    by_cases hsign : v < 0
    · rw [if_pos hsign] at hsize
      have hstart : out - (Decimal.ofInt v).length =
          out - (Decimal.ofNat v.natAbs).length - 1 := by omega
      rw [hstart, hwrite, Decimal.ofInt, if_pos hsign]
      rfl
    · rw [if_neg hsign, Nat.add_zero] at hsize
      rw [hsize, hpred, ← List.drop_drop, hwrite, Decimal.ofInt, if_neg hsign]
      rfl

variable {nums : List Int}

/-- **The fields that are written backwards** stay, whatever is clobbered before them. -/
theorem writeBackwards_spec (hnums : ∀ v ∈ nums, InRange v) : ∀ (i : Nat) (dst : List UInt8),
    i ≤ nums.length →
    ((nums.map Decimal.ofInt).take i).flatten.length ≤ dst.length →
    dst.drop ((nums.map Decimal.ofInt).take i).flatten.length =
      ((nums.map Decimal.ofInt).drop i).flatten →
    ∃ i' dst', writeBackwards nums ((nums.map Decimal.ofInt).map List.length) i
        ((nums.map Decimal.ofInt).take i).flatten.length dst = some (i', dst') ∧
      i' ≤ nums.length ∧ dst'.length = dst.length ∧
      dst'.drop ((nums.map Decimal.ofInt).take i').flatten.length =
        ((nums.map Decimal.ofInt).drop i').flatten
  | 0, dst, hi, hle, hdst => by
      refine ⟨0, dst, ?_, hi, rfl, hdst⟩
      rw [writeBackwards, if_neg]
      rw [List.take_zero, List.flatten_nil, List.length_nil]
      decide
  | i + 1, dst, hi, hle, hdst => by
      rw [writeBackwards]
      by_cases hroom : ((nums.map Decimal.ofInt).take (i + 1)).flatten.length ≥ MAX_STRING_LENGTH
      · have hget : nums[i]? = some nums[i] := List.getElem?_eq_getElem hi
        have hv : InRange nums[i] := hnums _ (List.getElem_mem hi)
        have hfield : (nums.map Decimal.ofInt)[i]? = some (Decimal.ofInt nums[i]) := by
          rw [List.getElem?_map, hget]
          rfl
        have hsize : ((nums.map Decimal.ofInt).map List.length)[i]? =
            some (Decimal.ofInt nums[i]).length := by
          rw [List.getElem?_map, hfield]
          rfl
        have htake : (nums.map Decimal.ofInt).take (i + 1) =
            (nums.map Decimal.ofInt).take i ++ [Decimal.ofInt nums[i]] := by
          rw [List.take_add_one, hfield]
          rfl
        have hlen : ((nums.map Decimal.ofInt).take (i + 1)).flatten.length =
            ((nums.map Decimal.ofInt).take i).flatten.length + (Decimal.ofInt nums[i]).length := by
          rw [htake, List.flatten_append, List.flatten_singleton, List.length_append]
        have hshort : (Decimal.ofInt nums[i]).length ≤ MAX_STRING_LENGTH := by
          have := length_ofNat_natAbs hv
          rw [Decimal.length_ofInt, MAX_STRING_LENGTH]
          split <;> omega
        obtain ⟨dst₁, hrun, hlen₁, hdst₁⟩ := numberToStringBackwards_spec hv hroom hle
        have hprev : ((nums.map Decimal.ofInt).take (i + 1)).flatten.length -
            (Decimal.ofInt nums[i]).length =
            ((nums.map Decimal.ofInt).take i).flatten.length := by
          omega
        rw [hprev, hdst] at hdst₁
        have hdrop : (nums.map Decimal.ofInt).drop i =
            Decimal.ofInt nums[i] :: (nums.map Decimal.ofInt).drop (i + 1) := by
          rw [List.drop_eq_getElem_cons (by rw [List.length_map]; exact hi), List.getElem_map]
        obtain ⟨i', dst', hrun', hi', hlen', hdst'⟩ := writeBackwards_spec hnums i dst₁
          (Nat.le_of_succ_le hi) (by omega) (by rw [hdst₁, hdrop, List.flatten_cons])
        refine ⟨i', dst', ?_, hi', hlen'.trans hlen₁, hdst'⟩
        rw [if_pos hroom]
        simp only [hsize, hget, Option.bind_eq_bind, Option.bind_some]
        rw [if_pos ⟨by rw [MAX_STRING_LENGTH] at hroom; omega, by omega, hshort⟩, hrun, hprev]
        exact hrun'
      · exact ⟨i + 1, dst, by rw [if_neg hroom], hi, rfl, hdst⟩

theorem length_ofInt_le {v : Int} (h : InRange v) :
    (Decimal.ofInt v).length ≤ MAX_STRING_LENGTH := by
  have := length_ofNat_natAbs h
  rw [Decimal.length_ofInt, MAX_STRING_LENGTH]
  split <;> omega

/-- **The fields that are written forwards** fill the place before the others. -/
theorem writeForwards_spec : ∀ (nums : List Int) (scratchSpace written left rest : List UInt8),
    (∀ v ∈ nums, InRange v) → scratchSpace.length = MAX_STRING_LENGTH →
    left.length = (nums.map Decimal.ofInt).flatten.length →
    writeForwards (nums.map fun v => (v, (Decimal.ofInt v).length)) scratchSpace written.length
        (written ++ (left ++ rest)) =
      some (written ++ ((nums.map Decimal.ofInt).flatten ++ rest))
  | [], scratchSpace, written, left, rest, _, _, hleft => by
      rw [List.eq_nil_of_length_eq_zero hleft]
      rfl
  | v :: nums, scratchSpace, written, left, rest, hnums, hscratch, hleft => by
      rw [List.forall_mem_cons] at hnums
      rw [List.map_cons, List.flatten_cons, List.length_append] at hleft
      obtain ⟨scratch', hrun, hlen, hdrop⟩ := numberToStringBackwards_spec hnums.1
        (Nat.le_refl 21) (Nat.le_of_eq hscratch.symm)
      have hnil : scratchSpace.drop 21 = [] := List.drop_eq_nil_of_le (Nat.le_of_eq hscratch)
      rw [hnil, List.append_nil] at hdrop
      have hsplit : left = left.take (Decimal.ofInt v).length ++
          left.drop (Decimal.ofInt v).length := (List.take_append_drop _ _).symm
      have htake : (left.take (Decimal.ofInt v).length).length = (Decimal.ofInt v).length := by
        rw [List.length_take]
        omega
      rw [List.map_cons, writeForwards, if_pos ⟨length_ofInt_le hnums.1, by
        simp only [List.length_append]
        omega⟩]
      simp only [hrun, MAX_STRING_LENGTH, Option.bind_eq_bind, Option.bind_some]
      have hwrite : Buffer.write (written ++ (left ++ rest)) written.length (Decimal.ofInt v) =
          (written ++ Decimal.ofInt v) ++ (left.drop (Decimal.ofInt v).length ++ rest) := by
        conv_lhs => rw [hsplit, List.append_assoc]
        rw [Buffer.write_append _ _ _ htake.symm, List.append_assoc]
      rw [hdrop, hwrite, ← List.length_append, writeForwards_spec nums scratch' _ _ rest hnums.2
        (hlen.trans hscratch) (by rw [List.length_drop]; omega)]
      simp only [List.map_cons, List.flatten_cons, List.append_assoc]

/-- **`ZL_DecodeParseInt_fillContent`** writes the concatenation of the strings. -/
theorem fillContent_eq (hnums : ∀ v ∈ nums, InRange v) {dst scratchSpace : List UInt8}
    (hdst : dst.length = (nums.map Decimal.ofInt).flatten.length)
    (hscratch : scratchSpace.length = MAX_STRING_LENGTH) :
    fillContent dst scratchSpace nums ((nums.map Decimal.ofInt).map List.length) =
      some (nums.map Decimal.ofInt).flatten := by
  have hall : (nums.map Decimal.ofInt).take nums.length = nums.map Decimal.ofInt :=
    List.take_of_length_le (by rw [List.length_map])
  have hnone : (nums.map Decimal.ofInt).drop nums.length = [] :=
    List.drop_eq_nil_of_le (by rw [List.length_map])
  obtain ⟨i, dst', hrun, hi, hlen, hdrop⟩ := writeBackwards_spec hnums nums.length dst
    (Nat.le_refl _) (by rw [hall, hdst])
    (by rw [hall, hnone, ← hdst, List.drop_length, List.flatten_nil])
  rw [hall, ← hdst] at hrun
  rw [fillContent, hrun]
  simp only [Option.bind_eq_bind, Option.bind_some]
  have hzip : (nums.zip ((nums.map Decimal.ofInt).map List.length)).take i =
      (nums.take i).map fun v => (v, (Decimal.ofInt v).length) := by
    have hmap : (nums.map id).zip (nums.map fun v => (Decimal.ofInt v).length) =
        nums.map fun v => (v, (Decimal.ofInt v).length) := List.zip_map'
    rw [List.map_id] at hmap
    rw [List.map_map, List.map_take]
    exact congrArg (List.take i) hmap
  have hflat : (nums.map Decimal.ofInt).flatten =
      ((nums.take i).map Decimal.ofInt).flatten ++ ((nums.map Decimal.ofInt).drop i).flatten := by
    rw [List.map_take, ← List.flatten_append, List.take_append_drop]
  have hparts : dst' = dst'.take ((nums.take i).map Decimal.ofInt).flatten.length ++
      ((nums.map Decimal.ofInt).drop i).flatten := by
    rw [← hdrop, List.map_take, List.take_append_drop]
  have hforwards := writeForwards_spec (nums.take i) scratchSpace []
    (dst'.take ((nums.take i).map Decimal.ofInt).flatten.length)
    ((nums.map Decimal.ofInt).drop i).flatten (fun v hv => hnums v (List.mem_of_mem_take hv))
    hscratch (by
      have := congrArg List.length hflat
      rw [List.length_append] at this
      rw [List.length_take]
      omega)
  rw [List.nil_append, ← hparts] at hforwards
  rw [hzip, hflat]
  exact hforwards

/-- **parse_int takes exactly canonical decimals and restores them**: the list of strings is parsed
where each is the decimal of a 64-bit integer, the two parsers agree on every string, and the writer
gives the sizes and the concatenation of the strings of any integers. -/
theorem parseInt_exact :
    (∀ (hasAVX2 : Bool) (fields : List (List UInt8)),
      ∃ r, parseInt hasAVX2 fields.flatten (fields.map List.length) = some r ∧
        (r.isSome ↔ ∀ field ∈ fields, ∃ v, InRange v ∧ field = Decimal.ofInt v) ∧
        ∀ nums, r = some nums → nums.map Decimal.ofInt = fields ∧ ∀ v ∈ nums, InRange v) ∧
    (∀ before str : List UInt8, 32 ≤ (before ++ str).length →
      parseInt64Unsafe_AVX before str = parseInt64_fallback str) ∧
    ∀ nums : List Int, (∀ v ∈ nums, InRange v) →
      (fillFieldSizes nums).1 = nums.map (fun v => (Decimal.ofInt v).length) ∧
      ∀ dst scratchSpace : List UInt8, dst.length = (fillFieldSizes nums).2 →
        scratchSpace.length = MAX_STRING_LENGTH →
        fillContent dst scratchSpace nums (fillFieldSizes nums).1 =
          some (nums.map Decimal.ofInt).flatten := by
  refine ⟨fun hasAVX2 fields => ?_, fun before str h => avx_eq_fallback h, fun nums hnums => ?_⟩
  · obtain ⟨r, hrun, hr⟩ := parseInt_spec hasAVX2 fields
    refine ⟨r, hrun, ⟨fun hsome => ?_, fun hall => ?_⟩, fun nums h => ?_⟩
    · obtain ⟨nums, rfl⟩ := Option.isSome_iff_exists.1 hsome
      obtain ⟨hrange, rfl⟩ := (hr nums).1 rfl
      intro field hfield
      obtain ⟨v, hv, rfl⟩ := List.mem_map.1 hfield
      exact ⟨v, hrange v hv, rfl⟩
    · obtain ⟨nums, hnums⟩ := exists_canonical hall
      rw [(hr nums).2 hnums]
      rfl
    · exact ⟨((hr nums).1 h).2, ((hr nums).1 h).1⟩
  · rw [fillFieldSizes_eq hnums]
    refine ⟨by rw [List.map_map]; rfl, fun dst scratchSpace hdst hscratch => ?_⟩
    exact fillContent_eq hnums hdst hscratch

theorem parseInt_exact_three :
    (∃ r, parseInt true [Decimal.ofInt (-7), Decimal.ofInt 12].flatten
        ([Decimal.ofInt (-7), Decimal.ofInt 12].map List.length) = some r ∧ r.isSome) ∧
      fillContent (List.replicate (fillFieldSizes [-7, 12]).2 0) (List.replicate 21 0) [-7, 12]
        (fillFieldSizes [-7, 12]).1 = some ([-7, 12].map Decimal.ofInt).flatten := by
  have hrange : ∀ v ∈ ([-7, 12] : List Int), InRange v := by
    simp only [List.forall_mem_cons, InRange]
    exact ⟨by decide, by decide, List.forall_mem_nil _⟩
  obtain ⟨hparse, -, hwrite⟩ := parseInt_exact
  obtain ⟨r, hrun, hsome, -⟩ := hparse true ([-7, 12].map Decimal.ofInt)
  refine ⟨⟨r, hrun, hsome.2 fun field hfield => ?_⟩, ?_⟩
  · obtain ⟨v, hv, rfl⟩ := List.mem_map.1 hfield
    exact ⟨v, hrange v hv, rfl⟩
  · exact (hwrite [-7, 12] hrange).2 _ _ List.length_replicate List.length_replicate

end OpenZL.Codecs.ParseInt
