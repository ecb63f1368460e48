import OpenZL.Codecs.WildCopy
import OpenZL.Lib.PeriodicCopy

/-!
# Copies over a short distance

`copy.h` within one buffer: `ZS_wildcopy` when the source may overlap the destination, and
`ZS_safecopy`, which stops where it is asked to.

Principal results: `copyLoop_filled`, `wildcopyWithin_filled`, `safecopy_filled`.
-/

namespace OpenZL.Codecs.Copy

open OpenZL.Lib OpenZL.Lib.Periodic

/-- `ZS_wildcopyOverlap`. -/
inductive WildcopyOverlap
  | noOverlap
  | srcBeforeDst
  deriving DecidableEq, Repr

/-- `dec32table` of `ZS_overlapCopy8`: added. -/
def dec32table : List Nat := [0, 1, 2, 1, 4, 4, 4, 4]

/-- `dec64table` of `ZS_overlapCopy8`: subtracted. -/
def dec64table : List Nat := [8, 8, 8, 7, 8, 9, 10, 11]

/-- An assignment `*op = *ip`. -/
def copyByte (dst : List UInt8) (op ip : Nat) : Option (List UInt8) := do
  let byte ← Buffer.load dst ip 1
  Buffer.store dst op byte

/-- `ZS_overlapCopy8`: the buffer, and where `op` and `ip` are afterwards. -/
def overlapCopy8 (dst : List UInt8) (op ip offset : Nat) : Option (List UInt8 × Nat × Nat) :=
  if offset < 8 then do
    let dst ← copyByte dst op ip
    let dst ← copyByte dst (op + 1) (ip + 1)
    let dst ← copyByte dst (op + 2) (ip + 2)
    let dst ← copyByte dst (op + 3) (ip + 3)
    let ip := ip + dec32table.getD offset 0
    let dst ← memcpy dst (op + 4) none ip 4
    some (dst, op + 8, ip + 8 - dec64table.getD offset 0)
  else do
    let dst ← memcpy dst op none ip 8
    some (dst, op + 8, ip + 8)

/-- The loop of `ZS_wildcopy` over short distances. -/
def wildcopyLoop8 (oend : Nat) : Nat → List UInt8 → Nat → Nat → Option (List UInt8)
  | 0, _, _, _ => none
  | fuel + 1, dst, op, ip => do
      let dst ← memcpy dst op none ip 8
      let dst ← memcpy dst (op + 8) none (ip + 8) 8
      if op + 16 < oend then wildcopyLoop8 oend fuel dst (op + 16) (ip + 16) else some dst

/-- `ZS_wildcopy` within one buffer. -/
def wildcopyWithin (ovtype : WildcopyOverlap) (dst : List UInt8) (op ip length : Nat) :
    Option (List UInt8) :=
  if ovtype = .srcBeforeDst ∧ (op : Int) - ip < ZS_WILDCOPY_VECLEN then
    -- `ZL_ASSERT(diff >= 0)`
    if op < ip then none
    else do
      let (dst, op', ip') ← overlapCopy8 dst op ip (op - ip)
      if op' ≥ op + length then some dst else wildcopyLoop8 (op + length) length dst op' ip'
  else wildcopy dst op none ip length

/-- `while (op < oend) *op++ = *ip++`, for `oend - op` bytes. -/
def copyLoop : Nat → List UInt8 → Nat → Nat → Option (List UInt8)
  | 0, dst, _, _ => some dst
  | n + 1, dst, op, ip => do
      let dst ← copyByte dst op ip
      copyLoop n dst (op + 1) (ip + 1)

/-- `ZS_safecopy` within one buffer. -/
def safecopy (ovtype : WildcopyOverlap) (dst : List UInt8) (op ip length : Nat) :
    Option (List UInt8) :=
  if length > ZS_WILDCOPY_OVERLENGTH then do
    let wildlen := length - ZS_WILDCOPY_OVERLENGTH
    let dst ← wildcopyWithin ovtype dst op ip wildlen
    copyLoop (length - wildlen) dst (op + wildlen) (ip + wildlen)
  else copyLoop length dst op ip

/-- A buffer with `c` bytes of the repetition of the last `d` bytes from `op` on. -/
def filled (dst : List UInt8) (op d c : Nat) : List UInt8 :=
  Buffer.write dst op (run (dst.take op) d 0 c)

section Filled

variable {dst : List UInt8} {op d c j k q : Nat}

theorem filled_zero (dst : List UInt8) (op d : Nat) : filled dst op d 0 = dst := by
  rw [filled, run, List.range_zero, List.map_nil, Buffer.write_nil]

variable (h : op + c ≤ dst.length)

include h

theorem length_filled : (filled dst op d c).length = dst.length :=
  Buffer.length_write (by rwa [length_run])

theorem take_filled (hj : j ≤ c) :
    (filled dst op d c).take (op + j) = dst.take op ++ run (dst.take op) d 0 j := by
  rw [filled, Buffer.take_write (by omega) (by rwa [length_run]), take_run hj]

theorem drop_filled (hj : c ≤ j) :
    (filled dst op d c).drop (op + j) = dst.drop (op + j) := by
  rw [filled, Buffer.write, List.drop_append, length_run, List.length_append, length_run,
    List.length_take, Nat.min_eq_left (by omega), List.drop_eq_nil_of_le, List.nil_append,
    List.drop_drop]
  · congr 1
    omega
  · rw [List.length_append, List.length_take, length_run]
    omega

theorem extends_filled : Extends (filled dst op d c) (dst.take op) d c := by
  have hlen : (dst.take op).length = op := List.length_take_of_le (by omega)
  refine ⟨by rw [hlen, length_filled h]; exact h, ?_⟩
  rw [hlen, take_filled h (Nat.le_refl c), extend]

theorem write_filled (hj : j ≤ c) :
    Buffer.write (filled dst op d c) (op + j) (run (dst.take op) d j k) =
      filled dst op d (max c (j + k)) := by
  rw [filled, Buffer.write_write_at (by rwa [length_run]) (by rwa [length_run]), filled]
  congr 1
  have hjoin := run_add (dst.take op) d 0 j k
  rw [Nat.zero_add] at hjoin
  rw [Buffer.write, take_run hj, length_run, ← hjoin]
  rcases Nat.le_total c (j + k) with hle | hle
  · rw [Nat.max_eq_right hle, List.drop_eq_nil_of_le (by rw [length_run]; exact hle),
      List.append_nil]
  · obtain ⟨r, rfl⟩ := Nat.exists_eq_add_of_le hle
    rw [Nat.max_eq_left hle, run_add _ _ _ (j + k) r, List.drop_left' (length_run _ _ _ _)]

variable (hd : 0 < d) (hdle : d ≤ op)

include hd hdle

theorem read_filled (hj : j ≤ c) (hlo : op - d ≤ q) (hhi : q + k ≤ op + j) (hdvd : d ∣ op + j - q) :
    Buffer.read (filled dst op d c) q k = run (dst.take op) d j k := by
  have hlen : (dst.take op).length = op := List.length_take_of_le (by omega)
  have hext := (@extends_filled dst op d c h).mono hj
  refine hext.read hd (by omega) (by omega) (by omega) ?_
  rwa [hlen]

theorem copy_filled (hj : j ≤ c) (hlo : op - d ≤ q) (hhi : q + k ≤ op + j) (hdvd : d ∣ op + j - q)
    (hfit : op + j + k ≤ dst.length) :
    memcpy (filled dst op d c) (op + j) none q k = some (filled dst op d (max c (j + k))) := by
  have hlen := @length_filled dst op d c h
  rw [memcpy_within (Or.inr (Or.inl hhi)) (by omega), read_filled h hd hdle hj hlo hhi hdvd,
    Buffer.store_of_le (by rw [length_run, hlen]; exact hfit), write_filled h hj]

theorem copy_filled_next (hlo : op - d ≤ q) (hhi : q + k ≤ op + c) (hdvd : d ∣ op + c - q)
    (hfit : op + c + k ≤ dst.length) :
    memcpy (filled dst op d c) (op + c) none q k = some (filled dst op d (c + k)) := by
  rw [copy_filled h hd hdle (Nat.le_refl c) hlo hhi hdvd hfit, Nat.max_eq_right (by omega)]

theorem copyByte_filled (hj : j ≤ c) (hfit : op + j + 1 ≤ dst.length) :
    copyByte (filled dst op d c) (op + j) (op - d + j) =
      some (filled dst op d (max c (j + 1))) := by
  have hlen := @length_filled dst op d c h
  rw [copyByte, Buffer.load_of_le (by omega), Option.bind_eq_bind, Option.bind_some,
    read_filled h hd hdle hj (by omega) (by omega) ⟨1, by omega⟩,
    Buffer.store_of_le (by rw [length_run, hlen]; exact hfit), write_filled h hj]

end Filled

theorem overlap_tables : ∀ o, o < 8 →
    dec32table.getD o 0 ≤ o ∧ dec64table.getD o 0 ≤ dec32table.getD o 0 + 8 ∧
      8 + dec32table.getD o 0 ≤ o + dec64table.getD o 0 ∧
      (0 < o → o ∣ 4 + o - dec32table.getD o 0 ∧
        o ∣ o + dec64table.getD o 0 - dec32table.getD o 0) := by
  decide

section Copies

variable {dst : List UInt8} {op d : Nat}

/-- **A copy byte by byte repeats the last bytes.** -/
theorem copyLoop_filled (hd : 0 < d) (hdle : d ≤ op) : ∀ (n : Nat) {c j : Nat}, j ≤ c →
    op + c ≤ dst.length → op + j + n ≤ dst.length →
      copyLoop n (filled dst op d c) (op + j) (op - d + j) =
        some (filled dst op d (max c (j + n)))
  | 0, c, j, hj, _, _ => by rw [copyLoop, Nat.add_zero, Nat.max_eq_left hj]
  | n + 1, c, j, hj, hc, hfit => by
      rw [copyLoop, copyByte_filled hc hd hdle hj (by omega), Option.bind_eq_bind,
        Option.bind_some, Nat.add_assoc, Nat.add_assoc,
        copyLoop_filled hd hdle n (Nat.le_max_right _ _) (by omega) (by omega)]
      congr 2
      omega

theorem overlapCopy8_filled (hd : 0 < d) (hdle : d ≤ op) (hfit : op + 8 ≤ dst.length) :
    ∃ s, overlapCopy8 dst op (op - d) d = some (filled dst op d 8, op + 8, op + 8 - s) ∧
      8 ≤ s ∧ s ≤ d + 8 ∧ d ∣ s := by
  have hbyte : ∀ i < 4, copyByte (filled dst op d i) (op + i) (op - d + i) =
      some (filled dst op d (i + 1)) := by
    intro i hi
    rw [copyByte_filled (by omega) hd hdle (Nat.le_refl i) (by omega),
      Nat.max_eq_right (Nat.le_succ i)]
  have hstart := filled_zero dst op d
  unfold overlapCopy8
  split
  · rename_i hlt
    obtain ⟨hsmall, hback, hfar, hdvd⟩ := overlap_tables d hlt
    generalize dec32table.getD d 0 = dec32 at *
    generalize dec64table.getD d 0 = dec64 at *
    have h₀ := hbyte 0 (by decide)
    rw [hstart] at h₀
    have hlast : memcpy (filled dst op d 4) (op + 4) none (op - d + dec32) 4 =
        some (filled dst op d 8) := by
      refine copy_filled_next (by omega) hd hdle (by omega) (by omega) ?_ (by omega)
      rw [show op + 4 - (op - d + dec32) = 4 + d - dec32 by omega]
      exact (hdvd hd).1
    refine ⟨d + dec64 - dec32, ?_, by omega, by omega, (hdvd hd).2⟩
    simp only [Nat.add_zero] at h₀
    simp only [h₀, hbyte 1 (by decide), hbyte 2 (by decide), hbyte 3 (by decide), hlast,
      Option.bind_eq_bind, Option.bind_some]
    congr 3
    omega
  · rename_i hge
    have hcopy := @copy_filled_next dst op d 0 8 (op - d) (by omega) hd hdle (Nat.le_refl _)
      (by omega) ⟨1, by omega⟩ (by omega)
    rw [hstart, Nat.add_zero] at hcopy
    refine ⟨d, ?_, by omega, by omega, Nat.dvd_refl d⟩
    rw [hcopy]
    simp only [Option.bind_eq_bind, Option.bind_some]
    congr 3
    omega

theorem wildcopyLoop8_filled {s length : Nat} (hd : 0 < d) (hdle : d ≤ op) (hs : 8 ≤ s)
    (hdvd : d ∣ s) (hfit : op + length + 16 ≤ dst.length) (fuel : Nat) : ∀ {c : Nat},
      s ≤ d + c → c < length → length ≤ c + fuel → ∃ c', length ≤ c' ∧ c' ≤ length + 16 ∧
        wildcopyLoop8 (op + length) fuel (filled dst op d c) (op + c) (op + c - s) =
          some (filled dst op d c') := by
  induction fuel with
  | zero =>
    intro c _ hlt hfuel
    omega
  | succ fuel ih =>
    intro c hback hlt hfuel
    have hcopy₁ := @copy_filled_next dst op d c 8 (op + c - s) (by omega) hd hdle (by omega)
      (by omega) (by rwa [Nat.sub_sub_self (by omega)]) (by omega)
    have hcopy₂ := @copy_filled_next dst op d (c + 8) 8 (op + c - s + 8) (by omega) hd hdle
      (by omega) (by omega) (by rwa [show op + (c + 8) - (op + c - s + 8) = s by omega])
      (by omega)
    rw [← Nat.add_assoc, show c + 8 + 8 = c + 16 from rfl] at hcopy₂
    rw [wildcopyLoop8, hcopy₁, Option.bind_eq_bind, Option.bind_some, hcopy₂, Option.bind_some]
    by_cases hmore : c + 16 < length
    · rw [if_pos (by omega), Nat.add_assoc,
        show op + c - s + 16 = op + (c + 16) - s by omega]
      exact ih (by omega) hmore (by omega)
    · rw [if_neg (by omega)]
      exact ⟨c + 16, by omega, by omega, rfl⟩

theorem chunks_filled (hd : 16 ≤ d) (hdle : d ≤ op) : ∀ (n : Nat) {c : Nat},
    op + c + 16 * n ≤ dst.length →
      chunks none n (filled dst op d c) (op + c) (op - d + c) =
        some (filled dst op d (c + 16 * n))
  | 0, c, _ => rfl
  | n + 1, c, hfit => by
      rw [chunks, copy_filled_next (by omega) (by omega) hdle (by omega) (by omega)
        ⟨1, by omega⟩ (by omega), Option.bind_eq_bind, Option.bind_some, Nat.add_assoc,
        Nat.add_assoc, chunks_filled hd hdle n (by omega)]
      congr 2
      omega

theorem wildcopyWithin_filled {ovtype : WildcopyOverlap} {length : Nat} (hd : 0 < d)
    (hdle : d ≤ op) (hmode : ovtype = .srcBeforeDst ∨ 16 ≤ d)
    (hfit : op + length + 32 ≤ dst.length) :
    ∃ c, length ≤ c ∧ c ≤ length + 32 ∧
      wildcopyWithin ovtype dst op (op - d) length = some (filled dst op d c) := by
  unfold wildcopyWithin
  rw [ZS_WILDCOPY_VECLEN]
  by_cases hshort : d < 16
  · rw [if_pos ⟨hmode.resolve_right (by omega), by omega⟩, if_neg (by omega),
      Nat.sub_sub_self hdle]
    obtain ⟨s, hcopy, hs8, hs, hdvd⟩ := @overlapCopy8_filled dst op d hd hdle (by omega)
    simp only [hcopy, Option.bind_eq_bind, Option.bind_some]
    by_cases hmore : 8 < length
    · obtain ⟨c, hc, hc', hrun⟩ := @wildcopyLoop8_filled dst op d s length hd hdle hs8 hdvd
        (by omega) length 8 hs hmore (by omega)
      rw [if_neg (by omega), hrun]
      exact ⟨c, hc, by omega, rfl⟩
    · rw [if_pos (by omega)]
      exact ⟨8, by omega, by omega, rfl⟩
  · rw [if_neg (by omega), wildcopy_eq fun _ => by omega]
    have hchunks := @chunks_filled dst op d (by omega) hdle (wildLength length / 16) 0 (by
      rw [wildLength_eq]
      unfold wildLength
      omega)
    rw [filled_zero, Nat.add_zero, Nat.add_zero, Nat.zero_add, wildLength_eq] at hchunks
    exact ⟨wildLength length, le_wildLength length, wildLength_le (Nat.le_refl _), hchunks⟩

/-- Only bytes from `op` on have changed. -/
structure Kept (op : Nat) (dst dst' : List UInt8) : Prop where
  length : dst'.length = dst.length
  take : dst'.take op = dst.take op

theorem Kept.store {dst' bytes : List UInt8} {p : Nat} (h : Kept op dst dst') (hop : op ≤ p)
    (hfit : p + bytes.length ≤ dst.length) :
    ∃ out, Buffer.store dst' p bytes = some out ∧ Kept op dst out := by
  have hlen := h.length
  refine ⟨_, Buffer.store_of_le (by omega), ?_, ?_⟩
  · rw [Buffer.length_write (by omega), hlen]
  · rw [Buffer.write, List.append_assoc, List.take_append_of_le_length, List.take_take,
      Nat.min_eq_left hop, h.take]
    rw [List.length_take]
    omega

theorem Kept.memcpy {dst' : List UInt8} {p q k : Nat} (h : Kept op dst dst') (hop : op ≤ p)
    (hq : q + k ≤ p) (hfit : p + k ≤ dst.length) :
    ∃ out, memcpy dst' p none q k = some out ∧ Kept op dst out := by
  have hlen := h.length
  have hread : (Buffer.read dst' q k).length = k := Buffer.length_read (by omega)
  rw [memcpy_within (Or.inr (Or.inl hq)) (by omega)]
  exact h.store hop (by omega)

theorem Kept.copyByte {dst' : List UInt8} {p : Nat} (h : Kept op dst dst') (hop : op ≤ p)
    (hfit : p + 1 ≤ dst.length) : ∃ out, copyByte dst' p p = some out ∧ Kept op dst out := by
  have hlen := h.length
  have hread : (Buffer.read dst' p 1).length = 1 := Buffer.length_read (by omega)
  rw [Copy.copyByte, Buffer.load_of_le (by omega), Option.bind_eq_bind, Option.bind_some]
  exact h.store hop (by omega)

theorem Kept.wildcopyLoop8 {length : Nat} (hfit : op + length + 16 ≤ dst.length) (fuel : Nat) :
    ∀ {dst' : List UInt8} {c : Nat}, Kept op dst dst' → 8 ≤ c → c < length → length ≤ c + fuel →
      ∃ out, wildcopyLoop8 (op + length) fuel dst' (op + c) (op + c - 8) = some out ∧
        Kept op dst out := by
  induction fuel with
  | zero =>
    intro dst' c _ _ hlt hfuel
    omega
  | succ fuel ih =>
    intro dst' c h hback hlt hfuel
    obtain ⟨d₁, hcopy₁, h₁⟩ := @Kept.memcpy _ _ _ (op + c) (op + c - 8) 8 h (by omega) (by omega)
      (by omega)
    obtain ⟨d₂, hcopy₂, h₂⟩ := @Kept.memcpy _ _ _ (op + c + 8) (op + c - 8 + 8) 8 h₁ (by omega)
      (by omega) (by omega)
    rw [Copy.wildcopyLoop8, hcopy₁, Option.bind_eq_bind, Option.bind_some, hcopy₂,
      Option.bind_some]
    by_cases hmore : c + 16 < length
    · rw [if_pos (by omega), Nat.add_assoc,
        show op + c - 8 + 16 = op + (c + 16) - 8 by omega]
      exact ih h₂ (by omega) hmore (by omega)
    · rw [if_neg (by omega)]
      exact ⟨d₂, rfl, h₂⟩

/-- Over no distance at all the copy is still defined, and keeps what is before it. -/
theorem wildcopyWithin_self {length : Nat} (hfit : op + length + 32 ≤ dst.length) :
    ∃ out, wildcopyWithin .srcBeforeDst dst op op length = some out ∧ Kept op dst out := by
  have h : Kept op dst dst := ⟨rfl, rfl⟩
  obtain ⟨d₁, hcopy₁, h₁⟩ := h.copyByte (Nat.le_refl op) (by omega)
  obtain ⟨d₂, hcopy₂, h₂⟩ := h₁.copyByte (Nat.le_add_right op 1) (by omega)
  obtain ⟨d₃, hcopy₃, h₃⟩ := h₂.copyByte (Nat.le_add_right op 2) (by omega)
  obtain ⟨d₄, hcopy₄, h₄⟩ := h₃.copyByte (Nat.le_add_right op 3) (by omega)
  obtain ⟨d₅, hcopy₅, h₅⟩ := @Kept.memcpy _ _ _ (op + 4) op 4 h₄ (by omega) (by omega) (by omega)
  have hcopy : overlapCopy8 dst op op 0 = some (d₅, op + 8, op) := by
    have hadd : dec32table.getD 0 0 = 0 := rfl
    have hsub : dec64table.getD 0 0 = 8 := rfl
    rw [overlapCopy8, if_pos (by decide), hadd, hsub]
    simp only [hcopy₁, hcopy₂, hcopy₃, hcopy₄, hcopy₅, Option.bind_eq_bind, Option.bind_some,
      Nat.add_zero, Nat.add_sub_cancel]
  unfold wildcopyWithin
  rw [if_pos ⟨rfl, by rw [ZS_WILDCOPY_VECLEN]; omega⟩, if_neg (by omega), Nat.sub_self, hcopy,
    Option.bind_eq_bind, Option.bind_some]
  dsimp only
  by_cases hmore : 8 < length
  · obtain ⟨out, hrun, hout⟩ := @Kept.wildcopyLoop8 dst op length (by omega) length d₅ 8 h₅
      (Nat.le_refl 8) hmore (by omega)
    exact ⟨out, by rw [if_neg (by omega), ← hrun, Nat.add_sub_cancel], hout⟩
  · exact ⟨d₅, if_pos (by omega), h₅⟩

theorem safecopy_filled {ovtype : WildcopyOverlap} {length : Nat} (hd : 0 < d) (hdle : d ≤ op)
    (hmode : ovtype = .srcBeforeDst ∨ 16 ≤ d) (hfit : op + length ≤ dst.length) :
    safecopy ovtype dst op (op - d) length = some (filled dst op d length) := by
  unfold safecopy
  rw [ZS_WILDCOPY_OVERLENGTH]
  split
  · rename_i hlong
    obtain ⟨c, hc, hc', hwild⟩ := @wildcopyWithin_filled dst op d ovtype (length - 32) hd hdle
      hmode (by omega)
    simp only [hwild, Option.bind_eq_bind, Option.bind_some]
    rw [copyLoop_filled hd hdle _ hc (by omega) (by omega)]
    congr 2
    omega
  · have hloop := @copyLoop_filled dst op d hd hdle length 0 0 (Nat.le_refl 0) (by omega)
      (by omega)
    rwa [filled_zero, Nat.add_zero, Nat.add_zero, Nat.zero_add, Nat.max_eq_right (Nat.zero_le _)]
      at hloop

theorem getD_filled {c i : Nat} (h : op + c ≤ dst.length) (hd : 0 < d) (hdle : d ≤ op)
    (hi : i < c) : (filled dst op d c).getD (op + i) 0 = dst.getD (op - d + i % d) 0 := by
  have hlen : (dst.take op).length = op := List.length_take_of_le (by omega)
  have hmod := Nat.mod_lt i hd
  have htake := (@extends_filled dst op d c h).take
  rw [hlen] at htake
  have hextend : (filled dst op d c).getD (op + i) 0 =
      (extend d c (dst.take op)).getD (op + i) default := by
    rw [← htake, List.getD_eq_getElem?_getD, List.getD_eq_getElem?_getD,
      List.getElem?_take_of_lt (by omega)]
    rfl
  rw [hextend, getD_extend hd (by omega) (by omega) (by omega), hlen,
    show op + i + d - op = i + d by omega, cell_congr (Nat.add_mod_right i d), cell, hlen,
    List.getD_eq_getElem?_getD, List.getElem?_take_of_lt (by omega), List.getD_eq_getElem?_getD]
  rfl

end Copies

/-- **Wild copies and safe copies equal the copy byte by byte**, which repeats the bytes between
source and destination. A wild copy writes at most `ZS_WILDCOPY_OVERLENGTH` bytes behind its end, a
safe copy none. -/
theorem copies_agree (ovtype : WildcopyOverlap) (dst : List UInt8) {op ip length : Nat}
    (hbefore : ip < op) (hmode : ovtype = .srcBeforeDst ∨ ip + ZS_WILDCOPY_VECLEN ≤ op)
    (hfit : op + length ≤ dst.length) :
    ∃ out, copyLoop length dst op ip = some out ∧
      out.length = dst.length ∧ out.take op = dst.take op ∧
      (∀ i < length, out.getD (op + i) 0 = dst.getD (ip + i % (op - ip)) 0) ∧
      out.drop (op + length) = dst.drop (op + length) ∧
      safecopy ovtype dst op ip length = some out ∧
      (op + length + ZS_WILDCOPY_OVERLENGTH ≤ dst.length →
        ∃ wild, wildcopyWithin ovtype dst op ip length = some wild ∧
          wild.length = dst.length ∧ wild.take (op + length) = out.take (op + length) ∧
          wild.drop (op + length + ZS_WILDCOPY_OVERLENGTH) =
            dst.drop (op + length + ZS_WILDCOPY_OVERLENGTH)) := by
  obtain ⟨d, hd, hdle, rfl⟩ : ∃ d, 0 < d ∧ d ≤ op ∧ ip = op - d :=
    ⟨op - ip, by omega, by omega, by omega⟩
  have hmode' : ovtype = .srcBeforeDst ∨ 16 ≤ d :=
    hmode.imp_right fun h => by rw [ZS_WILDCOPY_VECLEN] at h; omega
  rw [ZS_WILDCOPY_OVERLENGTH, Nat.sub_sub_self hdle]
  have hloop := @copyLoop_filled dst op d hd hdle length 0 0 (Nat.le_refl 0) (by omega) (by omega)
  rw [filled_zero, Nat.add_zero, Nat.add_zero, Nat.zero_add, Nat.max_eq_right (Nat.zero_le _)]
    at hloop
  have hstart := @take_filled dst op d length 0 hfit (Nat.zero_le _)
  rw [Nat.add_zero, run, List.range_zero, List.map_nil, List.append_nil] at hstart
  refine ⟨filled dst op d length, hloop, length_filled hfit, hstart,
    fun i hi => getD_filled hfit hd hdle hi, drop_filled hfit (Nat.le_refl _),
    safecopy_filled hd hdle hmode' hfit, fun hroom => ?_⟩
  obtain ⟨c, hc, hc', hwild⟩ := @wildcopyWithin_filled dst op d ovtype length hd hdle hmode' hroom
  have hfit' : op + c ≤ dst.length := by omega
  refine ⟨filled dst op d c, hwild, length_filled hfit', ?_, ?_⟩
  · rw [take_filled hfit' hc, take_filled hfit (Nat.le_refl _)]
  · rw [Nat.add_assoc, drop_filled hfit' hc']

/-- A copy over one byte, with a wild copy that has just enough room. -/
theorem copies_agree_one : ∃ out, copyLoop 3 (7 :: List.replicate 35 0) 1 0 = some out ∧
    out.take 4 = [7, 7, 7, 7] ∧
    ∃ wild, wildcopyWithin .srcBeforeDst (7 :: List.replicate 35 0) 1 0 3 = some wild ∧
      wild.take 4 = out.take 4 := by
  obtain ⟨out, hloop, -, -, -, -, -, hwild⟩ := @copies_agree .srcBeforeDst
    (7 :: List.replicate 35 0) 1 0 3 (by decide) (Or.inl rfl) (by decide)
  obtain ⟨wild, hrun, -, htake, -⟩ := hwild (by decide)
  refine ⟨out, hloop, ?_, wild, hrun, htake⟩
  have heval : copyLoop 3 (7 :: List.replicate 35 0) 1 0 =
      some (7 :: 7 :: 7 :: 7 :: List.replicate 32 0) := by decide
  rw [hloop] at heval
  rw [Option.some.inj heval]
  rfl

end OpenZL.Codecs.Copy
