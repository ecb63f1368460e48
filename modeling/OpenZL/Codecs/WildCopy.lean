import OpenZL.Lib.Buffer

/-!
# Wild copies

`ZS_wildcopy` of `copy.h`, for buffers that do not overlap closely: it copies 16 bytes, then 32 at
a time until it has copied enough, so that it writes more than it is asked for.

Principal results: `memcpy_other`, `memcpy_within`, `wildcopy_eq_none`, `wildcopy_spec`.
-/

namespace OpenZL.Codecs.Copy

open OpenZL.Lib

/-- `ZS_WILDCOPY_OVERLENGTH` -/
def ZS_WILDCOPY_OVERLENGTH : Nat := 32

/-- `ZS_WILDCOPY_VECLEN` -/
def ZS_WILDCOPY_VECLEN : Nat := 16

/-- The ranges of `n` bytes at two places of one buffer do not meet. -/
def Apart (op ip n : Nat) : Prop := n = 0 ∨ ip + n ≤ op ∨ op + n ≤ ip

instance (op ip n : Nat) : Decidable (Apart op ip n) :=
  inferInstanceAs (Decidable (_ ∨ _ ∨ _))

/-- `memcpy` of `n` bytes to `op`, from `ip` in another buffer or, without one, in `dst`. -/
def memcpy (dst : List UInt8) (op : Nat) (src : Option (List UInt8)) (ip n : Nat) :
    Option (List UInt8) :=
  if src.isNone → Apart op ip n then do
    let bytes ← Buffer.load (src.getD dst) ip n
    Buffer.store dst op bytes
  else none

/-- The loop of `ZS_wildcopy`. -/
def wildcopyLoop (src : Option (List UInt8)) (oend : Nat) :
    Nat → List UInt8 → Nat → Nat → Option (List UInt8)
  | 0, _, _, _ => none
  | fuel + 1, dst, op, ip => do
      let dst ← memcpy dst op src ip 16
      let dst ← memcpy dst (op + 16) src (ip + 16) 16
      if op + 32 < oend then wildcopyLoop src oend fuel dst (op + 32) (ip + 32) else some dst

/-- `ZS_wildcopy` with `ZS_wo_no_overlap`. -/
def wildcopy (dst : List UInt8) (op : Nat) (src : Option (List UInt8)) (ip length : Nat) :
    Option (List UInt8) :=
  if src.isNone → ip + ZS_WILDCOPY_VECLEN ≤ op ∨ op + ZS_WILDCOPY_VECLEN ≤ ip then do
    let dst ← memcpy dst op src ip 16
    if op + 16 ≥ op + length then some dst
    else wildcopyLoop src (op + length) length dst (op + 16) (ip + 16)
  else none

section Bounds

variable {dst buf : List UInt8} {op ip n : Nat}

theorem memcpy_other (hip : ip + n ≤ buf.length) :
    memcpy dst op (some buf) ip n = Buffer.store dst op (Buffer.read buf ip n) := by
  rw [memcpy, if_pos nofun, Option.getD_some, Buffer.load_of_le hip]
  rfl

theorem memcpy_within (hapart : Apart op ip n) (hip : ip + n ≤ dst.length) :
    memcpy dst op none ip n = Buffer.store dst op (Buffer.read dst ip n) := by
  rw [memcpy, if_pos fun _ => hapart, Option.getD_none, Buffer.load_of_le hip]
  rfl

end Bounds

/-- Copies of 16 bytes one after the other. -/
def chunks (src : Option (List UInt8)) : Nat → List UInt8 → Nat → Nat → Option (List UInt8)
  | 0, dst, _, _ => some dst
  | n + 1, dst, op, ip => do
      let dst ← memcpy dst op src ip 16
      chunks src n dst (op + 16) (ip + 16)

/-- The number of bytes that `ZS_wildcopy` writes. -/
def wildLength (length : Nat) : Nat := 16 + (length - 16 + 31) / 32 * 32

theorem wildcopyLoop_eq (src : Option (List UInt8)) (oend : Nat) (fuel : Nat) :
    ∀ (dst : List UInt8) (op ip : Nat), op < oend → oend ≤ op + fuel →
      wildcopyLoop src oend fuel dst op ip = chunks src ((oend - op + 31) / 32 * 2) dst op ip := by
  induction fuel with
  | zero =>
    intro dst op ip hlt hle
    omega
  | succ fuel ih =>
    intro dst op ip hlt hle
    obtain ⟨r, hr⟩ : ∃ r, (oend - op + 31) / 32 * 2 = r + 1 + 1 :=
      ⟨(oend - op + 31) / 32 * 2 - 2, by omega⟩
    rw [wildcopyLoop, hr, chunks]
    cases memcpy dst op src ip 16 with
    | none => rfl
    | some dst₁ =>
      simp only [Option.bind_eq_bind, Option.bind_some, chunks]
      cases memcpy dst₁ (op + 16) src (ip + 16) 16 with
      | none => rfl
      | some dst₂ =>
        simp only [Option.bind_some]
        by_cases hmore : op + 32 < oend
        · rw [if_pos hmore, ih _ _ _ hmore (by omega)]
          congr 1
          omega
        · rw [if_neg hmore, show r = 0 by omega, chunks]

theorem wildcopy_eq {src : Option (List UInt8)} {op ip : Nat}
    (hapart : src.isNone → ip + 16 ≤ op) (dst : List UInt8) (length : Nat) :
    wildcopy dst op src ip length = chunks src (wildLength length / 16) dst op ip := by
  obtain ⟨r, hr⟩ : ∃ r, wildLength length / 16 = r + 1 :=
    ⟨wildLength length / 16 - 1, by unfold wildLength; omega⟩
  have hguard : src.isNone → ip + ZS_WILDCOPY_VECLEN ≤ op ∨ op + ZS_WILDCOPY_VECLEN ≤ ip :=
    fun h => Or.inl (hapart h)
  rw [wildcopy, if_pos hguard, hr, chunks]
  cases memcpy dst op src ip 16 with
  | none => rfl
  | some dst₁ =>
    simp only [Option.bind_eq_bind, Option.bind_some]
    by_cases hlong : op + 16 ≥ op + length
    · have hzero : r = 0 := by
        unfold wildLength at hr
        omega
      rw [if_pos hlong, hzero, chunks]
    · rw [if_neg hlong, wildcopyLoop_eq _ _ _ _ _ _ (by omega) (by omega)]
      congr 1
      unfold wildLength at hr
      omega

section Chunks

variable {src : Option (List UInt8)} {dst : List UInt8} {op ip : Nat}

theorem memcpy_chunk (hapart : src.isNone → ip + 16 ≤ op)
    (hsrc : ip + 16 ≤ (src.getD dst).length) :
    memcpy dst op src ip 16 = Buffer.store dst op (Buffer.read (src.getD dst) ip 16) := by
  cases src with
  | none => exact memcpy_within (Or.inr (Or.inl (hapart rfl))) hsrc
  | some buf => exact memcpy_other hsrc

theorem chunks_eq_none (n : Nat) : ∀ {dst : List UInt8} {op ip : Nat},
    (src.isNone → ip + 16 ≤ op) → op ≤ dst.length → dst.length < op + 16 * n →
      chunks src n dst op ip = none := by
  induction n with
  | zero =>
    intro dst op ip hapart hop hlt
    omega
  | succ n ih =>
    intro dst op ip hapart hop hlt
    rw [chunks]
    by_cases hsrc : ip + 16 ≤ (src.getD dst).length
    · have hread : (Buffer.read (src.getD dst) ip 16).length = 16 := Buffer.length_read hsrc
      rw [memcpy_chunk hapart hsrc]
      by_cases hfit : op + 16 ≤ dst.length
      · have hfit' : op + (Buffer.read (src.getD dst) ip 16).length ≤ dst.length := by omega
        have hlen := Buffer.length_write hfit'
        rw [Buffer.store_of_le hfit']
        exact ih (fun h => by have := hapart h; omega) (by omega) (by omega)
      · rw [Buffer.store_of_lt (by omega)]
        rfl
    · have hload : Buffer.load (src.getD dst) ip 16 = none := if_neg hsrc
      have hnone : memcpy dst op src ip 16 = none := by
        rw [memcpy, hload]
        split <;> rfl
      rw [hnone]
      rfl

theorem chunks_spec (n : Nat) : ∀ {dst : List UInt8} {op ip : Nat},
    (src.isNone → ip + 16 ≤ op) → op + 16 * n ≤ dst.length →
    (src.isSome → ip + 16 * n ≤ (src.getD dst).length) →
      ∃ xs, chunks src n dst op ip = some (Buffer.write dst op xs) ∧ xs.length = 16 * n ∧
        ∀ k, k ≤ 16 * n → (src.isNone → ip + k ≤ op) →
          xs.take k = Buffer.read (src.getD dst) ip k := by
  induction n with
  | zero =>
    intro dst op ip hapart hfit hsrc
    refine ⟨[], by rw [chunks, Buffer.write_nil], rfl, fun k hk _ => ?_⟩
    rw [Nat.le_zero.1 hk, Buffer.read_zero, List.take_zero]
  | succ n ih =>
    intro dst op ip hapart hfit hsrc
    have hle : ip + 16 ≤ (src.getD dst).length := by
      cases src with
      | none =>
        have := hapart rfl
        rw [Option.getD_none]
        omega
      | some buf =>
        have := hsrc rfl
        omega
    have hread : (Buffer.read (src.getD dst) ip 16).length = 16 := Buffer.length_read hle
    have hfit' : op + (Buffer.read (src.getD dst) ip 16).length ≤ dst.length := by omega
    have hlen := Buffer.length_write hfit'
    obtain ⟨xs, hrun, hxs, htake⟩ := @ih
      (Buffer.write dst op (Buffer.read (src.getD dst) ip 16)) (op + 16) (ip + 16)
      (fun h => by have := hapart h; omega) (by omega) fun h => by
        cases src with
        | none => cases h
        | some buf =>
          have := hsrc rfl
          rw [Option.getD_some] at this ⊢
          omega
    refine ⟨Buffer.read (src.getD dst) ip 16 ++ xs, ?_, ?_, fun k hk hbefore => ?_⟩
    · rw [chunks, memcpy_chunk hapart hle, Buffer.store_of_le hfit']
      rw [Option.bind_eq_bind, Option.bind_some, hrun, ← Buffer.write_write hfit', hread]
    · rw [List.length_append, hread, hxs]
      omega
    · by_cases hfirst : k ≤ 16
      · rw [List.take_append_of_le_length (by omega), Buffer.read_eq, List.take_take,
          Nat.min_eq_left hfirst, Buffer.read_eq]
      · obtain ⟨j, rfl⟩ := Nat.exists_eq_add_of_le (Nat.le_of_not_le hfirst)
        have hrest : xs.take j =
            Buffer.read (src.getD (Buffer.write dst op (Buffer.read (src.getD dst) ip 16)))
              (ip + 16) j :=
          htake j (by omega) fun h => by have := hbefore h; omega
        have hsame : Buffer.read
            (src.getD (Buffer.write dst op (Buffer.read (src.getD dst) ip 16))) (ip + 16) j =
              Buffer.read (src.getD dst) (ip + 16) j := by
          cases src with
          | none =>
            have := hbefore rfl
            exact Buffer.read_write_before (by omega) (by omega) _
          | some buf => rfl
        rw [Buffer.read_add, List.take_append, hread, Nat.add_sub_cancel_left,
          List.take_of_length_le (by omega), hrest, hsame]

end Chunks

section WildCopy

variable {src : Option (List UInt8)} {dst : List UInt8} {op ip length : Nat}

theorem wildLength_eq (length : Nat) : 16 * (wildLength length / 16) = wildLength length := by
  unfold wildLength
  omega

theorem le_wildLength (length : Nat) : length ≤ wildLength length := by
  unfold wildLength
  omega

theorem wildLength_le {length room : Nat} (h : length + 32 ≤ room) : wildLength length ≤ room := by
  unfold wildLength
  omega

/-- **A wild copy that leaves the output is undefined.** -/
theorem wildcopy_eq_none (hapart : src.isNone → ip + 16 ≤ op) (hop : op ≤ dst.length)
    (hlt : dst.length < op + wildLength length) : wildcopy dst op src ip length = none := by
  rw [wildcopy_eq hapart]
  refine chunks_eq_none _ hapart hop ?_
  rwa [wildLength_eq]

/-- **A wild copy that stays in the output copies what it is asked for.** -/
theorem wildcopy_spec (hapart : src.isNone → ip + 16 ≤ op)
    (hfit : op + wildLength length ≤ dst.length)
    (hsrc : src.isSome → ip + wildLength length ≤ (src.getD dst).length) :
    ∃ xs, wildcopy dst op src ip length = some (Buffer.write dst op xs) ∧
      xs.length = wildLength length ∧
        ((src.isNone → ip + length ≤ op) →
          xs.take length = Buffer.read (src.getD dst) ip length) := by
  rw [wildcopy_eq hapart]
  obtain ⟨xs, hrun, hxs, htake⟩ := @chunks_spec src (wildLength length / 16) dst op ip hapart
    (by rwa [wildLength_eq]) (by rwa [wildLength_eq])
  rw [wildLength_eq] at hxs htake
  exact ⟨xs, hrun, hxs, htake length (le_wildLength length)⟩

end WildCopy

end OpenZL.Codecs.Copy
