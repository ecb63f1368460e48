import OpenZL.Common.Stream

/-!
# The representation of streams

What every sequence of operations keeps true of the sizes of a stream, and the operations that do
not keep it: `STREAM_consume` shrinks the capacity and not what is used of it, a second commit of
strings is checked against the whole capacity, a count may wrap around in `STREAM_commit`, and
references are set over what a stream held before.

* `Sound` — the invariant, from which `Sound.consistent` gives the sizes.
* `Sound.reserve`, `Sound.commit`, `Sound.copy` — operations that keep it.
-/

namespace OpenZL.Common

open OpenZL.Lib OpenZL.Lib.Cmd

variable {type : Option DataType} {s : Stream}

namespace Stream

/-- The relations between the sizes of a stream. -/
structure Consistent (s : Stream) : Prop where
  used_le : s.bufferUsed ≤ s.bufferCapacity
  count_le : s.buffer.writable → s.eltCount ≤ s.eltsCapacity
  last_le : s.lastCommitted ≤ s.eltCount
  fixed_used : s.writeCommitted = true → s.type ≠ some .string →
    s.bufferUsed = s.eltWidth * s.eltCount
  string_used : s.writeCommitted = true → s.type = some .string →
    s.bufferUsed = sumLens (s.lens.take s.eltCount)

/-- What the operations keep: also before a commit, with the memory behind the pointers. -/
structure Sound (s : Stream) : Prop where
  used_le : s.bufferUsed ≤ s.bufferCapacity
  capacity_le : s.bufferCapacity ≤ s.extent
  capacity_lt : s.bufferCapacity < 2 ^ 64
  elts_lt : s.eltsCapacity < 2 ^ 64
  elt_lt : s.eltCount < 2 ^ 64
  lens_lt : s.lens.length < 2 ^ 64
  count_le : s.buffer.writable → s.eltCount ≤ s.eltsCapacity
  last_le : s.lastCommitted ≤ s.eltCount
  open_count : s.writeCommitted = false → s.eltCount = 0
  fixed_used : s.type ≠ some .string → s.bufferUsed = s.eltWidth * s.eltCount
  fixed_capacity : s.type ≠ some .string → s.eltsCapacity * s.eltWidth ≤ s.bufferCapacity
  fixed_width : s.type ≠ some .string → s.eltWidth = 0 → s.eltsCapacity = 0 ∧ s.eltCount = 0
  string_used : s.type = some .string → s.bufferUsed = sumLens (s.lens.take s.eltCount)
  string_lens : s.type = some .string → s.eltCount ≤ s.lens.length
  untyped : s.type = none → s.eltWidth = 0

theorem Sound.consistent (h : s.Sound) : s.Consistent where
  used_le := h.used_le
  count_le := h.count_le
  last_le := h.last_le
  fixed_used := fun _ => h.fixed_used
  string_used := fun _ => h.string_used

/-- What there is to say of a stream that holds no element. -/
structure Empty (s : Stream) : Prop where
  count : s.eltCount = 0
  used : s.bufferUsed = 0
  last : s.lastCommitted = 0
  capacity_le : s.bufferCapacity ≤ s.extent
  capacity_lt : s.bufferCapacity < 2 ^ 64
  elts_lt : s.eltsCapacity < 2 ^ 64
  lens_lt : s.lens.length < 2 ^ 64
  fixed_capacity : s.type ≠ some .string → s.eltsCapacity * s.eltWidth ≤ s.bufferCapacity
  fixed_width : s.type ≠ some .string → s.eltWidth = 0 → s.eltsCapacity = 0
  untyped : s.type = none → s.eltWidth = 0

theorem Empty.sound (h : s.Empty) : s.Sound where
  used_le := by rw [h.used]; exact Nat.zero_le _
  capacity_le := h.capacity_le
  capacity_lt := h.capacity_lt
  elts_lt := h.elts_lt
  elt_lt := by rw [h.count]; decide
  lens_lt := h.lens_lt
  count_le := fun _ => by rw [h.count]; exact Nat.zero_le _
  last_le := by rw [h.last]; exact Nat.zero_le _
  open_count := fun _ => h.count
  fixed_used := fun _ => by rw [h.used, h.count, Nat.mul_zero]
  fixed_capacity := h.fixed_capacity
  fixed_width := fun ht hw => ⟨h.fixed_width ht hw, h.count⟩
  string_used := fun _ => by rw [h.used, h.count]; rfl
  string_lens := fun _ => by rw [h.count]; exact Nat.zero_le _
  untyped := h.untyped

theorem Sound.create : create.Sound := by
  apply Empty.sound
  constructor <;> simp [Stream.create, Stream.extent, Stream.lens]

theorem Sound.used_eq_zero (h : s.Sound) (h0 : s.eltCount = 0) : s.bufferUsed = 0 := by
  by_cases ht : s.type = some .string
  · rw [h.string_used ht, h0]
    rfl
  · rw [h.fixed_used ht, h0, Nat.mul_zero]

theorem Sound.last_eq_zero (h : s.Sound) (h0 : s.eltCount = 0) :
    s.lastCommitted = 0 := Nat.le_zero.1 (h0 ▸ h.last_le)

theorem Sound.empty (h : s.Sound) (h0 : s.eltCount = 0) : s.Empty where
  count := h0
  used := h.used_eq_zero h0
  last := h.last_eq_zero h0
  capacity_le := h.capacity_le
  capacity_lt := h.capacity_lt
  elts_lt := h.elts_lt
  lens_lt := h.lens_lt
  fixed_capacity := h.fixed_capacity
  fixed_width := fun ht hw => (h.fixed_width ht hw).1
  untyped := h.untyped

theorem Sound.capacity_eq_zero (h : s.Sound) (hnull : s.buffer.null) :
    s.bufferCapacity = 0 := by
  have hle := h.capacity_le
  rw [extent, hnull] at hle
  exact Nat.le_zero.1 hle

end Stream

/-! ## Reservations -/

theorem ensures_validateTypeWidth {eltWidth : Nat} :
    Ensures (validateTypeWidth type eltWidth) s fun r s' =>
      s' = s ∧ (r = .ok () → eltWidth ≠ 0 ∧ type ≠ none) := by
  unfold validateTypeWidth
  split
  · exact ensures_failWhen.2 ⟨fun _ => ⟨rfl, by simp⟩, fun h => ⟨rfl, fun _ => by simp at *; omega⟩⟩
  · exact ensures_failWhen.2 ⟨fun _ => ⟨rfl, by simp⟩, fun h => ⟨rfl, fun _ => by simp at *; omega⟩⟩
  · exact ensures_failWhen.2 ⟨fun _ => ⟨rfl, by simp⟩, fun h => ⟨rfl, fun _ => by simp at *; omega⟩⟩
  · exact ensures_failWhen.2 ⟨fun _ => ⟨rfl, by simp⟩, fun h => ⟨rfl, fun _ => by simp at *; omega⟩⟩
  · exact ensures_fail.2 ⟨rfl, by simp⟩

namespace Stream

variable {s : Stream}

/-- `s'` has the buffer of `s` and as many elements. -/
def SameBuffer (s s' : Stream) : Prop :=
  s'.buffer = s.buffer ∧ s'.bufferCapacity = s.bufferCapacity ∧ s'.eltCount = s.eltCount

/-- No byte is announced for elements of a fixed width. -/
def NoElts (s : Stream) : Prop := s.type ≠ some .string → s.eltsCapacity * s.eltWidth = 0

variable (hs : s.Sound)

include hs

theorem Sound.noElts (hnull : s.buffer.null) : s.NoElts := by
  intro ht
  have hcap := hs.fixed_capacity ht
  rw [hs.capacity_eq_zero hnull] at hcap
  exact Nat.le_zero.1 hcap

theorem Sound.typeAttachedBuffer (type : Option DataType) (eltWidth eltCapacity : Nat) :
    Ensures (typeAttachedBuffer type eltWidth eltCapacity) s fun r s' =>
      s'.Sound ∧ s.SameBuffer s' ∧ (r ≠ .ok () → s.NoElts → s'.NoElts) := by
  have hsame : ∀ r : Except ErrorCode Unit,
      s.Sound ∧ s.SameBuffer s ∧ (r ≠ .ok () → s.NoElts → s.NoElts) :=
    fun _ => ⟨hs, ⟨rfl, rfl, rfl⟩, fun _ h => h⟩
  rw [Common.typeAttachedBuffer, ensures_get_bind, ensures_ite]
  constructor
  · intro _
    rw [ensures_failWhen_bind, ensures_failWhen_bind, ensures_failWhen]
    exact ⟨fun _ => hsame _, fun _ => ⟨fun _ => hsame _, fun _ => ⟨fun _ => hsame _,
      fun _ => hsame _⟩⟩⟩
  · intro htype
    have hnone : s.type = none := by simpa using htype
    have hnot : s.type ≠ some .string := by rw [hnone]; simp
    obtain ⟨hcap, hcount⟩ := hs.fixed_width hnot (hs.untyped hnone)
    rw [ensures_bind]
    refine ensures_validateTypeWidth.mono fun r s' h => ?_
    obtain ⟨rfl, hvalid⟩ := h
    refine ⟨fun _ _ => hsame _, fun a hr => ?_⟩
    obtain ⟨hwidth, htyped⟩ := hvalid hr
    rw [ensures_modify_bind, ensures_failWhen_bind, ensures_modify]
    constructor
    · intro _
      refine ⟨Empty.sound { hs.empty hcount with fixed_capacity := ?_, fixed_width := ?_,
                                                 untyped := ?_ }, ⟨rfl, rfl, rfl⟩, fun _ h _ => h hnot⟩
      · intro _
        change s'.eltsCapacity * s'.eltWidth ≤ _
        rw [hcap, Nat.zero_mul]
        exact Nat.zero_le _
      · exact fun _ _ => hcap
      · exact fun h => absurd h htyped
    · intro _
      refine ⟨Empty.sound { hs.empty hcount with elts_lt := ?_, fixed_capacity := ?_,
                                                 fixed_width := ?_, untyped := ?_ },
        ⟨rfl, rfl, rfl⟩, fun h => absurd rfl h⟩
      · exact Nat.lt_of_le_of_lt (Nat.div_le_self _ _) hs.capacity_lt
      · exact fun _ => Nat.div_mul_le_self _ _
      · exact fun _ h => absurd h hwidth
      · exact fun h => absurd h htyped

theorem Sound.reserveRawBuffer {byteCapacity : Nat} (hlt : byteCapacity < 2 ^ 64) (mem : Memory) :
    Ensures (reserveRawBuffer byteCapacity mem) s fun r s' =>
      s'.Sound ∧ s'.eltCount = 0 ∧ s'.NoElts ∧ (r = .ok () → s'.bufferCapacity = byteCapacity) := by
  rw [Common.reserveRawBuffer, ensures_get_bind, ensures_require_bind]
  rintro ⟨hnull, hcount, -⟩
  have hnone := hs.noElts hnull
  rw [ensures_failWhen_bind, ensures_modify]
  refine ⟨fun _ => ⟨hs, hcount, hnone, fun h => nomatch h⟩,
    fun _ => ⟨?_, hcount, hnone, fun _ => rfl⟩⟩
  refine Empty.sound { hs.empty hcount with capacity_le := ?_, capacity_lt := hlt,
                                            fixed_capacity := ?_ }
  · exact Nat.le_refl _
  · exact fun ht => Nat.le_trans (Nat.le_of_eq (hnone ht)) (Nat.zero_le _)

theorem Sound.destroy (hcount : s.eltCount = 0) (hcap : s.NoElts) :
    ({ s with buffer := s.buffer.destroy, bufferCapacity := 0 } : Stream).Sound :=
  Empty.sound
    { hs.empty hcount with
      capacity_le := Nat.zero_le _
      capacity_lt := Nat.two_pow_pos 64
      fixed_capacity := fun ht => Nat.le_of_eq (hcap ht) }

theorem Sound.reserve (type : Option DataType) (eltWidth eltsCapacity : Nat) (mem : Memory) :
    Ensures (reserve type eltWidth eltsCapacity mem) s fun r s' =>
      s'.Sound ∧ (r = .ok () → s'.eltCount = 0 ∧ s'.bufferCapacity = eltsCapacity * eltWidth) := by
  rw [Common.reserve, ensures_failWhen_bind]
  refine ⟨fun _ => ⟨hs, fun h => nomatch h⟩, fun hlt => ?_⟩
  rw [ensures_bind]
  refine (hs.reserveRawBuffer (Nat.lt_of_not_le hlt) mem).mono ?_
  rintro r t ⟨ht, hcount, hnone, hcap⟩
  refine ⟨fun _ _ => ⟨ht, fun h => nomatch h⟩, fun _ hr => ?_⟩
  intro r' s' hrun
  obtain ⟨q, u, htype, hrun⟩ := run_attempt_bind.1 hrun
  obtain ⟨hu, ⟨-, hucap, hucount⟩, hunone⟩ := ht.typeAttachedBuffer type eltWidth eltsCapacity q u htype
  cases q with
  | ok _ =>
    obtain ⟨rfl, rfl⟩ := run_pure_iff.1 hrun
    exact ⟨hu, fun _ => ⟨hucount.trans hcount, hucap.trans (hcap hr)⟩⟩
  | error e =>
    obtain ⟨rfl, rfl⟩ := Prod.mk.inj (Option.some.inj hrun)
    exact ⟨hu.destroy (hucount.trans hcount) (hunone (fun h => nomatch h) hnone), fun h => nomatch h⟩

theorem Sound.reserveStringLens (nbStrings : Nat) (mem : Memory) :
    Ensures (reserveStringLens nbStrings mem) s fun _ s' =>
      s'.Sound ∧ s.SameBuffer s' ∧ s'.type = s.type := by
  rw [Common.reserveStringLens, ensures_get_bind, ensures_ite]
  constructor
  · intro _
    exact ensures_pure.2 ⟨hs, ⟨rfl, rfl, rfl⟩, rfl⟩
  · intro h
    simp only [not_or, not_not] at h
    obtain ⟨htype, -, hopen, hlt, -⟩ := h
    rw [ensures_modify_bind, ensures_pure]
    have hcount := hs.open_count (by simpa using hopen)
    refine ⟨Empty.sound { hs.empty hcount with elts_lt := ?_, lens_lt := ?_, fixed_capacity := ?_,
                                               fixed_width := ?_ }, ⟨rfl, rfl, rfl⟩, rfl⟩
    · change nbStrings < _
      omega
    · change ((List.range nbStrings).map mem.fresh).length < _
      rw [List.length_map, List.length_range]
      omega
    · exact fun h => absurd htype h
    · exact fun h => absurd htype h

theorem Sound.reserveStrings (numStrings : Nat) {bufferCapacity : Nat}
    (hlt : bufferCapacity < 2 ^ 64) (mem : Memory) :
    Ensures (reserveStrings numStrings bufferCapacity mem) s fun _ s' => s'.Sound := by
  rw [Common.reserveStrings, ensures_bind]
  refine (hs.reserveRawBuffer hlt mem).mono ?_
  rintro r t ⟨ht, hcount, -, -⟩
  refine ⟨fun _ _ => ht, fun _ _ => ?_⟩
  rw [ensures_get_bind, ensures_require_bind]
  intro _
  rw [ensures_modify_bind, ensures_bind]
  have hstring : ({ t with type := some .string } : Stream).Sound :=
    Empty.sound
      { ht.empty hcount with
        fixed_capacity := fun h => absurd rfl h
        fixed_width := fun h => absurd rfl h
        untyped := fun h => nomatch h }
  refine (hstring.reserveStringLens numStrings mem).mono ?_
  rintro q u ⟨hu, ⟨-, -, hucount⟩, hutype⟩
  refine ⟨fun _ _ => hu, fun reserved _ => ?_⟩
  have hnostrings : ({ u with eltsCapacity := 0 } : Stream).Sound :=
    Empty.sound
      { hu.empty (hucount.trans hcount) with
        elts_lt := Nat.two_pow_pos 64
        fixed_capacity := fun h => absurd hutype h
        fixed_width := fun h => absurd hutype h }
  rw [ensures_ite]
  constructor
  · exact fun _ => ensures_pure.2 hu
  · intro _
    rw [ensures_modify_bind, ensures_ite, ensures_pure, ensures_modify_bind, ensures_fail]
    exact ⟨fun _ => hnostrings,
      fun _ => hnostrings.destroy (hucount.trans hcount) fun h => absurd hutype h⟩

end Stream

/-! ## Commits -/

theorem readLens_eq {lens part : List UInt32} {start count : Nat}
    (h : readLens lens start count = some part) (hstart : start ≤ lens.length) :
    part = (lens.drop start).take count ∧ start + count ≤ lens.length := by
  unfold readLens at h
  split at h
  · rename_i h0
    cases h
    rw [h0, List.take_zero]
    exact ⟨rfl, hstart⟩
  · split at h
    · rename_i hle
      cases h
      exact ⟨rfl, hle⟩
    · cases h

theorem sumLens_append (a b : List UInt32) : sumLens (a ++ b) = sumLens a + sumLens b := by
  rw [sumLens, List.map_append, List.sum_append]
  rfl

theorem sumLens_take_add (lens : List UInt32) (i j : Nat) :
    sumLens (lens.take (i + j)) = sumLens (lens.take i) + sumLens ((lens.drop i).take j) := by
  rw [List.take_add, sumLens_append]

namespace Stream

variable {s : Stream}

/-- A commit of `n` elements that the checks accept does not wrap around, and the strings that it
adds fit into what is left of the buffer. -/
def RoomFor (s : Stream) (n : Nat) : Prop :=
  (s.eltCount + n) % 2 ^ 64 ≤ s.eltsCapacity →
    s.eltCount + n < 2 ^ 64 ∧
      (s.type = some .string → ∀ lens, readLens s.lens s.eltCount n = some lens →
        sumLens lens % 2 ^ 64 ≤ s.bufferCapacity →
        s.bufferUsed + sumLens lens ≤ s.bufferCapacity)

theorem Sound.commitStrings (hs : s.Sound) {n : Nat} (hroom : s.RoomFor n)
    (htype : s.type = some .string) (hle : (s.eltCount + n) % 2 ^ 64 ≤ s.eltsCapacity) :
    Ensures (commitStrings n) s fun _ s' => s'.Sound := by
  obtain ⟨hlt, hfit⟩ := hroom hle
  rw [Common.commitStrings, ensures_get_bind, ensures_failWhen_bind]
  refine ⟨fun _ => hs, fun _ => ?_⟩
  rw [ensures_expect_bind]
  intro lens hlens
  rw [ensures_failWhen_bind, ensures_modify]
  refine ⟨fun _ => hs, fun htotal => ?_⟩
  have hfit := hfit htype lens hlens (Nat.le_of_not_lt htotal)
  have hcap := hs.capacity_lt
  obtain ⟨hpart, hlength⟩ := readLens_eq hlens (hs.string_lens htype)
  have hcount : (s.eltCount + n) % 2 ^ 64 = s.eltCount + n := Nat.mod_eq_of_lt hlt
  have hsum : sumLens lens % 2 ^ 64 = sumLens lens := Nat.mod_eq_of_lt (by omega)
  have hused : (s.bufferUsed + sumLens lens) % 2 ^ 64 = s.bufferUsed + sumLens lens :=
    Nat.mod_eq_of_lt (by omega)
  rw [hcount, hsum, hused]
  rw [hcount] at hle
  exact
    { hs with
      used_le := hfit
      elt_lt := hlt
      count_le := fun _ => hle
      last_le := Nat.le_add_left _ _
      open_count := fun h => nomatch h
      fixed_used := fun h => absurd htype h
      fixed_width := fun h => absurd htype h
      string_used := fun _ => by
        change _ = sumLens (s.lens.take (s.eltCount + n))
        rw [sumLens_take_add, ← hpart, ← hs.string_used htype]
      string_lens := fun _ => hlength }

theorem Sound.commit (hs : s.Sound) {n : Nat} (hroom : s.RoomFor n) :
    Ensures (commit n) s fun _ s' => s'.Sound := by
  rw [Common.commit, ensures_get_bind, ensures_failWhen_bind]
  refine ⟨fun _ => hs, fun hle => ?_⟩
  have hle := Nat.le_of_not_lt hle
  rw [ensures_ite]
  refine ⟨fun htype => hs.commitStrings hroom htype hle, fun htype => ?_⟩
  rw [ensures_modify]
  obtain ⟨hlt, -⟩ := hroom hle
  have hcount : (s.eltCount + n) % 2 ^ 64 = s.eltCount + n := Nat.mod_eq_of_lt hlt
  have hbytes : s.bufferUsed + n * s.eltWidth = (s.eltCount + n) * s.eltWidth := by
    rw [hs.fixed_used htype, Nat.add_mul, Nat.mul_comm s.eltWidth]
  rw [hcount] at hle
  have hfit : (s.eltCount + n) * s.eltWidth ≤ s.bufferCapacity :=
    Nat.le_trans (Nat.mul_le_mul_right _ hle) (hs.fixed_capacity htype)
  have hused : (s.bufferUsed + n * s.eltWidth) % 2 ^ 64 = (s.eltCount + n) * s.eltWidth := by
    rw [hbytes]
    exact Nat.mod_eq_of_lt (Nat.lt_of_le_of_lt hfit hs.capacity_lt)
  rw [hcount, hused]
  exact
    { hs with
      used_le := hfit
      elt_lt := hlt
      count_le := fun _ => hle
      last_le := Nat.le_add_left _ _
      open_count := fun h => nomatch h
      fixed_used := fun _ => Nat.mul_comm _ _
      fixed_width := fun ht hw => by
        obtain ⟨hcap, -⟩ := hs.fixed_width ht hw
        exact ⟨hcap, Nat.le_zero.1 (hcap ▸ hle)⟩
      string_used := fun h => absurd h htype
      string_lens := fun h => absurd h htype }

/-! ## References -/

theorem Sound.referenceInternal (hs : s.Sound) {eltWidth eltCount : Nat} {aligned : Bool}
    (hcap : type = some .numeric → aligned = false → s.eltsCapacity = 0)
    (hcount : eltCount < 2 ^ 64) (hlt : eltCount * eltWidth < 2 ^ 64)
    (hle : eltCount * eltWidth ≤ s.extent) (hconst : s.buffer.isMutable = false) :
    Ensures (referenceInternal type eltWidth eltCount aligned) s fun r s' =>
      s'.Sound ∧ (r = .ok () → type = some .string → s'.eltCount = 0 ∧ s'.type = some .string) := by
  rw [Common.referenceInternal, ensures_get_bind, ensures_failWhen_bind]
  refine ⟨fun _ => ⟨hs, fun h => nomatch h⟩, fun hopen => ?_⟩
  have hzero := hs.open_count (by simpa using hopen)
  rw [ensures_bind]
  refine ensures_validateTypeWidth.mono ?_
  rintro r t ⟨rfl, hvalid⟩
  refine ⟨fun _ _ => ⟨hs, fun h => nomatch h⟩, fun _ hr => ?_⟩
  obtain ⟨hwidth, htyped⟩ := hvalid hr
  rw [ensures_modify_bind, ensures_failWhen_bind]
  constructor
  · rintro ⟨hnumeric, haligned⟩
    have hcap := hcap hnumeric haligned
    refine ⟨Empty.sound { hs.empty hzero with fixed_capacity := ?_, fixed_width := ?_,
                                              untyped := ?_ }, fun h => nomatch h⟩
    · intro _
      change t.eltsCapacity * t.eltWidth ≤ _
      rw [hcap, Nat.zero_mul]
      exact Nat.zero_le _
    · exact fun _ _ => hcap
    · exact fun h => absurd h htyped
  · intro _
    rw [ensures_modify_bind, ensures_require_bind]
    intro hcap
    rw [ensures_modify_bind, ensures_ite, ensures_pure, ensures_modify, Nat.mod_eq_of_lt hlt]
    have hnoelts : t.eltsCapacity * eltWidth ≤ eltCount * eltWidth := by
      rw [hcap, Nat.zero_mul]
      exact Nat.zero_le _
    constructor
    · intro htype
      refine ⟨Empty.sound { hs.empty hzero with capacity_le := hle, capacity_lt := hlt,
                                                fixed_capacity := ?_, fixed_width := ?_,
                                                untyped := ?_ }, fun _ _ => ⟨hzero, htype⟩⟩
      · exact fun _ => hnoelts
      · exact fun _ h => absurd h hwidth
      · exact fun h => absurd h htyped
    · intro htype
      refine ⟨?_, fun _ h => absurd h htype⟩
      exact
        { hs with
          used_le := Nat.le_refl _
          capacity_le := hle
          capacity_lt := hlt
          elt_lt := hcount
          count_le := fun h => absurd (h.2.symm.trans hconst) (by simp)
          last_le := Nat.le_refl _
          open_count := fun h => nomatch h
          fixed_used := fun _ => Nat.mul_comm _ _
          fixed_capacity := fun _ => hnoelts
          fixed_width := fun _ h => absurd h hwidth
          string_used := fun h => absurd h htype
          string_lens := fun h => absurd h htype
          untyped := fun h => absurd h htyped }

theorem Sound.constRef (hs : s.Sound) (hnull : s.buffer.null) (target : Option Nat) :
    ({ s with buffer := .constRef target } : Stream).Sound :=
  { hs with
    capacity_le := by
      change s.bufferCapacity ≤ _
      rw [hs.capacity_eq_zero hnull]
      exact Nat.zero_le _
    count_le := fun h => nomatch h.2 }

theorem extent_callerBuffer {ref : Bool} {size : Nat} (h : 0 < size → ref = true) :
    size ≤ (callerBuffer ref size).getD 0 := by
  cases ref with
  | true => exact Nat.le_refl _
  | false =>
    have h0 : ¬ 0 < size := fun hpos => nomatch h hpos
    omega

theorem Sound.refConstBuffer (hs : s.Sound) (ref : Bool) {aligned : Bool} {eltWidth eltCount : Nat}
    (hcap : type = some .numeric → aligned = false → s.eltsCapacity = 0)
    (hcount : eltCount < 2 ^ 64) (hlt : eltCount * eltWidth < 2 ^ 64) :
    Ensures (refConstBuffer ref aligned type eltWidth eltCount) s fun _ s' => s'.Sound := by
  rw [Common.refConstBuffer, ensures_get_bind, ensures_require_bind]
  rintro ⟨hnull, -, href⟩
  rw [ensures_modify_bind]
  refine ((hs.constRef hnull _).referenceInternal hcap hcount hlt ?_ rfl).mono fun _ _ h => h.1
  exact extent_callerBuffer fun hpos => href (Nat.pos_of_mul_pos_right hpos)

theorem Sound.refConstExtString (hs : s.Sound) (ref : Bool) {bufferSize : Nat}
    {strLengths : Option (List UInt32)} (hsize : bufferSize < 2 ^ 64)
    (hlens : (strLengths.getD []).length < 2 ^ 64) (hsum : sumLens (strLengths.getD []) < 2 ^ 64) :
    Ensures (refConstExtString ref bufferSize strLengths) s fun _ s' => s'.Sound := by
  rw [Common.refConstExtString, ensures_get_bind, ensures_require_bind]
  rintro ⟨hnull, -, href⟩
  rw [ensures_failWhen_bind]
  refine ⟨fun _ => hs, fun _ => ?_⟩
  rw [ensures_modify_bind, ensures_bind]
  have hreference : Ensures (Common.referenceInternal (some .string) 1 bufferSize true)
      { s with buffer := .constRef (callerBuffer ref bufferSize) } fun r s' =>
        s'.Sound ∧ (r = .ok () → some DataType.string = some .string →
          s'.eltCount = 0 ∧ s'.type = some .string) := by
    refine (hs.constRef hnull _).referenceInternal (fun h => by simp at h) hsize (by omega) ?_ rfl
    rw [Nat.mul_one]
    exact extent_callerBuffer href
  refine hreference.mono ?_
  rintro r t ⟨ht, hstring⟩
  refine ⟨fun _ _ => ht, fun _ hr => ?_⟩
  obtain ⟨hcount, htype⟩ := hstring hr rfl
  rw [ensures_modify_bind]
  refine Sound.commit (Empty.sound ?_) ?_
  · exact
      { ht.empty hcount with
        elts_lt := hlens
        lens_lt := hlens
        fixed_capacity := fun h => absurd htype h
        fixed_width := fun h => absurd htype h }
  · intro _
    change t.eltCount + _ < _ ∧ (_ → ∀ lens, readLens _ t.eltCount _ = _ → _ →
      t.bufferUsed + _ ≤ t.bufferCapacity)
    rw [hcount, ht.used_eq_zero hcount, Nat.zero_add]
    refine ⟨hlens, fun _ lens hread hle => ?_⟩
    obtain ⟨rfl, -⟩ := readLens_eq hread (Nat.zero_le _)
    change sumLens ((strLengths.getD []).take (strLengths.getD []).length) % _ ≤ _ at hle
    rw [List.take_length, Nat.mod_eq_of_lt hsum] at hle
    change 0 + sumLens ((strLengths.getD []).take (strLengths.getD []).length) ≤ _
    rw [List.take_length, Nat.zero_add]
    exact hle

theorem Sound.mutRef (hs : s.Sound) (hnull : s.buffer.null) (hcount : s.eltCount = 0)
    {target : Option Nat} {bufferCapacity : Nat} (hlt : bufferCapacity < 2 ^ 64)
    (hle : bufferCapacity ≤ target.getD 0) :
    ({ s with buffer := .mutRef target, bufferCapacity := bufferCapacity } : Stream).Sound :=
  Empty.sound
    { hs.empty hcount with
      capacity_le := hle
      capacity_lt := hlt
      fixed_capacity := fun ht =>
        Nat.le_trans (Nat.le_of_eq (hs.noElts hnull ht)) (Nat.zero_le _) }

theorem Sound.attachWritableBuffer (hs : s.Sound) (hcount : s.eltCount = 0) (ref : Bool)
    (type : Option DataType) (eltWidth eltCount : Nat) :
    Ensures (attachWritableBuffer ref type eltWidth eltCount) s fun _ s' => s'.Sound := by
  rw [Common.attachWritableBuffer, ensures_get_bind, ensures_require_bind]
  rintro ⟨hnull, -, -, href⟩
  rw [ensures_modify_bind]
  refine (Sound.typeAttachedBuffer ?_ type eltWidth eltCount).mono fun _ _ h => h.1
  refine hs.mutRef hnull hcount (Nat.mod_lt _ (by decide)) ?_
  exact Nat.le_trans (Nat.mod_le _ _)
    (extent_callerBuffer fun hpos => href (Nat.pos_of_mul_pos_right hpos))

theorem Sound.attachRawBuffer (hs : s.Sound) (hcount : s.eltCount = 0) (ref : Bool)
    {bufByteSize : Nat} (hlt : bufByteSize < 2 ^ 64) :
    Ensures (attachRawBuffer ref bufByteSize) s fun _ s' => s'.Sound := by
  rw [Common.attachRawBuffer, ensures_get_bind, ensures_require_bind]
  rintro ⟨hnull, href⟩
  rw [ensures_modify]
  exact hs.mutRef hnull hcount hlt (extent_callerBuffer href)

theorem Sound.refMutStringLens (hs : s.Sound) {stringLens : Option (List UInt32)}
    (hlens : (stringLens.getD []).length < 2 ^ 64) :
    Ensures (refMutStringLens stringLens) s fun _ s' => s'.Sound := by
  rw [Common.refMutStringLens, ensures_get_bind, ensures_failWhen_bind, ensures_failWhen_bind,
    ensures_modify]
  refine ⟨fun _ => hs, fun htype => ⟨fun _ => hs, fun hnull => ?_⟩⟩
  have htype : s.type = some .string := by simpa using htype
  have hnull : s.stringLens.null := by simpa using hnull
  have hcount : s.eltCount = 0 := by
    have hle := hs.string_lens htype
    rw [Stream.lens, hnull] at hle
    exact Nat.le_zero.1 hle
  exact Empty.sound
    { hs.empty hcount with
      elts_lt := hlens
      lens_lt := hlens
      fixed_capacity := fun h => absurd htype h
      fixed_width := fun h => absurd htype h }

/-! ## Views of another stream -/

theorem Sound.refStreamWithoutRefCount {s src : Stream} (hs : s.Sound) (hsrc : src.Sound)
    {mem : Memory} (hcap : s.writeCommitted = false → s.eltsCapacity = 0 ∧ mem.intMetas = true) :
    Ensures (refStreamWithoutRefCount src mem) s fun r s' =>
      s'.Sound ∧ (r = .ok () → s'.writeCommitted = true ∧ s'.buffer = .constRef src.buffer.target ∧
        s'.stringLens = .constRef src.stringLens.target ∧ s'.eltsCapacity = 0 ∧
        s'.type = src.type ∧ s'.eltWidth = src.eltWidth) := by
  rw [Common.refStreamWithoutRefCount, ensures_get_bind, ensures_require_bind]
  intro hcommitted
  rw [ensures_failWhen_bind]
  refine ⟨fun _ => ⟨hs, fun h => nomatch h⟩, fun hopen => ?_⟩
  obtain ⟨hcap, hmem⟩ := hcap (by simpa using hopen)
  rw [ensures_modify_bind, ensures_failWhen_bind, ensures_modify]
  refine ⟨fun h => absurd (hmem.symm.trans h) (by simp), fun _ => ⟨?_, fun _ => ?_⟩⟩
  · exact
      { hsrc with
        elts_lt := hs.elts_lt
        count_le := fun h => nomatch h.2
        last_le := Nat.le_refl _
        open_count := fun h => nomatch h
        fixed_capacity := fun _ => by
          change s.eltsCapacity * _ ≤ _
          rw [hcap, Nat.zero_mul]
          exact Nat.zero_le _
        fixed_width := fun ht hw => ⟨hcap, (hsrc.fixed_width ht hw).2⟩ }
  · exact ⟨rfl, rfl, rfl, hcap, rfl, rfl⟩

theorem Sound.byteSize_le (hs : s.Sound) : s.byteSize ≤ s.bufferCapacity := by
  unfold byteSize
  split
  · exact hs.used_le
  · exact Nat.zero_le _

theorem getD_map_sub (target : Option Nat) (n : Nat) :
    (target.map (· - n)).getD 0 = target.getD 0 - n := by
  cases target with
  | none => exact (Nat.zero_sub n).symm
  | some size => rfl

theorem Sound.refStreamByteSlice {s src : Stream} (hs : s.Sound) (hsrc : src.Sound)
    {offsetBytes eltWidth eltCount : Nat} {aligned : Bool} (hcount : eltCount < 2 ^ 64)
    (hdst : offsetBytes + eltCount * eltWidth ≤ src.byteSize → s.buffer.null ∧
      (type = some .numeric → aligned = false → s.eltsCapacity = 0)) :
    Ensures (refStreamByteSlice src type offsetBytes eltWidth eltCount aligned) s
      fun _ s' => s'.Sound := by
  rw [Common.refStreamByteSlice, ensures_failWhen_bind, ensures_failWhen_bind,
    ensures_failWhen_bind, ensures_require_bind, ensures_modify_bind]
  refine ⟨fun _ => hs, fun hlt => ⟨fun _ => hs, fun _ => ⟨fun _ => hs, fun hle _ => ?_⟩⟩⟩
  have hle := Nat.le_of_not_lt hle
  obtain ⟨hnull, hcap⟩ := hdst hle
  refine ((hs.constRef hnull _).referenceInternal hcap hcount (Nat.lt_of_not_le hlt) ?_
    rfl).mono fun _ _ h => h.1
  change _ ≤ (src.buffer.target.map (· - offsetBytes)).getD 0
  rw [getD_map_sub]
  have hbytes := hsrc.byteSize_le
  have hextent : src.bufferCapacity ≤ src.buffer.target.getD 0 := hsrc.capacity_le
  omega

theorem Sound.fixedSlice {t src : Stream} (ht : t.Sound) (hsrc : src.Sound)
    {startingEltNum eltCount : Nat} (hle : startingEltNum + eltCount ≤ src.eltCount)
    (htype : t.type = src.type) (hnot : src.type ≠ some .string) (hwidth : t.eltWidth = src.eltWidth)
    (hbuffer : t.buffer = .constRef src.buffer.target) (hcap : t.eltsCapacity = 0)
    (hcommitted : t.writeCommitted = true) :
    ({ t with buffer := .constRef (t.buffer.target.map (· - startingEltNum * t.eltWidth)),
              eltCount := eltCount, lastCommitted := eltCount,
              bufferCapacity := eltCount * t.eltWidth % 2 ^ 64,
              bufferUsed := eltCount * t.eltWidth % 2 ^ 64 } : Stream).Sound := by
  have hbytes : startingEltNum * t.eltWidth + eltCount * t.eltWidth ≤ src.bufferUsed := by
    rw [hsrc.fixed_used hnot, ← Nat.add_mul, hwidth, Nat.mul_comm src.eltWidth]
    exact Nat.mul_le_mul_right _ hle
  have hused := hsrc.used_le
  have hlt := hsrc.capacity_lt
  have hextent : src.bufferCapacity ≤ src.buffer.target.getD 0 := hsrc.capacity_le
  rw [Nat.mod_eq_of_lt (by omega)]
  exact
    { ht with
      used_le := Nat.le_refl _
      capacity_le := by
        change _ ≤ (t.buffer.target.map (· - startingEltNum * t.eltWidth)).getD 0
        rw [getD_map_sub, hbuffer]
        change eltCount * t.eltWidth ≤ src.buffer.target.getD 0 - _
        omega
      capacity_lt := by
        change eltCount * t.eltWidth < _
        omega
      elt_lt := by
        have := hsrc.elt_lt
        change eltCount < _
        omega
      count_le := fun h => nomatch h.2
      last_le := Nat.le_refl _
      open_count := fun h => absurd (hcommitted.symm.trans h) (by simp)
      fixed_used := fun _ => Nat.mul_comm _ _
      fixed_capacity := fun _ => by
        change t.eltsCapacity * _ ≤ _
        rw [hcap, Nat.zero_mul]
        exact Nat.zero_le _
      fixed_width := fun _ hw => by
        obtain ⟨-, h0⟩ := hsrc.fixed_width hnot (hwidth ▸ hw)
        exact ⟨hcap, by change eltCount = 0; omega⟩
      string_used := fun h => absurd (htype.symm.trans h) hnot
      string_lens := fun h => absurd (htype.symm.trans h) hnot }

theorem Sound.refStreamStringSlice {t src : Stream} (ht : t.Sound) (hsrc : src.Sound)
    {startingEltNum eltCount : Nat} (hle : startingEltNum + eltCount ≤ src.eltCount)
    (hstring : src.type = some .string) (htype : t.type = src.type)
    (hbuffer : t.buffer = .constRef src.buffer.target)
    (hlens : t.stringLens = .constRef src.stringLens.target) (hcommitted : t.writeCommitted = true) :
    Ensures (refStreamStringSlice src startingEltNum eltCount) t fun _ s' => s'.Sound := by
  have hlength := hsrc.string_lens hstring
  rw [Common.refStreamStringSlice, ensures_expect_bind]
  intro before hbefore
  rw [ensures_expect_bind]
  intro lens hread
  rw [ensures_modify]
  obtain ⟨rfl, -⟩ := readLens_eq hbefore (Nat.zero_le _)
  obtain ⟨rfl, -⟩ := readLens_eq hread (by omega)
  rw [List.drop_zero]
  have hbytes : sumLens (src.lens.take startingEltNum) +
      sumLens ((src.lens.drop startingEltNum).take eltCount) ≤ src.bufferUsed := by
    obtain ⟨rest, hrest⟩ := Nat.exists_eq_add_of_le hle
    rw [hsrc.string_used hstring, hrest, sumLens_take_add, sumLens_take_add]
    exact Nat.le_add_right _ _
  have hused := hsrc.used_le
  have hlt := hsrc.capacity_lt
  have hextent : src.bufferCapacity ≤ src.buffer.target.getD 0 := hsrc.capacity_le
  rw [Nat.mod_eq_of_lt (by omega : sumLens (src.lens.take startingEltNum) < 2 ^ 64),
    Nat.mod_eq_of_lt (by omega :
      sumLens ((src.lens.drop startingEltNum).take eltCount) < 2 ^ 64)]
  have hdrop : (t.stringLens.target.map (List.drop startingEltNum)).getD [] =
      src.lens.drop startingEltNum := by
    rw [hlens, Stream.lens]
    change (src.stringLens.target.map _).getD [] = _
    cases src.stringLens.target with
    | none => exact List.drop_nil.symm
    | some l => rfl
  exact
    { ht with
      used_le := Nat.le_refl _
      capacity_le := by
        change _ ≤ (t.buffer.target.map (· - sumLens (src.lens.take startingEltNum))).getD 0
        rw [getD_map_sub, hbuffer]
        change sumLens ((src.lens.drop startingEltNum).take eltCount) ≤
          src.buffer.target.getD 0 - _
        omega
      capacity_lt := by
        change sumLens ((src.lens.drop startingEltNum).take eltCount) < _
        omega
      elt_lt := by
        have := hsrc.elt_lt
        change eltCount < _
        omega
      lens_lt := by
        have := hsrc.lens_lt
        change ((t.stringLens.target.map (List.drop startingEltNum)).getD []).length < _
        rw [hdrop, List.length_drop]
        omega
      count_le := fun h => nomatch h.2
      last_le := Nat.le_refl _
      open_count := fun h => absurd (hcommitted.symm.trans h) (by simp)
      fixed_used := fun h => absurd (htype.trans hstring) h
      fixed_capacity := fun h => absurd (htype.trans hstring) h
      fixed_width := fun h => absurd (htype.trans hstring) h
      string_used := fun _ => by
        change _ = sumLens (((t.stringLens.target.map (List.drop startingEltNum)).getD []).take _)
        rw [hdrop]
      string_lens := fun _ => by
        change eltCount ≤ ((t.stringLens.target.map (List.drop startingEltNum)).getD []).length
        rw [hdrop, List.length_drop]
        omega }

theorem Sound.refStreamSliceWithoutRefCount {s src : Stream} (hs : s.Sound) (hsrc : src.Sound)
    (startingEltNum eltCount : Nat) {mem : Memory}
    (hcap : s.writeCommitted = false → s.eltsCapacity = 0 ∧ mem.intMetas = true) :
    Ensures (refStreamSliceWithoutRefCount src startingEltNum eltCount mem) s
      fun _ s' => s'.Sound := by
  rw [Common.refStreamSliceWithoutRefCount, ensures_require_bind]
  intro hle
  rw [ensures_bind]
  refine (hs.refStreamWithoutRefCount hsrc hcap).mono ?_
  rintro r t ⟨ht, hok⟩
  refine ⟨fun _ _ => ht, fun _ hr => ?_⟩
  obtain ⟨hcommitted, hbuffer, hlens, hcap, htype, hwidth⟩ := hok hr
  rw [ensures_ite, ensures_pure, ensures_ite, ensures_modify]
  refine ⟨fun _ => ht, fun _ => ⟨fun hstring => ?_, fun hnot => ?_⟩⟩
  · exact ht.refStreamStringSlice hsrc hle hstring htype hbuffer hlens hcommitted
  · exact ht.fixedSlice hsrc hle htype hnot hwidth hbuffer hcap hcommitted

/-! ## Appending and copying -/

theorem Sound.clear (hs : s.Sound) : Ensures clear s fun _ s' => s'.Sound := by
  rw [Common.clear, ensures_modify]
  exact Empty.sound
    { hs with
      count := rfl
      used := rfl
      last := rfl
      fixed_width := fun ht hw => (hs.fixed_width ht hw).1 }

theorem Sound.writeStringLens (hs : s.Sound) (lens : List UInt32) :
    Ensures (writeStringLens lens) s fun _ s' =>
      s'.Sound ∧ s.SameBuffer s' ∧ s'.bufferUsed = s.bufferUsed ∧
        s'.eltsCapacity = s.eltsCapacity ∧ s.eltCount + lens.length < 2 ^ 64 ∧
        (s'.lens.drop s.eltCount).take lens.length = lens := by
  rw [Common.writeStringLens, ensures_get_bind, ensures_require_bind]
  rintro ⟨htype, -, hle⟩
  rw [ensures_modify]
  have hlt := hs.lens_lt
  have htake : (s.lens.take s.eltCount).length = s.eltCount := by
    rw [List.length_take]
    omega
  have hkept : (s.lens.take s.eltCount ++ lens ++
      s.lens.drop (s.eltCount + lens.length)).take s.eltCount = s.lens.take s.eltCount := by
    rw [List.append_assoc, List.take_left' htake]
  refine ⟨{ hs with lens_lt := ?_, string_used := ?_, string_lens := ?_ }, ⟨rfl, rfl, rfl⟩, rfl, rfl,
    by omega, ?_⟩
  · change (s.lens.take s.eltCount ++ lens ++ s.lens.drop (s.eltCount + lens.length)).length < _
    rw [List.length_append, List.length_append, List.length_drop, htake]
    omega
  · intro _
    change s.bufferUsed = sumLens ((s.lens.take s.eltCount ++ lens ++
      s.lens.drop (s.eltCount + lens.length)).take s.eltCount)
    rw [hkept, hs.string_used htype]
  · intro _
    change s.eltCount ≤ (s.lens.take s.eltCount ++ lens ++
      s.lens.drop (s.eltCount + lens.length)).length
    rw [List.length_append, List.length_append, htake]
    omega
  · change ((s.lens.take s.eltCount ++ lens ++
      s.lens.drop (s.eltCount + lens.length)).drop s.eltCount).take lens.length = lens
    rw [List.append_assoc, List.drop_left' htake, List.take_left' rfl]

theorem Sound.eltCapacity_eq (hs : s.Sound) (hwritable : s.buffer.writable) :
    s.eltCount + s.eltCapacity = s.eltsCapacity := by
  have hle := hs.count_le hwritable
  have hlt := hs.elts_lt
  unfold eltCapacity
  omega

theorem Sound.byteCapacity_eq (hs : s.Sound) :
    s.byteCapacity + s.bufferUsed = s.bufferCapacity := by
  have hle := hs.used_le
  have hlt := hs.capacity_lt
  unfold byteCapacity
  omega

theorem Sound.addElts (hs : s.Sound) {eltCount eltWidth : Nat} (hlt : eltCount * eltWidth < 2 ^ 64)
    (hwidth : eltWidth = 0 → eltCount = 0) :
    Ensures (addElts eltCount eltWidth) s fun _ s' => s'.Sound := by
  rw [Common.addElts, ensures_get_bind, ensures_require_bind]
  intro htype
  rw [ensures_failWhen_bind, ensures_failWhen_bind, ensures_require_bind, Nat.mod_eq_of_lt hlt]
  refine ⟨fun _ => hs, fun _ => ⟨fun _ => hs, fun hcap hwritable => ?_⟩⟩
  refine hs.commit fun _ => ⟨?_, fun h => absurd h htype⟩
  rcases Nat.eq_zero_or_pos eltCount with rfl | hpos
  · exact hs.elt_lt
  · have hpos : 0 < eltCount * eltWidth :=
      Nat.mul_pos hpos (Nat.pos_of_ne_zero fun h => by have := hwidth h; omega)
    have hsum := hs.eltCapacity_eq (hwritable hpos)
    have hlt := hs.elts_lt
    omega

theorem Sound.sumLens_eq (hs : s.Sound) (htype : s.type = some .string) {lens : List UInt32}
    (hread : readLens s.lens 0 s.eltCount = some lens) :
    lens.length = s.eltCount ∧ sumLens lens = s.byteSize := by
  obtain ⟨rfl, -⟩ := readLens_eq hread (Nat.zero_le _)
  have hlength := hs.string_lens htype
  rw [List.drop_zero, List.length_take, ← hs.string_used htype]
  refine ⟨by omega, ?_⟩
  unfold byteSize
  split
  · rfl
  · rename_i hopen
    exact hs.used_eq_zero (hs.open_count (by simpa using hopen))

theorem Sound.roomFor_zero (hs : s.Sound) : s.RoomFor 0 := by
  refine fun _ => ⟨hs.elt_lt, fun _ lens hread _ => ?_⟩
  cases hread
  exact hs.used_le

theorem Sound.writeThenCommit (hs : s.Sound) {lens : List UInt32}
    (hfit : s.bufferUsed + sumLens lens ≤ s.bufferCapacity) :
    Ensures (Common.writeStringLens lens) s fun _ s' => s'.Sound ∧ s'.RoomFor lens.length := by
  refine (hs.writeStringLens lens).mono ?_
  rintro r t ⟨ht, ⟨-, hcap, hcount⟩, hused, -, hlt, hwritten⟩
  refine ⟨ht, fun _ => ⟨hcount ▸ hlt, fun htype part hread _ => ?_⟩⟩
  obtain ⟨hpart, -⟩ := readLens_eq hread (ht.string_lens htype)
  rw [hpart, hcount, hwritten, hused, hcap]
  exact hfit

theorem Sound.copyStrings {s src : Stream} (hs : s.Sound) (hsrc : src.Sound)
    (htype : src.type = some .string) (hfit : s.bufferUsed + src.byteSize ≤ s.bufferCapacity) :
    Ensures (copyStrings src) s fun _ s' => s'.Sound ∧ s'.RoomFor src.eltCount := by
  rw [Common.copyStrings, ensures_get_bind, ensures_ite, ensures_require_bind, ensures_pure]
  constructor
  · intro _ _
    rw [ensures_expect_bind]
    intro lens hread
    obtain ⟨hlength, hsum⟩ := hsrc.sumLens_eq htype hread
    rw [← hlength]
    exact hs.writeThenCommit (by omega)
  · intro h0
    rw [Nat.eq_zero_of_not_pos h0]
    exact ⟨hs, hs.roomFor_zero⟩

theorem Sound.appendStrings {s src : Stream} (hs : s.Sound) (hsrc : src.Sound)
    (htype : src.type = some .string) :
    Ensures (appendStrings src) s fun _ s' => s'.Sound := by
  rw [Common.appendStrings, ensures_get_bind, ensures_failWhen_bind, ensures_failWhen_bind]
  refine ⟨fun _ => hs, fun _ => ⟨fun _ => hs, fun hbytes => ?_⟩⟩
  have hroom := hs.byteCapacity_eq
  rw [ensures_bind]
  refine (hs.copyStrings hsrc htype (by omega)).mono ?_
  rintro r t ⟨ht, hroom⟩
  exact ⟨fun _ _ => ht, fun _ _ => ht.commit hroom⟩

theorem Sound.append {s src : Stream} (hs : s.Sound) (hsrc : src.Sound) :
    Ensures (append src) s fun _ s' => s'.Sound := by
  rw [Common.append, ensures_get_bind, ensures_failWhen_bind, ensures_ite]
  refine ⟨fun _ => hs, fun heq => ?_⟩
  have heq : s.type = src.type := by simpa using heq
  refine ⟨fun htype => hs.appendStrings hsrc (heq ▸ htype), fun htype => ?_⟩
  rw [heq] at htype
  rw [elementWidth, if_neg htype]
  refine hs.addElts ?_ fun h => (hsrc.fixed_width htype h).2
  rw [Nat.mul_comm, ← hsrc.fixed_used htype]
  exact Nat.lt_of_le_of_lt hsrc.used_le hsrc.capacity_lt

theorem Sound.copyBytes (hs : s.Sound) (src : Stream) (size : Nat) :
    Ensures (copyBytes src size) s fun _ s' => s'.Sound := by
  rw [Common.copyBytes, ensures_get_bind, ensures_failWhen_bind, ensures_failWhen_bind,
    ensures_require_bind, ensures_failWhen_bind]
  refine ⟨fun _ => hs, fun hle => ⟨fun _ => hs, fun _ hwidth => ⟨fun _ => hs, fun _ => ?_⟩⟩⟩
  refine hs.addElts ?_ fun h => absurd h hwidth
  have hcap := hs.byteCapacity_eq
  have hlt := hs.capacity_lt
  have hmul := Nat.div_mul_le_self size s.elementWidth
  omega

theorem Sound.copyStringStream {s src : Stream} (hs : s.Sound) (hsrc : src.Sound) (mem : Memory) :
    Ensures (copyStringStream src mem) s fun _ s' => s'.Sound := by
  rw [Common.copyStringStream, ensures_get_bind, ensures_require_bind]
  rintro ⟨-, htype⟩
  rw [ensures_bind]
  refine (hs.reserve (some .string) 1 src.byteSize mem).mono ?_
  rintro r t ⟨ht, hok⟩
  refine ⟨fun _ _ => ht, fun _ hr => ?_⟩
  obtain ⟨hcount, hcap⟩ := hok hr
  rw [ensures_bind]
  refine (ht.reserveStringLens src.eltCount mem).mono ?_
  rintro q u ⟨hu, ⟨-, hucap, hucount⟩, -⟩
  refine ⟨fun _ _ => hu, fun reserved _ => ?_⟩
  rw [ensures_ite, ensures_fail]
  refine ⟨fun _ => ?_, fun _ => hu⟩
  rw [ensures_expect_bind]
  intro lens hread
  obtain ⟨hlength, hsum⟩ := hsrc.sumLens_eq htype hread
  have hused := hu.used_eq_zero (hucount.trans hcount)
  rw [ensures_bind]
  refine (hu.writeThenCommit (by omega)).mono ?_
  rintro r t ⟨ht, hroom⟩
  exact ⟨fun _ _ => ht, fun _ _ => ht.commit (hlength ▸ hroom)⟩

theorem Sound.copy {s src : Stream} (hs : s.Sound) (hsrc : src.Sound) (mem : Memory) :
    Ensures (copy src mem) s fun _ s' => s'.Sound := by
  rw [Common.copy, ensures_get_bind, ensures_require_bind]
  intro _
  rw [ensures_failWhen_bind, ensures_ite, ensures_bind]
  refine ⟨fun _ => hs, fun _ => ⟨fun _ => hs.copyStringStream hsrc mem, fun _ => ?_⟩⟩
  refine (hs.reserve src.type src.elementWidth src.eltCount mem).mono ?_
  rintro r t ⟨ht, -⟩
  exact ⟨fun _ _ => ht, fun _ _ => ht.copyBytes src src.byteSize⟩

/-! ## Consuming -/

/-- Nothing is consumed from a stream that is full, or the call is refused. -/
def ConsumesNothing (s : Stream) (n : Nat) : Prop :=
  n ≤ s.eltCount → s.type ≠ some .string →
    n = 0 ∧ s.bufferCapacity = s.eltCount * s.eltWidth

theorem Sound.consume (hs : s.Sound) {n : Nat} (hnothing : s.ConsumesNothing n) :
    Ensures (consume n) s fun _ s' => s'.Sound := by
  rw [Common.consume, ensures_get_bind, ensures_require_bind]
  intro _
  rw [ensures_failWhen_bind, ensures_ite, ensures_fail, ensures_modify]
  refine ⟨fun _ => hs, fun hle => ⟨fun _ => hs, fun htype => ?_⟩⟩
  obtain ⟨rfl, hfull⟩ := hnothing (Nat.le_of_not_lt hle) htype
  have hsame : ({ s.buffer with target := s.buffer.target.map (· - 0 * s.eltWidth) } :
      Refcount Nat) = s.buffer := by
    simp
  rw [hsame, Nat.sub_zero, ← hfull, Nat.mod_eq_of_lt hs.capacity_lt]
  exact hs

end Stream

end OpenZL.Common
