import OpenZL.Codecs.SplitByStruct
import OpenZL.Codecs.TransposePaths

/-!
# The paths of splitting structures

Whichever way structures are split and rejoined, the streams are the columns of the fields, and no
copy leaves its buffers: what a copy of 8 bytes writes too much lies before the end of the stream,
and the next structures write over it.

Principal results: `dispatchArrayFixedSizeStruct_spec`, `dispatchArrayFixedSizeStructDecode_spec`,
`paths_agree`.
-/

namespace OpenZL.Codecs.SplitByStruct

open OpenZL.Lib OpenZL.Codecs.Copy OpenZL.Codecs.Transpose

/-! ## Member sizes -/

section Sizes

variable {sizes : List Nat} {size : Nat}

theorem foldl_smallest (start : Nat) :
    sizes.foldl (fun smallest size => if size < smallest then size else smallest) start ≤ start ∧
      ∀ size ∈ sizes,
        sizes.foldl (fun smallest size => if size < smallest then size else smallest) start ≤
          size := by
  induction sizes generalizing start with
  | nil => exact ⟨Nat.le_refl _, nofun⟩
  | cons first sizes ih =>
    obtain ⟨hstart, hall⟩ := ih (if first < start then first else start)
    rw [List.foldl_cons]
    refine ⟨Nat.le_trans hstart (by split <;> omega), fun size hsize => ?_⟩
    rcases List.mem_cons.1 hsize with rfl | hsize
    · exact Nat.le_trans hstart (by split <;> omega)
    · exact hall size hsize

theorem smallestSize_le (h : size ∈ sizes) : smallestSize sizes ≤ size :=
  (foldl_smallest _).2 size h

theorem foldl_smallest_pos {start : Nat} (hstart : 0 < start) (h : ∀ size ∈ sizes, 0 < size) :
    0 < sizes.foldl (fun smallest size => if size < smallest then size else smallest) start := by
  induction sizes generalizing start with
  | nil => exact hstart
  | cons first sizes ih =>
    rw [List.foldl_cons]
    refine ih ?_ fun size hsize => h size (List.mem_cons_of_mem first hsize)
    have := h first List.mem_cons_self
    split <;> omega

theorem smallestSize_pos (h : ∀ size ∈ sizes, 0 < size) : 0 < smallestSize sizes :=
  foldl_smallest_pos (by decide) h

theorem foldl_largest (start : Nat) :
    start ≤ sizes.foldl (fun largest size => if size > largest then size else largest) start ∧
      ∀ size ∈ sizes,
        size ≤
          sizes.foldl (fun largest size => if size > largest then size else largest) start := by
  induction sizes generalizing start with
  | nil => exact ⟨Nat.le_refl _, nofun⟩
  | cons first sizes ih =>
    obtain ⟨hstart, hall⟩ := ih (if first > start then first else start)
    rw [List.foldl_cons]
    refine ⟨Nat.le_trans (by split <;> omega) hstart, fun size hsize => ?_⟩
    rcases List.mem_cons.1 hsize with rfl | hsize
    · exact Nat.le_trans (by split <;> omega) hstart
    · exact hall size hsize

theorem le_largestSize (h : size ∈ sizes) : size ≤ largestSize sizes := (foldl_largest _).2 size h

theorem nbSafeRounds_spec {smallest : Nat} (hpos : 0 < smallest) (hle : smallest ≤ 8) :
    ∃ rounds, nbSafeRounds smallest = some rounds ∧ 8 ≤ rounds * smallest + smallest := by
  have htable : ∀ n < 9, 0 < n → ∃ rounds ∈ nbSafeRoundsPrecalc,
      nbSafeRounds n = some rounds ∧ 8 ≤ rounds * n + n := by decide
  obtain ⟨rounds, -, hrounds⟩ := htable smallest (by omega) hpos
  exact ⟨rounds, hrounds⟩

theorem getD_mem (h : size < sizes.length) : sizes.getD size 0 ∈ sizes := by
  rw [List.getD_eq_getElem _ _ h]
  exact List.getElem_mem h

end Sizes

/-! ## Dispatching -/

/-- What is written of a field: one more element for the fields that had their turn. -/
def writtenOf (sizes : List Nat) (i b r : Nat) : Nat :=
  (if r < b then i + 1 else i) * sizes.getD r 0

/-- The encoder after `i` structures and `b` members of the next one. -/
structure Dispatched (sizes : List Nat) (nbStructs : Nat) (src : List UInt8) (i b : Nat)
    (c : Cursor) : Prop where
  streams : Streams (columns sizes.sum nbStructs src 0 sizes) c.dst fun r j =>
    j < writtenOf sizes i b r
  length_pos : c.dstPos.length = sizes.length
  pos : ∀ r < sizes.length, c.dstPos.getD r 0 = writtenOf sizes i b r
  srcPos : c.srcPos = i * sizes.sum + (sizes.take b).sum

section Encoder

variable {sizes : List Nat} {nbStructs i b : Nat} {src : List UInt8} {copySize : Nat → Nat}
  {c : Cursor}

theorem writtenOf_self (sizes : List Nat) (i b : Nat) :
    writtenOf sizes i b b = i * sizes.getD b 0 := by
  rw [writtenOf, if_neg (Nat.lt_irrefl b)]

theorem writtenOf_succ_self (sizes : List Nat) (i b : Nat) :
    writtenOf sizes i (b + 1) b = i * sizes.getD b 0 + sizes.getD b 0 := by
  rw [writtenOf, if_pos (Nat.lt_succ_self b), Nat.succ_mul]

theorem writtenOf_succ_of_ne {r : Nat} (h : r ≠ b) :
    writtenOf sizes i (b + 1) r = writtenOf sizes i b r := by
  have hiff : r < b + 1 ↔ r < b := by omega
  simp only [writtenOf, hiff]

theorem writtenOf_all {r : Nat} (h : r < sizes.length) :
    writtenOf sizes i sizes.length r = writtenOf sizes (i + 1) 0 r := by
  rw [writtenOf, writtenOf, if_pos h, if_neg (Nat.not_lt_zero r)]

theorem copyMember_spec (hsrc : src.length = nbStructs * sizes.sum) (hi : i < nbStructs)
    (hb : b < sizes.length) (hcopy : sizes.getD b 0 ≤ copySize (sizes.getD b 0))
    (hread : i * sizes.sum + (sizes.take b).sum + copySize (sizes.getD b 0) ≤
      nbStructs * sizes.sum)
    (hwrite : i * sizes.getD b 0 + copySize (sizes.getD b 0) ≤ nbStructs * sizes.getD b 0)
    (h : Dispatched sizes nbStructs src i b c) :
    ∃ c', copyMember src copySize sizes c b = some c' ∧
      Dispatched sizes nbStructs src i (b + 1) c' := by
  have hfits := sum_take_add_le hb
  have hcolumn := @getD_columns _ sizes.sum nbStructs src 0 sizes b hb
  rw [Nat.zero_add] at hcolumn
  have hload : c.srcPos + copySize (sizes.getD b 0) ≤ src.length := by
    rw [h.srcPos, hsrc]
    exact hread
  have hlen := Buffer.length_read hload
  have hpos := h.pos b hb
  rw [writtenOf_self] at hpos
  obtain ⟨dst', hstore, hstreams⟩ : ∃ dst', storeAt c.dst b (c.dstPos.getD b 0)
      (Buffer.read src c.srcPos (copySize (sizes.getD b 0))) = some dst' ∧
      Streams (columns sizes.sum nbStructs src 0 sizes) dst' fun r j =>
        j < writtenOf sizes i (b + 1) r := by
    refine storeAt_spec (k := sizes.getD b 0) h.streams (by rwa [length_columns]) ?_
      (fun j hj => ?_) (fun j hj => ?_) fun q hq j hj => ?_
    · rw [hlen, hpos, hcolumn, length_column hsrc hfits]
      exact hwrite
    · rw [getElem?_read, if_pos (by omega), hpos, hcolumn, getElem?_column hsrc hfits hi hj,
        h.srcPos]
    · rw [writtenOf_succ_self] at hj
      rw [hlen, hpos, writtenOf_self]
      omega
    · rwa [writtenOf_succ_of_ne hq] at hj
  refine ⟨⟨dst', c.dstPos.set b (c.dstPos.getD b 0 + sizes.getD b 0),
    c.srcPos + sizes.getD b 0⟩, ?_, hstreams, ?_, fun r hr => ?_, ?_⟩
  · rw [copyMember]
    simp only [Buffer.load_of_le hload, hstore, Option.bind_eq_bind, Option.bind_some]
  · rw [List.length_set, h.length_pos]
  · have hbpos : b < c.dstPos.length := by rwa [h.length_pos]
    by_cases hrb : b = r
    · subst hrb
      rw [List.getD_eq_getElem?_getD, List.getElem?_set_self hbpos, Option.getD_some, hpos,
        writtenOf_succ_self]
    · rw [List.getD_eq_getElem?_getD, List.getElem?_set_ne hrb, ← List.getD_eq_getElem?_getD,
        h.pos r hr, writtenOf_succ_of_ne (Ne.symm hrb)]
  · rw [h.srcPos, sum_take_succ hb, Nat.add_assoc]

theorem Dispatched.next (h : Dispatched sizes nbStructs src i sizes.length c) :
    Dispatched sizes nbStructs src (i + 1) 0 c where
  streams := h.streams.mono fun r hr j _ hj => by
    rw [length_columns] at hr
    rwa [← writtenOf_all hr] at hj
  length_pos := h.length_pos
  pos r hr := by rw [h.pos r hr, writtenOf_all hr]
  srcPos := by
    rw [h.srcPos, List.take_length, List.take_zero, List.sum_nil, Nat.succ_mul, Nat.add_zero]

theorem copyStructs_spec (copySize : Nat → Nat) (hsrc : src.length = nbStructs * sizes.sum)
    {n : Nat} (hn : i + n ≤ nbStructs)
    (hcopy : ∀ b < sizes.length, sizes.getD b 0 ≤ copySize (sizes.getD b 0) ∧
      ∀ e < i + n, e * sizes.sum + (sizes.take b).sum + copySize (sizes.getD b 0) ≤
          nbStructs * sizes.sum ∧
        e * sizes.getD b 0 + copySize (sizes.getD b 0) ≤ nbStructs * sizes.getD b 0)
    (h : Dispatched sizes nbStructs src i 0 c) :
    ∃ c', copyStructs src copySize sizes n c = some c' ∧
      Dispatched sizes nbStructs src (i + n) 0 c' := by
  refine foldlM_range (P := fun m c => Dispatched sizes nbStructs src (i + m) 0 c) h
    fun m hm c h => ?_
  obtain ⟨c', hrun, h'⟩ := foldlM_range (n := sizes.length)
    (f := copyMember src copySize sizes)
    (P := fun b c => Dispatched sizes nbStructs src (i + m) b c) h fun b hb c h => by
      obtain ⟨hle, hbounds⟩ := hcopy b hb
      obtain ⟨hread, hwrite⟩ := hbounds (i + m) (by omega)
      exact copyMember_spec hsrc (by omega) hb hle hread hwrite h
  exact ⟨c', hrun, h'.next⟩

theorem wide_le {e rounds offset width size smallest : Nat} (he : e + rounds < nbStructs)
    (hfits : offset + width ≤ size) (hsmall : smallest ≤ width)
    (hrounds : 8 ≤ rounds * smallest + smallest) : e * size + offset + 8 ≤ nbStructs * size := by
  have hmul : rounds * smallest ≤ rounds * size := Nat.mul_le_mul_left rounds (by omega)
  have hrow := Nat.mul_le_mul_right size (Nat.succ_le_of_lt he)
  rw [Nat.succ_mul, Nat.add_mul] at hrow
  omega

theorem copySize_exact {n : Nat} (hn : n ≤ nbStructs) : ∀ b < sizes.length,
    sizes.getD b 0 ≤ sizes.getD b 0 ∧
      ∀ e < n, e * sizes.sum + (sizes.take b).sum + sizes.getD b 0 ≤ nbStructs * sizes.sum ∧
        e * sizes.getD b 0 + sizes.getD b 0 ≤ nbStructs * sizes.getD b 0 := by
  refine fun b hb => ⟨Nat.le_refl _, fun e he => ⟨?_, row_le (by omega) (Nat.le_refl _)⟩⟩
  rw [Nat.add_assoc]
  exact row_le (by omega) (sum_take_add_le hb)

theorem copySize_wide {n rounds : Nat} (hmax : ∀ size ∈ sizes, size ≤ 8)
    (hrounds : 8 ≤ rounds * smallestSize sizes + smallestSize sizes) (hn : n ≤ nbStructs - rounds) :
    ∀ b < sizes.length, sizes.getD b 0 ≤ 8 ∧
      ∀ e < n, e * sizes.sum + (sizes.take b).sum + 8 ≤ nbStructs * sizes.sum ∧
        e * sizes.getD b 0 + 8 ≤ nbStructs * sizes.getD b 0 := by
  intro b hb
  have hmem := getD_mem hb
  refine ⟨hmax _ hmem, fun e he => ⟨?_, ?_⟩⟩
  · exact wide_le (by omega) (sum_take_add_le hb) (smallestSize_le hmem) hrounds
  · exact wide_le (by omega) (Nat.le_of_eq (Nat.zero_add (sizes.getD b 0)))
      (smallestSize_le hmem) hrounds

theorem Dispatched.start {dst : List (List UInt8)}
    (h : Streams (columns sizes.sum nbStructs src 0 sizes) dst fun _ _ => False) :
    Dispatched sizes nbStructs src 0 0 ⟨dst, sizes.map fun _ => 0, 0⟩ where
  streams := h.mono fun r _ j _ hj => by
    rw [writtenOf, if_neg (Nat.not_lt_zero r), Nat.zero_mul] at hj
    exact Nat.not_lt_zero j hj
  length_pos := List.length_map _
  pos r hr := by
    rw [writtenOf, if_neg (Nat.not_lt_zero r), Nat.zero_mul, List.getD_eq_getElem?_getD,
      List.getElem?_map]
    cases sizes[r]? <;> rfl
  srcPos := by rw [Nat.zero_mul, List.take_zero, List.sum_nil, Nat.add_zero]

section

variable (hsrc : src.length = nbStructs * sizes.sum)

include hsrc

theorem length_getD_columns {r : Nat} (hr : r < sizes.length) :
    ((columns sizes.sum nbStructs src 0 sizes).getD r []).length = nbStructs * sizes.getD r 0 := by
  have hfits := sum_take_add_le hr
  rw [getD_columns _ _ _ hr, Nat.zero_add, length_column hsrc hfits]

theorem Dispatched.eq (h : Dispatched sizes nbStructs src nbStructs 0 c) :
    c.dst = columns sizes.sum nbStructs src 0 sizes :=
  h.streams.eq fun r hr j hj => by
    rw [length_columns] at hr
    rwa [length_getD_columns hsrc hr] at hj

theorem dafssAnysms_spec {n : Nat} (hn : i + n = nbStructs)
    (h : Dispatched sizes nbStructs src i 0 c) :
    ∃ c', dafssAnysms src sizes n c = some c' ∧
      Dispatched sizes nbStructs src nbStructs 0 c' := by
  obtain ⟨c', hrun, h'⟩ := copyStructs_spec (fun sms => sms) hsrc (Nat.le_of_eq hn)
    (copySize_exact (Nat.le_of_eq hn)) h
  exact ⟨c', hrun, hn ▸ h'⟩

theorem dafssNosmsgt8_spec (hne : sizes ≠ []) (hpos : ∀ size ∈ sizes, 0 < size)
    (hmax : ∀ size ∈ sizes, size ≤ 8) (h : Dispatched sizes nbStructs src 0 0 c) :
    ∃ c', dafssNosmsgt8 src sizes nbStructs c = some c' ∧
      Dispatched sizes nbStructs src nbStructs 0 c' := by
  obtain ⟨first, hfirst⟩ := List.exists_mem_of_ne_nil sizes hne
  obtain ⟨rounds, htable, hrounds⟩ := nbSafeRounds_spec (smallestSize_pos hpos)
    (Nat.le_trans (smallestSize_le hfirst) (hmax first hfirst))
  obtain ⟨c', hwide, h'⟩ := copyStructs_spec (fun _ => 8) hsrc
    (by omega : 0 + (nbStructs - rounds) ≤ nbStructs)
    (copySize_wide hmax hrounds (by omega)) h
  obtain ⟨c'', hexact, h''⟩ := dafssAnysms_spec
    (n := if nbStructs < rounds then nbStructs else rounds) hsrc (by split <;> omega) h'
  refine ⟨c'', ?_, h''⟩
  rw [dafssNosmsgt8]
  simp only [htable, hwide, Option.bind_eq_bind, Option.bind_some]
  exact hexact

end

theorem sum_pos (hne : sizes ≠ []) (hpos : ∀ size ∈ sizes, 0 < size) : 0 < sizes.sum := by
  have hlen := List.length_pos_iff.2 hne
  have hle := sum_take_add_le hlen
  have := hpos _ (getD_mem hlen)
  omega

/-- **The encoder** fills each buffer with the column of its field. -/
theorem dispatchArrayFixedSizeStruct_spec {dst : List (List UInt8)} (hne : sizes ≠ [])
    (hpos : ∀ size ∈ sizes, 0 < size) (hsrc : src.length = nbStructs * sizes.sum)
    (h : Streams (columns sizes.sum nbStructs src 0 sizes) dst fun _ _ => False) :
    dispatchArrayFixedSizeStruct dst src sizes =
      some (columns sizes.sum nbStructs src 0 sizes) := by
  have hsum := sum_pos hne hpos
  rw [dispatchArrayFixedSizeStruct]
  split
  · rename_i hzero
    have hnb : nbStructs = 0 := by
      rw [hsrc] at hzero
      exact (Nat.mul_eq_zero.1 hzero).resolve_right (by omega)
    refine congrArg some (h.eq fun r hr j hj => ?_)
    rw [length_columns] at hr
    rw [length_getD_columns hsrc hr, hnb, Nat.zero_mul] at hj
    exact absurd hj (Nat.not_lt_zero j)
  · split
    · rename_i hone
      obtain ⟨width, rfl⟩ := List.length_eq_one_iff.1 hone
      have hwidth : [width].sum = width := by simp
      have hcolumn : columns [width].sum nbStructs src 0 [width] = [src] := by
        rw [columns, columns, column, hwidth]
        rw [hwidth] at hsrc
        exact congrArg (fun xs => [xs]) (flatMap_read src hsrc)
      have hread : Buffer.read src 0 src.length = src := by
        rw [Buffer.read_of_start, List.take_length]
      rw [hcolumn] at h ⊢
      obtain ⟨dst', hstore, h'⟩ := @storeAt_spec_all _ _ _ 0 src h Nat.one_pos rfl fun _ _ => rfl
      rw [Buffer.load_of_le (by omega), Option.bind_eq_bind, Option.bind_some, hread, hstore,
        h'.eq fun r hr j hj => ?_]
      obtain rfl : r = 0 := Nat.lt_one_iff.1 hr
      exact Or.inl ⟨rfl, hj⟩
    · have hdiv : src.length / sizes.sum = nbStructs := by
        rw [hsrc, Nat.mul_div_cancel _ hsum]
      have hstart := Dispatched.start h
      dsimp only
      rw [hdiv, if_neg (by omega)]
      split
      · rename_i hall
        rw [List.all_eq_true] at hall
        obtain ⟨c, hrun, hc⟩ := dafssNosmsgt8_spec hsrc hne hpos
          (fun size hsize => of_decide_eq_true (hall size hsize)) hstart
        rw [hrun, Option.map_some, hc.eq hsrc]
      · obtain ⟨c, hrun, hc⟩ := dafssAnysms_spec hsrc (Nat.zero_add nbStructs) hstart
        rw [hrun, Option.map_some, hc.eq hsrc]

end Encoder

/-! ## Joining -/

/-- The decoder after `i` structures and `b` fields of the next one. -/
structure Joined (sizes : List Nat) (nbElts : Nat) (srcs : List (List UInt8)) (i b : Nat)
    (s : List UInt8 × Nat) : Prop where
  settled : Settled (joinColumns nbElts sizes srcs) s.1 fun j => j < s.2
  wPos : s.2 = i * sizes.sum + (sizes.take b).sum

section Decoder

variable {sizes : List Nat} {nbElts i b : Nat} {srcs : List (List UInt8)} {copySize : Nat → Nat}
  {s : List UInt8 × Nat} {dst : List UInt8}

theorem rejoinField_spec (hsrcs : Sources nbElts sizes srcs) (hi : i < nbElts)
    (hb : b < sizes.length) (hcopy : sizes.getD b 0 ≤ copySize (sizes.getD b 0))
    (hwrite : i * sizes.sum + (sizes.take b).sum + copySize (sizes.getD b 0) ≤ nbElts * sizes.sum)
    (hread : i * sizes.getD b 0 + copySize (sizes.getD b 0) ≤ nbElts * sizes.getD b 0)
    (h : Joined sizes nbElts srcs i b s) :
    ∃ s', rejoinField srcs copySize sizes i s b = some s' ∧
      Joined sizes nbElts srcs i (b + 1) s' := by
  have hstream : i * sizes.getD b 0 + copySize (sizes.getD b 0) ≤ (srcs.getD b []).length := by
    rw [hsrcs.length_getD hb]
    exact hread
  have hlen := Buffer.length_read hstream
  have hgoal := length_joinColumns hsrcs
  have hload := loadAt_spec (by rwa [hsrcs.length_eq]) hstream
  obtain ⟨dst', hstore, h'⟩ : ∃ dst', Buffer.store s.1 s.2 (Buffer.read (srcs.getD b [])
      (i * sizes.getD b 0) (copySize (sizes.getD b 0))) = some dst' ∧
      Settled (joinColumns nbElts sizes srcs) dst' fun j => j < s.2 + sizes.getD b 0 :=
    store_spec (k := sizes.getD b 0) h.settled (by rw [hlen, h.wPos, hgoal]; exact hwrite)
      (fun j hj => by
        rw [getElem?_read, if_pos (by omega), h.wPos, getElem?_joinColumns hsrcs hi hb hj])
      fun j hj => by
        rw [hlen]
        omega
  refine ⟨(dst', s.2 + sizes.getD b 0), ?_, h', ?_⟩
  · rw [rejoinField]
    simp only [hload, hstore, Option.bind_eq_bind, Option.bind_some]
  · rw [h.wPos, sum_take_succ hb, Nat.add_assoc]

theorem Joined.next (h : Joined sizes nbElts srcs i sizes.length s) :
    Joined sizes nbElts srcs (i + 1) 0 s where
  settled := h.settled
  wPos := by
    rw [h.wPos, List.take_length, List.take_zero, List.sum_nil, Nat.succ_mul, Nat.add_zero]

theorem rejoinStructs_spec (copySize : Nat → Nat) (hsrcs : Sources nbElts sizes srcs) {n : Nat}
    (hn : i + n ≤ nbElts)
    (hcopy : ∀ b < sizes.length, sizes.getD b 0 ≤ copySize (sizes.getD b 0) ∧
      ∀ e < i + n, e * sizes.sum + (sizes.take b).sum + copySize (sizes.getD b 0) ≤
          nbElts * sizes.sum ∧
        e * sizes.getD b 0 + copySize (sizes.getD b 0) ≤ nbElts * sizes.getD b 0)
    (h : Joined sizes nbElts srcs i 0 s) :
    ∃ s', rejoinStructs srcs copySize sizes i n s = some s' ∧
      Joined sizes nbElts srcs (i + n) 0 s' := by
  refine foldlM_range (P := fun m s => Joined sizes nbElts srcs (i + m) 0 s) h fun m hm s h => ?_
  obtain ⟨s', hrun, h'⟩ := foldlM_range (n := sizes.length)
    (f := rejoinField srcs copySize sizes (i + m))
    (P := fun b s => Joined sizes nbElts srcs (i + m) b s) h fun b hb s h => by
      obtain ⟨hle, hbounds⟩ := hcopy b hb
      obtain ⟨hwrite, hread⟩ := hbounds (i + m) (by omega)
      exact rejoinField_spec hsrcs (by omega) hb hle hwrite hread h
  exact ⟨s', hrun, h'.next⟩

theorem rejoinMax8_spec (hne : sizes ≠ []) (hpos : ∀ size ∈ sizes, 0 < size)
    (hmax : ∀ size ∈ sizes, size ≤ 8) (hsrcs : Sources nbElts sizes srcs) (hnb : nbElts ≠ 0)
    (h : Settled (joinColumns nbElts sizes srcs) dst fun _ => False) :
    rejoinMax8 dst srcs sizes nbElts =
      some (joinColumns nbElts sizes srcs, sizes.sum * nbElts) := by
  obtain ⟨first, hfirst⟩ := List.exists_mem_of_ne_nil sizes hne
  obtain ⟨rounds, htable, hrounds⟩ := nbSafeRounds_spec (smallestSize_pos hpos)
    (Nat.le_trans (smallestSize_le hfirst) (hmax first hfirst))
  have hstart : Joined sizes nbElts srcs 0 0 (dst, 0) :=
    ⟨h.mono fun j _ hj => Nat.not_lt_zero j hj, by
      rw [Nat.zero_mul, List.take_zero, List.sum_nil, Nat.add_zero]⟩
  obtain ⟨s, hwide, hs⟩ := rejoinStructs_spec (fun _ => 8) hsrcs
    (by omega : 0 + (nbElts - rounds) ≤ nbElts) (copySize_wide hmax hrounds (by omega)) hstart
  rw [Nat.zero_add] at hs
  obtain ⟨s', hexact, hs'⟩ := rejoinStructs_spec (fun fs => fs) hsrcs
    (by omega : nbElts - rounds + (nbElts - (nbElts - rounds)) ≤ nbElts)
    (copySize_exact (by omega)) hs
  have hall : s'.1 = joinColumns nbElts sizes srcs := hs'.settled.eq fun j hj => by
    rw [length_joinColumns hsrcs] at hj
    rw [hs'.wPos, List.take_zero, List.sum_nil, Nat.add_zero, show nbElts - rounds +
      (nbElts - (nbElts - rounds)) = nbElts by omega]
    exact hj
  rw [rejoinMax8, if_neg hnb]
  simp only [htable, hwide, hexact, Option.bind_eq_bind, Option.bind_some, hall]

/-- The structures before a block, and the first cells of each structure of it. -/
def Rows (structSize start n : Nat) (len : Nat → Nat) (c : Nat) : Prop :=
  c < start * structSize ∨ ∃ e < n, ∃ x < len e, c = (start + e) * structSize + x

theorem rows_step {structSize start n e offset width c : Nat} (hfits : offset + width ≤ structSize)
    (h : Rows structSize start n (fun e' => if e' < e + 1 then offset + width else offset) c) :
    (start + e) * structSize + offset ≤ c ∧ c < (start + e) * structSize + offset + width ∨
      Rows structSize start n (fun e' => if e' < e then offset + width else offset) c ∧
        (c < (start + e) * structSize + offset ∨
          (start + e) * structSize + offset + width ≤ c) := by
  have hrow : ∀ {e₁ e₂ : Nat}, e₁ < e₂ →
      (start + e₁) * structSize + structSize ≤ (start + e₂) * structSize := by
    intro e₁ e₂ hlt
    rw [← Nat.succ_mul]
    exact Nat.mul_le_mul_right structSize (by omega)
  rcases h with hc | ⟨e', he', x, hx, rfl⟩
  · have := Nat.mul_le_mul_right structSize (Nat.le_add_right start e)
    exact Or.inr ⟨Or.inl hc, Or.inl (by omega)⟩
  · dsimp only at hx
    rcases Nat.lt_trichotomy e' e with hlt | rfl | hgt
    · have := hrow hlt
      rw [if_pos (by omega)] at hx
      exact Or.inr ⟨Or.inr ⟨e', he', x, by dsimp only; rwa [if_pos hlt], rfl⟩, Or.inl (by omega)⟩
    · rw [if_pos (Nat.lt_succ_self e')] at hx
      by_cases hin : x < offset
      · exact Or.inr ⟨Or.inr ⟨e', he', x, by dsimp only; rwa [if_neg (Nat.lt_irrefl e')], rfl⟩,
          Or.inl (by omega)⟩
      · exact Or.inl ⟨by omega, by omega⟩
    · have := hrow hgt
      rw [if_neg (by omega)] at hx
      exact Or.inr ⟨Or.inr ⟨e', he', x, by dsimp only; rwa [if_neg (by omega)], rfl⟩,
        Or.inr (by omega)⟩

theorem copyField_spec (hsrcs : Sources nbElts sizes srcs) {start n f : Nat}
    (hn : start + n ≤ nbElts) (hf : f < sizes.length)
    (h : Settled (joinColumns nbElts sizes srcs) dst
      (Rows sizes.sum start n fun _ => (sizes.take f).sum)) :
    ∃ dst', copyField dst (start * sizes.sum + (sizes.take f).sum) sizes.sum srcs f
        (start * sizes.getD f 0) (sizes.getD f 0) n = some dst' ∧
      Settled (joinColumns nbElts sizes srcs) dst'
        (Rows sizes.sum start n fun _ => (sizes.take (f + 1)).sum) := by
  have hfits := sum_take_add_le hf
  have hgoal := length_joinColumns hsrcs
  have hstart : Settled (joinColumns nbElts sizes srcs) dst (Rows sizes.sum start n fun e =>
      if e < 0 then (sizes.take f).sum + sizes.getD f 0 else (sizes.take f).sum) := h
  obtain ⟨dst', hrun, h'⟩ := foldlM_range (n := n)
    (f := fun dst e => do
      let bytes ← loadAt srcs f (start * sizes.getD f 0 + e * sizes.getD f 0) (sizes.getD f 0)
      Buffer.store dst (start * sizes.sum + (sizes.take f).sum + e * sizes.sum) bytes)
    (P := fun e₀ dst => Settled (joinColumns nbElts sizes srcs) dst (Rows sizes.sum start n
      fun e => if e < e₀ then (sizes.take f).sum + sizes.getD f 0 else (sizes.take f).sum)) hstart
    fun e he dst h => by
      have hstream : start * sizes.getD f 0 + e * sizes.getD f 0 + sizes.getD f 0 ≤
          (srcs.getD f []).length := by
        rw [hsrcs.length_getD hf, ← Nat.add_mul]
        exact row_le (by omega) (Nat.le_refl _)
      have hlen := Buffer.length_read hstream
      have hplace : start * sizes.sum + (sizes.take f).sum + e * sizes.sum =
          (start + e) * sizes.sum + (sizes.take f).sum := by
        rw [Nat.add_mul]
        omega
      rw [loadAt_spec (by rwa [hsrcs.length_eq]) hstream, Option.bind_eq_bind, Option.bind_some,
        hplace]
      refine store_spec (k := sizes.getD f 0) h ?_ (fun j hj => ?_) fun c hc => ?_
      · rw [hlen, hgoal, Nat.add_assoc]
        exact row_le (by omega) hfits
      · rw [getElem?_read, if_pos hj, getElem?_joinColumns hsrcs (by omega) hf hj, Nat.add_mul]
      · rw [hlen]
        rcases rows_step hfits hc with ⟨hlow, hhigh⟩ | hold
        · exact Or.inl ⟨hlow, hhigh, Nat.le_refl _⟩
        · exact Or.inr hold
  refine ⟨dst', hrun, h'.mono fun c _ hc => ?_⟩
  rcases hc with hc | ⟨e, he, x, hx, rfl⟩
  · exact Or.inl hc
  · rw [sum_take_succ hf] at hx
    exact Or.inr ⟨e, he, x, by dsimp only; rwa [if_pos he], rfl⟩

theorem rejoinBlock_spec (hsrcs : Sources nbElts sizes srcs) (hsum : 0 < sizes.sum) {start n : Nat}
    (hn : start + n ≤ nbElts)
    (h : Settled (joinColumns nbElts sizes srcs) dst fun c => c < start * sizes.sum) :
    ∃ dst', (rejoinBlock srcs sizes sizes.sum start n dst).map Prod.fst = some dst' ∧
      Settled (joinColumns nbElts sizes srcs) dst' fun c => c < (start + n) * sizes.sum := by
  have hstart : Settled (joinColumns nbElts sizes srcs) dst
      (Rows sizes.sum start n fun _ => (sizes.take 0).sum) :=
    h.mono fun c _ hc => hc.resolve_right fun ⟨_, _, x, hx, _⟩ => Nat.not_lt_zero x hx
  obtain ⟨s', hrun, h', -⟩ := foldlM_range (n := sizes.length)
    (f := fun (s : List UInt8 × Nat) f => do
      let fs := sizes.getD f 0
      let dst ← copyField s.1 (start * sizes.sum + s.2) sizes.sum srcs f (start * fs) fs n
      some (dst, s.2 + fs))
    (P := fun f s => Settled (joinColumns nbElts sizes srcs) s.1
      (Rows sizes.sum start n fun _ => (sizes.take f).sum) ∧ s.2 = (sizes.take f).sum)
    (s := (dst, 0)) ⟨hstart, rfl⟩ fun f hf s ⟨h, hoffset⟩ => by
      obtain ⟨dst', hcopy, h'⟩ := copyField_spec hsrcs hn hf h
      refine ⟨(dst', s.2 + sizes.getD f 0), ?_, h', ?_⟩
      · simp only [hoffset, hcopy, Option.bind_eq_bind, Option.bind_some]
      · rw [hoffset, sum_take_succ hf]
  refine ⟨s'.1, by rw [rejoinBlock, hrun, Option.map_some], h'.mono fun c _ hc => ?_⟩
  by_cases hold : c < start * sizes.sum
  · exact Or.inl hold
  · rw [Nat.add_mul] at hc
    have hdiv : (c - start * sizes.sum) / sizes.sum < n :=
      (Nat.div_lt_iff_lt_mul hsum).2 (by omega)
    refine Or.inr ⟨_, hdiv, (c - start * sizes.sum) % sizes.sum, ?_, ?_⟩
    · rw [List.take_length]
      exact Nat.mod_lt _ hsum
    · rw [Nat.add_mul, Nat.add_assoc, Nat.div_add_mod']
      omega

theorem blockEltsOf_pos {structSize : Nat} (h : 0 < structSize) : 0 < blockEltsOf structSize := by
  rw [blockEltsOf]
  split
  · rename_i hlt
    exact Nat.div_pos (Nat.le_of_lt hlt) h
  · exact Nat.one_pos

theorem rejoinByField_spec (hsrcs : Sources nbElts sizes srcs) (hsum : 0 < sizes.sum)
    (h : Settled (joinColumns nbElts sizes srcs) dst fun _ => False) :
    rejoinByField dst srcs sizes sizes.sum nbElts = some (joinColumns nbElts sizes srcs) := by
  have hround : ∀ start dst, start < nbElts →
      (Settled (joinColumns nbElts sizes srcs) dst fun c => c < start * sizes.sum) →
      ∃ dst', (rejoinBlock srcs sizes sizes.sum start
          (if nbElts - start < blockEltsOf sizes.sum then nbElts - start
            else blockEltsOf sizes.sum) dst).map Prod.fst = some dst' ∧
        Settled (joinColumns nbElts sizes srcs) dst' fun c =>
          c < min (start + blockEltsOf sizes.sum) nbElts * sizes.sum := by
    intro start dst hstart h
    have hend : min (start + blockEltsOf sizes.sum) nbElts =
        start + (if nbElts - start < blockEltsOf sizes.sum then nbElts - start
          else blockEltsOf sizes.sum) := by
      split <;> omega
    rw [hend]
    exact rejoinBlock_spec hsrcs hsum (by split <;> omega) h
  obtain ⟨dst', hrun, h'⟩ := blockLoop_spec_min
    (P := fun start dst => Settled (joinColumns nbElts sizes srcs) dst fun c =>
      c < start * sizes.sum) (blockEltsOf_pos hsum) hround (nbElts + 1) 0 dst (by omega)
    (h.mono fun c _ hc => by
      rw [Nat.zero_min, Nat.zero_mul] at hc
      exact Nat.not_lt_zero c hc)
  rw [rejoinByField, if_neg (by omega), ← h'.eq fun c hc => by rwa [length_joinColumns hsrcs] at hc]
  exact hrun

/-- **The decoder** joins the fields. -/
theorem dispatchArrayFixedSizeStructDecode_spec (hne : sizes ≠ []) (hpos : ∀ size ∈ sizes, 0 < size)
    (hsrcs : Sources nbElts sizes srcs)
    (h : Settled (joinColumns nbElts sizes srcs) dst fun _ => False) :
    dispatchArrayFixedSizeStructDecode dst srcs sizes nbElts =
      some (joinColumns nbElts sizes srcs, sizes.sum * nbElts) := by
  have hsum := sum_pos hne hpos
  rw [dispatchArrayFixedSizeStructDecode]
  split
  · rename_i hzero
    subst hzero
    rw [h.eq fun c hc => by
      rw [length_joinColumns hsrcs, Nat.zero_mul] at hc
      exact Nat.not_lt_zero c hc, Nat.mul_zero]
  · rename_i hnb
    dsimp only
    split
    · rename_i hsmall
      exact rejoinMax8_spec hne hpos (fun size hsize =>
        Nat.le_trans (le_largestSize hsize) hsmall.1) hsrcs hnb h
    · rw [rejoinByField_spec hsrcs hsum h]
      rfl

end Decoder

/-! ## All paths -/

/-- A splitter and a joiner of `nbElts` structures do what the plain definitions say, and nothing
outside of their buffers. -/
structure Splits (nbElts : Nat) (sizes : List Nat)
    (encode : List (List UInt8) → List UInt8 → Option (List (List UInt8)))
    (decode : List UInt8 → List (List UInt8) → Option (List UInt8)) : Prop where
  encode_eq : ∀ dst src, Sources nbElts sizes dst → src.length = nbElts * sizes.sum →
    encode dst src = some (columns sizes.sum nbElts src 0 sizes)
  decode_eq : ∀ dst srcs, dst.length = nbElts * sizes.sum → Sources nbElts sizes srcs →
    decode dst srcs = some (joinColumns nbElts sizes srcs)
  decode_encode : ∀ dst src out, Sources nbElts sizes dst → src.length = nbElts * sizes.sum →
    out.length = nbElts * sizes.sum → (encode dst src).bind (decode out) = some src
  encode_decode : ∀ dst srcs out, dst.length = nbElts * sizes.sum → Sources nbElts sizes srcs →
    Sources nbElts sizes out → (decode dst srcs).bind (encode out) = some srcs

section Paths

variable {nbElts eltWidth : Nat} {sizes : List Nat}

theorem Splits.of_eq {encode : List (List UInt8) → List UInt8 → Option (List (List UInt8))}
    {decode : List UInt8 → List (List UInt8) → Option (List UInt8)}
    (hencode : ∀ dst src, Sources nbElts sizes dst → src.length = nbElts * sizes.sum →
      encode dst src = some (columns sizes.sum nbElts src 0 sizes))
    (hdecode : ∀ dst srcs, dst.length = nbElts * sizes.sum → Sources nbElts sizes srcs →
      decode dst srcs = some (joinColumns nbElts sizes srcs)) :
    Splits nbElts sizes encode decode where
  encode_eq := hencode
  decode_eq := hdecode
  decode_encode dst src out hdst hsrc hout := by
    rw [hencode dst src hdst hsrc, Option.bind_some,
      hdecode out _ hout (sources_columns hsrc (Nat.le_of_eq (Nat.zero_add _))),
      joinColumns_columns hsrc]
  encode_decode dst srcs out hdst hsrcs hout := by
    rw [hdecode dst srcs hdst hsrcs, Option.bind_some,
      hencode out _ hout (length_joinColumns hsrcs), columns_joinColumns hsrcs]

theorem streams_start {src : List UInt8} {dst : List (List UInt8)}
    (hsrc : src.length = nbElts * sizes.sum) (hdst : Sources nbElts sizes dst) :
    Streams (columns sizes.sum nbElts src 0 sizes) dst fun _ _ => False where
  length_eq := by rw [length_columns, hdst.length_eq]
  settled r hr := by
    rw [length_columns] at hr
    exact Settled.start (by rw [hdst.length_getD hr, length_getD_columns hsrc hr])

theorem sum_replicate_one (n : Nat) : (List.replicate n 1).sum = n := by
  rw [List.sum_replicate_nat, Nat.mul_one]

theorem ranks_joinColumns {srcs : List (List UInt8)}
    (hsrcs : Sources nbElts (List.replicate eltWidth 1) srcs) :
    Ranks nbElts eltWidth (joinColumns nbElts (List.replicate eltWidth 1) srcs) srcs := by
  have hlen := length_joinColumns hsrcs
  have hback := columns_joinColumns hsrcs
  rw [sum_replicate_one] at hlen hback
  have hranks := ranks_columns hlen
  rwa [hback] at hranks

theorem splits_transpose (avx2 : Bool) (nbElts : Nat) (hpos : 0 < eltWidth) :
    Splits nbElts (List.replicate eltWidth 1)
      (fun dst src => splitTransposeEncode avx2 dst src nbElts eltWidth)
      fun dst srcs => splitTransposeDecode avx2 dst srcs nbElts eltWidth := by
  refine Splits.of_eq (fun dst src hdst hsrc => ?_) fun dst srcs hdst hsrcs => ?_
  · have hstart := streams_start hsrc hdst
    rw [sum_replicate_one] at hsrc hstart ⊢
    exact splitTransposeEncode_spec avx2 hpos (ranks_columns hsrc) hstart
  · exact splitTransposeDecode_spec avx2 hpos (ranks_joinColumns hsrcs)
      (Settled.start (by rw [hdst, length_joinColumns hsrcs]))

theorem splits_impl (nbElts eltWidth : Nat) :
    Splits nbElts (List.replicate eltWidth 1)
      (fun dst src => encodeImpl dst src nbElts eltWidth)
      fun dst srcs => decodeImpl dst srcs nbElts eltWidth := by
  refine Splits.of_eq (fun dst src hdst hsrc => ?_) fun dst srcs hdst hsrcs => ?_
  · have hstart := streams_start hsrc hdst
    rw [sum_replicate_one] at hsrc hstart ⊢
    have hranks := ranks_columns hsrc
    obtain ⟨dst', hrun, h'⟩ := encodeImpl_spec hranks (Nat.le_refl nbElts) hstart
    rw [hrun, h'.eq fun r hr i hi => by
      rwa [hranks.length_stream r (by rwa [← hranks.length_eq])] at hi]
  · have hranks := ranks_joinColumns hsrcs
    obtain ⟨dst', hrun, h'⟩ := decodeImpl_spec hranks (Nat.le_refl nbElts)
      (Settled.start (by rw [hdst, length_joinColumns hsrcs]))
    rw [hrun, h'.eq fun i hi => by rwa [hranks.length_src] at hi]

theorem splits_dispatch (nbElts : Nat) (hne : sizes ≠ []) (hpos : ∀ size ∈ sizes, 0 < size) :
    Splits nbElts sizes (fun dst src => dispatchArrayFixedSizeStruct dst src sizes)
      fun dst srcs => (dispatchArrayFixedSizeStructDecode dst srcs sizes nbElts).map Prod.fst := by
  refine Splits.of_eq (fun dst src hdst hsrc => ?_) fun dst srcs hdst hsrcs => ?_
  · exact dispatchArrayFixedSizeStruct_spec hne hpos hsrc (streams_start hsrc hdst)
  · rw [dispatchArrayFixedSizeStructDecode_spec hne hpos hsrcs
      (Settled.start (by rw [hdst, length_joinColumns hsrcs]))]
    rfl

theorem splits_byStruct (avx2 : Bool) (nbElts : Nat) (hne : sizes ≠ [])
    (hpos : ∀ size ∈ sizes, 0 < size) :
    Splits nbElts sizes (fun dst src => splitByStruct avx2 dst src sizes)
      fun dst srcs => rejoinByStruct avx2 dst srcs sizes nbElts := by
  have hsum := sum_pos hne hpos
  have hplain := splits_dispatch nbElts hne hpos
  by_cases hbytes : byteFields sizes
  · have hones : sizes = List.replicate sizes.length 1 := by
      rw [byteFields, Bool.and_eq_true, List.all_eq_true] at hbytes
      exact List.eq_replicate_iff.2 ⟨rfl, fun size hsize => by simpa using hbytes.1 size hsize⟩
    have htranspose := splits_transpose avx2 nbElts (List.length_pos_iff.2 hne)
    rw [← hones] at htranspose
    refine Splits.of_eq (fun dst src hdst hsrc => ?_) fun dst srcs hdst hsrcs => ?_
    · rw [splitByStruct, if_pos hbytes, hsrc, Nat.mul_div_cancel _ hsum]
      exact htranspose.encode_eq dst src hdst hsrc
    · rw [rejoinByStruct, if_pos hbytes]
      exact htranspose.decode_eq dst srcs hdst hsrcs
  · refine Splits.of_eq (fun dst src hdst hsrc => ?_) fun dst srcs hdst hsrcs => ?_
    · rw [splitByStruct, if_neg hbytes]
      exact hplain.encode_eq dst src hdst hsrc
    · rw [rejoinByStruct, if_neg hbytes]
      exact hplain.decode_eq dst srcs hdst hsrcs

/-- **All paths agree**: transposition with AVX2 and without it, and splitting by structure through
any variant, do what the plain definitions say and invert each other; the joiner returns the size of
what it wrote. -/
theorem paths_agree (avx2 : Bool) (nbElts : Nat) (hwidth : 0 < eltWidth) (hne : sizes ≠ [])
    (hpos : ∀ size ∈ sizes, 0 < size) :
    Splits nbElts (List.replicate eltWidth 1)
        (fun dst src => splitTransposeEncode avx2 dst src nbElts eltWidth)
        (fun dst srcs => splitTransposeDecode avx2 dst srcs nbElts eltWidth) ∧
      Splits nbElts (List.replicate eltWidth 1)
        (fun dst src => encodeImpl dst src nbElts eltWidth)
        (fun dst srcs => decodeImpl dst srcs nbElts eltWidth) ∧
      Splits nbElts sizes (fun dst src => dispatchArrayFixedSizeStruct dst src sizes)
        (fun dst srcs => (dispatchArrayFixedSizeStructDecode dst srcs sizes nbElts).map Prod.fst) ∧
      Splits nbElts sizes (fun dst src => splitByStruct avx2 dst src sizes)
        (fun dst srcs => rejoinByStruct avx2 dst srcs sizes nbElts) ∧
      ∀ dst srcs, dst.length = nbElts * sizes.sum → Sources nbElts sizes srcs →
        (dispatchArrayFixedSizeStructDecode dst srcs sizes nbElts).map Prod.snd =
          some (sizes.sum * nbElts) := by
  refine ⟨splits_transpose avx2 nbElts hwidth, splits_impl nbElts eltWidth,
    splits_dispatch nbElts hne hpos, splits_byStruct avx2 nbElts hne hpos,
    fun dst srcs hdst hsrcs => ?_⟩
  rw [dispatchArrayFixedSizeStructDecode_spec hne hpos hsrcs
    (Settled.start (by rw [hdst, length_joinColumns hsrcs]))]
  rfl

/-- Two structures of a byte and three bytes, and two elements of three bytes. -/
theorem paths_agree_two :
    splitTransposeEncode true [[0, 0], [0, 0], [0, 0]] [1, 2, 3, 4, 5, 6] 2 3 =
        some [[1, 4], [2, 5], [3, 6]] ∧
      dispatchArrayFixedSizeStruct [[0, 0], [0, 0, 0, 0, 0, 0]] [1, 2, 3, 4, 5, 6, 7, 8] [1, 3] =
        some [[1, 5], [2, 3, 4, 6, 7, 8]] := by
  obtain ⟨htranspose, -, hdispatch, -⟩ := @paths_agree 3 [1, 3] true 2 (by decide) (by decide)
    (by decide)
  exact ⟨htranspose.encode_eq _ _ ⟨rfl, rfl, rfl, trivial⟩ rfl,
    hdispatch.encode_eq _ _ ⟨rfl, rfl, trivial⟩ rfl⟩

end Paths

end OpenZL.Codecs.SplitByStruct
