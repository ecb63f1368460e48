import OpenZL.Codecs.SplitByRange
import OpenZL.Lib.Filling
import Mathlib.Tactic.Ring

/-!
# The segments of a split by range

Whatever the values are, no phase of the detection leaves its buffers, and the segments partition
the list: each split that is taken lies at least one segment behind the last and one segment before
the end.

Principal results: `computeBlockStats_ok`, `findConfirmedSplitBlocks_ok`, `refineSplitBoundary_ok`,
`cutAt_sound`, `detectBoundaries_spec`, `splitByRange_partitions`.
-/

namespace OpenZL.Codecs.SplitByRange

open OpenZL.Lib

/-- `nbElts` elements of one of the widths of numeric lists. -/
structure Numeric (src : List UInt8) (eltWidth nbElts : Nat) : Prop where
  width : eltWidth = 1 ∨ eltWidth = 2 ∨ eltWidth = 4 ∨ eltWidth = 8
  length : src.length = nbElts * eltWidth

section Accesses

variable {α : Type} {cells : List α} {i n : Nat}

theorem getElem?_ok (h : i < cells.length) : ∃ v, cells[i]? = some v :=
  ⟨cells[i], List.getElem?_eq_getElem h⟩

theorem setAt_of_lt (h : i < cells.length) (v : α) : setAt cells i v = some (cells.set i v) :=
  if_pos h

theorem diff_of_le {a b : Nat} (h : b ≤ a) : diff a b = some (a - b) := if_pos h

theorem MinMax.Holds.getElem?_min {arrays : MinMax} (h : arrays.Holds n) (hi : i < n) :
    ∃ v, arrays.min[i]? = some v := getElem?_ok (by rw [h.min]; exact hi)

theorem MinMax.Holds.getElem?_max {arrays : MinMax} (h : arrays.Holds n) (hi : i < n) :
    ∃ v, arrays.max[i]? = some v := getElem?_ok (by rw [h.max]; exact hi)

theorem MinMax.Holds.set {arrays : MinMax} (h : arrays.Holds n) (hi : i < n) (lo hi' : UInt64) :
    ∃ arrays', arrays.set i lo hi' = some arrays' ∧ arrays'.Holds n := by
  refine ⟨⟨arrays.min.set i lo, arrays.max.set i hi'⟩, ?_, ?_, ?_⟩
  · rw [MinMax.set, setAt_of_lt (by rw [h.min]; exact hi), setAt_of_lt (by rw [h.max]; exact hi)]
    rfl
  · rw [List.length_set, h.min]
  · rw [List.length_set, h.max]

theorem readElt_ok {src : List UInt8} {eltWidth nbElts idx : Nat}
    (h : Numeric src eltWidth nbElts) (hidx : idx < nbElts) :
    ∃ v, readElt src eltWidth idx = some v := by
  have hle : (idx + 1) * eltWidth ≤ src.length := by
    rw [h.length]
    exact Nat.mul_le_mul_right eltWidth hidx
  exact ⟨_, by rw [readElt, if_pos h.width, if_pos hle]⟩

end Accesses

section Blocks

variable {src : List UInt8} {eltWidth nbElts blockSize nbBlocks : Nat} {blocks : MinMax}

theorem blockRange_ok {start stop : Nat} (h : Numeric src eltWidth nbElts) (hstart : start < nbElts)
    (hstop : stop ≤ nbElts) : ∃ r, blockRange src eltWidth start stop = some r := by
  obtain ⟨first, hfirst⟩ := readElt_ok h hstart
  obtain ⟨r, hr, -⟩ := @foldlM_invariant _ _ (fun (r : UInt64 × UInt64) i => do
      let v ← readElt src eltWidth i
      some (if v < r.1 then v else r.1, if v > r.2 then v else r.2)) (fun _ => True)
    (List.range' (start + 1) (stop - (start + 1))) (first, first) trivial fun i hi r _ => by
      rw [List.mem_range'_1] at hi
      obtain ⟨v, hv⟩ := @readElt_ok src eltWidth nbElts i h (by omega)
      exact ⟨_, by rw [hv]; rfl, trivial⟩
  exact ⟨r, by rw [blockRange, hfirst]; exact hr⟩

/-- Every block starts inside the list. -/
def Covers (nbElts blockSize nbBlocks : Nat) : Prop := ∀ b < nbBlocks, b * blockSize < nbElts

/-- **The statistics are written to the cells of the blocks.** -/
theorem computeBlockStats_ok (h : Numeric src eltWidth nbElts)
    (hcovers : Covers nbElts blockSize nbBlocks) (hblocks : blocks.Holds nbBlocks) :
    ∃ blocks', computeBlockStats src eltWidth nbElts blockSize nbBlocks blocks = some blocks' ∧
      blocks'.Holds nbBlocks := by
  refine foldlM_invariant hblocks fun b hb blocks hblocks => ?_
  rw [List.mem_range] at hb
  have hstop : (if b * blockSize + blockSize > nbElts then nbElts
      else b * blockSize + blockSize) ≤ nbElts := by
    split <;> omega
  obtain ⟨r, hr⟩ := blockRange_ok h (hcovers b hb) hstop
  obtain ⟨blocks', hset, hholds⟩ := hblocks.set hb r.1 r.2
  refine ⟨blocks', ?_, hholds⟩
  simp only [hr, Option.bind_eq_bind, Option.bind_some, hset]

theorem window_ok (hblocks : blocks.Holds nbBlocks) {first last : Nat} (hle : first ≤ last)
    (hlast : last < nbBlocks) : ∃ w, window blocks first last = some w := by
  obtain ⟨lo, hlo⟩ := hblocks.getElem?_min (Nat.lt_of_le_of_lt hle hlast)
  obtain ⟨hi, hhi⟩ := hblocks.getElem?_max (Nat.lt_of_le_of_lt hle hlast)
  unfold window
  simp only [hlo, hhi, Option.bind_eq_bind, Option.bind_some]
  obtain ⟨w, hw, -⟩ := @foldlM_invariant _ _ (fun (w : Window) i => do
      let lo ← blocks.min[i]?
      let hi ← blocks.max[i]?
      some {
        min := if lo < w.min then lo else w.min
        max := if hi > w.max then hi else w.max
        maxBR := if hi - lo > w.maxBR then hi - lo else w.maxBR }) (fun _ => True)
    (List.range' (first + 1) (last - first)) ⟨lo, hi, hi - lo⟩ trivial fun i hi w _ => by
      rw [List.mem_range'_1] at hi
      obtain ⟨lo, hlo⟩ := @MinMax.Holds.getElem?_min i nbBlocks blocks hblocks (by omega)
      obtain ⟨hi, hhi⟩ := @MinMax.Holds.getElem?_max i nbBlocks blocks hblocks (by omega)
      exact ⟨_, by rw [hlo, hhi]; rfl, trivial⟩
  exact ⟨w, hw⟩

end Blocks

/-- The splits that were recorded: each has a full window of blocks behind it. -/
def Recorded (nbBlocks M nbSplits : Nat) (splitBlocks : List Nat) : Prop :=
  ∀ i < nbSplits, ∃ sb, splitBlocks[i]? = some sb ∧ sb + M + 1 < nbBlocks

/-! ## Search -/

/-- What the search for splits keeps. -/
structure Found (nbBlocks M maxSplits : Nat) (s : Search) : Prop where
  leftBound_le : s.leftBound ≤ s.b
  nbSplits_le : s.nbSplits ≤ maxSplits
  length : s.splitBlocks.length = nbBlocks
  recorded : Recorded nbBlocks M s.nbSplits s.splitBlocks

section Search

variable {blocks : MinMax} {nbBlocks M maxSplits minLSize : Nat} {s : Search}

theorem Found.next (h : Found nbBlocks M maxSplits s) :
    Found nbBlocks M maxSplits { s with b := s.b + 1 } :=
  ⟨Nat.le_succ_of_le h.leftBound_le, h.nbSplits_le, h.length, h.recorded⟩

theorem Found.record (h : Found nbBlocks M maxSplits s) (hb : s.b + M + 1 < nbBlocks)
    (hroom : s.nbSplits < maxSplits) (hmax : maxSplits ≤ nbBlocks) :
    Found nbBlocks M maxSplits
      ⟨s.b + 2, s.b + 2, s.nbSplits + 1, s.splitBlocks.set s.nbSplits s.b⟩ := by
  refine ⟨Nat.le_refl _, hroom, by rw [List.length_set, h.length], fun i hi => ?_⟩
  have hlen := h.length
  rcases Nat.lt_succ_iff_lt_or_eq.1 hi with hlt | rfl
  · obtain ⟨sb, hsb, hlt'⟩ := h.recorded i hlt
    exact ⟨sb, by rw [List.getElem?_set_ne (by omega), hsb], hlt'⟩
  · exact ⟨s.b, List.getElem?_set_self (by omega), hb⟩

theorem candidate_found (hblocks : blocks.Holds nbBlocks) (h : Found nbBlocks M maxSplits s)
    (hM : 1 ≤ M) (hb : s.b + M + 1 < nbBlocks) (hroom : s.nbSplits < maxSplits)
    (hmax : maxSplits ≤ nbBlocks) : ∃ s', candidate blocks M minLSize s = some s' ∧
      Found nbBlocks M maxSplits s' ∧ s.b < s'.b ∧ s'.b ≤ s.b + 2 := by
  have hbound := h.leftBound_le
  have hlen := h.length
  unfold candidate
  generalize hl : (if s.b + 1 ≥ M ∧ s.b + 1 - M ≥ s.leftBound then s.b + 1 - M
    else s.leftBound) = lStart
  have hlStart : lStart ≤ s.b := by
    rw [← hl]
    split <;> omega
  obtain ⟨left, hleft⟩ := window_ok hblocks hlStart (by omega : s.b < nbBlocks)
  obtain ⟨right, hright⟩ := window_ok hblocks (by omega : s.b + 2 ≤ s.b + M + 1) hb
  obtain ⟨lo, hlo⟩ := hblocks.getElem?_min (by omega : s.b + 1 < nbBlocks)
  obtain ⟨hi, hhi⟩ := hblocks.getElem?_max (by omega : s.b + 1 < nbBlocks)
  simp only [diff_of_le (by omega : lStart ≤ s.b + 1), hleft, hright, hlo, hhi,
    setAt_of_lt (by omega : s.nbSplits < s.splitBlocks.length), Option.bind_eq_bind,
    Option.bind_some]
  have hnext : ∃ s', some { s with b := s.b + 1 } = some s' ∧ Found nbBlocks M maxSplits s' ∧
      s.b < s'.b ∧ s'.b ≤ s.b + 2 := ⟨_, rfl, h.next, Nat.lt_succ_self _, Nat.le_succ _⟩
  split
  · exact hnext
  split
  · split
    · exact ⟨_, rfl, h.record hb hroom hmax, by dsimp only; omega, Nat.le_refl _⟩
    · exact hnext
  · exact hnext

theorem searchLoop_found (hblocks : blocks.Holds nbBlocks) (hM : 1 ≤ M)
    (hmax : maxSplits ≤ nbBlocks) (fuel : Nat) : ∀ {s : Search}, Found nbBlocks M maxSplits s →
      s.b ≤ nbBlocks → nbBlocks < fuel + s.b →
        ∃ s', searchLoop blocks nbBlocks M maxSplits fuel s = some s' ∧
          Found nbBlocks M maxSplits s' := by
  induction fuel with
  | zero =>
    intro s h hle hfuel
    omega
  | succ fuel ih =>
    intro s h hle hfuel
    rw [searchLoop]
    by_cases hmore : s.b + M + 1 < nbBlocks ∧ s.nbSplits < maxSplits
    · obtain ⟨s', hs', hfound, hlt, hle'⟩ :=
        @candidate_found blocks nbBlocks M maxSplits (if M ≥ 2 then 2 else 1) s hblocks h hM
          hmore.1 hmore.2 hmax
      rw [if_pos hmore, hs']
      exact ih hfound (by omega) (by omega)
    · rw [if_neg hmore]
      exact ⟨s, rfl, h⟩

/-- **The search stays among the blocks** and records no more splits than there is room for. -/
theorem findConfirmedSplitBlocks_ok (hblocks : blocks.Holds nbBlocks) {splitBlocks : List Nat}
    (hlen : splitBlocks.length = nbBlocks) (hmax : maxSplits ≤ nbBlocks) :
    ∃ nbSplits found, findConfirmedSplitBlocks blocks nbBlocks M splitBlocks maxSplits =
        some (nbSplits, found) ∧
      nbSplits ≤ maxSplits ∧ Recorded nbBlocks M nbSplits found := by
  unfold findConfirmedSplitBlocks
  split
  · exact ⟨0, splitBlocks, rfl, Nat.zero_le _, nofun⟩
  · rename_i hM
    obtain ⟨s, hs, hfound⟩ := @searchLoop_found blocks nbBlocks M maxSplits hblocks (by omega)
      hmax (nbBlocks + 1) ⟨M - 1, 0, 0, splitBlocks⟩ ⟨Nat.zero_le _, Nat.zero_le _, hlen, nofun⟩
      (by dsimp only; omega) (by dsimp only; omega)
    exact ⟨s.nbSplits, s.splitBlocks, by rw [hs]; rfl, hfound.nbSplits_le, hfound.recorded⟩

end Search

/-! ## Refinement -/

section Refine

variable {src : List UInt8} {eltWidth nbElts blockSize nbBlocks zone transStart : Nat}
  {blocks suff : MinMax}

theorem suffixPass_ok (h : Numeric src eltWidth nbElts) : ∀ {i : Nat} {suff : MinMax},
    suff.Holds zone → i < zone → transStart + i ≤ nbElts →
      ∃ suff', suffixPass src eltWidth transStart i suff = some suff' ∧ suff'.Holds zone
  | 0, suff, hsuff, _, _ => ⟨suff, rfl, hsuff⟩
  | i + 1, suff, hsuff, hi, hle => by
      obtain ⟨v, hv⟩ := @readElt_ok src eltWidth nbElts (transStart + i) h (by omega)
      obtain ⟨lo, hlo⟩ := hsuff.getElem?_min hi
      obtain ⟨hi', hhi⟩ := hsuff.getElem?_max hi
      obtain ⟨suff', hset, hsuff'⟩ := hsuff.set (by omega : i < zone)
        (if v < lo then v else lo) (if v > hi' then v else hi')
      simp only [suffixPass, hv, hlo, hhi, hset, Option.bind_eq_bind, Option.bind_some]
      exact suffixPass_ok h hsuff' (by omega) (by omega)

theorem mergeContext_ok {transEndBlk segEndBlk transLen : Nat} (hblocks : blocks.Holds nbBlocks)
    (hsuff : suff.Holds zone) (hseg : segEndBlk ≤ nbBlocks) (hlen : transLen ≤ zone) :
    ∃ suff', mergeContext blocks transEndBlk segEndBlk transLen suff = some suff' ∧
      suff'.Holds zone := by
  unfold mergeContext
  split
  · obtain ⟨context, hcontext⟩ := window_ok hblocks (by omega : transEndBlk ≤ segEndBlk - 1)
      (by omega)
    rw [hcontext]
    refine foldlM_invariant hsuff fun i hi suff hsuff => ?_
    rw [List.mem_range] at hi
    obtain ⟨lo, hlo⟩ := hsuff.getElem?_min (by omega : i < zone)
    obtain ⟨hi', hhi⟩ := hsuff.getElem?_max (by omega : i < zone)
    simp only [hlo, hhi, Option.bind_eq_bind, Option.bind_some]
    exact hsuff.set (by omega) _ _
  · exact ⟨suff, rfl, hsuff⟩

theorem checkGap_ok {scanEnd pos : Nat} (hsuff : suff.Holds zone)
    (hzone : scanEnd ≤ transStart + zone) (hpos : pos < scanEnd) (p : Prefix) :
    ∃ p', checkGap suff transStart pos p = some p' := by
  unfold checkGap
  split
  · obtain ⟨lo, hlo⟩ := hsuff.getElem?_min (by omega : pos - transStart < zone)
    obtain ⟨hi, hhi⟩ := hsuff.getElem?_max (by omega : pos - transStart < zone)
    unfold gapAt
    simp only [hlo, hhi, Option.bind_eq_bind, Option.bind_some]
    exact ⟨_, rfl⟩
  · exact ⟨p, rfl⟩

theorem forwardPass_ok {scanStart scanEnd default : Nat} (h : Numeric src eltWidth nbElts)
    (hsuff : suff.Holds zone) (hzone : scanEnd ≤ transStart + zone) (hstart : scanStart < scanEnd)
    (hend : scanEnd ≤ nbElts) :
    ∃ pos, forwardPass src eltWidth transStart scanStart scanEnd default suff = some pos := by
  obtain ⟨first, hfirst⟩ := @readElt_ok src eltWidth nbElts scanStart h (by omega)
  obtain ⟨p, hp, -⟩ := @foldlM_invariant _ _ (fun (p : Prefix) pos => do
      let p ← checkGap suff transStart pos p
      let v ← readElt src eltWidth pos
      some { p with
        min := if v < p.min then v else p.min
        max := if v > p.max then v else p.max }) (fun _ => True)
    (List.range' (scanStart + 1) (scanEnd - (scanStart + 1))) ⟨first, first, default, 0⟩ trivial
    fun pos hpos p _ => by
      rw [List.mem_range'_1] at hpos
      obtain ⟨p', hp'⟩ := checkGap_ok hsuff hzone (by omega : pos < scanEnd) p
      obtain ⟨v, hv⟩ := @readElt_ok src eltWidth nbElts pos h (by omega)
      simp only [hp', hv, Option.bind_eq_bind, Option.bind_some]
      exact ⟨_, rfl, trivial⟩
  refine ⟨p.bestPos, ?_⟩
  unfold forwardPass
  rw [hfirst, Option.bind_eq_bind, Option.bind_some, hp]
  rfl

/-- **The exact position is looked for inside the buffers**: the transition zone has at most four
blocks, and all of it lies in the list. -/
theorem refineSplitBoundary_ok (h : Numeric src eltWidth nbElts)
    (hcovers : Covers nbElts blockSize nbBlocks) (hblocks : blocks.Holds nbBlocks)
    (hsuff : suff.Holds (maxZoneOf blockSize)) (hsize : 0 < blockSize)
    {sb segStartElt segEndBlk : Nat} (hsb : sb + 2 < nbBlocks) (hseg : segEndBlk ≤ nbBlocks) :
    ∃ pos suff', refineSplitBoundary src eltWidth nbElts blockSize sb segStartElt segEndBlk blocks
        suff = some (pos, suff') ∧ suff'.Holds (maxZoneOf blockSize) := by
  have hin := hcovers (sb + 2) hsb
  unfold maxZoneOf at hsuff ⊢
  unfold refineSplitBoundary
  generalize hzone : (if sb > 0 then (sb - 1) * blockSize else 0) = zone
  -- the zone starts one block before the split, and the split lies two blocks before the end
  have hzoneLe : zone + 2 * blockSize ≤ (sb + 2) * blockSize ∧
      (sb + 3) * blockSize ≤ zone + 4 * blockSize := by
    rw [← hzone]
    cases sb with
    | zero =>
      rw [if_neg (by omega)]
      omega
    | succ k =>
      have htwo : (k + 1 + 2) * blockSize = k * blockSize + 3 * blockSize := by ring
      have hthree : (k + 1 + 3) * blockSize = k * blockSize + 4 * blockSize := by ring
      rw [if_pos (by omega), Nat.add_sub_cancel]
      omega
  have hnext : (sb + 3) * blockSize = (sb + 2) * blockSize + blockSize := by ring
  dsimp only
  generalize htrans : (if zone < segStartElt then segStartElt else zone) = transStart
  generalize hend : (if (sb + 3) * blockSize < nbElts then (sb + 3) * blockSize else nbElts) =
    scanEnd
  have htransLe : zone ≤ transStart ∧ segStartElt ≤ transStart ∧
      (transStart = zone ∨ transStart = segStartElt) := by
    rw [← htrans]
    split <;> omega
  have hendLe : scanEnd ≤ nbElts ∧ scanEnd ≤ (sb + 3) * blockSize ∧
      (sb + 2) * blockSize < scanEnd := by
    rw [← hend]
    split <;> omega
  have hstart : (if segStartElt < transStart then segStartElt else transStart) = segStartElt := by
    split <;> omega
  rw [hstart]
  split
  · exact ⟨_, suff, rfl, hsuff⟩
  · rename_i hlong
    have hlen : 1 ≤ scanEnd - transStart := by omega
    obtain ⟨last, hlast⟩ :=
      @readElt_ok src eltWidth nbElts (transStart + (scanEnd - transStart) - 1) h (by omega)
    obtain ⟨suff₁, hset, hsuff₁⟩ :=
      hsuff.set (by omega : scanEnd - transStart - 1 < 4 * blockSize + 1) last last
    obtain ⟨suff₂, hpass, hsuff₂⟩ := @suffixPass_ok src eltWidth nbElts _ transStart h
      (scanEnd - transStart - 1) suff₁ hsuff₁ (by omega) (by omega)
    obtain ⟨suff₃, hmerge, hsuff₃⟩ := @mergeContext_ok nbBlocks _ blocks suff₂
      ((scanEnd + blockSize - 1) / blockSize) segEndBlk (scanEnd - transStart) hblocks hsuff₂ hseg
      (by omega)
    obtain ⟨pos, hpos⟩ := @forwardPass_ok src eltWidth nbElts _ transStart suff₃ segStartElt
      scanEnd ((sb + 1) * blockSize) h hsuff₃ (by omega) (by omega) hendLe.1
    refine ⟨pos, suff₃, ?_, hsuff₃⟩
    simp only [diff_of_le (by omega : transStart ≤ scanEnd), diff_of_le hlen, hlast, hset, hpass,
      hmerge, hpos, Option.bind_eq_bind, Option.bind_some]

end Refine

/-! ## Segments -/

/-- What the last phase keeps: the sizes so far add up to the position, and there is still one
segment in front of it. -/
structure Cut.Sound (nbElts minSegSize maxSegments zone : Nat) (c : Cut) : Prop where
  suff : c.suff.Holds zone
  length : c.segmentSizes.length = maxSegments
  sum : (c.segmentSizes.take c.nbSegments).sum = c.pos
  large : ∀ size ∈ c.segmentSizes.take c.nbSegments, minSegSize ≤ size
  room : c.pos + minSegSize ≤ nbElts

section Segments

variable {src : List UInt8} {eltWidth nbElts minSegSize blockSize nbBlocks maxSegments zone : Nat}
  {blocks : MinMax} {c : Cut}

theorem Cut.Sound.close (h : c.Sound nbElts minSegSize maxSegments zone)
    (hroom : c.nbSegments < maxSegments) {splitPos : Nat} (hpos : c.pos + minSegSize ≤ splitPos) :
    ∃ sizes, c.close maxSegments splitPos =
        some { c with pos := splitPos, nbSegments := c.nbSegments + 1, segmentSizes := sizes } ∧
      sizes.length = maxSegments ∧ (sizes.take (c.nbSegments + 1)).sum = splitPos ∧
      ∀ size ∈ sizes.take (c.nbSegments + 1), minSegSize ≤ size := by
  have hlen := h.length
  have htake : (c.segmentSizes.set c.nbSegments (splitPos - c.pos)).take (c.nbSegments + 1) =
      c.segmentSizes.take c.nbSegments ++ [splitPos - c.pos] := by
    rw [List.take_add_one, List.getElem?_set_self (by omega), List.take_set_of_le (Nat.le_refl _)]
    rfl
  refine ⟨c.segmentSizes.set c.nbSegments (splitPos - c.pos), ?_, by rw [List.length_set, hlen],
    ?_, ?_⟩
  · rw [Cut.close, diff_of_le (by omega), Option.bind_eq_bind, Option.bind_some, if_pos hroom,
      setAt_of_lt (by omega)]
    rfl
  · rw [htake, List.sum_append, h.sum, List.sum_singleton]
    omega
  · rw [htake]
    intro size hsize
    rcases List.mem_append.1 hsize with hsize | hsize
    · exact h.large size hsize
    · rw [List.mem_singleton.1 hsize]
      omega

/-- **A split is taken only where it leaves enough on both sides.** -/
theorem cutAt_sound (hsrc : Numeric src eltWidth nbElts)
    (hcovers : Covers nbElts blockSize nbBlocks) (hblocks : blocks.Holds nbBlocks) (hsize : 0 < blockSize)
    {M nbSplits s : Nat}
    {splitBlocks : List Nat} (hM : 1 ≤ M) (hrecorded : Recorded nbBlocks M nbSplits splitBlocks)
    (hs : s < nbSplits) (hroom : s < maxSegments)
    (h : c.Sound nbElts minSegSize maxSegments (maxZoneOf blockSize)) (hcount : c.nbSegments ≤ s) :
    ∃ c', cutAt src eltWidth nbElts minSegSize blockSize nbBlocks maxSegments blocks splitBlocks
        nbSplits c s = some c' ∧
      c'.Sound nbElts minSegSize maxSegments (maxZoneOf blockSize) ∧ c'.nbSegments ≤ s + 1 := by
  obtain ⟨sb, hsb, hlt⟩ := hrecorded s hs
  obtain ⟨segEndBlk, hseg, hsegLe⟩ : ∃ e, segmentEndBlock splitBlocks nbSplits nbBlocks s = some e ∧
      e ≤ nbBlocks := by
    unfold segmentEndBlock
    split
    · rename_i hnext
      obtain ⟨next, hnext, -⟩ := hrecorded (s + 1) hnext
      rw [hnext]
      refine ⟨_, rfl, ?_⟩
      split <;> omega
    · exact ⟨nbBlocks, rfl, Nat.le_refl _⟩
  obtain ⟨pos, suff, hrefine, hsuff⟩ := @refineSplitBoundary_ok src eltWidth nbElts blockSize
    nbBlocks blocks c.suff hsrc hcovers hblocks h.suff hsize sb c.pos segEndBlk (by omega) hsegLe
  have hroom' := h.room
  unfold cutAt
  simp only [hsb, hseg, hrefine, diff_of_le (by omega : minSegSize ≤ nbElts), Option.bind_eq_bind,
    Option.bind_some]
  generalize hsplit : (if pos < c.pos + minSegSize then c.pos + minSegSize else pos) = splitPos
  have hmin : c.pos + minSegSize ≤ splitPos := by
    rw [← hsplit]
    split <;> omega
  have hkeep : Cut.Sound nbElts minSegSize maxSegments (maxZoneOf blockSize)
      { c with suff := suff } := ⟨hsuff, h.length, h.sum, h.large, h.room⟩
  split
  · exact ⟨_, rfl, hkeep, Nat.le_succ_of_le hcount⟩
  split
  · exact ⟨_, rfl, hkeep, Nat.le_succ_of_le hcount⟩
  · rename_i hlast _
    obtain ⟨sizes, hclose, hlen, hsum, hlarge⟩ :=
      hkeep.close (by dsimp only; omega) hmin
    exact ⟨_, hclose, ⟨hsuff, hlen, hsum, hlarge, by dsimp only; omega⟩, Nat.succ_le_succ hcount⟩

theorem covers_nbBlocks (hsize : 0 < blockSize) (nbElts : Nat) :
    Covers nbElts blockSize (nbBlocksOf nbElts blockSize) := by
  intro b hb
  have hle : (b + 1) * blockSize ≤ nbElts + blockSize - 1 :=
    (Nat.le_div_iff_mul_le hsize).1 hb
  rw [Nat.add_mul, Nat.one_mul] at hle
  omega

theorem blockSizeOf_pos (minSegSize : Nat) : 0 < blockSizeOf minSegSize := by
  unfold blockSizeOf
  split
  · assumption
  · exact Nat.one_pos

theorem one_le_windowSize (nbBlocks : Nat) : 1 ≤ windowSize nbBlocks := by
  have hchoice : ∀ M, 1 ≤ if M ≥ 2 ∧ nbBlocks ≥ 2 * M + 1 then M else 1 := by
    intro M
    split <;> omega
  exact hchoice _

/-- **The sizes that are detected** add up to the list, and none is too small. -/
theorem detectBoundaries_spec (hsrc : Numeric src eltWidth nbElts) {scratch : Scratch}
    (hnb : nbBlocks = nbBlocksOf nbElts (blockSizeOf minSegSize))
    (hscratch : scratch.LaidOut nbBlocks (maxZoneOf (blockSizeOf minSegSize)))
    (hmany : 2 * minSegSize ≤ nbElts) :
    ∃ sizes n, detectBoundaries src eltWidth nbElts minSegSize scratch (nbBlocks + 1) =
        some (sizes, n) ∧
      sizes.length = nbBlocks + 1 ∧ n ≤ nbBlocks + 1 ∧ (sizes.take n).sum = nbElts ∧
      ∀ size ∈ sizes.take n, minSegSize ≤ size := by
  have hpos := blockSizeOf_pos minSegSize
  have hcovers := covers_nbBlocks hpos nbElts
  have hlen := hscratch.segmentSizes
  rw [← hnb] at hcovers
  -- one segment
  have hone : ∃ sizes n, (do
        let segmentSizes ← setAt scratch.segmentSizes 0 nbElts
        some (segmentSizes, 1)) = some (sizes, n) ∧
      sizes.length = nbBlocks + 1 ∧ n ≤ nbBlocks + 1 ∧ (sizes.take n).sum = nbElts ∧
      ∀ size ∈ sizes.take n, minSegSize ≤ size := by
    obtain ⟨first, rest, hcells⟩ := List.exists_cons_of_length_eq_add_one hlen
    refine ⟨scratch.segmentSizes.set 0 nbElts, 1, ?_, by rw [List.length_set, hlen], by omega, ?_,
      ?_⟩
    · rw [setAt_of_lt (by omega)]
      rfl
    · rw [hcells]
      exact Nat.add_zero nbElts
    · rw [hcells]
      intro size hsize
      rw [List.mem_singleton.1 hsize]
      omega
  unfold detectBoundaries
  dsimp only
  rw [← hnb]
  split
  · exact hone
  obtain ⟨blocks, hblocks, hholds⟩ := computeBlockStats_ok hsrc hcovers hscratch.blocks
  obtain ⟨nbSplits, found, hfound, hle, hrecorded⟩ :=
    @findConfirmedSplitBlocks_ok blocks nbBlocks (windowSize nbBlocks) nbBlocks hholds
      scratch.splitBlocks hscratch.splitBlocks (Nat.le_refl _)
  simp only [hblocks, diff_of_le (Nat.le_add_left 1 nbBlocks), Nat.add_sub_cancel, hfound,
    Option.bind_eq_bind, Option.bind_some]
  split
  · exact hone
  · obtain ⟨c, hc, hsound, hcount⟩ := @foldlM_range _ (cutAt src eltWidth nbElts minSegSize
        (blockSizeOf minSegSize) nbBlocks (nbBlocks + 1) blocks found nbSplits)
      (fun s c => c.Sound nbElts minSegSize (nbBlocks + 1) (maxZoneOf (blockSizeOf minSegSize)) ∧
        c.nbSegments ≤ s) nbSplits ⟨0, 0, scratch.segmentSizes, scratch.suff⟩
      ⟨⟨hscratch.suff, hlen, rfl, nofun, by dsimp only; omega⟩, Nat.le_refl _⟩
      fun s hs c ⟨hsound, hcount⟩ => cutAt_sound hsrc hcovers hholds hpos
        (one_le_windowSize nbBlocks) hrecorded hs (by omega) hsound hcount
    obtain ⟨sizes, hclose, hsizes, hsum, hlarge⟩ := hsound.close (by omega) hsound.room
    refine ⟨sizes, c.nbSegments + 1, ?_, hsizes, by omega, hsum, hlarge⟩
    rw [hc, Option.bind_some, hclose, Option.bind_some]

/-- Segments that lie one behind the other, from a position to the end. -/
def Consecutive (nbElts : Nat) : Nat → List Segment → Prop
  | pos, [] => pos = nbElts
  | pos, seg :: rest => seg.start = pos ∧ Consecutive nbElts (pos + seg.size) rest

theorem emit_spec {sizes : List Nat} : ∀ {left n pos : Nat}, n + left ≤ sizes.length →
    pos + ((sizes.drop n).take left).sum = nbElts →
      ∃ segs, emit sizes nbElts left n pos = some segs ∧ Consecutive nbElts pos segs ∧
        segs.map Segment.size = (sizes.drop n).take left
  | 0, n, pos, _, hsum => by
      have hpos : pos = nbElts := by simpa using hsum
      exact ⟨[], by rw [emit, if_pos hpos], hpos, rfl⟩
  | left + 1, n, pos, hlen, hsum => by
      have hn : n < sizes.length := by omega
      have hdrop : (sizes.drop n).take (left + 1) =
          sizes[n] :: (sizes.drop (n + 1)).take left := by
        rw [List.drop_eq_getElem_cons hn, List.take_succ_cons]
      rw [hdrop, List.sum_cons] at hsum
      obtain ⟨segs, hsegs, hcons, hmap⟩ :=
        @emit_spec sizes left (n + 1) (pos + sizes[n]) (by omega) (by omega)
      refine ⟨⟨pos, sizes[n]⟩ :: segs, ?_, ⟨rfl, hcons⟩, by rw [List.map_cons, hmap, hdrop]⟩
      rw [emit, List.getElem?_eq_getElem hn, Option.bind_eq_bind, Option.bind_some, hsegs]
      rfl

end Segments

/-- **Splitting by range partitions the list.** No phase leaves its buffers; the segments are not
empty and follow one another from the first element to the last; they are no more than there is
room for; and where there are several, each has at least the minimum size. -/
theorem splitByRange_partitions {src : List UInt8} {eltWidth nbElts minSegSize : Nat}
    {scratch : Scratch} (hsrc : Numeric src eltWidth nbElts) (hmin : 1 ≤ minSegSize)
    (hscratch : scratch.LaidOut (nbBlocksOf nbElts (blockSizeOf minSegSize))
      (maxZoneOf (blockSizeOf minSegSize))) :
    ∃ segs, splitByRange src eltWidth nbElts minSegSize scratch = some segs ∧
      Consecutive nbElts 0 segs ∧ (segs.map Segment.size).sum = nbElts ∧
      (∀ seg ∈ segs, 0 < seg.size) ∧
      (1 < segs.length → ∀ seg ∈ segs, minSegSize ≤ seg.size) ∧
      segs.length ≤ nbBlocksOf nbElts (blockSizeOf minSegSize) + 1 := by
  unfold splitByRange
  split
  · rename_i hzero
    exact ⟨[], rfl, hzero.symm, hzero.symm, nofun, nofun, Nat.zero_le _⟩
  rename_i hne
  split
  · refine ⟨[⟨0, nbElts⟩], rfl, ⟨rfl, Nat.zero_add _⟩, Nat.add_zero _, ?_, nofun,
      Nat.le_add_left 1 _⟩
    intro seg hseg
    rw [List.mem_singleton.1 hseg]
    exact Nat.pos_of_ne_zero hne
  · rename_i hmany
    obtain ⟨sizes, n, hdetect, hlen, hn, hsum, hlarge⟩ :=
      detectBoundaries_spec hsrc rfl hscratch (Nat.le_of_not_lt hmany)
    obtain ⟨segs, hsegs, hcons, hmap⟩ := @emit_spec nbElts sizes n 0 0 (by omega)
      (by rw [List.drop_zero, Nat.zero_add, hsum])
    rw [List.drop_zero] at hmap
    have hcount : segs.length = n := by
      rw [← List.length_map (f := Segment.size), hmap, List.length_take]
      omega
    have hsize : ∀ seg ∈ segs, minSegSize ≤ seg.size := fun seg hseg =>
      hlarge seg.size (by rw [← hmap]; exact List.mem_map_of_mem hseg)
    refine ⟨segs, ?_, hcons, by rw [hmap, hsum], fun seg hseg => ?_, fun _ => hsize, by omega⟩
    · dsimp only
      rw [hdetect]
      exact hsegs
    · exact Nat.lt_of_lt_of_le hmin (hsize seg hseg)

/-- Bytes of two ranges, with a scratch space that holds anything. -/
theorem splitByRange_partitions_two : ∃ segs,
    splitByRange [1, 2, 1, 2, 200, 201, 200, 201] 1 8 2
      ⟨⟨List.replicate 8 7, List.replicate 8 7⟩, ⟨List.replicate 5 7, List.replicate 5 7⟩,
        List.replicate 8 7, List.replicate 9 7⟩ = some segs ∧
      segs = [⟨0, 4⟩, ⟨4, 4⟩] ∧ (segs.map Segment.size).sum = 8 := by
  obtain ⟨segs, hsegs, -, hsum, -⟩ := @splitByRange_partitions
    [1, 2, 1, 2, 200, 201, 200, 201] 1 8 2
    ⟨⟨List.replicate 8 7, List.replicate 8 7⟩, ⟨List.replicate 5 7, List.replicate 5 7⟩,
      List.replicate 8 7, List.replicate 9 7⟩ ⟨Or.inl rfl, rfl⟩ (by decide)
    ⟨⟨rfl, rfl⟩, ⟨rfl, rfl⟩, rfl, rfl⟩
  refine ⟨segs, hsegs, ?_, hsum⟩
  have heval : splitByRange [1, 2, 1, 2, 200, 201, 200, 201] 1 8 2
      ⟨⟨List.replicate 8 7, List.replicate 8 7⟩, ⟨List.replicate 5 7, List.replicate 5 7⟩,
        List.replicate 8 7, List.replicate 9 7⟩ = some [⟨0, 4⟩, ⟨4, 4⟩] := by decide +kernel
  rw [hsegs] at heval
  exact Option.some.inj heval

end OpenZL.Codecs.SplitByRange
