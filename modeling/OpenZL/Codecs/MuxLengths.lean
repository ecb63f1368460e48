import OpenZL.Lib.LittleEndian
import OpenZL.Lib.Result

/-!
# Muxed lengths

`encode_mux_lengths_kernel.c` and `decode_mux_lengths_kernel.c` for every element width: a literal
length and a match length share one byte; a length that its field of the byte cannot hold goes on
in the stream of long values.

Principal results: `muxLengthsDecodeImpl_eq`, `decodeFields_encode`, `numLong_eq_iff`.
-/

namespace OpenZL.Codecs.MuxLengths

open OpenZL.Lib

variable {longPtr : List Nat}

/-- `llMask`: literal lengths from here on are long. -/
def llMask (splitPoint : Nat) : Nat := (1 <<< splitPoint) - 1

/-- `mlMask`: match lengths from here on, less the bias, are long. -/
def mlMask (splitPoint : Nat) : Nat := (1 <<< (8 - splitPoint)) - 1

/-- `ml - matchLengthBias` in unsigned arithmetic of `bits` bits. -/
def unbias (bits ml matchLengthBias : Nat) : Nat := (ml + 2 ^ bits - matchLengthBias) % 2 ^ bits

/-- The body of the encoding loops: the muxed byte, and the long values written. -/
def muxOne (eltWidth splitPoint ll ml : Nat) : UInt8 × List Nat :=
  -- literal length overflow goes first when both overflow
  let (mux, long) :=
    if ll ≥ llMask splitPoint then
      (llMask splitPoint, [(ll - llMask splitPoint) % 2 ^ (8 * eltWidth)])
    else (ll, [])
  if ml ≥ mlMask splitPoint then
    (UInt8.ofNat (mux ||| mlMask splitPoint <<< splitPoint),
      long ++ [(ml - mlMask splitPoint) % 2 ^ (8 * eltWidth)])
  else (UInt8.ofNat (mux ||| ml <<< splitPoint), long)

/-- `ZL_muxLengthsEncode_impl`: the muxed bytes and the long values. -/
def muxLengthsEncodeImpl (eltWidth splitPoint matchLengthBias : Nat) :
    List Nat → List Nat → List UInt8 × List Nat
  | ll :: lls, ml :: mls =>
      let (mux, long) := muxOne eltWidth splitPoint ll (unbias 64 ml matchLengthBias)
      let (muxedOut, longOut) := muxLengthsEncodeImpl eltWidth splitPoint matchLengthBias lls mls
      (mux :: muxedOut, long ++ longOut)
  | _, _ => ([], [])

/-- `ZL_muxLengthsCountLong` -/
def muxLengthsCountLong (splitPoint matchLengthBias : Nat) : List Nat → List Nat → Nat
  | ll :: lls, ml :: mls =>
      (if ll ≥ llMask splitPoint then 1 else 0) +
        (if unbias 64 ml matchLengthBias ≥ mlMask splitPoint then 1 else 0) +
          muxLengthsCountLong splitPoint matchLengthBias lls mls
  | _, _ => 0

/-- `ZL_MuxLengthsSplitResult` -/
structure MuxLengthsSplitResult where
  splitPoint : Nat
  numLong : Nat
  deriving DecidableEq, Repr

/-- `++stats[v < 256 ? v : 255]`, a counter of 32 bits. -/
def bumpStats (stats : List Nat) (v : Nat) : List Nat :=
  stats.modify (if v < 256 then v else 255) fun n => (n + 1) % 2 ^ 32

/-- The counters after the first loop of `ZL_muxLengthsComputeSplitPoint_impl`. -/
def lengthStats (lengths : List Nat) : List Nat :=
  lengths.foldl bumpStats (List.replicate 256 0)

/-- `numExtraLens`: how many lengths are long when the split gives `llBits` to literal lengths. -/
def numExtraLens (llStats mlStats : List Nat) (llBits : Nat) : Nat :=
  (llStats.drop (llMask llBits)).sum + (mlStats.drop (mlMask llBits)).sum

/-- The loop over the splits, with the best one so far. -/
def bestSplit (numExtraLens : Nat → Nat) : List Nat → MuxLengthsSplitResult → MuxLengthsSplitResult
  | [], best => best
  | llBits :: rest, best =>
      bestSplit numExtraLens rest
        (if numExtraLens llBits < best.numLong then ⟨llBits, numExtraLens llBits⟩ else best)

/-- `ZL_muxLengthsComputeSplitPoint` -/
def muxLengthsComputeSplitPoint (matchLengthBias : Nat) (lls mls : List Nat) :
    MuxLengthsSplitResult :=
  let llStats := lengthStats lls
  let mlStats := lengthStats (mls.map (unbias 64 · matchLengthBias))
  bestSplit (numExtraLens llStats mlStats) [1, 2, 3, 4, 5, 6, 7] ⟨0, 2 * lls.length + 1⟩

/-- `ZL_MuxLengthsError`, without the success. -/
inductive MuxLengthsError
  | longLengthsExhausted
  | longLengthsNotConsumed
  deriving DecidableEq, Repr

/-- One field of a muxed byte: a value that is `long` takes the next of the `numLong` long values. -/
def addLong (long : Bool) (v : Nat) (longPtr : List Nat) (longPos numLong : Nat) :
    Except MuxLengthsError (Nat × Nat) :=
  if long then
    if longPos ≥ numLong then .error .longLengthsExhausted
    else .ok ((v + longPtr.getD longPos 0) % 2 ^ 64, longPos + 1)
  else .ok (v, longPos)

/-- The loop of `ZL_muxLengthsDecode_impl` from the position `longPos` on. -/
def demuxLoop (eltWidth splitPoint matchLengthBias : Nat) (longPtr : List Nat) (numLong : Nat) :
    List UInt8 → Nat → Except MuxLengthsError (List Nat × List Nat × Nat)
  | [], longPos => .ok ([], [], longPos)
  | mux :: muxed, longPos => do
      let ll := mux.toNat &&& llMask splitPoint
      let ml := matchLengthBias + mux.toNat >>> splitPoint
      -- literal length overflow comes first when both overflow
      let (ll, longPos) ← addLong (ll = llMask splitPoint) ll longPtr longPos numLong
      let (ml, longPos) ←
        addLong (ml = matchLengthBias + mlMask splitPoint) ml longPtr longPos numLong
      let (lls, mls, longPos) ←
        demuxLoop eltWidth splitPoint matchLengthBias longPtr numLong muxed longPos
      .ok (ll % 2 ^ (8 * eltWidth) :: lls, ml % 2 ^ (8 * eltWidth) :: mls, longPos)

/-- The check after the loop. -/
def checkConsumed (numLong : Nat) (r : List Nat × List Nat × Nat) :
    Except MuxLengthsError (List Nat × List Nat) :=
  if r.2.2 ≠ numLong then .error .longLengthsNotConsumed else .ok (r.1, r.2.1)

/-- `ZL_muxLengthsDecode_impl` -/
def muxLengthsDecodeImpl (eltWidth splitPoint matchLengthBias : Nat) (muxed : List UInt8)
    (long : List Nat) : Except MuxLengthsError (List Nat × List Nat) := do
  let r ← demuxLoop eltWidth splitPoint matchLengthBias long long.length muxed 0
  checkConsumed long.length r

/-! ## Decoding in one piece -/

theorem llMask_eq (splitPoint : Nat) : llMask splitPoint = 2 ^ splitPoint - 1 := by
  rw [llMask, Nat.one_shiftLeft]

theorem mlMask_eq (splitPoint : Nat) : mlMask splitPoint = 2 ^ (8 - splitPoint) - 1 := by
  rw [mlMask, Nat.one_shiftLeft]

/-- The two fields of a muxed byte, each with whether it is long. -/
def fieldsOf (splitPoint matchLengthBias : Nat) (mux : UInt8) : List (Nat × Bool) :=
  [(mux.toNat &&& llMask splitPoint, mux.toNat &&& llMask splitPoint = llMask splitPoint),
    (matchLengthBias + mux.toNat >>> splitPoint,
      matchLengthBias + mux.toNat >>> splitPoint = matchLengthBias + mlMask splitPoint)]

/-- Each long field takes the next long value; the values, and the long values left. -/
def readFields : List (Nat × Bool) → List Nat → Option (List Nat × List Nat)
  | [], long => some ([], long)
  | (v, false) :: fields, long => (readFields fields long).map fun r => (v :: r.1, r.2)
  | (_, true) :: _, [] => none
  | (v, true) :: fields, x :: long => (readFields fields long).map fun r => ((v + x) :: r.1, r.2)

/-- The literal lengths among the fields. -/
def evens : List Nat → List Nat
  | v :: _ :: rest => v :: evens rest
  | _ => []

/-- The match lengths among the fields. -/
def odds : List Nat → List Nat
  | _ :: v :: rest => v :: odds rest
  | _ => []

/-- What the fields of all bytes come to. -/
def fieldsResult (eltWidth : Nat) (r : Option (List Nat × List Nat)) :
    Except MuxLengthsError (List Nat × List Nat) :=
  match r with
  | none => .error .longLengthsExhausted
  | some (vs, []) =>
      .ok ((evens vs).map (· % 2 ^ (8 * eltWidth)), (odds vs).map (· % 2 ^ (8 * eltWidth)))
  | some (_, _ :: _) => .error .longLengthsNotConsumed

/-- What a decoder does: it reads the fields of all bytes in turn, and no long value may be left. -/
def decodeFields (eltWidth splitPoint matchLengthBias : Nat) (muxed : List UInt8)
    (long : List Nat) : Except MuxLengthsError (List Nat × List Nat) :=
  fieldsResult eltWidth (readFields (muxed.flatMap (fieldsOf splitPoint matchLengthBias)) long)

theorem readFields_append (fs gs : List (Nat × Bool)) (long : List Nat) :
    readFields (fs ++ gs) long = (readFields fs long).bind fun r =>
      (readFields gs r.2).map fun s => (r.1 ++ s.1, s.2) := by
  induction fs generalizing long with
  | nil => simp [readFields]
  | cons f fs ih =>
    obtain ⟨v, b⟩ := f
    cases b with
    | false =>
      rw [List.cons_append, readFields, readFields, ih, Option.map_bind, Option.bind_map]
      congr 1
      funext r
      simp [Option.map_map, Function.comp_def]
    | true =>
      cases long with
      | nil => rfl
      | cons x long =>
        rw [List.cons_append, readFields, readFields, ih, Option.map_bind, Option.bind_map]
        congr 1
        funext r
        simp [Option.map_map, Function.comp_def]

/-- The long values from a position on. -/
def remaining (longPtr : List Nat) (longPos numLong : Nat) : List Nat :=
  (longPtr.take numLong).drop longPos

theorem remaining_eq_cons {longPos numLong : Nat} (h : longPos < numLong)
    (hnum : numLong ≤ longPtr.length) : remaining longPtr longPos numLong =
      longPtr.getD longPos 0 :: remaining longPtr (longPos + 1) numLong := by
  have hlen : longPos < (longPtr.take numLong).length := by
    rw [List.length_take]
    omega
  rw [remaining, List.drop_eq_getElem_cons hlen, List.getElem_take, remaining,
    List.getD_eq_getElem?_getD, List.getElem?_eq_getElem (h.trans_le hnum), Option.getD_some]

theorem remaining_eq_nil {longPos numLong : Nat} (h : numLong ≤ longPos) :
    remaining longPtr longPos numLong = [] :=
  List.drop_eq_nil_of_le ((List.length_take_le _ _).trans h)

/-- The rest of a run, in terms of fields. -/
def demuxRest (eltWidth numLong : Nat) (r : Option (List Nat × List Nat)) :
    Except MuxLengthsError (List Nat × List Nat × Nat) :=
  match r with
  | none => .error .longLengthsExhausted
  | some (vs, rest) =>
      .ok ((evens vs).map (· % 2 ^ (8 * eltWidth)), (odds vs).map (· % 2 ^ (8 * eltWidth)),
        numLong - rest.length)

theorem addLong_eq {numLong : Nat} (hnum : numLong ≤ longPtr.length) (longPos : Nat) (long : Bool)
    (v : Nat) :
    readFields [(v, long)] (remaining longPtr longPos numLong) = none ∧
        addLong long v longPtr longPos numLong = .error .longLengthsExhausted ∨
      ∃ v' longPos', readFields [(v, long)] (remaining longPtr longPos numLong) =
          some ([v'], remaining longPtr longPos' numLong) ∧
        addLong long v longPtr longPos numLong = .ok (if long then v' % 2 ^ 64 else v', longPos') ∧
        (longPos ≤ numLong → longPos' ≤ numLong) := by
  cases long with
  | false => exact .inr ⟨v, longPos, rfl, rfl, id⟩
  | true =>
    rcases Nat.lt_or_ge longPos numLong with hlt | hge
    · rw [remaining_eq_cons hlt hnum]
      refine .inr ⟨v + longPtr.getD longPos 0, longPos + 1, rfl, ?_, fun _ => hlt⟩
      rw [addLong, if_pos rfl, if_neg (by omega), if_pos rfl]
    · rw [remaining_eq_nil hge]
      refine .inl ⟨rfl, ?_⟩
      rw [addLong, if_pos rfl, if_pos hge]

theorem length_remaining {numLong : Nat} (hnum : numLong ≤ longPtr.length) (longPos : Nat) :
    (remaining longPtr longPos numLong).length = numLong - longPos := by
  rw [remaining, List.length_drop, List.length_take, Nat.min_eq_left hnum]

theorem mod_mod_width {w : Nat} (hw : w ≤ 8) (v : Nat) :
    v % 2 ^ 64 % 2 ^ (8 * w) = v % 2 ^ (8 * w) :=
  Nat.mod_mod_of_dvd v (Nat.pow_dvd_pow 2 (by omega))

theorem ite_mod_width {w : Nat} (hw : w ≤ 8) (long : Bool) (v : Nat) :
    (if long then v % 2 ^ 64 else v) % 2 ^ (8 * w) = v % 2 ^ (8 * w) := by
  split
  · exact mod_mod_width hw v
  · rfl

theorem demuxLoop_eq {eltWidth splitPoint matchLengthBias numLong : Nat} (hw : eltWidth ≤ 8)
    (hnum : numLong ≤ longPtr.length) : ∀ (muxed : List UInt8) {longPos : Nat}, longPos ≤ numLong →
      demuxLoop eltWidth splitPoint matchLengthBias longPtr numLong muxed longPos =
        demuxRest eltWidth numLong (readFields (muxed.flatMap (fieldsOf splitPoint matchLengthBias))
            (remaining longPtr longPos numLong))
  | [], longPos, hpos => by
      have hlen := length_remaining hnum longPos
      rw [demuxLoop, List.flatMap_nil, readFields, demuxRest, hlen, Nat.sub_sub_self hpos]
      rfl
  | mux :: muxed, longPos, hpos => by
      have hsplit : (mux :: muxed).flatMap (fieldsOf splitPoint matchLengthBias) =
          [(mux.toNat &&& llMask splitPoint,
            decide (mux.toNat &&& llMask splitPoint = llMask splitPoint))] ++
          ([(matchLengthBias + mux.toNat >>> splitPoint,
            decide (matchLengthBias + mux.toNat >>> splitPoint =
              matchLengthBias + mlMask splitPoint))] ++
            muxed.flatMap (fieldsOf splitPoint matchLengthBias)) := rfl
      rw [hsplit, readFields_append, demuxLoop]
      generalize mux.toNat &&& llMask splitPoint = ll
      generalize matchLengthBias + mux.toNat >>> splitPoint = ml
      rcases addLong_eq hnum longPos (decide (ll = llMask splitPoint)) ll with
        ⟨hfields, hadd⟩ | ⟨ll', longPos₁, hfields, hadd, hpos₁⟩
      · rw [hfields, hadd]
        rfl
      rw [hfields, hadd, Option.bind_some, readFields_append]
      simp only [ok_bind]
      rcases addLong_eq hnum longPos₁
        (decide (ml = matchLengthBias + mlMask splitPoint)) ml with
        ⟨hfields₁, hadd₁⟩ | ⟨ml', longPos₂, hfields₁, hadd₁, hpos₂⟩
      · rw [hfields₁, hadd₁]
        rfl
      rw [hfields₁, hadd₁, Option.bind_some]
      simp only [ok_bind]
      rw [demuxLoop_eq hw hnum muxed (hpos₂ (hpos₁ hpos)), ite_mod_width hw, ite_mod_width hw]
      cases readFields (muxed.flatMap (fieldsOf splitPoint matchLengthBias))
        (remaining longPtr longPos₂ numLong) <;> rfl

theorem readFields_le (fs : List (Nat × Bool)) {long : List Nat} {r : List Nat × List Nat}
    (h : readFields fs long = some r) : r.2.length ≤ long.length := by
  induction fs generalizing long r with
  | nil =>
    cases h
    exact Nat.le_refl _
  | cons f fs ih =>
    obtain ⟨v, b⟩ := f
    cases b with
    | false =>
      obtain ⟨s, hs, rfl⟩ := Option.map_eq_some_iff.1 h
      have hle : s.2.length ≤ long.length := ih hs
      exact hle
    | true =>
      cases long with
      | nil => cases h
      | cons x long =>
        obtain ⟨s, hs, rfl⟩ := Option.map_eq_some_iff.1 h
        have hle : s.2.length ≤ long.length := ih hs
        exact hle.trans (Nat.le_succ _)

theorem checkConsumed_eq (eltWidth : Nat) {fs : List (Nat × Bool)} {long : List Nat} {numLong : Nat}
    (hlen : long.length ≤ numLong) :
    (demuxRest eltWidth numLong (readFields fs long) >>= checkConsumed numLong) =
      fieldsResult eltWidth (readFields fs long) := by
  rcases hread : readFields fs long with - | ⟨vs, rest⟩
  · rfl
  · have hle : rest.length ≤ long.length := readFields_le fs hread
    cases rest with
    | nil =>
      rw [demuxRest, ok_bind, checkConsumed, if_neg (by simp)]
      rfl
    | cons x rest =>
      rw [List.length_cons] at hle
      rw [demuxRest, ok_bind, checkConsumed, if_pos]
      · rfl
      · dsimp only
        rw [List.length_cons]
        omega

theorem muxLengthsDecodeImpl_eq {eltWidth : Nat} (hw : eltWidth ≤ 8)
    (splitPoint matchLengthBias : Nat) (muxed : List UInt8) (long : List Nat) :
    muxLengthsDecodeImpl eltWidth splitPoint matchLengthBias muxed long =
      decodeFields eltWidth splitPoint matchLengthBias muxed long := by
  have hall : remaining long 0 long.length = long := by
    rw [remaining, List.take_length, List.drop_zero]
  rw [muxLengthsDecodeImpl, demuxLoop_eq hw (Nat.le_refl _) muxed (Nat.zero_le _), hall,
    checkConsumed_eq eltWidth (Nat.le_refl _), decodeFields]

/-! ## Round trip -/

section RoundTrip

variable {eltWidth splitPoint matchLengthBias : Nat}

/-- The long value of a length, if it has one. -/
def extra (eltWidth mask v : Nat) : List Nat :=
  if mask ≤ v then [(v - mask) % 2 ^ (8 * eltWidth)] else []

theorem min_mask_lt (splitPoint v : Nat) : min v (llMask splitPoint) < 2 ^ splitPoint := by
  have := Nat.two_pow_pos splitPoint
  rw [llMask_eq]
  omega

theorem min_mlMask_lt (splitPoint v : Nat) :
    min v (mlMask splitPoint) < 2 ^ (8 - splitPoint) := by
  have := Nat.two_pow_pos (8 - splitPoint)
  rw [mlMask_eq]
  omega

theorem field_lt {t u : Nat} (hsp : splitPoint ≤ 8) (ht : t < 2 ^ splitPoint)
    (hu : u < 2 ^ (8 - splitPoint)) : t + 2 ^ splitPoint * u < 2 ^ 8 := by
  have h := add_mul_lt ht hu
  rwa [Nat.add_sub_cancel' hsp] at h

theorem muxOne_eq (eltWidth splitPoint ll ml : Nat) :
    muxOne eltWidth splitPoint ll ml =
      (UInt8.ofNat (min ll (llMask splitPoint) + 2 ^ splitPoint * min ml (mlMask splitPoint)),
        extra eltWidth (llMask splitPoint) ll ++ extra eltWidth (mlMask splitPoint) ml) := by
  have hmask := min_mask_lt splitPoint
  have hlow : ∀ u, llMask splitPoint ||| u <<< splitPoint = llMask splitPoint + 2 ^ splitPoint * u :=
    or_shiftLeft (by simpa using hmask (llMask splitPoint))
  unfold muxOne extra
  by_cases hll : llMask splitPoint ≤ ll <;> by_cases hml : mlMask splitPoint ≤ ml
  · simp only [hll, hml, if_true, hlow, Nat.min_eq_right]
  · simp only [hll, hml, if_true, if_false, hlow, Nat.min_eq_right,
      Nat.min_eq_left (Nat.le_of_not_le hml), List.append_nil]
  · have hlt := hmask ll
    rw [Nat.min_eq_left (Nat.le_of_not_le hll)] at hlt
    simp only [hll, hml, if_true, if_false, Nat.min_eq_right,
      Nat.min_eq_left (Nat.le_of_not_le hll), or_shiftLeft hlt]
  · have hlt := hmask ll
    rw [Nat.min_eq_left (Nat.le_of_not_le hll)] at hlt
    simp only [hll, hml, if_false, Nat.min_eq_left (Nat.le_of_not_le hml),
      Nat.min_eq_left (Nat.le_of_not_le hll), or_shiftLeft hlt, List.append_nil]

theorem fieldsOf_ofNat (hsp : splitPoint ≤ 8) {t u : Nat} (ht : t < 2 ^ splitPoint)
    (hu : u < 2 ^ (8 - splitPoint)) :
    fieldsOf splitPoint matchLengthBias (UInt8.ofNat (t + 2 ^ splitPoint * u)) =
      [(t, decide (t = llMask splitPoint)),
        (matchLengthBias + u, decide (u = mlMask splitPoint))] := by
  have hlt := field_lt hsp ht hu
  have hbyte : (UInt8.ofNat (t + 2 ^ splitPoint * u)).toNat = t + 2 ^ splitPoint * u := by
    rw [UInt8.toNat_ofNat']
    exact Nat.mod_eq_of_lt hlt
  have hhigh : (t + 2 ^ splitPoint * u) >>> splitPoint = u := by
    rw [Nat.shiftRight_eq_div_pow, Nat.add_mul_div_left _ _ (Nat.two_pow_pos _),
      Nat.div_eq_of_lt ht, Nat.zero_add]
  have hlow : (t + 2 ^ splitPoint * u) &&& llMask splitPoint = t := by
    rw [llMask_eq, Nat.and_two_pow_sub_one_eq_mod, Nat.add_mul_mod_self_left, Nat.mod_eq_of_lt ht]
  rw [fieldsOf, hbyte, hhigh, hlow]
  simp only [Nat.add_left_cancel_iff]

theorem readFields_extra (eltWidth base mask v : Nat) (rest : List Nat) :
    ∃ v', readFields [(base + min v mask, decide (min v mask = mask))] (extra eltWidth mask v ++ rest) =
      some ([v'], rest) ∧ v' % 2 ^ (8 * eltWidth) = (base + v) % 2 ^ (8 * eltWidth) := by
  unfold extra
  split
  · rename_i hle
    refine ⟨base + mask + (v - mask) % 2 ^ (8 * eltWidth), ?_, ?_⟩
    · rw [Nat.min_eq_right hle, decide_eq_true rfl]
      rfl
    · rw [Nat.add_mod_mod]
      congr 1
      omega
  · rename_i hle
    refine ⟨base + v, ?_, rfl⟩
    rw [Nat.min_eq_left (by omega), decide_eq_false (by omega)]
    rfl

theorem add_unbias {ml : Nat} (hw : eltWidth ≤ 8) (hbias : matchLengthBias ≤ 15) :
    (matchLengthBias + unbias 64 ml matchLengthBias) % 2 ^ (8 * eltWidth) =
      ml % 2 ^ (8 * eltWidth) := by
  rw [unbias, ← mod_mod_width hw (matchLengthBias + _), Nat.add_mod_mod,
    show matchLengthBias + (ml + 2 ^ 64 - matchLengthBias) = ml + 2 ^ 64 by omega,
    Nat.add_mod_right, mod_mod_width hw]

theorem readFields_encode (hw : eltWidth ≤ 8) (hsp : splitPoint ≤ 8) (hbias : matchLengthBias ≤ 15) :
    ∀ {lls mls : List Nat}, lls.length = mls.length →
      (∀ v ∈ lls, v < 2 ^ (8 * eltWidth)) → (∀ v ∈ mls, v < 2 ^ (8 * eltWidth)) →
      ∃ vs, readFields ((muxLengthsEncodeImpl eltWidth splitPoint matchLengthBias lls mls).1.flatMap
          (fieldsOf splitPoint matchLengthBias))
          (muxLengthsEncodeImpl eltWidth splitPoint matchLengthBias lls mls).2 = some (vs, []) ∧
        (evens vs).map (· % 2 ^ (8 * eltWidth)) = lls ∧
        (odds vs).map (· % 2 ^ (8 * eltWidth)) = mls
  | [], [], _, _, _ => ⟨[], rfl, rfl, rfl⟩
  | ll :: lls, ml :: mls, hlen, hlls, hmls => by
      obtain ⟨vs, hread, hevens, hodds⟩ := readFields_encode hw hsp hbias (Nat.succ.inj hlen)
        (fun v hv => hlls v (List.mem_cons_of_mem _ hv))
        (fun v hv => hmls v (List.mem_cons_of_mem _ hv))
      rw [muxLengthsEncodeImpl, muxOne_eq]
      dsimp only
      rw [List.flatMap_cons, fieldsOf_ofNat hsp (min_mask_lt _ _) (min_mlMask_lt _ _)]
      generalize muxLengthsEncodeImpl eltWidth splitPoint matchLengthBias lls mls = out at hread ⊢
      obtain ⟨ll', hll, hllmod⟩ := readFields_extra eltWidth 0 (llMask splitPoint) ll
        (extra eltWidth (mlMask splitPoint) (unbias 64 ml matchLengthBias) ++ out.2)
      obtain ⟨ml', hml, hmlmod⟩ := readFields_extra eltWidth matchLengthBias
        (mlMask splitPoint) (unbias 64 ml matchLengthBias) out.2
      rw [Nat.zero_add] at hll hllmod
      refine ⟨ll' :: ml' :: vs, ?_, ?_, ?_⟩
      · rw [List.cons_append, ← List.singleton_append, readFields_append, List.append_assoc, hll,
          Option.bind_some, readFields_append, hml, Option.bind_some, hread]
        rfl
      · rw [evens, List.map_cons, hevens, hllmod,
          Nat.mod_eq_of_lt (hlls ll List.mem_cons_self)]
      · rw [odds, List.map_cons, hodds, hmlmod, add_unbias hw hbias,
          Nat.mod_eq_of_lt (hmls ml List.mem_cons_self)]

theorem decodeFields_encode (hw : eltWidth ≤ 8) (hsp : splitPoint ≤ 8)
    (hbias : matchLengthBias ≤ 15) {lls mls : List Nat} (hlen : lls.length = mls.length)
    (hlls : ∀ v ∈ lls, v < 2 ^ (8 * eltWidth)) (hmls : ∀ v ∈ mls, v < 2 ^ (8 * eltWidth)) :
    decodeFields eltWidth splitPoint matchLengthBias
      (muxLengthsEncodeImpl eltWidth splitPoint matchLengthBias lls mls).1
      (muxLengthsEncodeImpl eltWidth splitPoint matchLengthBias lls mls).2 = .ok (lls, mls) := by
  obtain ⟨vs, hread, hevens, hodds⟩ := readFields_encode hw hsp hbias hlen hlls hmls
  rw [decodeFields, hread, fieldsResult, hevens, hodds]

theorem length_extra (eltWidth mask v : Nat) :
    (extra eltWidth mask v).length = if v ≥ mask then 1 else 0 := by
  unfold extra
  split <;> rfl

theorem length_encode (eltWidth splitPoint matchLengthBias : Nat) : ∀ (lls mls : List Nat),
    (muxLengthsEncodeImpl eltWidth splitPoint matchLengthBias lls mls).2.length =
      muxLengthsCountLong splitPoint matchLengthBias lls mls
  | ll :: lls, ml :: mls => by
      rw [muxLengthsEncodeImpl, muxOne_eq, muxLengthsCountLong]
      rw [List.length_append, List.length_append, length_extra, length_extra, length_encode]
  | [], _ => rfl
  | _ :: _, [] => rfl

theorem length_muxed (eltWidth splitPoint matchLengthBias : Nat) : ∀ {lls mls : List Nat},
    lls.length = mls.length →
      (muxLengthsEncodeImpl eltWidth splitPoint matchLengthBias lls mls).1.length = lls.length
  | ll :: lls, ml :: mls, h => by
      rw [muxLengthsEncodeImpl]
      rw [List.length_cons, List.length_cons, length_muxed _ _ _ (Nat.succ.inj h)]
  | [], [], _ => rfl

end RoundTrip

/-! ## The split point -/

/-- The length that a counter counts: all from 255 on share the last one. -/
def bucket (v : Nat) : Nat := if v < 256 then v else 255

/-- How many lengths a counter counts. -/
def inBucket (lengths : List Nat) (i : Nat) : Nat := lengths.countP fun v => bucket v = i

theorem inBucket_append (done : List Nat) (v i : Nat) :
    inBucket (done ++ [v]) i = inBucket done i + if bucket v = i then 1 else 0 := by
  rw [inBucket, List.countP_append, List.countP_singleton]
  simp only [decide_eq_true_eq]
  rfl

theorem lengthStats_eq (lengths : List Nat) :
    lengthStats lengths = (List.range 256).map fun i => inBucket lengths i % 2 ^ 32 := by
  have hrun : ∀ (lengths done : List Nat),
      lengths.foldl bumpStats ((List.range 256).map fun i => inBucket done i % 2 ^ 32) =
        (List.range 256).map fun i => inBucket (done ++ lengths) i % 2 ^ 32 := by
    intro lengths
    induction lengths with
    | nil =>
      intro done
      rw [List.append_nil]
      rfl
    | cons v lengths ih =>
      intro done
      have hbump : bumpStats ((List.range 256).map fun i => inBucket done i % 2 ^ 32) v =
          (List.range 256).map fun i => inBucket (done ++ [v]) i % 2 ^ 32 := by
        refine List.ext_getElem (by simp [bumpStats]) fun i hi _ => ?_
        simp only [bumpStats, List.getElem_modify, List.getElem_map, List.getElem_range,
          inBucket_append, bucket]
        split_ifs <;> omega
      rw [List.foldl_cons, hbump, ih, List.append_assoc]
      rfl
  have hstart : List.replicate 256 0 = (List.range 256).map fun i => inBucket [] i % 2 ^ 32 := by
    simp [inBucket]
  rw [lengthStats, hstart, hrun, List.nil_append]

theorem sum_indicator (b n a : Nat) :
    ((List.range' a n).map fun i => if b = i then 1 else 0).sum =
      if a ≤ b ∧ b < a + n then 1 else 0 := by
  induction n generalizing a with
  | zero => simp
  | succ n ih =>
    rw [List.range'_succ, List.map_cons, List.sum_cons, ih]
    split_ifs <;> omega

theorem sum_inBucket {mask : Nat} (hmask : mask ≤ 255) (lengths : List Nat) :
    ((List.range' mask (256 - mask)).map (inBucket lengths)).sum =
      lengths.countP fun v => mask ≤ v := by
  induction lengths with
  | nil =>
    have hnil : inBucket [] = fun _ => 0 := rfl
    simp [hnil]
  | cons v lengths ih =>
    have hcons : inBucket (v :: lengths) =
        fun i => inBucket lengths i + if bucket v = i then 1 else 0 := by
      funext i
      rw [inBucket, List.countP_cons]
      simp only [decide_eq_true_eq]
      rfl
    rw [hcons, List.sum_map_add, ih, sum_indicator, List.countP_cons]
    simp only [decide_eq_true_eq, bucket]
    split_ifs <;> omega

theorem sum_mod_le {m : Nat} (hm : 0 < m) (xs : List Nat) :
    (xs.map (· % m)).sum ≤ xs.sum ∧ ((xs.map (· % m)).sum = xs.sum ↔ ∀ x ∈ xs, x < m) := by
  induction xs with
  | nil => simp
  | cons x xs ih =>
    obtain ⟨hle, hiff⟩ := ih
    have hx := Nat.mod_le x m
    have hlt : x % m = x ↔ x < m :=
      ⟨fun h => h ▸ Nat.mod_lt x hm, Nat.mod_eq_of_lt⟩
    rw [List.map_cons, List.sum_cons, List.sum_cons, List.forall_mem_cons, ← hiff, ← hlt]
    refine ⟨by omega, by omega⟩

/-- How many lengths are at least a mask, each counted modulo 2^32. -/
def longMod (lengths : List Nat) (mask : Nat) : Nat :=
  ((List.range' mask (256 - mask)).map fun i => inBucket lengths i % 2 ^ 32).sum

theorem sum_drop_lengthStats (lengths : List Nat) (mask : Nat) :
    ((lengthStats lengths).drop mask).sum = longMod lengths mask := by
  rw [lengthStats_eq, ← List.map_drop, List.range_eq_range', List.drop_range', longMod]
  congr 2
  simp

/-- No counter of the lengths from a mask on reached 2^32. -/
def CountersFit (lengths : List Nat) (mask : Nat) : Prop :=
  ∀ i, mask ≤ i → i < 256 → inBucket lengths i < 2 ^ 32

theorem longMod_spec {mask : Nat} (hmask : mask ≤ 255) (lengths : List Nat) :
    longMod lengths mask ≤ lengths.countP (fun v => decide (mask ≤ v)) ∧
      (longMod lengths mask = lengths.countP (fun v => decide (mask ≤ v)) ↔
        CountersFit lengths mask) := by
  obtain ⟨hle, hiff⟩ := sum_mod_le (Nat.two_pow_pos 32)
    ((List.range' mask (256 - mask)).map (inBucket lengths))
  rw [List.map_map] at hle hiff
  rw [← sum_inBucket hmask]
  refine ⟨hle, hiff.trans ?_⟩
  simp only [List.mem_map, List.mem_range'_1, forall_exists_index, and_imp, CountersFit]
  constructor
  · intro h i hi hi'
    exact h _ i hi (by omega) rfl
  · rintro h _ i hi hi' rfl
    exact h i hi (by omega)

theorem countLong_eq (splitPoint matchLengthBias : Nat) : ∀ {lls mls : List Nat},
    lls.length = mls.length →
      muxLengthsCountLong splitPoint matchLengthBias lls mls =
        lls.countP (fun v => decide (llMask splitPoint ≤ v)) +
          (mls.map (unbias 64 · matchLengthBias)).countP
            (fun v => decide (mlMask splitPoint ≤ v))
  | ll :: lls, ml :: mls, h => by
      rw [muxLengthsCountLong, countLong_eq _ _ (Nat.succ.inj h), List.map_cons, List.countP_cons,
        List.countP_cons]
      simp only [decide_eq_true_eq, ge_iff_le]
      omega
  | [], [], _ => rfl

/-- The number of long values of a split, each counter modulo 2^32. -/
def wrappedLong (matchLengthBias : Nat) (lls mls : List Nat) (splitPoint : Nat) : Nat :=
  longMod lls (llMask splitPoint) +
    longMod (mls.map (unbias 64 · matchLengthBias)) (mlMask splitPoint)

/-- The first split from 1 to 7 with the least number of long values, each counter modulo 2^32. -/
def FirstLeast (matchLengthBias : Nat) (lls mls : List Nat) (splitPoint : Nat) : Prop :=
  1 ≤ splitPoint ∧ splitPoint ≤ 7 ∧ ∀ s, 1 ≤ s → s ≤ 7 →
    wrappedLong matchLengthBias lls mls splitPoint ≤ wrappedLong matchLengthBias lls mls s ∧
      (s < splitPoint →
        wrappedLong matchLengthBias lls mls splitPoint < wrappedLong matchLengthBias lls mls s)

theorem bestSplit_spec (f : Nat → Nat) : ∀ {ss : List Nat} {best : MuxLengthsSplitResult},
    ss.Pairwise (· < ·) →
      (bestSplit f ss best = best ∧ ∀ s ∈ ss, best.numLong ≤ f s) ∨
        (bestSplit f ss best).splitPoint ∈ ss ∧
          (bestSplit f ss best).numLong = f (bestSplit f ss best).splitPoint ∧
          (bestSplit f ss best).numLong < best.numLong ∧
          ∀ s ∈ ss, (bestSplit f ss best).numLong ≤ f s ∧
            (s < (bestSplit f ss best).splitPoint → (bestSplit f ss best).numLong < f s)
  | [], best, _ => .inl ⟨rfl, fun _ h => nomatch h⟩
  | first :: ss, best, hsorted => by
      obtain ⟨hfirst, hrest⟩ := List.pairwise_cons.1 hsorted
      rw [bestSplit]
      split
      · rename_i hless
        rcases @bestSplit_spec f ss ⟨first, f first⟩ hrest with ⟨heq, hle⟩ |
          ⟨hmem, hnum, hlt, hle⟩
        · rw [heq]
          refine .inr ⟨List.mem_cons_self, rfl, hless, fun s hs => ?_⟩
          rcases List.mem_cons.1 hs with rfl | hs
          · exact ⟨Nat.le_refl _, fun h => absurd h (Nat.lt_irrefl _)⟩
          · exact ⟨hle s hs, fun h => absurd (hfirst s hs) (Nat.lt_asymm h)⟩
        · refine .inr ⟨List.mem_cons_of_mem _ hmem, hnum, hlt.trans hless, fun s hs => ?_⟩
          rcases List.mem_cons.1 hs with rfl | hs
          · exact ⟨hlt.le, fun _ => hlt⟩
          · exact hle s hs
      · rename_i hless
        rcases @bestSplit_spec f ss best hrest with ⟨heq, hle⟩ | ⟨hmem, hnum, hlt, hle⟩
        · refine .inl ⟨heq, fun s hs => ?_⟩
          rcases List.mem_cons.1 hs with rfl | hs
          · exact Nat.le_of_not_lt hless
          · exact hle s hs
        · refine .inr ⟨List.mem_cons_of_mem _ hmem, hnum, hlt, fun s hs => ?_⟩
          rcases List.mem_cons.1 hs with rfl | hs
          · exact ⟨by omega, fun _ => by omega⟩
          · exact hle s hs

theorem FirstLeast.unique {matchLengthBias s t : Nat} {lls mls : List Nat}
    (hs : FirstLeast matchLengthBias lls mls s) (ht : FirstLeast matchLengthBias lls mls t) :
    s = t := by
  obtain ⟨hs1, hs7, hs⟩ := hs
  obtain ⟨ht1, ht7, ht⟩ := ht
  have hst := hs t ht1 ht7
  have hts := ht s hs1 hs7
  rcases Nat.lt_trichotomy s t with h | h | h
  · have := hts.2 h
    omega
  · exact h
  · have := hst.2 h
    omega

theorem masks_le {splitPoint : Nat} (h : splitPoint ≤ 8) :
    llMask splitPoint ≤ 255 ∧ mlMask splitPoint ≤ 255 := by
  rw [llMask_eq, mlMask_eq]
  have hll := Nat.pow_le_pow_right (n := 2) (by decide) h
  have hml := Nat.pow_le_pow_right (n := 2) (by decide) (Nat.sub_le 8 splitPoint)
  omega

theorem computeSplitPoint_spec {lls mls : List Nat} (matchLengthBias : Nat)
    (hlen : lls.length = mls.length) :
    FirstLeast matchLengthBias lls mls
        (muxLengthsComputeSplitPoint matchLengthBias lls mls).splitPoint ∧
      (muxLengthsComputeSplitPoint matchLengthBias lls mls).numLong =
        wrappedLong matchLengthBias lls mls
          (muxLengthsComputeSplitPoint matchLengthBias lls mls).splitPoint := by
  have hone : wrappedLong matchLengthBias lls mls 1 ≤ 2 * lls.length := by
    have hll := (longMod_spec (masks_le (by decide : 1 ≤ 8)).1 lls).1
    have hml := (longMod_spec (masks_le (by decide : 1 ≤ 8)).2
      (mls.map (unbias 64 · matchLengthBias))).1
    have hll' := List.countP_le_length (p := fun v => decide (llMask 1 ≤ v)) (l := lls)
    have hml' := List.countP_le_length (p := fun v => decide (mlMask 1 ≤ v))
      (l := mls.map (unbias 64 · matchLengthBias))
    rw [List.length_map] at hml'
    rw [wrappedLong]
    omega
  have hextra : numExtraLens (lengthStats lls) (lengthStats (mls.map (unbias 64 · matchLengthBias))) =
      wrappedLong matchLengthBias lls mls := by
    funext s
    rw [numExtraLens, sum_drop_lengthStats, sum_drop_lengthStats, wrappedLong]
  have hrun : muxLengthsComputeSplitPoint matchLengthBias lls mls =
      bestSplit (wrappedLong matchLengthBias lls mls) [1, 2, 3, 4, 5, 6, 7]
        ⟨0, 2 * lls.length + 1⟩ := by
    rw [← hextra]
    rfl
  rw [hrun]
  rcases @bestSplit_spec (wrappedLong matchLengthBias lls mls) [1, 2, 3, 4, 5, 6, 7]
    ⟨0, 2 * lls.length + 1⟩ (by decide) with ⟨-, hle⟩ | ⟨hmem, hnum, -, hle⟩
  · have := hle 1 (by decide)
    dsimp only at this
    omega
  · have hmem' : ∀ s, s ∈ [1, 2, 3, 4, 5, 6, 7] ↔ 1 ≤ s ∧ s ≤ 7 := by
      intro s
      simp only [List.mem_cons, List.not_mem_nil, or_false]
      omega
    obtain ⟨h1, h7⟩ := (hmem' _).1 hmem
    rw [hnum] at hle
    exact ⟨⟨h1, h7, fun s hs1 hs7 => hle s ((hmem' s).2 ⟨hs1, hs7⟩)⟩, hnum⟩

theorem numLong_eq_iff {lls mls : List Nat} (matchLengthBias splitPoint : Nat)
    (hlen : lls.length = mls.length) :
    ((muxLengthsComputeSplitPoint matchLengthBias lls mls).splitPoint = splitPoint →
        (muxLengthsComputeSplitPoint matchLengthBias lls mls).numLong =
          muxLengthsCountLong splitPoint matchLengthBias lls mls) ↔
      (FirstLeast matchLengthBias lls mls splitPoint →
        CountersFit lls (llMask splitPoint) ∧
          CountersFit (mls.map (unbias 64 · matchLengthBias)) (mlMask splitPoint)) := by
  obtain ⟨hleast, hnum⟩ := computeSplitPoint_spec matchLengthBias hlen
  have hchosen : (muxLengthsComputeSplitPoint matchLengthBias lls mls).splitPoint = splitPoint ↔
      FirstLeast matchLengthBias lls mls splitPoint :=
    ⟨fun h => h ▸ hleast, fun h => hleast.unique h⟩
  refine imp_congr_ctx hchosen fun hfirst => ?_
  rw [hnum, hchosen.2 hfirst, countLong_eq splitPoint matchLengthBias hlen, wrappedLong]
  have hmasks := masks_le (hfirst.2.1.trans (by decide : 7 ≤ 8))
  obtain ⟨hll, hlliff⟩ := longMod_spec hmasks.1 lls
  obtain ⟨hml, hmliff⟩ := longMod_spec hmasks.2 (mls.map (unbias 64 · matchLengthBias))
  rw [← hlliff, ← hmliff]
  omega

end OpenZL.Codecs.MuxLengths
