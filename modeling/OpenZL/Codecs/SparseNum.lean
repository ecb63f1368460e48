import Mathlib.Algebra.GroupWithZero.Nat
import Mathlib.Data.List.Basic

/-!
# The sparse_num codec

`encode_sparse_num_kernel.c` and `decode_sparse_num_kernel.c`: a list of numbers becomes the values
other than a dominant one, each with the length of the run of the dominant value before it. A failed
assertion is `none`.

Principal results: `computeEncodeInfo_eq`, `encode_eq`, `decode_encode`.
-/

namespace OpenZL.Codecs.SparseNum

/-- `UINT32_MAX` -/
def UINT32_MAX : Nat := 2 ^ 32 - 1

/-- `SIZE_MAX` -/
def SIZE_MAX : Nat := 2 ^ 64 - 1

/-- `ZL_sparseNumValidValueWidth` -/
def validValueWidth (width : Nat) : Bool := width == 1 || width == 2 || width == 4 || width == 8

/-- `ZL_sparseNumValidDistanceWidth` -/
def validDistanceWidth (width : Nat) : Bool := width == 1 || width == 2 || width == 4

/-- What a store of `width` bytes keeps of a number. -/
def stored (width value : Nat) : Nat := value % 2 ^ (8 * width)

/-- `ZL_sparseNumMatchesDominant` -/
def matchesDominant (elt dominant : Nat) : Bool :=
  if dominant = 0 then elt == 0 else elt == dominant

/-- `ZL_sparseNumDistanceWidth` -/
def distanceWidthOf (maxDistance : Nat) : Nat :=
  if maxDistance ≤ 255 then 1 else if maxDistance ≤ 65535 then 2 else 4

/-- `ZL_SparseNumEncodeInfo` -/
structure EncodeInfo where
  numDistances : Nat
  numValues : Nat
  distanceWidth : Nat
  deriving DecidableEq, Repr

/-- The locals of `ZL_sparseNumComputeEncodeInfo_internal`. -/
structure Scan where
  run : Nat
  maxDistance : Nat
  numValues : Nat
  numDistances : Nat

/-- The body of its loop. -/
def scanElt (dominant : Nat) (s : Scan) (elt : Nat) : Scan :=
  if matchesDominant elt dominant then
    if s.run = UINT32_MAX then
      ⟨0, UINT32_MAX, s.numValues + 1, s.numDistances + 1⟩
    else { s with run := s.run + 1 }
  else
    ⟨0, if s.run > s.maxDistance then s.run else s.maxDistance, s.numValues + 1,
      s.numDistances + 1⟩

/-- `ZL_sparseNumComputeEncodeInfo` -/
def computeEncodeInfo (src : List Nat) (dominant : Nat) : EncodeInfo :=
  let s := src.foldl (scanElt dominant) ⟨0, 0, 0, 0⟩
  if s.run > 0 then
    ⟨s.numDistances + 1, s.numValues,
      distanceWidthOf (if s.run > s.maxDistance then s.run else s.maxDistance)⟩
  else ⟨s.numDistances, s.numValues, distanceWidthOf s.maxDistance⟩

/-- The locals of `ZL_sparseNumEncode_internal`, with what it has written. -/
structure Encoder where
  distances : List Nat
  values : List Nat
  elts : Nat
  run : Nat

/-- Its loop, from the element `i` on. -/
def encodeLoop (valueWidth distanceWidth dominant : Nat) (splitFullRun : Bool) :
    List Nat → Nat → Encoder → Option Encoder
  | [], _, e => some e
  | elt :: src, i, e =>
      if matchesDominant elt dominant then
        if splitFullRun ∧ e.run = UINT32_MAX then
          encodeLoop valueWidth distanceWidth dominant splitFullRun src (i + 1)
            ⟨e.distances ++ [stored distanceWidth UINT32_MAX],
              e.values ++ [if dominant = 0 then elt else stored valueWidth dominant], i + 1, 0⟩
        else
          encodeLoop valueWidth distanceWidth dominant splitFullRun src (i + 1)
            { e with run := e.run + 1 }
      else if e.run ≤ UINT32_MAX then
        encodeLoop valueWidth distanceWidth dominant splitFullRun src (i + 1)
          ⟨e.distances ++ [stored distanceWidth e.run], e.values ++ [elt], e.elts + (e.run + 1), 0⟩
      else none

/-- `ZL_sparseNumEncode_internal`: the distances and the values. -/
def encodeInternal (src : List Nat) (valueWidth distanceWidth dominant : Nat)
    (splitFullRun : Bool) : Option (List Nat × List Nat) :=
  if splitFullRun ∧ distanceWidth ≠ 4 then none
  else do
    let e ← encodeLoop valueWidth distanceWidth dominant splitFullRun src 0 ⟨[], [], 0, 0⟩
    -- the final run
    if e.elts < src.length then
      let lastRun := src.length - e.elts
      if lastRun ≤ UINT32_MAX then
        return (e.distances ++ [stored distanceWidth lastRun], e.values)
      else none
    else return (e.distances, e.values)

/-- `ZL_sparseNumEncode` -/
def encode (src : List Nat) (valueWidth distanceWidth dominant : Nat) :
    Option (List Nat × List Nat) :=
  if validValueWidth valueWidth ∧ validDistanceWidth distanceWidth then
    if dominant = 0 ∧ distanceWidth = 1 then encodeInternal src valueWidth 1 0 false
    else encodeInternal src valueWidth distanceWidth dominant (distanceWidth == 4)
  else none

/-- `ZL_SPARSE_NUM_DECODE_OUTPUT_COUNT_ERROR` -/
def OUTPUT_COUNT_ERROR : Nat := SIZE_MAX

/-- The checked loop of `ZL_sparseNumDecodeOutputCount`. -/
def addChecked : List Nat → Nat → Nat
  | [], count => count
  | distance :: distances, count =>
      if distance ≥ OUTPUT_COUNT_ERROR - count then OUTPUT_COUNT_ERROR
      else addChecked distances (count + distance)

/-- `ZL_sparseNumDecodeOutputCount` -/
def decodeOutputCount (distances : List Nat) (numLiterals : Nat) : Nat :=
  if distances.length ≤ UINT32_MAX ∧ numLiterals ≤ UINT32_MAX then
    distances.foldl (fun count distance => (count + distance) % 2 ^ 64) numLiterals
  else if numLiterals = OUTPUT_COUNT_ERROR then OUTPUT_COUNT_ERROR
  else addChecked distances numLiterals

/-- What the decoder has written, with its count of bytes. -/
structure Decoder where
  out : List Nat
  producedBytes : Nat

/-- `ZL_sparseNumDecodeTrackWrite`, and the write. -/
def trackWrite (expectedDstSize writeBytes : Nat) (elts : List Nat) (d : Decoder) :
    Option Decoder :=
  if d.producedBytes > expectedDstSize ∨ writeBytes > expectedDstSize - d.producedBytes then none
  else some ⟨d.out ++ elts, d.producedBytes + writeBytes⟩

/-- `ZL_sparseNumDecodeWriteRun`: what a run holds. -/
def runOf (dominant distance valueWidth : Nat) : List Nat :=
  if dominant = 0 then List.replicate distance 0
  else List.replicate distance (stored valueWidth dominant)

/-- A run, with the checks before it. -/
def writeRun (expectedDstSize valueWidth dominant distance : Nat) (d : Decoder) :
    Option Decoder :=
  if distance ≤ SIZE_MAX / valueWidth then
    trackWrite expectedDstSize (distance * valueWidth) (runOf dominant distance valueWidth) d
  else none

/-- The loop of `ZL_sparseNumDecodeBody`, with the distances it leaves. -/
def decodeLoop (expectedDstSize valueWidth dominant : Nat) :
    List Nat → List Nat → Decoder → Option (List Nat × Decoder)
  | [], distances, d => some (distances, d)
  | _ :: _, [], _ => none
  | value :: values, distance :: distances, d => do
      let d ← writeRun expectedDstSize valueWidth dominant distance d
      let d ← trackWrite expectedDstSize valueWidth [value] d
      decodeLoop expectedDstSize valueWidth dominant values distances d

/-- `ZL_sparseNumDecodeBody` -/
def decodeBody (expectedDstSize : Nat) (distances : List Nat) (dominant : Nat) (values : List Nat)
    (valueWidth : Nat) : Option (List Nat) := do
  let (rest, d) ← decodeLoop expectedDstSize valueWidth dominant values distances ⟨[], 0⟩
  let d ←
    if distances.length = values.length + 1 then
      match rest with
      | [] => none
      | distance :: _ => writeRun expectedDstSize valueWidth dominant distance d
    else some d
  if d.producedBytes = expectedDstSize then some d.out else none

/-- `ZL_sparseNumDecode` -/
def decode (expectedDstSize : Nat) (distances : List Nat) (distanceWidth dominant : Nat)
    (values : List Nat) (valueWidth : Nat) : Option (List Nat) :=
  if validValueWidth valueWidth ∧ validDistanceWidth distanceWidth ∧
      (distances.length = values.length ∨
        values.length < SIZE_MAX ∧ distances.length = values.length + 1) then
    if dominant = 0 ∧ distanceWidth = 1 then
      decodeBody expectedDstSize distances 0 values valueWidth
    else decodeBody expectedDstSize distances dominant values valueWidth
  else none

/-! ## Encoding -/

/-- The values with the distance before each, and the length of the last run; `run` elements of the
dominant value come before the list. -/
def runs (dominant : Nat) : List Nat → Nat → List (Nat × Nat) × Nat
  | [], run => ([], run)
  | elt :: src, run =>
      if elt = dominant then
        if run = UINT32_MAX then
          ((UINT32_MAX, dominant) :: (runs dominant src 0).1, (runs dominant src 0).2)
        else runs dominant src (run + 1)
      else ((run, elt) :: (runs dominant src 0).1, (runs dominant src 0).2)

theorem matchesDominant_iff (elt dominant : Nat) :
    matchesDominant elt dominant = true ↔ elt = dominant := by
  rw [matchesDominant]
  split
  · rename_i h
    rw [h, beq_iff_eq]
  · exact beq_iff_eq

section

variable {dominant : Nat}

theorem runs_expand : ∀ (src : List Nat) (run : Nat),
    ((runs dominant src run).1.flatMap fun p => List.replicate p.1 dominant ++ [p.2]) ++
        List.replicate (runs dominant src run).2 dominant =
      List.replicate run dominant ++ src
  | [], run => by simp [runs]
  | elt :: src, run => by
      have hzero := runs_expand src 0
      rw [List.replicate_zero, List.nil_append] at hzero
      rw [runs]
      split
      · rename_i helt
        split
        · rename_i hrun
          rw [List.flatMap_cons, List.append_assoc, List.append_assoc, hzero, hrun, helt,
            List.singleton_append]
        · rw [runs_expand src (run + 1), List.replicate_succ', List.append_assoc, helt,
            List.singleton_append]
      · rw [List.flatMap_cons, List.append_assoc, List.append_assoc, hzero, List.singleton_append]

theorem runs_le : ∀ (src : List Nat) {run : Nat}, run ≤ UINT32_MAX →
    (∀ p ∈ (runs dominant src run).1, p.1 ≤ UINT32_MAX) ∧
      (runs dominant src run).2 ≤ UINT32_MAX
  | [], run, h => ⟨nofun, h⟩
  | elt :: src, run, h => by
      obtain ⟨hpairs, hlast⟩ := runs_le src (Nat.zero_le UINT32_MAX)
      rw [runs]
      split
      · split
        · exact ⟨List.forall_mem_cons.2 ⟨Nat.le_refl _, hpairs⟩, hlast⟩
        · rename_i hfull
          exact runs_le src (Nat.lt_of_le_of_ne h hfull)
      · exact ⟨List.forall_mem_cons.2 ⟨h, hpairs⟩, hlast⟩

/-- The largest distance. -/
def maxDistance (ps : List (Nat × Nat)) (m : Nat) : Nat := ps.foldl (fun m p => max m p.1) m

theorem le_maxDistance : ∀ (ps : List (Nat × Nat)) (m : Nat),
    m ≤ maxDistance ps m ∧ ∀ p ∈ ps, p.1 ≤ maxDistance ps m
  | [], m => ⟨Nat.le_refl m, nofun⟩
  | p :: ps, m => by
      obtain ⟨hle, hmem⟩ := le_maxDistance ps (max m p.1)
      refine ⟨Nat.le_trans (Nat.le_max_left m p.1) hle, List.forall_mem_cons.2 ⟨?_, hmem⟩⟩
      exact Nat.le_trans (Nat.le_max_right m p.1) hle

theorem scan_eq : ∀ (src : List Nat) {run m numValues numDistances : Nat}, run ≤ UINT32_MAX →
    m ≤ UINT32_MAX →
    src.foldl (scanElt dominant) ⟨run, m, numValues, numDistances⟩ =
      ⟨(runs dominant src run).2, maxDistance (runs dominant src run).1 m,
        numValues + (runs dominant src run).1.length,
        numDistances + (runs dominant src run).1.length⟩
  | [], _, _, _, _, _, _ => rfl
  | elt :: src, run, m, numValues, numDistances, hrun, hm => by
      rw [List.foldl_cons, scanElt, runs]
      by_cases helt : elt = dominant
      · rw [if_pos ((matchesDominant_iff _ _).2 helt), if_pos helt]
        by_cases hfull : run = UINT32_MAX
        · rw [if_pos hfull, if_pos hfull, scan_eq src (Nat.zero_le _) (Nat.le_refl _)]
          simp only [maxDistance, List.foldl_cons, List.length_cons, Nat.max_eq_right hm]
          congr 1 <;> omega
        · rw [if_neg hfull, if_neg hfull]
          exact scan_eq src (Nat.lt_of_le_of_ne hrun hfull) hm
      · rw [if_neg (fun h => helt ((matchesDominant_iff _ _).1 h)), if_neg helt,
          scan_eq src (Nat.zero_le _) (by dsimp only; split <;> omega)]
        have hmax : (if run > m then run else m) = max m run := by split <;> omega
        simp only [hmax, maxDistance, List.foldl_cons, List.length_cons]
        congr 1 <;> omega

/-- **The first pass** counts the runs, and finds a width for the longest. -/
theorem computeEncodeInfo_eq (src : List Nat) :
    computeEncodeInfo src dominant =
      ⟨(runs dominant src 0).1.length + (if (runs dominant src 0).2 = 0 then 0 else 1),
        (runs dominant src 0).1.length,
        distanceWidthOf (max (maxDistance (runs dominant src 0).1 0) (runs dominant src 0).2)⟩ := by
  rw [computeEncodeInfo, scan_eq src (Nat.zero_le _) (Nat.zero_le _)]
  dsimp only
  rw [Nat.zero_add]
  by_cases hlast : (runs dominant src 0).2 = 0
  · rw [if_neg (by omega), if_pos hlast, hlast, Nat.max_zero, Nat.add_zero]
  · rw [if_pos (by omega), if_neg hlast]
    congr 2
    split <;> omega

theorem lt_of_distanceWidthOf {n m : Nat} (hn : n ≤ m) (hm : m ≤ UINT32_MAX) :
    n < 2 ^ (8 * distanceWidthOf m) := by
  have hmax : m < 2 ^ 32 := Nat.lt_succ_of_le hm
  rw [distanceWidthOf]
  split
  · show n < 2 ^ 8
    omega
  · split
    · show n < 2 ^ 16
      omega
    · show n < 2 ^ 32
      omega

theorem encodeLoop_eq {valueWidth distanceWidth : Nat} (hdominant : dominant < 2 ^ (8 * valueWidth))
    {splitFullRun : Bool} : ∀ (src : List Nat) (i run elts : Nat) (ds vs : List Nat),
    run ≤ UINT32_MAX → elts + run = i →
    (∀ p ∈ (runs dominant src run).1, p.1 < 2 ^ (8 * distanceWidth)) →
    (splitFullRun = false → ∀ p ∈ (runs dominant src run).1, p.1 < UINT32_MAX) →
    encodeLoop valueWidth distanceWidth dominant splitFullRun src i ⟨ds, vs, elts, run⟩ =
      some ⟨ds ++ (runs dominant src run).1.map Prod.fst,
        vs ++ (runs dominant src run).1.map Prod.snd,
        i + src.length - (runs dominant src run).2, (runs dominant src run).2⟩
  | [], i, run, elts, ds, vs, hrun, hi, hfit, hsplit => by
      simp only [encodeLoop, runs, List.map_nil, List.append_nil, List.length_nil]
      congr 2
      omega
  | elt :: src, i, run, elts, ds, vs, hrun, hi, hfit, hsplit => by
      rw [encodeLoop]
      rw [runs] at hfit hsplit ⊢
      by_cases helt : elt = dominant
      · rw [if_pos helt] at hfit hsplit ⊢
        rw [if_pos ((matchesDominant_iff _ _).2 helt)]
        by_cases hfull : run = UINT32_MAX
        · rw [if_pos hfull] at hfit hsplit ⊢
          have htrue : splitFullRun = true := by
            cases hs : splitFullRun with
            | true => rfl
            | false => exact absurd (hsplit hs _ List.mem_cons_self) (Nat.lt_irrefl _)
          have hstored : stored distanceWidth UINT32_MAX = UINT32_MAX :=
            Nat.mod_eq_of_lt (hfit _ List.mem_cons_self)
          have hvalue : (if dominant = 0 then elt else stored valueWidth dominant) = dominant := by
            split
            · exact helt
            · exact Nat.mod_eq_of_lt hdominant
          rw [if_pos ⟨htrue, hfull⟩, hstored, hvalue,
            encodeLoop_eq hdominant src (i + 1) 0 (i + 1) _ _ (Nat.zero_le _) rfl
              (fun p hp => hfit p (List.mem_cons_of_mem _ hp))
              (fun hs p hp => hsplit hs p (List.mem_cons_of_mem _ hp))]
          simp only [List.map_cons, List.append_assoc, List.singleton_append, List.length_cons]
          congr 2
          omega
        · rw [if_neg hfull] at hfit hsplit ⊢
          rw [if_neg (fun h => hfull h.2),
            encodeLoop_eq hdominant src (i + 1) (run + 1) elts ds vs (by omega) (by omega) hfit
              hsplit]
          simp only [List.length_cons]
          congr 2
          omega
      · rw [if_neg helt] at hfit hsplit ⊢
        have hstored : stored distanceWidth run = run :=
          Nat.mod_eq_of_lt (hfit _ List.mem_cons_self)
        rw [if_neg (fun h => helt ((matchesDominant_iff _ _).1 h)), if_pos hrun, hstored,
          encodeLoop_eq hdominant src (i + 1) 0 (elts + (run + 1)) _ _ (Nat.zero_le _) (by omega)
            (fun p hp => hfit p (List.mem_cons_of_mem _ hp))
            (fun hs p hp => hsplit hs p (List.mem_cons_of_mem _ hp))]
        simp only [List.map_cons, List.append_assoc, List.singleton_append, List.length_cons]
        congr 2
        omega

theorem length_eq (src : List Nat) :
    ((runs dominant src 0).1.map fun p => p.1 + 1).sum + (runs dominant src 0).2 =
      src.length := by
  have h := congrArg List.length (@runs_expand dominant src 0)
  simp only [List.length_append, List.length_flatMap, List.length_replicate, List.length_singleton,
    Nat.zero_add] at h
  exact h

/-- The last distance, where there is a last run. -/
def lastDistance (run : Nat) : List Nat := if run = 0 then [] else [run]

theorem sum_lastDistance (run : Nat) : (lastDistance run).sum = run := by
  rw [lastDistance]
  split
  · rename_i h
    rw [h, List.sum_nil]
  · rw [List.sum_singleton]

theorem eq_of_mem_lastDistance {run d : Nat} (h : d ∈ lastDistance run) : d = run := by
  rw [lastDistance] at h
  split at h
  · exact absurd h List.not_mem_nil
  · exact List.mem_singleton.1 h

theorem eq_of_validValueWidth {width : Nat} (h : validValueWidth width = true) :
    width = 1 ∨ width = 2 ∨ width = 4 ∨ width = 8 := by
  simpa [validValueWidth, or_assoc] using h

theorem validDistanceWidth_distanceWidthOf (m : Nat) :
    validDistanceWidth (distanceWidthOf m) = true := by
  rw [distanceWidthOf]
  split
  · rfl
  · split <;> rfl

theorem lt_of_not_split {m : Nat} (h : (distanceWidthOf m == 4) = false) : m < UINT32_MAX := by
  have hne : distanceWidthOf m ≠ 4 := fun heq => by
    rw [heq] at h
    exact Bool.noConfusion h
  have hmax : 65535 < UINT32_MAX := by decide
  rw [distanceWidthOf] at hne
  split at hne
  · omega
  · split at hne
    · omega
    · exact absurd rfl hne

theorem maxDistance_le : ∀ (ps : List (Nat × Nat)) {m b : Nat}, m ≤ b → (∀ p ∈ ps, p.1 ≤ b) →
    maxDistance ps m ≤ b
  | [], _, _, hm, _ => hm
  | p :: ps, _, _, hm, h =>
      maxDistance_le ps (Nat.max_le.2 ⟨hm, h p List.mem_cons_self⟩)
        fun q hq => h q (List.mem_cons_of_mem p hq)

theorem encode_internal {valueWidth distanceWidth : Nat}
    (hwidth : validValueWidth valueWidth = true)
    (hdistance : validDistanceWidth distanceWidth = true) (src : List Nat) :
    encode src valueWidth distanceWidth dominant =
      encodeInternal src valueWidth distanceWidth dominant (distanceWidth == 4) := by
  rw [encode, if_pos ⟨hwidth, hdistance⟩]
  split
  · rename_i h
    rw [h.1, h.2]
    rfl
  · rfl

theorem pos_of_validValueWidth {width : Nat} (h : validValueWidth width = true) : 0 < width := by
  rcases eq_of_validValueWidth h with h | h | h | h <;> rw [h] <;> decide

theorem sum_map_succ : ∀ ps : List (Nat × Nat),
    (ps.map fun p => p.1 + 1).sum = ps.length + (ps.map Prod.fst).sum
  | [] => rfl
  | p :: ps => by
      rw [List.map_cons, List.sum_cons, sum_map_succ ps, List.map_cons, List.sum_cons,
        List.length_cons]
      omega

/-- **The second pass** writes the runs that the first has counted. -/
theorem encode_eq {valueWidth : Nat} (hwidth : validValueWidth valueWidth = true)
    (hdominant : dominant < 2 ^ (8 * valueWidth)) (src : List Nat) :
    encode src valueWidth (computeEncodeInfo src dominant).distanceWidth dominant =
      some ((runs dominant src 0).1.map Prod.fst ++ lastDistance (runs dominant src 0).2,
        (runs dominant src 0).1.map Prod.snd) := by
  obtain ⟨hpairs, hlast⟩ := @runs_le dominant src 0 (Nat.zero_le UINT32_MAX)
  obtain ⟨-, hmax⟩ := le_maxDistance (runs dominant src 0).1 0
  have hle : max (maxDistance (runs dominant src 0).1 0) (runs dominant src 0).2 ≤ UINT32_MAX :=
    Nat.max_le.2 ⟨maxDistance_le _ (Nat.zero_le _) hpairs, hlast⟩
  rw [computeEncodeInfo_eq]
  generalize hm : max (maxDistance (runs dominant src 0).1 0) (runs dominant src 0).2 = m at hle
  have hpair : ∀ p ∈ (runs dominant src 0).1, p.1 ≤ m := fun p hp =>
    hm ▸ Nat.le_trans (hmax p hp) (Nat.le_max_left _ _)
  have hfinal : (runs dominant src 0).2 ≤ m := hm ▸ Nat.le_max_right _ _
  have hloop := @encodeLoop_eq dominant valueWidth (distanceWidthOf m) hdominant
    (distanceWidthOf m == 4) src 0 0 0 [] [] (Nat.zero_le _) rfl
    (fun p hp => lt_of_distanceWidthOf (hpair p hp) hle)
    (fun hs p hp => Nat.lt_of_le_of_lt (hpair p hp) (lt_of_not_split hs))
  have hlength := @length_eq dominant src
  rw [encode_internal hwidth (validDistanceWidth_distanceWidthOf m), encodeInternal,
    if_neg (fun h => h.2 (beq_iff_eq.1 h.1)), hloop]
  simp only [Option.bind_eq_bind, Option.bind_some, List.nil_append, Nat.zero_add]
  rw [lastDistance]
  by_cases hzero : (runs dominant src 0).2 = 0
  · rw [if_neg (by omega), if_pos hzero, List.append_nil]
    rfl
  · have hrun : src.length - (src.length - (runs dominant src 0).2) = (runs dominant src 0).2 := by
      omega
    rw [if_pos (by omega), if_neg hzero, hrun, if_pos hlast,
      show stored _ _ = _ from Nat.mod_eq_of_lt (lt_of_distanceWidthOf hfinal hle)]
    rfl

/-! ## Decoding -/

theorem addChecked_eq : ∀ (distances : List Nat) {count : Nat},
    count + distances.sum ≤ SIZE_MAX → addChecked distances count = count + distances.sum
  | [], _, _ => rfl
  | distance :: distances, count, h => by
      rw [List.sum_cons] at h ⊢
      rw [addChecked]
      split
      · rename_i hfull
        rw [OUTPUT_COUNT_ERROR] at hfull ⊢
        omega
      · rw [addChecked_eq distances (by omega)]
        omega

theorem foldl_count_eq : ∀ (distances : List Nat) {count : Nat},
    count + distances.sum < 2 ^ 64 →
    distances.foldl (fun count distance => (count + distance) % 2 ^ 64) count =
      count + distances.sum
  | [], _, _ => rfl
  | distance :: distances, count, h => by
      rw [List.sum_cons] at h ⊢
      rw [List.foldl_cons, Nat.mod_eq_of_lt (by omega), foldl_count_eq distances (by omega)]
      omega

theorem decodeOutputCount_eq {distances : List Nat} {numLiterals : Nat}
    (h : numLiterals + distances.sum ≤ SIZE_MAX) :
    decodeOutputCount distances numLiterals = numLiterals + distances.sum := by
  have hmax : SIZE_MAX < 2 ^ 64 := by decide
  rw [decodeOutputCount]
  split
  · exact foldl_count_eq distances (Nat.lt_of_le_of_lt h hmax)
  · split
    · rename_i hfull
      rw [OUTPUT_COUNT_ERROR] at hfull ⊢
      omega
    · exact addChecked_eq distances h

variable {expectedDstSize valueWidth : Nat}

theorem writeRun_eq (hwidth : validValueWidth valueWidth = true)
    (hdominant : dominant < 2 ^ (8 * valueWidth)) {distance : Nat} (hle : distance ≤ UINT32_MAX)
    {d : Decoder} (hfits : d.producedBytes + distance * valueWidth ≤ expectedDstSize) :
    writeRun expectedDstSize valueWidth dominant distance d =
      some ⟨d.out ++ List.replicate distance dominant,
        d.producedBytes + distance * valueWidth⟩ := by
  have hrun : runOf dominant distance valueWidth = List.replicate distance dominant := by
    rw [runOf]
    split
    · rename_i hzero
      rw [hzero]
    · rw [stored, Nat.mod_eq_of_lt hdominant]
  have hsmall : UINT32_MAX ≤ SIZE_MAX / valueWidth := by
    rcases eq_of_validValueWidth hwidth with h | h | h | h <;> rw [h] <;> decide
  rw [writeRun, if_pos (Nat.le_trans hle hsmall), trackWrite, if_neg (by omega), hrun]

theorem trackWrite_eq {elts : List Nat} {writeBytes : Nat} {d : Decoder}
    (hfits : d.producedBytes + writeBytes ≤ expectedDstSize) :
    trackWrite expectedDstSize writeBytes elts d =
      some ⟨d.out ++ elts, d.producedBytes + writeBytes⟩ := by
  rw [trackWrite, if_neg (by omega)]

theorem decodeLoop_eq (hwidth : validValueWidth valueWidth = true)
    (hdominant : dominant < 2 ^ (8 * valueWidth)) :
    ∀ (ps : List (Nat × Nat)) (rest : List Nat) (d : Decoder), (∀ p ∈ ps, p.1 ≤ UINT32_MAX) →
      d.producedBytes + (ps.map fun p => p.1 + 1).sum * valueWidth ≤ expectedDstSize →
      decodeLoop expectedDstSize valueWidth dominant (ps.map Prod.snd)
          (ps.map Prod.fst ++ rest) d =
        some (rest, ⟨d.out ++ ps.flatMap fun p => List.replicate p.1 dominant ++ [p.2],
          d.producedBytes + (ps.map fun p => p.1 + 1).sum * valueWidth⟩)
  | [], rest, d, _, _ => by
      simp only [List.map_nil, List.nil_append, decodeLoop, List.flatMap_nil, List.append_nil,
        List.sum_nil, Nat.zero_mul, Nat.add_zero]
  | p :: ps, rest, d, hle, hfits => by
      have hsum : ((p :: ps).map fun p => p.1 + 1).sum * valueWidth =
          p.1 * valueWidth + valueWidth + (ps.map fun p => p.1 + 1).sum * valueWidth := by
        rw [List.map_cons, List.sum_cons, Nat.add_mul, Nat.add_mul, Nat.one_mul]
      rw [hsum] at hfits ⊢
      rw [List.map_cons, List.map_cons, List.cons_append, decodeLoop,
        writeRun_eq hwidth hdominant (hle p List.mem_cons_self) (by omega)]
      simp only [Option.bind_eq_bind, Option.bind_some]
      rw [trackWrite_eq (by dsimp only; omega)]
      simp only [Option.bind_some]
      rw [decodeLoop_eq hwidth hdominant ps rest _ (fun q hq => hle q (List.mem_cons_of_mem _ hq))
        (by dsimp only; omega)]
      simp only [List.flatMap_cons, List.append_assoc, Nat.add_assoc]

theorem decode_body {distanceWidth : Nat} {distances values : List Nat}
    (hwidth : validValueWidth valueWidth = true)
    (hdistance : validDistanceWidth distanceWidth = true)
    (hcount : distances.length = values.length ∨
      values.length < SIZE_MAX ∧ distances.length = values.length + 1) :
    decode expectedDstSize distances distanceWidth dominant values valueWidth =
      decodeBody expectedDstSize distances dominant values valueWidth := by
  rw [decode, if_pos ⟨hwidth, hdistance, hcount⟩]
  split
  · rename_i h
    rw [h.1]
  · rfl

theorem decodeBody_runs (hwidth : validValueWidth valueWidth = true)
    (hdominant : dominant < 2 ^ (8 * valueWidth)) (src : List Nat) :
    decodeBody (src.length * valueWidth)
        ((runs dominant src 0).1.map Prod.fst ++ lastDistance (runs dominant src 0).2) dominant
        ((runs dominant src 0).1.map Prod.snd) valueWidth = some src := by
  obtain ⟨hpairs, hlast⟩ := @runs_le dominant src 0 (Nat.zero_le UINT32_MAX)
  have hlength := @length_eq dominant src
  have hexpand := @runs_expand dominant src 0
  rw [List.replicate_zero, List.nil_append] at hexpand
  have hbytes : ((runs dominant src 0).1.map fun p => p.1 + 1).sum * valueWidth +
      (runs dominant src 0).2 * valueWidth = src.length * valueWidth := by
    rw [← Nat.add_mul, hlength]
  rw [decodeBody, decodeLoop_eq hwidth hdominant _ _ _ hpairs (by dsimp only; omega)]
  simp only [Option.bind_eq_bind, Option.bind_some, List.nil_append, Nat.zero_add,
    List.length_append, List.length_map]
  rw [lastDistance]
  by_cases hzero : (runs dominant src 0).2 = 0
  · rw [hzero, Nat.zero_mul, Nat.add_zero] at hbytes
    rw [hzero, List.replicate_zero, List.append_nil] at hexpand
    rw [if_pos hzero, if_neg (by simp only [List.length_nil]; omega)]
    rw [if_pos hbytes, hexpand]
  · rw [if_neg hzero, if_pos (by rw [List.length_singleton])]
    dsimp only
    rw [writeRun_eq hwidth hdominant hlast (by dsimp only; omega)]
    simp only [Option.bind_some]
    rw [if_pos hbytes, hexpand]

end

/-- **The codec restores the list**: the first pass counts what the second writes, each distance
fits, and the decoder finds the count of elements and the elements. -/
theorem decode_encode (src : List Nat) {valueWidth dominant : Nat}
    (hwidth : validValueWidth valueWidth = true) (hdominant : dominant < 2 ^ (8 * valueWidth))
    (hsize : src.length * valueWidth < 2 ^ 64) :
    ∃ distances values,
      encode src valueWidth (computeEncodeInfo src dominant).distanceWidth dominant =
        some (distances, values) ∧
      distances.length = (computeEncodeInfo src dominant).numDistances ∧
      values.length = (computeEncodeInfo src dominant).numValues ∧
      (∀ d ∈ distances, d < 2 ^ (8 * (computeEncodeInfo src dominant).distanceWidth)) ∧
      decodeOutputCount distances values.length = src.length ∧
      decode (src.length * valueWidth) distances (computeEncodeInfo src dominant).distanceWidth
        dominant values valueWidth = some src := by
  obtain ⟨hpairs, hlast⟩ := @runs_le dominant src 0 (Nat.zero_le UINT32_MAX)
  obtain ⟨-, hmax⟩ := le_maxDistance (runs dominant src 0).1 0
  have hle : max (maxDistance (runs dominant src 0).1 0) (runs dominant src 0).2 ≤ UINT32_MAX :=
    Nat.max_le.2 ⟨maxDistance_le _ (Nat.zero_le _) hpairs, hlast⟩
  have hlength := @length_eq dominant src
  have hcount : (runs dominant src 0).1.length + (lastDistance (runs dominant src 0).2).length =
      (computeEncodeInfo src dominant).numDistances := by
    rw [computeEncodeInfo_eq, lastDistance]
    split <;> rfl
  have hsum : (runs dominant src 0).1.length +
      ((runs dominant src 0).1.map Prod.fst ++ lastDistance (runs dominant src 0).2).sum =
        src.length := by
    rw [List.sum_append, sum_lastDistance, ← hlength, sum_map_succ]
    omega
  have hsrc : src.length ≤ SIZE_MAX :=
    Nat.le_of_lt_succ (Nat.lt_of_le_of_lt
      (Nat.le_mul_of_pos_right _ (pos_of_validValueWidth hwidth)) hsize)
  refine ⟨_, _, encode_eq hwidth hdominant src, ?_, ?_, ?_, ?_, ?_⟩
  · rw [List.length_append, List.length_map, hcount]
  · rw [List.length_map, computeEncodeInfo_eq]
  · intro d hd
    rw [computeEncodeInfo_eq]
    refine lt_of_distanceWidthOf ?_ hle
    rcases List.mem_append.1 hd with hd | hd
    · obtain ⟨p, hp, rfl⟩ := List.mem_map.1 hd
      exact Nat.le_trans (hmax p hp) (Nat.le_max_left _ _)
    · rw [eq_of_mem_lastDistance hd]
      exact Nat.le_max_right _ _
  · rw [List.length_map, decodeOutputCount_eq (by omega), hsum]
  · have hdistance : validDistanceWidth (computeEncodeInfo src dominant).distanceWidth = true := by
      rw [computeEncodeInfo_eq]
      exact validDistanceWidth_distanceWidthOf _
    rw [decode_body hwidth hdistance ?_, decodeBody_runs hwidth hdominant]
    rw [List.length_append, List.length_map, List.length_map, lastDistance]
    split
    · exact Or.inl rfl
    · rename_i hrun
      refine Or.inr ⟨?_, rfl⟩
      have hpos := sum_map_succ (runs dominant src 0).1
      omega

theorem decode_encode_three :
    ∃ distances values,
      encode [0, 7, 0] 1 (computeEncodeInfo [0, 7, 0] 0).distanceWidth 0 =
        some (distances, values) ∧
      distances.length = (computeEncodeInfo [0, 7, 0] 0).numDistances ∧
      values.length = (computeEncodeInfo [0, 7, 0] 0).numValues ∧
      (∀ d ∈ distances, d < 2 ^ (8 * (computeEncodeInfo [0, 7, 0] 0).distanceWidth)) ∧
      decodeOutputCount distances values.length = [0, 7, 0].length ∧
      decode ([0, 7, 0].length * 1) distances (computeEncodeInfo [0, 7, 0] 0).distanceWidth
        0 values 1 = some [0, 7, 0] :=
  decode_encode [0, 7, 0] rfl (by decide) (by decide)

end OpenZL.Codecs.SparseNum
