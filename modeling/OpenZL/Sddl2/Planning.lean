import OpenZL.Sddl2.Planner

/-!
# Planned chunks lose nothing

The planner reserves a range of numbers for the fields of each segment, in the order of the
segments, and hands over with each chunk the first number of its first slice.  A chunk holds
slices of consecutive segments, so that counting from there gives each field its own number.

Principal results: `Standing.append`, `Standing.flush`, `Standing.planSlices`, `Planned.segment`,
`Planned.run`, `yields_planSegmentChunks`.
-/

namespace OpenZL.Sddl2

open OpenZL.Lib OpenZL.Lib.Cmd

/-- The streams that a segment of a type gives rise to. -/
def fieldCount (type : Ty) : Nat := (tryCountPrimitiveFields type).getD 0

/-- Where a segment may be cut. -/
def splitUnit : Ty → Nat
  | .struct _ _ total _ => total
  | .primitive kind _ => kindSize kind

/-- The first of the numbers reserved for the fields of segment `k`. -/
def reservedId (segments : List Segment) (k : Nat) : Nat :=
  ((segments.take k).map fun seg => fieldCount seg.type).sum

/-- The segments that the planner accepts: they cover the input, each has fields, their fields can
be numbered, and those that must be cut are made of whole units, none larger than the limit. -/
structure Plannable (segments : List Segment) (inputSize limit : Nat) : Prop where
  covers : (segments.map Segment.sizeBytes).sum = inputSize
  input_le : inputSize ≤ SIZE_MAX
  limit_le : limit ≤ SIZE_MAX
  unit_le : ∀ seg ∈ segments, splitUnit seg.type ≤ limit
  aligned : ∀ seg ∈ segments, limit < seg.sizeBytes → splitUnit seg.type ∣ seg.sizeBytes
  counted : ∀ seg ∈ segments, fieldCount seg.type ≠ 0
  numbered : reservedId segments segments.length ≤ INT_MAX

/-- The slices, each with its segment, are the segments in order: each is one slice, or several of
whole units. -/
inductive Cut : List Segment → List (ReplaySegment × Nat) → Prop
  | nil : Cut [] []
  | snoc {segments : List Segment} {slices : List (ReplaySegment × Nat)} {seg : Segment}
      {parts : List ReplaySegment} :
    Cut segments slices → parts ≠ [] → (∀ part ∈ parts, part.type = seg.type) →
      (parts.map ReplaySegment.sizeBytes).sum = seg.sizeBytes →
      (1 < parts.length → ∀ part ∈ parts, splitUnit seg.type ∣ part.sizeBytes) →
      Cut (segments ++ [seg]) (slices ++ parts.map fun part => (part, segments.length))

/-! ## Runs of cuts -/

/-- `chunk` holds slices of the segments from `first` on. -/
structure Run (segments : List Segment) (limit first : Nat) (chunk : ReplayChunk) : Prop where
  bytes_eq : chunk.bytes = (chunk.segments.map ReplaySegment.sizeBytes).sum
  bytes_le : chunk.bytes ≤ limit
  inside : first + chunk.segments.length ≤ segments.length
  start : chunk.segments ≠ [] → chunk.startStreamId = reservedId segments first
  types : ∀ i slice, chunk.segments[i]? = some slice →
    segments[first + i]?.map Segment.type = some slice.type

/-- The slices of a chunk, with their segments. -/
def owned (chunk : Nat × ReplayChunk) : List (ReplaySegment × Nat) :=
  chunk.2.segments.zipIdx chunk.1

/-- The chunk that is being filled. -/
def ChunkPlanner.current (p : ChunkPlanner) : ReplayChunk :=
  ⟨p.chunk.segments, p.chunk.bytes, p.chunk.startStreamId⟩

/-- The planner has handed over, or holds, these slices; the next one belongs to segment `k`. -/
structure Standing (segments : List Segment) (limit k : Nat) (p : ChunkPlanner)
    (slices : List (ReplaySegment × Nat)) : Prop where
  limit_eq : p.chunkSizeLimit = limit
  capacity : p.chunk.capacity = segments.length
  emitted : ∃ (firsts : List Nat) (first : Nat), firsts.length = p.chunks.length ∧
    (∀ chunk ∈ firsts.zip p.chunks, Run segments limit chunk.1 chunk.2) ∧
    first + p.chunk.segments.length = k ∧ Run segments limit first p.current ∧
    slices = (firsts.zip p.chunks).flatMap owned ++ owned (first, p.current)

/-- The parts of the planner that cutting does not touch. -/
def SameCounts (p p' : ChunkPlanner) : Prop :=
  p'.remainingInputBytes = p.remainingInputBytes ∧ p'.nextStreamId = p.nextStreamId

variable {segments : List Segment} {limit k : Nat} {p : ChunkPlanner}
  {slices : List (ReplaySegment × Nat)} {seg : Segment}

theorem reservedId_succ (hk : segments[k]? = some seg) :
    reservedId segments (k + 1) = reservedId segments k + fieldCount seg.type := by
  unfold reservedId
  rw [List.take_add_one, hk]
  simp

theorem reservedId_mono {i j : Nat} (h : i ≤ j) : reservedId segments i ≤ reservedId segments j := by
  unfold reservedId
  obtain ⟨d, rfl⟩ := Nat.exists_eq_add_of_le h
  rw [List.take_add, List.map_append, List.sum_append]
  exact Nat.le_add_right _ _

theorem Plannable.reserved_le {inputSize : Nat} (h : Plannable segments inputSize limit)
    (hk : k ≤ segments.length) : reservedId segments k ≤ INT_MAX :=
  Nat.le_trans (reservedId_mono hk) h.numbered

theorem Run.snoc {first : Nat} {chunk : ReplayChunk} (h : Run segments limit first chunk)
    (hseg : segments[first + chunk.segments.length]? = some seg) {sliceBytes : Nat}
    (hfit : chunk.bytes + sliceBytes ≤ limit) {startStreamId : Nat}
    (hstart : startStreamId = reservedId segments first) :
    Run segments limit first
      ⟨chunk.segments ++ [⟨sliceBytes, seg.type⟩], chunk.bytes + sliceBytes, startStreamId⟩ where
  bytes_eq := by
    rw [List.map_append, List.sum_append, h.bytes_eq]
    simp
  bytes_le := hfit
  inside := by
    have hlt := (List.getElem?_eq_some_iff.1 hseg).1
    rw [List.length_append]
    simp only [List.length_singleton]
    omega
  start := fun _ => hstart
  types := by
    intro i slice hi
    by_cases hlt : i < chunk.segments.length
    · rw [List.getElem?_append_left hlt] at hi
      exact h.types i slice hi
    · have hlen : i < (chunk.segments ++ [(⟨sliceBytes, seg.type⟩ : ReplaySegment)]).length :=
        (List.getElem?_eq_some_iff.1 hi).1
      have hi' : i = chunk.segments.length := by
        rw [List.length_append] at hlen
        simp only [List.length_singleton] at hlen
        omega
      subst hi'
      rw [List.getElem?_concat_length] at hi
      cases hi
      rw [hseg]
      rfl

theorem owned_snoc (first : Nat) (chunk : ReplayChunk) (slice : ReplaySegment)
    (bytes startStreamId : Nat) :
    owned (first, ⟨chunk.segments ++ [slice], bytes, startStreamId⟩) =
      owned (first, chunk) ++ [(slice, first + chunk.segments.length)] := by
  unfold owned
  rw [List.zipIdx_append]
  simp

section

variable (hp : Standing segments limit k p slices)

include hp

theorem Standing.append (hk : segments[k]? = some seg) {sliceBytes : Nat}
    (hlimit : limit ≤ SIZE_MAX) (hfit : p.chunk.bytes + sliceBytes ≤ limit) :
    Yields (appendChunkReplaySlice (reservedId segments k) seg.type sliceBytes) p fun r p' =>
      r = .ok () ∧ Standing segments limit (k + 1) p' (slices ++ [(⟨sliceBytes, seg.type⟩, k)]) ∧
        SameCounts p p' ∧ p'.chunk.bytes = p.chunk.bytes + sliceBytes := by
  obtain ⟨hlimit_eq, hcapacity, firsts, first, hlength, hruns, hfirst, hrun, hslices⟩ := hp
  have hlt : k < segments.length := (List.getElem?_eq_some_iff.1 hk).1
  unfold appendChunkReplaySlice
  refine yields_get_bind (yields_failWhen_bind (by omega) (yields_modify_bind ?_))
  refine yields_failWhen_bind (by omega) (yields_modify ⟨rfl, ?_⟩)
  have hnext : ∀ bytes startStreamId, slices ++ [(⟨sliceBytes, seg.type⟩, k)] =
      (firsts.zip p.chunks).flatMap owned ++ owned (first,
        ⟨p.current.segments ++ [⟨sliceBytes, seg.type⟩], bytes, startStreamId⟩) := by
    intro bytes startStreamId
    rw [hslices, owned_snoc, ← hfirst, List.append_assoc]
    rfl
  by_cases hempty : p.chunk.segments.length = 0
  · rw [if_pos hempty]
    refine ⟨⟨hlimit_eq, hcapacity, firsts, first, hlength, hruns, ?_, ?_, ?_⟩, ⟨rfl, rfl⟩, rfl⟩
    · change first + (p.chunk.segments ++ [_]).length = k + 1
      rw [List.length_append, List.length_singleton]
      omega
    · refine hrun.snoc (hfirst ▸ hk) hfit ?_
      rw [← hfirst, hempty, Nat.add_zero]
    · exact hnext _ _
  · rw [if_neg hempty]
    refine ⟨⟨hlimit_eq, hcapacity, firsts, first, hlength, hruns, ?_, ?_, ?_⟩, ⟨rfl, rfl⟩, rfl⟩
    · change first + (p.chunk.segments ++ [_]).length = k + 1
      rw [List.length_append, List.length_singleton]
      omega
    · refine hrun.snoc (hfirst ▸ hk) hfit (hrun.start ?_)
      exact fun h => hempty (congrArg List.length h)
    · exact hnext _ _

theorem Standing.congr {p' : ChunkPlanner} (hlimit : p'.chunkSizeLimit = p.chunkSizeLimit)
    (hchunk : p'.chunk = p.chunk) (hchunks : p'.chunks = p.chunks) :
    Standing segments limit k p' slices := by
  obtain ⟨hlimit_eq, hcapacity, hemitted⟩ := hp
  refine ⟨hlimit.trans hlimit_eq, hchunk ▸ hcapacity, ?_⟩
  unfold ChunkPlanner.current at hemitted ⊢
  rw [hchunk, hchunks]
  exact hemitted

theorem Standing.move (hempty : p.chunk.segments = []) {j : Nat} (hj : j ≤ segments.length) :
    Standing segments limit j p slices := by
  obtain ⟨hlimit_eq, hcapacity, firsts, first, hlength, hruns, hfirst, hrun, hslices⟩ := hp
  refine ⟨hlimit_eq, hcapacity, firsts, j, hlength, hruns, ?_, ?_, ?_⟩
  · rw [hempty]
    rfl
  · exact
      { bytes_eq := hrun.bytes_eq
        bytes_le := hrun.bytes_le
        inside := by
          change j + p.chunk.segments.length ≤ _
          rw [hempty]
          exact hj
        start := fun h => absurd hempty h
        types := fun i slice hi => by
          change p.chunk.segments[i]? = some slice at hi
          rw [hempty] at hi
          cases hi }
  · rw [hslices]
    unfold owned ChunkPlanner.current
    rw [hempty]
    rfl

end

/-! ## Slices -/

/-- The environment refused a chunk. -/
def Refused (process : ReplayChunk → Option ErrorCode) (r : Except ErrorCode Unit) : Prop :=
  ∀ e, r = .error e → ∃ chunk, process chunk = some e

section process

variable {process : ReplayChunk → Option ErrorCode} {inputSize : Nat}

theorem Standing.flush (hplan : Plannable segments inputSize limit)
    (hp : Standing segments limit k p slices) :
    Yields (flushChunkSegments process) p fun r p' =>
      Refused process r ∧ (r = .ok () → Standing segments limit k p' slices ∧ SameCounts p p' ∧
        p'.chunk.segments = [] ∧ p'.chunk.bytes = 0) := by
  obtain ⟨hlimit_eq, hcapacity, firsts, first, hlength, hruns, hfirst, hrun, hslices⟩ := id hp
  refine yields_get_bind ?_
  by_cases hempty : p.chunk.segments.length = 0
  · rw [if_pos hempty]
    have hnil : p.chunk.segments = [] := List.eq_nil_of_length_eq_zero hempty
    refine yields_pure ⟨fun e h => (nomatch h), fun _ => ⟨hp, ⟨rfl, rfl⟩, hnil, ?_⟩⟩
    have hbytes := hrun.bytes_eq
    change p.chunk.bytes = (p.chunk.segments.map _).sum at hbytes
    rw [hbytes, hnil]
    rfl
  · rw [if_neg hempty]
    have hne : p.chunk.segments ≠ [] := fun h => hempty (congrArg List.length h)
    have hid : p.chunk.startStreamId ≤ INT_MAX := by
      have hinside := hrun.inside
      have hstart : p.chunk.startStreamId = reservedId segments first := hrun.start hne
      rw [hstart]
      exact hplan.reserved_le (by omega)
    refine yields_bind (yields_failWhen_bind (Nat.not_lt.2 hid) ?_)
    cases hprocess : process ⟨p.chunk.segments, p.chunk.bytes, p.chunk.startStreamId⟩ with
    | some e =>
      refine yields_fail ⟨fun e' he => ?_, fun _ h => (nomatch h)⟩
      cases he
      exact ⟨fun e' he => by cases he; exact ⟨_, hprocess⟩, fun h => (nomatch h)⟩
    | none =>
      refine yields_modify ⟨fun _ h => (nomatch h), fun _ _ => yields_modify ?_⟩
      refine ⟨fun e h => (nomatch h), fun _ => ⟨?_, ⟨rfl, rfl⟩, rfl, rfl⟩⟩
      have hzip : (firsts ++ [first]).zip (p.chunks ++ [p.current]) =
          firsts.zip p.chunks ++ [(first, p.current)] := List.zip_append hlength
      refine ⟨hlimit_eq, hcapacity, firsts ++ [first], k, ?_, ?_, rfl, ?_, ?_⟩
      · change (firsts ++ [first]).length = (p.chunks ++ [_]).length
        rw [List.length_append, List.length_append, hlength]
        rfl
      · intro chunk hchunk
        change chunk ∈ (firsts ++ [first]).zip (p.chunks ++ [p.current]) at hchunk
        rw [hzip, List.mem_append, List.mem_singleton] at hchunk
        rcases hchunk with hchunk | rfl
        · exact hruns chunk hchunk
        · exact hrun
      · exact
          { bytes_eq := rfl
            bytes_le := Nat.zero_le _
            inside := by
              have hinside := hrun.inside
              change first + p.chunk.segments.length ≤ _ at hinside
              change k + 0 ≤ _
              omega
            start := fun h => absurd rfl h
            types := fun i slice hi => by cases hi }
      · change slices = ((firsts ++ [first]).zip (p.chunks ++ [p.current])).flatMap owned ++ []
        rw [hzip, List.flatMap_append, List.append_nil, hslices]
        simp

theorem planSlices_succ (type : Ty) (segmentStreamId maxSliceBytes fuel n : Nat) :
    planSlices process type segmentStreamId maxSliceBytes (fuel + 1) (n + 1) = (do
      appendChunkReplaySlice segmentStreamId type (min (n + 1) maxSliceBytes)
      if n + 1 - min (n + 1) maxSliceBytes > 0 then do
        flushChunkSegments process
        planSlices process type segmentStreamId maxSliceBytes fuel
          (n + 1 - min (n + 1) maxSliceBytes)
      else pure ()) := rfl

theorem Standing.planSlices (hplan : Plannable segments inputSize limit)
    (hk : segments[k]? = some seg) {maxSliceBytes : Nat}
    (hunit : splitUnit seg.type ∣ maxSliceBytes) (hpos : 0 < maxSliceBytes)
    (hmax : maxSliceBytes ≤ limit) {fuel remaining : Nat} (hp : Standing segments limit k p slices)
    (hempty : p.chunk.segments = []) (hbytes : p.chunk.bytes = 0) (hfuel : remaining ≤ fuel)
    (h0 : 0 < remaining) (hdvd : splitUnit seg.type ∣ remaining) :
    Yields (planSlices process seg.type (reservedId segments k) maxSliceBytes fuel remaining) p
      fun r p' => Refused process r ∧ (r = .ok () → ∃ parts : List ReplaySegment,
        Standing segments limit (k + 1) p' (slices ++ parts.map fun part => (part, k)) ∧
        SameCounts p p' ∧ p'.chunk.bytes ≤ remaining ∧ parts ≠ [] ∧
        (∀ part ∈ parts, part.type = seg.type ∧ splitUnit seg.type ∣ part.sizeBytes) ∧
        (parts.map ReplaySegment.sizeBytes).sum = remaining) := by
  have hk_le : k ≤ segments.length := Nat.le_of_lt (List.getElem?_eq_some_iff.1 hk).1
  induction fuel generalizing remaining p slices with
  | zero => omega
  | succ fuel ih =>
    obtain ⟨n, rfl⟩ : ∃ n, remaining = n + 1 := ⟨remaining - 1, by omega⟩
    have hslice : splitUnit seg.type ∣ min (n + 1) maxSliceBytes := by
      rw [Nat.min_def]
      split
      · exact hdvd
      · exact hunit
    have hsize : min (n + 1) maxSliceBytes ≤ n + 1 := Nat.min_le_left _ _
    have hsize' : min (n + 1) maxSliceBytes ≤ maxSliceBytes := Nat.min_le_right _ _
    have hsize0 : 0 < min (n + 1) maxSliceBytes := Nat.lt_min.2 ⟨h0, hpos⟩
    rw [planSlices_succ]
    generalize min (n + 1) maxSliceBytes = sliceBytes at *
    refine yields_bind ((hp.append hk hplan.limit_le (by omega)).mono ?_)
    rintro r t ⟨rfl, ht, hsame, htbytes⟩
    refine ⟨fun e h => (nomatch h), fun _ _ => ?_⟩
    by_cases hrest : n + 1 - sliceBytes > 0
    · rw [if_pos hrest]
      refine yields_bind ((ht.flush hplan).mono ?_)
      rintro r u ⟨hrefused, hok⟩
      refine ⟨fun e he => ⟨he ▸ hrefused, fun h => (nomatch h)⟩, fun _ hr => ?_⟩
      obtain ⟨hu, hsame', huempty, hubytes⟩ := hok hr
      refine (ih (hu.move huempty hk_le) huempty hubytes (by omega) hrest
        (Nat.dvd_sub hdvd hslice)).mono ?_
      rintro r v ⟨hrefused, hok⟩
      refine ⟨hrefused, fun hr => ?_⟩
      obtain ⟨parts, hv, hsame'', hvbytes, -, hparts, hsum⟩ := hok hr
      refine ⟨⟨sliceBytes, seg.type⟩ :: parts, ?_, ?_, by omega, by simp, ?_, ?_⟩
      · rw [List.append_assoc] at hv
        exact hv
      · exact ⟨hsame''.1.trans (hsame'.1.trans hsame.1), hsame''.2.trans (hsame'.2.trans hsame.2)⟩
      · intro part hpart
        rcases List.mem_cons.1 hpart with rfl | hpart
        · exact ⟨rfl, hslice⟩
        · exact hparts part hpart
      · rw [List.map_cons, List.sum_cons, hsum]
        change sliceBytes + _ = _
        omega
    · rw [if_neg hrest]
      have hall : sliceBytes = n + 1 := by omega
      subst hall
      refine yields_pure ⟨fun e h => (nomatch h), fun _ => ⟨[⟨n + 1, seg.type⟩], ht, hsame, ?_⟩⟩
      refine ⟨by omega, by simp, ?_, by simp⟩
      intro part hpart
      rw [List.mem_singleton.1 hpart]
      exact ⟨rfl, hslice⟩

/-! ## Segments -/

/-- The first `k` segments are planned. -/
structure Planned (segments : List Segment) (inputSize limit k : Nat) (p : ChunkPlanner)
    (slices : List (ReplaySegment × Nat)) : Prop where
  standing : Standing segments limit k p slices
  cut : Cut (segments.take k) slices
  next : p.nextStreamId = reservedId segments k
  remaining : p.remainingInputBytes = ((segments.drop k).map Segment.sizeBytes).sum
  bytes_le : p.chunk.bytes + p.remainingInputBytes ≤ inputSize

theorem yields_reserveSegmentStreamId {type : Ty} (hcount : fieldCount type ≠ 0)
    (hle : p.nextStreamId + fieldCount type ≤ INT_MAX) :
    Yields (reserveSegmentStreamId type) p fun r p' =>
      r = .ok p.nextStreamId ∧
        p' = { p with nextStreamId := p.nextStreamId + fieldCount type } := by
  obtain ⟨n, hn⟩ : ∃ n, tryCountPrimitiveFields type = some n := by
    cases h : tryCountPrimitiveFields type with
    | none => exact absurd (congrArg (Option.getD · 0) h) hcount
    | some n => exact ⟨n, rfl⟩
  have hfield : fieldCount type = n := congrArg (Option.getD · 0) hn
  rw [hfield] at hcount hle ⊢
  unfold reserveSegmentStreamId
  rw [hn]
  refine yields_failWhen_bind hcount (yields_failWhen_bind (by omega) (yields_get_bind ?_))
  exact yields_failWhen_bind (by omega) (yields_modify_bind (yields_pure ⟨rfl, rfl⟩))

theorem yields_getChunkSplitUnitSize {type : Ty} (hpos : 0 < splitUnit type) :
    Yields (getChunkSplitUnitSize type) p fun r p' => r = .ok (splitUnit type) ∧ p' = p := by
  cases type with
  | primitive kind width => exact yields_pure ⟨rfl, rfl⟩
  | struct structData members total width =>
    exact yields_failWhen_bind (Nat.pos_iff_ne_zero.1 hpos) (yields_pure ⟨rfl, rfl⟩)

theorem Cut.planned (hcut : Cut (segments.take k) slices) (hk : segments[k]? = some seg)
    {parts : List ReplaySegment} (hne : parts ≠ []) (htypes : ∀ part ∈ parts, part.type = seg.type)
    (hsum : (parts.map ReplaySegment.sizeBytes).sum = seg.sizeBytes)
    (hunits : 1 < parts.length → ∀ part ∈ parts, splitUnit seg.type ∣ part.sizeBytes) :
    Cut (segments.take (k + 1)) (slices ++ parts.map fun part => (part, k)) := by
  have hlength : (segments.take k).length = k := by
    have := (List.getElem?_eq_some_iff.1 hk).1
    rw [List.length_take]
    omega
  have h := hcut.snoc hne htypes hsum hunits
  rw [hlength] at h
  rw [List.take_add_one, hk]
  exact h

section

variable (hplan : Plannable segments inputSize limit)

include hplan

theorem Standing.wholeSegment (hk : segments[k]? = some seg)
    (hp : Standing segments limit k p slices) (hsize : limit = SIZE_MAX ∨ seg.sizeBytes ≤ limit)
    (hbytes : p.chunk.bytes + seg.sizeBytes ≤ inputSize) :
    Yields (planWholeSegment process seg (reservedId segments k)) p fun r p' =>
      Refused process r ∧ (r = .ok () →
        Standing segments limit (k + 1) p' (slices ++ [(⟨seg.sizeBytes, seg.type⟩, k)]) ∧
        SameCounts p p' ∧ p'.chunk.bytes ≤ p.chunk.bytes + seg.sizeBytes) := by
  have hinput := hplan.input_le
  have hlimit := hp.limit_eq
  refine yields_get_bind ?_
  by_cases hexceeds : wouldExceedChunk p seg
  · rw [if_pos hexceeds]
    have hle : seg.sizeBytes ≤ limit := hsize.resolve_left (hlimit ▸ hexceeds.2.1)
    refine yields_bind ((hp.flush hplan).mono ?_)
    rintro r t ⟨hrefused, hok⟩
    refine ⟨fun e he => ⟨he ▸ hrefused, fun h => (nomatch h)⟩, fun _ hr => ?_⟩
    obtain ⟨ht, hsame, -, htbytes⟩ := hok hr
    refine (ht.append hk hplan.limit_le (by omega)).mono ?_
    rintro r u ⟨rfl, hu, hsame', hubytes⟩
    refine ⟨fun e h => (nomatch h), fun _ => ⟨hu, ?_, by omega⟩⟩
    exact ⟨hsame'.1.trans hsame.1, hsame'.2.trans hsame.2⟩
  · rw [if_neg hexceeds]
    have hfit : p.chunk.bytes + seg.sizeBytes ≤ limit := by
      by_cases hmax : limit = SIZE_MAX
      · omega
      · have hle := hsize.resolve_left hmax
        by_cases hempty : p.chunk.segments.length = 0
        · obtain ⟨-, -, firsts, first, -, -, -, hrun, -⟩ := hp
          have hbytes : p.chunk.bytes = (p.chunk.segments.map _).sum := hrun.bytes_eq
          rw [List.eq_nil_of_length_eq_zero hempty] at hbytes
          change p.chunk.bytes = 0 at hbytes
          omega
        · unfold wouldExceedChunk at hexceeds
          omega
    refine (hp.append hk hplan.limit_le hfit).mono ?_
    rintro r u ⟨rfl, hu, hsame, hubytes⟩
    exact ⟨fun e h => (nomatch h), fun _ => ⟨hu, hsame, by omega⟩⟩

theorem Standing.splitSegment (hk : segments[k]? = some seg)
    (hp : Standing segments limit k p slices) (hempty : p.chunk.segments = [])
    (hbytes : p.chunk.bytes = 0) (hsize : limit < seg.sizeBytes) :
    Yields (planSplitSegmentChunks process seg (reservedId segments k)) p fun r p' =>
      Refused process r ∧ (r = .ok () → ∃ parts : List ReplaySegment,
        Standing segments limit (k + 1) p' (slices ++ parts.map fun part => (part, k)) ∧
        SameCounts p p' ∧ p'.chunk.bytes ≤ seg.sizeBytes ∧ parts ≠ [] ∧
        (∀ part ∈ parts, part.type = seg.type ∧ splitUnit seg.type ∣ part.sizeBytes) ∧
        (parts.map ReplaySegment.sizeBytes).sum = seg.sizeBytes) := by
  have hmem : seg ∈ segments := List.mem_of_getElem? hk
  have hdvd := hplan.aligned seg hmem hsize
  have hunit := hplan.unit_le seg hmem
  have hpos : 0 < splitUnit seg.type := by
    rcases Nat.eq_zero_or_pos (splitUnit seg.type) with h | h
    · rw [h] at hdvd
      have := Nat.eq_zero_of_zero_dvd hdvd
      omega
    · exact h
  unfold planSplitSegmentChunks
  refine yields_bind ((yields_getChunkSplitUnitSize hpos).mono ?_)
  rintro r t ⟨rfl, rfl⟩
  refine ⟨fun e h => (nomatch h), fun elementBytes helement => ?_⟩
  cases helement
  refine yields_failWhen_bind (by simp [Nat.mod_eq_zero_of_dvd hdvd]) (yields_get_bind ?_)
  rw [hp.limit_eq]
  refine yields_failWhen_bind (by omega) ?_
  refine hp.planSlices hplan hk (Nat.dvd_mul_left _ _) ?_ (Nat.div_mul_le_self _ _) hempty hbytes
    (Nat.le_refl _) (by omega) hdvd
  exact Nat.mul_pos (Nat.div_pos hunit hpos) hpos

theorem Planned.segment (hk : segments[k]? = some seg)
    (hp : Planned segments inputSize limit k p slices) :
    Yields (planSegmentChunk process seg) p fun r p' =>
      Refused process r ∧ (r = .ok () →
        ∃ slices, Planned segments inputSize limit (k + 1) p' slices) := by
  have hlt : k < segments.length := (List.getElem?_eq_some_iff.1 hk).1
  have hmem : seg ∈ segments := List.mem_of_getElem? hk
  have hnext := reservedId_succ hk
  have hreserved := hplan.reserved_le (k := k + 1) hlt
  have hbytes := hp.bytes_le
  have hremaining : p.remainingInputBytes =
      seg.sizeBytes + ((segments.drop (k + 1)).map Segment.sizeBytes).sum := by
    rw [hp.remaining, List.drop_eq_getElem_cons hlt, (List.getElem?_eq_some_iff.1 hk).2]
    rfl
  unfold planSegmentChunk
  refine yields_get_bind (yields_failWhen_bind (by omega) (yields_modify_bind ?_))
  refine yields_bind ((yields_reserveSegmentStreamId (hplan.counted seg hmem) ?_).mono ?_)
  · change p.nextStreamId + _ ≤ _
    rw [hp.next]
    omega
  rintro r t ⟨rfl, ht⟩
  refine ⟨fun e h => (nomatch h), fun segmentStreamId hid => ?_⟩
  cases hid
  have hstanding : Standing segments limit k t slices :=
    hp.standing.congr (by rw [ht]) (by rw [ht]) (by rw [ht])
  have htnext : t.nextStreamId = reservedId segments (k + 1) := by
    rw [ht, hnext, ← hp.next]
  have htrest : t.remainingInputBytes = p.remainingInputBytes - seg.sizeBytes := by rw [ht]
  have htbytes : t.chunk.bytes = p.chunk.bytes := by rw [ht]
  change Yields (if _ then planWholeSegment process seg p.nextStreamId else
    flushChunkSegments process >>= fun _ => planSplitSegmentChunks process seg p.nextStreamId) _ _
  rw [hp.next, hp.standing.limit_eq]
  by_cases hsize : limit = SIZE_MAX ∨ seg.sizeBytes ≤ limit
  · rw [if_pos hsize]
    refine (hstanding.wholeSegment hplan hk hsize (by omega)).mono ?_
    rintro r u ⟨hrefused, hok⟩
    refine ⟨hrefused, fun hr => ?_⟩
    obtain ⟨hu, ⟨hrest, hid⟩, hubytes⟩ := hok hr
    refine ⟨_, hu, ?_, hid.trans htnext, by omega, by omega⟩
    have hparts : ∀ part ∈ [(⟨seg.sizeBytes, seg.type⟩ : ReplaySegment)], part.type = seg.type := by
      simp
    exact hp.cut.planned hk (by simp) hparts (by simp) (by simp)
  · rw [if_neg hsize]
    rw [not_or, Nat.not_le] at hsize
    refine yields_bind ((hstanding.flush hplan).mono ?_)
    rintro r u ⟨hrefused, hok⟩
    refine ⟨fun e he => ⟨he ▸ hrefused, fun h => (nomatch h)⟩, fun _ hr => ?_⟩
    obtain ⟨hu, ⟨hrest, hid⟩, huempty, hubytes⟩ := hok hr
    refine (hu.splitSegment hplan hk huempty hubytes hsize.2).mono ?_
    rintro r v ⟨hrefused, hok⟩
    refine ⟨hrefused, fun hr => ?_⟩
    obtain ⟨parts, hv, ⟨hrest', hid'⟩, hvbytes, hne, hparts, hsum⟩ := hok hr
    refine ⟨_, hv, ?_, hid'.trans (hid.trans htnext), by omega, by omega⟩
    exact hp.cut.planned hk hne (fun part hpart => (hparts part hpart).1) hsum
      fun _ part hpart => (hparts part hpart).2

theorem Planned.run {rest : List Segment} (hrest : segments.drop k = rest)
    (hk : k ≤ segments.length) (hp : Planned segments inputSize limit k p slices) :
    Yields (forEach (planSegmentChunk process) rest) p fun r p' =>
      Refused process r ∧ (r = .ok () →
        ∃ slices, Planned segments inputSize limit segments.length p' slices) := by
  induction rest generalizing k p slices with
  | nil =>
    have hend : k = segments.length := Nat.le_antisymm hk (List.drop_eq_nil_iff.1 hrest)
    exact yields_pure ⟨fun e h => (nomatch h), fun _ => ⟨slices, hend ▸ hp⟩⟩
  | cons seg rest ih =>
    have hseg : segments[k]? = some seg := by
      rw [← List.head?_drop, hrest]
      rfl
    have hlt : k < segments.length := (List.getElem?_eq_some_iff.1 hseg).1
    refine yields_bind ((hp.segment hplan hseg).mono ?_)
    rintro r t ⟨hrefused, hok⟩
    refine ⟨fun e he => ⟨he ▸ hrefused, fun h => (nomatch h)⟩, fun _ hr => ?_⟩
    obtain ⟨slices', ht⟩ := hok hr
    refine ih ?_ hlt ht
    rw [← List.tail_drop, hrest]
    rfl

end

/-- What the chunks are, once all are handed over. -/
def Delivered (segments : List Segment) (limit : Nat) (chunks : List ReplayChunk) : Prop :=
  ∃ firsts : List Nat, firsts.length = chunks.length ∧
    Cut segments ((firsts.zip chunks).flatMap owned) ∧
    ∀ chunk ∈ firsts.zip chunks, Run segments limit chunk.1 chunk.2

variable (process) in
theorem yields_planSegmentChunks (hplan : Plannable segments inputSize limit) :
    ∃ r p, planSegmentChunks process segments inputSize limit = some (r, p) ∧ Refused process r ∧
      (r = .ok () → Delivered segments limit p.chunks) := by
  unfold planSegmentChunks
  by_cases hempty : segments.length = 0
  · rw [if_pos hempty]
    have hnil : segments = [] := List.eq_nil_of_length_eq_zero hempty
    have hcovers := hplan.covers
    subst hnil
    change Yields (processSegmentChunk process ⟨[], inputSize, 0⟩) _ _
    refine yields_failWhen_bind (Nat.not_lt_zero _) ?_
    cases hprocess : process ⟨[], inputSize, 0⟩ with
    | some e =>
      exact yields_fail ⟨fun e' he => by cases he; exact ⟨_, hprocess⟩, fun h => (nomatch h)⟩
    | none =>
      refine yields_modify ⟨fun e h => (nomatch h), fun _ => ⟨[0], rfl, Cut.nil, ?_⟩⟩
      intro chunk hchunk
      rw [List.mem_singleton.1 hchunk]
      exact
        { bytes_eq := hcovers.symm
          bytes_le := by
            change inputSize ≤ _
            rw [← hcovers]
            exact Nat.zero_le _
          inside := Nat.le_refl _
          start := fun h => absurd rfl h
          types := fun i slice hi => by cases hi }
  · rw [if_neg hempty]
    have hinit : Planned segments inputSize limit 0
        (.init inputSize limit segments.length) [] := by
      refine ⟨⟨rfl, rfl, [], 0, rfl, fun chunk h => (nomatch h), rfl, ?_, rfl⟩, Cut.nil, rfl, ?_, ?_⟩
      · exact
          { bytes_eq := rfl
            bytes_le := Nat.zero_le _
            inside := Nat.zero_le _
            start := fun h => absurd rfl h
            types := fun i slice hi => by cases hi }
      · exact hplan.covers.symm
      · exact Nat.le_of_eq (Nat.zero_add _)
    refine yields_bind ((hinit.run hplan List.drop_zero (Nat.zero_le _)).mono ?_)
    rintro r t ⟨hrefused, hok⟩
    refine ⟨fun e he => ⟨he ▸ hrefused, fun h => (nomatch h)⟩, fun _ hr => ?_⟩
    obtain ⟨slices, ht⟩ := hok hr
    have hrest := ht.remaining
    rw [List.drop_length] at hrest
    refine yields_get_bind (yields_failWhen_bind (not_not.2 hrest) ?_)
    refine (ht.standing.flush hplan).mono ?_
    rintro r u ⟨hrefused, hok⟩
    refine ⟨hrefused, fun hr => ?_⟩
    obtain ⟨⟨-, -, firsts, first, hlength, hruns, -, -, hslices⟩, -, huempty, -⟩ := hok hr
    have hcut := ht.cut
    rw [List.take_length, hslices, owned, ChunkPlanner.current, huempty] at hcut
    simp only [List.zipIdx_nil, List.append_nil] at hcut
    exact ⟨firsts, hlength, hcut, hruns⟩

end process

end OpenZL.Sddl2
