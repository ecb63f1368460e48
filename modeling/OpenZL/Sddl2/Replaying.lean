import OpenZL.Sddl2.Planning

/-!
# Replayed chunks keep their streams

The replay of a chunk counts the fields of its slices from the number that comes with the chunk;
empty slices and empty fields take their numbers too.

Principal results: `replayChunk_tags`, `plan_keeps_streams`.
-/

namespace OpenZL.Sddl2

open OpenZL.Lib OpenZL.Lib.Cmd

/-- The edge that is tagged and sent on: all but bytes are converted. -/
def numericEdge (edge : Edge) (kind : TypeKind) : Edge :=
  if kind = .bytes then edge else edge.output 0

/-- The tags of the fields of a structure, from an output of the split and a number on. -/
def fieldTags (edge : Edge) : Nat → Nat → List (Nat × TypeKind) → List StreamTag
  | _, _, [] => []
  | edgeIdx, next, (size, kind) :: fields =>
    if size = 0 then fieldTags edge edgeIdx (next + 1) fields
    else ⟨numericEdge (edge.output edgeIdx) kind, next⟩ ::
      fieldTags edge (edgeIdx + 1) (next + 1) fields

/-- The tags of a slice with data. -/
def typeTags (edge : Edge) (next : Nat) : Ty → List StreamTag
  | .primitive kind _ => [⟨numericEdge edge kind, next⟩]
  | type => fieldTags edge 0 next ((flattenFieldSizes type).zip (flattenFieldTypes type))

/-- The tags of some slices, from an output of the split and a number on. -/
def sliceTags : Nat → Nat → List ReplaySegment → List StreamTag
  | _, _, [] => []
  | outputIdx, next, segment :: segments =>
    if segment.sizeBytes = 0 then sliceTags outputIdx (next + fieldCount segment.type) segments
    else typeTags (Edge.input.output outputIdx) next segment.type ++
      sliceTags (outputIdx + 1) (next + fieldCount segment.type) segments

/-- `m` has an outcome; it gives these tags, in order, and takes `n` numbers; if it fails, it gives
some first ones. -/
def Gives (m : ReplayM Unit) (s : Replay) (tags : List StreamTag) (n : Nat) : Prop :=
  Yields m s fun r s' =>
    ∃ given, s'.tags = s.tags ++ given ∧ given <+: tags ∧
      (r = .ok () → given = tags ∧ s'.nextStreamId = s.nextStreamId + n)

theorem Gives.bind {m m' : ReplayM Unit} {s : Replay} {tags tags' : List StreamTag} {n n' : Nat}
    (h : Gives m s tags n)
    (h' : ∀ s', s'.nextStreamId = s.nextStreamId + n → Gives m' s' tags' n')
    {all : List StreamTag} (hall : tags ++ tags' = all) {total : Nat} (htotal : n + n' = total) :
    Gives (m >>= fun _ => m') s all total := by
  subst hall htotal
  refine yields_bind (h.mono ?_)
  rintro r t ⟨given, htags, hpre, hok⟩
  constructor
  · rintro e rfl
    exact ⟨given, htags, hpre.trans (List.prefix_append _ _), fun h => (nomatch h)⟩
  · rintro _ rfl
    obtain ⟨rfl, hnext⟩ := hok rfl
    refine (h' t hnext).mono ?_
    rintro r u ⟨given', hutags, hpre, hok⟩
    refine ⟨given ++ given', ?_, (List.prefix_append_right_inj _).2 hpre, fun hr => ?_⟩
    · rw [hutags, htags, List.append_assoc]
    · obtain ⟨rfl, hunext⟩ := hok hr
      exact ⟨rfl, by omega⟩

theorem Gives.nothing (s : Replay) : Gives (pure ()) s [] 0 :=
  yields_pure ⟨[], (List.append_nil _).symm, List.prefix_rfl, fun _ => ⟨rfl, rfl⟩⟩

theorem Gives.of_bind {α : Type} {m : ReplayM α} {f : α → ReplayM Unit} {s : Replay}
    {tags : List StreamTag} {n : Nat} {P : α → Prop}
    (hm : Yields m s fun r s' => s' = s ∧ ∀ a, r = .ok a → P a)
    (hf : ∀ a, P a → Gives (f a) s tags n) : Gives (m >>= f) s tags n := by
  refine yields_bind (hm.mono ?_)
  rintro r _ ⟨rfl, hP⟩
  refine ⟨fun e _ => ⟨[], (List.append_nil _).symm, List.nil_prefix, fun h => (nomatch h)⟩, ?_⟩
  exact fun a ha => hf a (hP a ha)

section graph

variable {graph : GraphAction → Except ErrorCode Nat} {s : Replay}

theorem yields_act (action : GraphAction) :
    Yields (act graph action) s fun _ s' => s' = s := ⟨_, _, rfl, rfl⟩

theorem gives_act (action : GraphAction) : Gives (do let _ ← act graph action) s [] 0 :=
  Gives.of_bind ((yields_act action).mono fun _ _ h => ⟨h, fun _ _ => trivial⟩)
    fun _ _ => Gives.nothing s

theorem yields_runNode (edge : Edge) (action : GraphAction) (expected : Nat) :
    Yields (runNode graph edge action expected) s fun r s' =>
      s' = s ∧ ∀ edges, r = .ok edges → edges = (List.range expected).map edge.output := by
  refine yields_ofExcept_bind (fun e _ => ⟨rfl, fun edges h => (nomatch h)⟩) fun nbEdges _ => ?_
  by_cases hnb : nbEdges = expected
  · refine yields_failWhen_bind (not_not.2 hnb) (yields_pure ⟨rfl, ?_⟩)
    rintro edges ⟨⟩
    rw [hnb]
  · exact yields_failWhen_bind_error hnb ⟨rfl, fun edges h => (nomatch h)⟩

theorem getElem?_outputs (edge : Edge) {n idx : Nat} (h : idx < n) :
    ((List.range n).map edge.output)[idx]? = some (edge.output idx) := by
  rw [List.getElem?_map, List.getElem?_range h]
  rfl

theorem gives_setNextStreamTag (edge : Edge) (hle : s.nextStreamId ≤ INT_MAX) :
    Gives (setNextStreamTag graph edge) s [⟨edge, s.nextStreamId⟩] 1 := by
  have hmod : (s.nextStreamId + 1) % 2 ^ 32 = s.nextStreamId + 1 := by
    unfold INT_MAX at hle
    omega
  refine yields_get_bind (yields_failWhen_bind (Nat.not_lt.2 hle) (yields_modify_bind ?_))
  refine yields_ofExcept_bind (fun e _ => ?_) fun _ _ => yields_modify ?_
  · exact ⟨[], (List.append_nil _).symm, List.nil_prefix, fun h => (nomatch h)⟩
  · exact ⟨_, rfl, List.prefix_rfl, fun _ => ⟨rfl, hmod⟩⟩

theorem gives_routeEdge (node : Edge → TypeKind → GraphAction) (edge : Edge) (kind : TypeKind)
    (hle : s.nextStreamId ≤ INT_MAX) :
    Gives (routeEdge graph node edge kind) s [⟨numericEdge edge kind, s.nextStreamId⟩] 1 := by
  have hconvert : Yields (convertEdge graph node edge kind) s fun r s' =>
      s' = s ∧ ∀ e, r = .ok e → e = numericEdge edge kind := by
    unfold convertEdge numericEdge
    split
    · exact yields_pure ⟨rfl, fun e h => (Except.ok.inj h).symm⟩
    · refine yields_bind ((yields_runNode edge (node edge kind) 1).mono ?_)
      rintro r _ ⟨rfl, hedges⟩
      refine ⟨fun e _ => ⟨rfl, fun e h => (nomatch h)⟩, fun edges hr => ?_⟩
      rw [hedges edges hr, getElem?_outputs edge Nat.one_pos]
      exact ⟨_, _, rfl, rfl, fun e h => (Except.ok.inj h).symm⟩
  refine Gives.of_bind hconvert ?_
  rintro _ rfl
  exact (gives_setNextStreamTag _ hle).bind (fun u _ => gives_act _) (List.append_nil _)
    (Nat.add_zero _)

theorem gives_skipStreams {n : Nat} (hle : s.nextStreamId + n ≤ INT_MAX) :
    Gives (skipStreams n) s [] n := by
  refine yields_modify ⟨[], (List.append_nil _).symm, List.prefix_rfl, fun _ => ⟨rfl, ?_⟩⟩
  change (s.nextStreamId + n % 2 ^ 32) % 2 ^ 32 = _
  unfold INT_MAX at hle
  omega

theorem gives_processFields (edge : Edge) {n : Nat} {fields : List (Nat × TypeKind)}
    {edgeIdx : Nat} (hedges : edgeIdx + fields.countP (·.1 ≠ 0) ≤ n)
    (hle : s.nextStreamId + fields.length ≤ INT_MAX) :
    Gives (processFields graph ((List.range n).map edge.output) edgeIdx fields) s
      (fieldTags edge edgeIdx s.nextStreamId fields) fields.length := by
  induction fields generalizing edgeIdx s with
  | nil => exact Gives.nothing s
  | cons sizeKind fields ih =>
    obtain ⟨size, kind⟩ := sizeKind
    rw [List.length_cons] at hle
    rw [processFields, fieldTags]
    by_cases hsize : size = 0
    · rw [List.countP_cons_of_neg (by simpa using hsize)] at hedges
      rw [if_pos hsize, if_pos hsize]
      refine (gives_skipStreams (by omega)).bind (fun t ht => ?_) (List.nil_append _)
        (Nat.add_comm _ _)
      rw [← ht]
      exact ih hedges (by omega)
    · rw [List.countP_cons_of_pos (by simpa using hsize)] at hedges
      rw [if_neg hsize, if_neg hsize]
      refine yields_expect_bind (getElem?_outputs edge (by omega)) ?_
      refine (gives_routeEdge _ _ kind (by omega)).bind (fun t ht => ?_) rfl (Nat.add_comm _ _)
      rw [← ht]
      exact ih (by omega) (by omega)

theorem yields_countPrimitiveFields (type : Ty) :
    Yields (countPrimitiveFields type) s fun r s' => s' = s ∧ ∀ n, r = .ok n → n = fieldCount type := by
  unfold countPrimitiveFields
  cases h : tryCountPrimitiveFields type with
  | none => exact yields_fail ⟨rfl, fun n hr => (nomatch hr)⟩
  | some total =>
    refine yields_pure ⟨rfl, fun n hr => ?_⟩
    cases hr
    exact (congrArg (Option.getD · 0) h).symm

theorem yields_extractFlat {α : Type} (f : Ty → List α) (type : Ty) :
    Yields (extractFlat f type) s fun r s' =>
      s' = s ∧ ∀ l, r = .ok l → l = f type ∧ l.length = fieldCount type := by
  refine yields_bind ((yields_countPrimitiveFields type).mono ?_)
  rintro r t ⟨rfl, hcount⟩
  refine ⟨fun e _ => ⟨rfl, fun l h => (nomatch h)⟩, fun total hr => ?_⟩
  by_cases hzero : total = 0
  · exact yields_failWhen_bind_error hzero ⟨rfl, fun l h => (nomatch h)⟩
  refine yields_failWhen_bind hzero ?_
  by_cases hlength : (f type).length = total
  · refine yields_failWhen_bind (not_not.2 hlength) (yields_pure ⟨rfl, fun l hl => ?_⟩)
    cases hl
    exact ⟨rfl, hlength.trans (hcount total hr)⟩
  · exact yields_failWhen_bind_error hlength ⟨rfl, fun l h => (nomatch h)⟩

theorem countP_zip {sizes : List Nat} {types : List TypeKind} (h : sizes.length = types.length) :
    (sizes.zip types).countP (·.1 ≠ 0) = sizes.countP (· ≠ 0) := by
  conv_rhs => rw [← List.map_fst_zip h.le, List.countP_map]
  rfl

theorem length_filter_pos (sizes : List Nat) :
    (sizes.filter (· > 0)).length = sizes.countP (· ≠ 0) := by
  rw [← List.countP_eq_length_filter]
  exact List.countP_congr fun size _ => by simp [Nat.pos_iff_ne_zero]

theorem gives_applyStructureSplit (edge : Edge) (type : Ty)
    (hle : s.nextStreamId + fieldCount type ≤ INT_MAX) :
    Gives (applyStructureSplit graph edge type) s (fieldTags edge 0 s.nextStreamId
      ((flattenFieldSizes type).zip (flattenFieldTypes type))) (fieldCount type) := by
  refine Gives.of_bind (yields_extractFlat flattenFieldSizes type) ?_
  rintro sizes ⟨rfl, hsizes⟩
  refine Gives.of_bind (yields_extractFlat flattenFieldTypes type) ?_
  rintro types ⟨rfl, htypes⟩
  have hsame := hsizes.trans htypes.symm
  have hlength : ((flattenFieldSizes type).zip (flattenFieldTypes type)).length =
      fieldCount type := by
    rw [List.length_zip, hsizes, htypes, Nat.min_self]
  refine yields_failWhen_bind (not_not.2 hsame) ?_
  refine Gives.of_bind (yields_runNode edge _ _) ?_
  rintro _ rfl
  rw [← hlength]
  exact gives_processFields edge (by rw [countP_zip hsame, length_filter_pos]; omega) (by omega)

theorem gives_processSegment (edge : Edge) (type : Ty)
    (hle : s.nextStreamId + fieldCount type ≤ INT_MAX) :
    Gives (processSegment graph edge type) s (typeTags edge s.nextStreamId type)
      (fieldCount type) := by
  cases type with
  | primitive kind width => exact gives_routeEdge _ edge kind (by omega)
  | struct structData members total width => exact gives_applyStructureSplit edge _ hle

/-- The numbers that the fields of some slices take. -/
def sliceFields (segments : List ReplaySegment) : Nat :=
  (segments.map fun segment => fieldCount segment.type).sum

theorem gives_replaySlices {n : Nat} {segments : List ReplaySegment} {outputIdx : Nat}
    (hedges : outputIdx + segments.countP (·.sizeBytes ≠ 0) ≤ n)
    (hle : s.nextStreamId + sliceFields segments ≤ INT_MAX) :
    Gives (replaySlices graph ((List.range n).map Edge.input.output) outputIdx segments) s
      (sliceTags outputIdx s.nextStreamId segments) (sliceFields segments) := by
  induction segments generalizing outputIdx s with
  | nil => exact Gives.nothing s
  | cons segment segments ih =>
    change s.nextStreamId + (fieldCount segment.type + sliceFields segments) ≤ INT_MAX at hle
    rw [replaySlices, sliceTags]
    by_cases hsize : segment.sizeBytes = 0
    · rw [List.countP_cons_of_neg (by simpa using hsize)] at hedges
      rw [if_pos hsize, if_pos hsize]
      refine Gives.of_bind (yields_countPrimitiveFields segment.type) ?_
      rintro _ rfl
      refine (gives_skipStreams (by omega)).bind (fun t ht => ?_) (List.nil_append _) rfl
      rw [← ht]
      exact ih hedges (by omega)
    · rw [List.countP_cons_of_pos (by simpa using hsize)] at hedges
      rw [if_neg hsize, if_neg hsize]
      refine yields_expect_bind (getElem?_outputs _ (by omega)) ?_
      refine (gives_processSegment _ segment.type (by omega)).bind (fun t ht => ?_) rfl rfl
      rw [← ht]
      exact ih (by omega) (by omega)

theorem replayChunk_tags {chunk : ReplayChunk}
    (hle : chunk.startStreamId + sliceFields chunk.segments ≤ INT_MAX ∨ chunk.segments = []) :
    ∃ r s, replayChunk graph chunk = some (r, s) ∧
      s.tags <+: sliceTags 0 chunk.startStreamId chunk.segments ∧
      (r = .ok () → s.tags = sliceTags 0 chunk.startStreamId chunk.segments) := by
  have hgives : Gives (replaySegments graph chunk.segments) ⟨chunk.startStreamId, []⟩
      (sliceTags 0 chunk.startStreamId chunk.segments) (sliceFields chunk.segments) := by
    unfold replaySegments
    split
    · rename_i hempty
      rw [List.eq_nil_of_length_eq_zero hempty]
      exact gives_act _
    · rename_i hmany
      refine Gives.of_bind (yields_runNode .input _ _) ?_
      rintro _ rfl
      refine gives_replaySlices ?_
        (hle.resolve_right fun h => hmany (List.length_eq_zero_iff.2 h))
      rw [length_filter_pos, List.countP_map]
      exact (Nat.zero_add _).le
  obtain ⟨r, s, hrun, given, htags, hpre, hok⟩ := hgives
  rw [List.nil_append] at htags
  subst htags
  exact ⟨r, s, hrun, hpre, fun hr => (hok hr).1⟩

end graph

/-! ### Which fields are tagged -/

/-- The fields of a type that data goes to. -/
def HasStream : Ty → Nat → Prop
  | .primitive _ _, j => j = 0
  | type, j => ∃ size, (flattenFieldSizes type)[j]? = some size ∧ size ≠ 0

/-- The edge of a field of a slice: the outputs of a split are those of the fields with data. -/
def fieldEdge (edge : Edge) : Ty → Nat → Edge
  | .primitive kind _, _ => numericEdge edge kind
  | type, j => numericEdge (edge.output (((flattenFieldSizes type).take j).countP (· ≠ 0)))
      ((flattenFieldTypes type).getD j .bytes)

/-- The edge of a slice: the outputs of the split are the slices with data. -/
def sliceEdge (segments : List ReplaySegment) (i : Nat) : Edge :=
  Edge.input.output ((segments.take i).countP (·.sizeBytes ≠ 0))

theorem mem_fieldTags {edge : Edge} {t : StreamTag} {fields : List (Nat × TypeKind)}
    {edgeIdx next : Nat} :
    t ∈ fieldTags edge edgeIdx next fields ↔ ∃ j size kind, fields[j]? = some (size, kind) ∧
      size ≠ 0 ∧ t = ⟨numericEdge
        (edge.output (edgeIdx + (fields.take j).countP (·.1 ≠ 0))) kind, next + j⟩ := by
  induction fields generalizing edgeIdx next with
  | nil => exact ⟨fun h => (nomatch h), fun ⟨_, _, _, h, _⟩ => (nomatch h)⟩
  | cons sizeKind fields ih =>
    obtain ⟨size, kind⟩ := sizeKind
    rw [fieldTags]
    by_cases hsize : size = 0
    · rw [if_pos hsize, ih]
      constructor
      · rintro ⟨j, size', kind', hj, hsize', rfl⟩
        refine ⟨j + 1, size', kind', hj, hsize', ?_⟩
        rw [List.take_succ_cons, List.countP_cons_of_neg (by simpa using hsize)]
        congr 1
        omega
      · rintro ⟨_ | j, size', kind', hj, hsize', rfl⟩
        · cases hj
          exact absurd hsize hsize'
        · refine ⟨j, size', kind', hj, hsize', ?_⟩
          rw [List.take_succ_cons, List.countP_cons_of_neg (by simpa using hsize)]
          congr 1
          omega
    · have hskip : ∀ j, edgeIdx + (((size, kind) :: fields).take (j + 1)).countP (·.1 ≠ 0) =
          edgeIdx + 1 + (fields.take j).countP (·.1 ≠ 0) := by
        intro j
        rw [List.take_succ_cons, List.countP_cons_of_pos (by simpa using hsize)]
        omega
      have hnext : ∀ j, next + 1 + j = next + (j + 1) := fun j => by omega
      rw [if_neg hsize, List.mem_cons, ih]
      simp only [← hskip, hnext]
      constructor
      · rintro (rfl | ⟨j, size', kind', hj⟩)
        · exact ⟨0, size, kind, rfl, hsize, rfl⟩
        · exact ⟨j + 1, size', kind', hj⟩
      · rintro ⟨_ | j, size', kind', hj, hsize', rfl⟩
        · cases hj
          exact Or.inl rfl
        · exact Or.inr ⟨j, size', kind', hj, hsize', rfl⟩

theorem mem_typeTags {edge : Edge} {next : Nat} {type : Ty} {t : StreamTag} :
    t ∈ typeTags edge next type ↔
      ∃ j, HasStream type j ∧ t = ⟨fieldEdge edge type j, next + j⟩ := by
  cases type with
  | primitive kind width =>
    exact List.mem_singleton.trans ⟨fun h => ⟨0, rfl, h⟩, fun ⟨_, h, ht⟩ => by cases h; exact ht⟩
  | struct structData members total width =>
    have hlen : (flattenFieldSizes (.struct structData members total width)).length =
        (flattenFieldTypes (.struct structData members total width)).length :=
      (flatten_length _ _).trans (flatten_length _ _).symm
    simp only [typeTags, HasStream, fieldEdge, mem_fieldTags]
    generalize flattenFieldSizes (.struct structData members total width) = sizes at hlen ⊢
    generalize flattenFieldTypes (.struct structData members total width) = types at hlen ⊢
    have hcount : ∀ j, ((sizes.zip types).take j).countP (·.1 ≠ 0) =
        (sizes.take j).countP (· ≠ 0) := by
      intro j
      rw [List.zip, List.take_zipWith]
      exact countP_zip (by rw [List.length_take, List.length_take, hlen])
    constructor
    · rintro ⟨j, size, kind, hj, hsize, rfl⟩
      obtain ⟨hsizes, htypes⟩ := List.getElem?_zip_eq_some.1 hj
      refine ⟨j, ⟨size, hsizes, hsize⟩, ?_⟩
      rw [hcount, Nat.zero_add, List.getD_eq_getElem?_getD, htypes, Option.getD_some]
    · rintro ⟨j, ⟨size, hj, hsize⟩, rfl⟩
      have hlt := (List.getElem?_eq_some_iff.1 hj).1
      refine ⟨j, size, types.getD j .bytes, List.getElem?_zip_eq_some.2 ⟨hj, ?_⟩, hsize, ?_⟩
      · rw [List.getD_eq_getElem _ _ (hlen ▸ hlt)]
        exact List.getElem?_eq_getElem _
      · rw [hcount, Nat.zero_add]

theorem mem_sliceTags {t : StreamTag} {segments : List ReplaySegment} {outputIdx next : Nat} :
    t ∈ sliceTags outputIdx next segments ↔ ∃ i slice j, segments[i]? = some slice ∧
      slice.sizeBytes ≠ 0 ∧ HasStream slice.type j ∧
      t = ⟨fieldEdge (Edge.input.output
          (outputIdx + (segments.take i).countP (·.sizeBytes ≠ 0))) slice.type j,
        next + sliceFields (segments.take i) + j⟩ := by
  induction segments generalizing outputIdx next with
  | nil => exact ⟨fun h => (nomatch h), fun ⟨_, _, _, h, _⟩ => (nomatch h)⟩
  | cons segment segments ih =>
    have hnext : ∀ i j, next + fieldCount segment.type + sliceFields (segments.take i) + j =
        next + sliceFields ((segment :: segments).take (i + 1)) + j := by
      intro i j
      change _ = next + (fieldCount segment.type + sliceFields (segments.take i)) + j
      omega
    rw [sliceTags]
    by_cases hsize : segment.sizeBytes = 0
    · rw [if_pos hsize, ih]
      simp only [hnext]
      constructor
      · rintro ⟨i, slice, j, hi, hdata, hstream, rfl⟩
        refine ⟨i + 1, slice, j, hi, hdata, hstream, ?_⟩
        rw [List.take_succ_cons, List.countP_cons_of_neg (by simpa using hsize)]
      · rintro ⟨_ | i, slice, j, hi, hdata, hstream, rfl⟩
        · cases hi
          exact absurd hsize hdata
        · refine ⟨i, slice, j, hi, hdata, hstream, ?_⟩
          rw [List.take_succ_cons, List.countP_cons_of_neg (by simpa using hsize)]
    · have hskip : ∀ i, outputIdx + ((segment :: segments).take (i + 1)).countP
          (·.sizeBytes ≠ 0) = outputIdx + 1 + (segments.take i).countP (·.sizeBytes ≠ 0) := by
        intro i
        rw [List.take_succ_cons, List.countP_cons_of_pos (by simpa using hsize)]
        omega
      rw [if_neg hsize, List.mem_append, mem_typeTags, ih]
      simp only [hnext, ← hskip]
      constructor
      · rintro (⟨j, hstream, rfl⟩ | ⟨i, slice, j, hi, hrest⟩)
        · exact ⟨0, segment, j, rfl, hsize, hstream, rfl⟩
        · exact ⟨i + 1, slice, j, hi, hrest⟩
      · rintro ⟨_ | i, slice, j, hi, hdata, hstream, rfl⟩
        · cases hi
          exact Or.inl ⟨j, hstream, rfl⟩
        · exact Or.inr ⟨i, slice, j, hi, hdata, hstream, rfl⟩

variable {segments : List Segment} {limit first : Nat} {chunk : ReplayChunk}

theorem Run.fields_eq (h : Run segments limit first chunk) {j : Nat}
    (hj : j ≤ chunk.segments.length) :
    reservedId segments first + sliceFields (chunk.segments.take j) =
      reservedId segments (first + j) := by
  induction j with
  | zero => rfl
  | succ j ih =>
    have hslice : chunk.segments[j]? = some (chunk.segments.get ⟨j, hj⟩) :=
      List.getElem?_eq_getElem hj
    obtain ⟨seg, hseg, htype⟩ := Option.map_eq_some_iff.1 (h.types j _ hslice)
    rw [← Nat.add_assoc first, reservedId_succ hseg, ← ih (Nat.le_of_succ_le hj), htype,
      List.take_add_one, hslice, sliceFields, sliceFields]
    simp only [Option.toList_some, List.map_append, List.map_cons, List.map_nil, List.sum_append,
      List.sum_cons, List.sum_nil]
    omega

/-- A tag that the replay of a chunk of slices of the segments from `first` on should give: to the
edge of a field with data, the number reserved for that field of its segment. -/
def IsTag (segments : List Segment) (first : Nat) (chunk : ReplayChunk) (t : StreamTag) : Prop :=
  ∃ i slice j, chunk.segments[i]? = some slice ∧ slice.sizeBytes ≠ 0 ∧ HasStream slice.type j ∧
    t = ⟨fieldEdge (sliceEdge chunk.segments i) slice.type j, reservedId segments (first + i) + j⟩

theorem Run.replay {inputSize : Nat} (hplan : Plannable segments inputSize limit)
    (h : Run segments limit first chunk) (graph : GraphAction → Except ErrorCode Nat) :
    ∃ r s, replayChunk graph chunk = some (r, s) ∧
      (∀ t ∈ s.tags, IsTag segments first chunk t) ∧
      (r = .ok () → ∀ t, IsTag segments first chunk t → t ∈ s.tags) := by
  have hids : ∀ i ≤ chunk.segments.length, chunk.segments ≠ [] →
      chunk.startStreamId + sliceFields (chunk.segments.take i) =
        reservedId segments (first + i) :=
    fun i hi hne => h.start hne ▸ h.fields_eq hi
  have hall : chunk.startStreamId + sliceFields chunk.segments ≤ INT_MAX ∨ chunk.segments = [] := by
    by_cases hempty : chunk.segments = []
    · exact Or.inr hempty
    · have hfields := hids _ (Nat.le_refl _) hempty
      rw [List.take_length] at hfields
      exact Or.inl (hfields ▸ hplan.reserved_le h.inside)
  have htag : ∀ t, t ∈ sliceTags 0 chunk.startStreamId chunk.segments ↔
      IsTag segments first chunk t := by
    intro t
    rw [mem_sliceTags]
    refine exists_congr fun i => exists_congr fun slice => exists_congr fun j =>
      and_congr_right fun hi => ?_
    have hlt := (List.getElem?_eq_some_iff.1 hi).1
    rw [Nat.zero_add, hids i (Nat.le_of_lt hlt) (List.ne_nil_of_length_pos (Nat.zero_lt_of_lt hlt))]
    rfl
  obtain ⟨r, s, hrun, hpre, hok⟩ := @replayChunk_tags graph chunk hall
  refine ⟨r, s, hrun, fun t ht => (htag t).1 (hpre.subset ht), fun hr t ht => ?_⟩
  rw [hok hr]
  exact (htag t).2 ht

/-- **Planning loses nothing and keeps streams apart.**  The planner ends, and fails only when the
environment refuses a chunk.  Its chunks, put together, are the segments in order, cut between
whole units; each chunk is within the limit and its slices within the buffer; and the replay of a
chunk ends and tags the edges of the fields with data, each with the number reserved for that field
of its segment: all of them if it succeeds, and no other edges. -/
theorem plan_keeps_streams {inputSize : Nat} (hplan : Plannable segments inputSize limit)
    (process : ReplayChunk → Option ErrorCode) :
    ∃ r p, planSegmentChunks process segments inputSize limit = some (r, p) ∧
      (∀ e, r = .error e → ∃ chunk, process chunk = some e) ∧
      (r = .ok () → ∃ firsts : List Nat, firsts.length = p.chunks.length ∧
        Cut segments ((firsts.zip p.chunks).flatMap owned) ∧
        ∀ first chunk, (first, chunk) ∈ firsts.zip p.chunks →
          chunk.bytes = (chunk.segments.map ReplaySegment.sizeBytes).sum ∧ chunk.bytes ≤ limit ∧
          chunk.segments.length ≤ segments.length ∧
          ∀ graph, ∃ r' s, replayChunk graph chunk = some (r', s) ∧
            (∀ t ∈ s.tags, IsTag segments first chunk t) ∧
            (r' = .ok () → ∀ t, IsTag segments first chunk t → t ∈ s.tags)) := by
  obtain ⟨r, p, hrun, hrefused, hok⟩ := yields_planSegmentChunks process hplan
  refine ⟨r, p, hrun, hrefused, fun hr => ?_⟩
  obtain ⟨firsts, hlength, hcut, hruns⟩ := hok hr
  refine ⟨firsts, hlength, hcut, fun first chunk hchunk => ?_⟩
  have hchunk : Run segments limit first chunk := hruns (first, chunk) hchunk
  have hinside := hchunk.inside
  exact ⟨hchunk.bytes_eq, hchunk.bytes_le, by omega, hchunk.replay hplan⟩

/-- Two records of a 16-bit number and a byte, an empty segment, and two bytes. -/
def threeSegments : List Segment :=
  [⟨1, 0, 6, .struct 0 [.primitive .u16le 1, .primitive .bytes 1] 3 2⟩,
   ⟨2, 6, 0, .primitive .u32le 1⟩, ⟨0, 6, 2, .primitive .bytes 1⟩]

/-- Cut into chunks of at most four bytes, no field is lost. -/
theorem plan_keeps_streams_threeSegments :
    Plannable threeSegments 8 4 ∧
      ∃ p, planSegmentChunks (fun _ => none) threeSegments 8 4 = some (.ok (), p) ∧
        ∃ firsts : List Nat, Cut threeSegments ((firsts.zip p.chunks).flatMap owned) := by
  have hplan : Plannable threeSegments 8 4 := by
    constructor
    · rfl
    · decide
    · decide
    · simp [threeSegments, splitUnit, kindSize]
    · simp [threeSegments, splitUnit, kindSize]
    · simp [threeSegments, fieldCount, tryCountPrimitiveFields, countMembers, SIZE_MAX]
    · simp [threeSegments, reservedId, fieldCount, tryCountPrimitiveFields, countMembers, SIZE_MAX,
        INT_MAX]
  obtain ⟨r, p, hrun, herror, hok⟩ := plan_keeps_streams hplan fun _ => none
  cases r with
  | error e =>
    obtain ⟨chunk, h⟩ := herror e rfl
    cases h
  | ok u =>
    obtain ⟨firsts, -, hcut, -⟩ := hok rfl
    exact ⟨hplan, p, hrun, firsts, hcut⟩

/-- A segment of five bytes cannot be cut between 32-bit numbers: the planner refuses it. -/
theorem plan_refuses_misaligned :
    ∃ p, planSegmentChunks (fun _ => none) [⟨1, 0, 5, .primitive .u32le 1⟩] 5 4 =
        some (.error .nodeParameter_invalidValue, p) ∧ p.chunks.length = 0 ∧
      splitUnit (.primitive .u32le 1) ≤ 4 :=
  ⟨_, rfl, rfl, by decide⟩

end OpenZL.Sddl2
