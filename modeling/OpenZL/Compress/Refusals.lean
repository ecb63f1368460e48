import OpenZL.Compress.EngineRuns

/-!
# Why a successor fails

In permissive mode a graph that fails is replaced, so that a successor only fails if its backup
does, which leaves the backup mode on, or if it is refused: it is too deep, or a segmenter where
none is allowed, or so small that it is stored one level below the last.

Principal results: `runSuccessor_explains`, `failed_marks`.
-/

namespace OpenZL.Compress

open OpenZL.Lib GraphCtx CCtx

variable {ρ : Type}

/-- A successor, one level below `depth`, that fails without a backup of its own. -/
def NoBackup (E : Engine ρ) (si : SuccessorInfo ρ) (depth : Nat) (g : RTGraph) : Prop :=
  isSegmenter E si.graphID = true ∧ isSegmentable E si.rtInputs g = false ∨
    IsSmall E si.graphID si.rtInputs g ∧ ZL_MAX_GRAPH_DEPTH ≤ depth + 2

instance NoBackup.decidable (E : Engine ρ) (si : SuccessorInfo ρ) (depth : Nat) (g : RTGraph) :
    Decidable (NoBackup E si depth g) :=
  inferInstanceAs (Decidable (_ ∨ _))

/-- What a run must keep to for its failures to be undone: a graph function that ends well has not
passed over a call that failed and changed something (and, if `once`, has run no node on an edge
twice); and no graph goes on to a successor without a backup when one of its streams has been
stored since its function was started. -/
def Event.Fine (E : Engine ρ) (once : Prop) : Event ρ → Prop
  | .ranGraph graph_f start => ∀ s', graph_f.run E start = some (.ok (), s') →
      s'.status = .ok () → graph_f.FailsClean E start ∧ (once → graph_f.ListsOnce E start)
  | .wentOn rtsids entered now si depth => NoBackup E si depth now →
      ∀ x ∈ rtsids, now.isStored x = true → entered.isStored x = true
  | .fellBack _ _ _ => True

instance Event.Fine.decidable [DecidableEq ρ] (E : Engine ρ) (once : Prop) [Decidable once] :
    ∀ event : Event ρ, Decidable (event.Fine E once)
  | .ranGraph graph_f start => decidable_of_iff (∀ (_ : Unit) (s' : GraphCtx ρ),
      graph_f.run E start = some (.ok (), s') → s'.status = .ok () →
        graph_f.FailsClean E start ∧ (once → graph_f.ListsOnce E start))
    ⟨fun h => h (), fun h _ => h⟩
  | .wentOn _ _ _ _ _ => inferInstanceAs (Decidable (_ → _))
  | .fellBack _ _ _ => .isTrue trivial

/-- Why a successor fails, in permissive mode and with no backup in progress. -/
def Explains (E : Engine ρ) (runSuccessor : SuccessorFn ρ) : Prop :=
  ∀ gid rgp ids depth s r s', 0 < depth → runSuccessor gid rgp ids depth s = some (r, s') →
    s.inBackupMode = false →
    (r = .ok () → depth < ZL_MAX_GRAPH_DEPTH) ∧
    (E.permissiveCompression = true → ¬ AboveSegmenter E depth → ∀ e, r = .error e →
      s'.inBackupMode = true ∨ NoNewMarks s.rtgraph s'.rtgraph ∧
        (ZL_MAX_GRAPH_DEPTH ≤ depth ∨
          isSegmenter E gid = true ∧ isSegmentable E ids s.rtgraph = false ∨
          IsSmall E gid ids s.rtgraph ∧ ZL_MAX_GRAPH_DEPTH ≤ depth + 1))

section refusals

variable {E : Engine ρ} {rs : SuccessorFn ρ} {depth : Nat} {ids : List Nat} {s s' : CCtx ρ}

theorem AboveSegmenter.of_succ (h : ¬ AboveSegmenter E depth) : ¬ AboveSegmenter E (depth + 1) :=
  fun ⟨hne, hle⟩ => h ⟨hne, (Nat.le_succ depth).trans hle⟩

theorem adaptInputs_any {masks : List (DataType → Bool)} {g g' : RTGraph}
    {r : Except ErrorCode (List Nat)}
    (hmasks : ∀ n type, typeMask masks n type = true)
    (h : adaptInputs E masks ids g = some (r, g')) : r = .ok ids ∧ g' = g := by
  rcases Cmd.run_bind_some h with ⟨e, he, -⟩ | ⟨inputs, t, hinputs, hrest⟩
  · obtain ⟨_, hr, -⟩ := getRStreams_some he
    cases hr
  obtain ⟨_, -, rfl, -⟩ := getRStreams_some hinputs
  rw [if_neg] at hrest
  · exact Cmd.run_pure_iff.1 hrest
  · simp [hmasks]

theorem run_selectorStore {g : RTGraph} {rtsid : Nat} {slot : RTCStream} {input : Data}
    (hslot : g.streams[rtsid]? = some slot) (hinput : slot.stream = some input)
    (htype : input.type ≠ .string) :
    selectorStore.run E (initGraph [rtsid] g) = some (.ok (),
      ⟨g, [⟨rtsid, .trigger, 0⟩], [⟨.SERIAL_STORE, none, 1, 0⟩], [rtsid], .ok ()⟩) := by
  have hget : GraphCtx.getData 0 (initGraph (ρ := ρ) [rtsid] g) =
      some (.ok input, initGraph [rtsid] g) := by
    have hread : RTGM.getRStream rtsid g = some (.ok input, g) := by
      unfold RTGM.getRStream
      rw [Cmd.run_get_bind]
      exact Cmd.run_expect_bind.2 ⟨slot, hslot, by rw [hinput]; rfl⟩
    change (RTGM.getRStream rtsid g).map _ = _
    rw [hread]
    rfl
  unfold selectorStore
  refine (Cmd.run_bind_of_ok hget).trans ?_
  simp only [if_neg htype]
  rfl

theorem store1_explains (hexp : Explains E rs) (hperm : E.permissiveCompression = true)
    (hbelow : ¬ AboveSegmenter E depth) (hoff : s.inBackupMode = false) {gid : GraphID}
    (hsmall : IsSmall E gid ids s.rtgraph) {e : ErrorCode}
    (h : runSupervisedGraphID E rs .STORE1 none ids depth s = some (.error e, s')) :
    s'.inBackupMode = true ∨
      NoNewMarks s.rtgraph s'.rtgraph ∧ ZL_MAX_GRAPH_DEPTH ≤ depth + 1 := by
  obtain ⟨rtsid, slot, input, rfl, -, hslot, hinput, htype, -⟩ := hsmall
  have hmasks : ∀ n type, typeMask [fun _ => true] n type = true := by
    intro n type
    rw [typeMask, List.length_singleton, Nat.sub_self, Nat.min_zero]
    rfl
  cases runSupervisedGraphID_cases h with
  | missing hgid => cases hgid
  | unfit hgid hadapt =>
    obtain rfl := Option.some.inj hgid
    cases (adaptInputs_any hmasks hadapt).1
  | graph hgid hgraph hadapt hrun =>
    obtain rfl := Option.some.inj hgid
    obtain ⟨hr, rfl⟩ := adaptInputs_any hmasks hadapt
    obtain rfl := Except.ok.inj hr
    obtain rfl := GraphType.miGraph.inj hgraph
    rcases runGraphDesc_cases hrun with ⟨_, -, -, hlimit⟩ | ⟨report, gctx, hf, hrest⟩
    · rw [List.length_singleton] at hlimit
      exact absurd hlimit (by decide)
    have hf' := hf.symm.trans (run_selectorStore hslot hinput htype)
    obtain ⟨rfl, rfl⟩ := Prod.mk.inj (Option.some.inj hf')
    rcases hrest with ⟨_, -, -, hcheck⟩ | ⟨successors, -, -, hsucc, hsuccs⟩
    · rw [hcheck rfl rfl] at hperm
      cases hperm
    obtain rfl : [⟨.SERIAL_STORE, none, [rtsid]⟩] = successors := Option.some.inj hsucc
    rcases runSuccessors_cons hsuccs with ⟨e', he, -⟩ | ⟨t, -, hnil⟩
    · obtain ⟨-, hwhy⟩ := hexp _ _ _ _ _ _ _ depth.succ_pos he hoff
      rcases hwhy hperm (AboveSegmenter.of_succ hbelow) e' rfl with
        hon | ⟨hmarks, hdeep | ⟨hseg, -⟩ | ⟨⟨_, _, _, -, hne, -⟩, -⟩⟩
      · exact Or.inl hon
      · exact Or.inr ⟨hmarks, hdeep⟩
      · cases hseg
      · exact absurd rfl hne
    · cases (Cmd.run_pure_iff.1 hnil).1

theorem noNewMarks_guarded (depth : Nat) (hpos : 0 < depth) (ids : List Nat) (s : CCtx ρ) :
    NoNewMarks s.rtgraph (guarded depth ids s).rtgraph := by
  intro x hx
  have hslot : ∀ slot : RTCStream, (guardSlot depth slot).toStore = slot.toStore := by
    intro slot
    unfold guardSlot
    split <;> rfl
  rwa [guarded, isStored_of_slots (getElem?_guardSlots hpos ids s.rtgraph.streams) hslot] at hx

theorem noNewMarks_cleared (depth : Nat) (ids : List Nat) (s : CCtx ρ) :
    NoNewMarks s.rtgraph (cleared depth ids s).rtgraph := by
  intro x hx
  rwa [cleared, isStored_clearSlots] at hx

theorem IsSmall.of_guarded {gid : GraphID} (hpos : 0 < depth)
    (h : IsSmall E gid ids (guarded depth ids s).rtgraph) : IsSmall E gid ids s.rtgraph := by
  obtain ⟨rtsid, slot, input, rfl, hgid, hslot, hinput, hrest⟩ := h
  rw [guarded] at hslot
  dsimp only at hslot
  rw [getElem?_guardSlots hpos, if_pos (List.mem_singleton_self _)] at hslot
  obtain ⟨old, hold, rfl⟩ := Option.map_eq_some_iff.1 hslot
  refine ⟨rtsid, old, input, rfl, hgid, hold, ?_, hrest⟩
  rw [← hinput, guardSlot]
  split <;> rfl

theorem runSuccessorStep_explains (hrs : Framed rs) (hexp : Explains E rs) :
    Explains E (runSuccessorStep E rs) := by
  intro gid rgp ids depth s r s' hpos h hoff
  obtain ⟨hlt, hstepped⟩ := runSuccessorStep_cases hpos h
  cases hstepped with
  | tooDeep hdeep _ =>
    exact ⟨fun hr => (by cases hr), fun _ _ _ _ => Or.inr ⟨NoNewMarks.refl _, Or.inl hdeep⟩⟩
  | segmenter hseg hnot =>
    exact ⟨fun hr => (by cases hr),
      fun _ _ _ _ => Or.inr ⟨NoNewMarks.refl _, Or.inr (Or.inl ⟨hseg, hnot⟩)⟩⟩
  | @ran _ _ t hlimit hrun hend =>
    have hdepth : depth < ZL_MAX_GRAPH_DEPTH := by
      rcases hlimit with hdepth | hon
      · exact hdepth
      · rw [hoff] at hon
        cases hon
    refine ⟨fun _ => hdepth, fun hperm hbelow e hr => ?_⟩
    subst hr
    have hstay : t.inBackupMode = true → s'.inBackupMode = true := by
      rcases hend with rfl | rfl <;> exact id
    have hmarks : NoNewMarks t.rtgraph s'.rtgraph := by
      rcases hend with rfl | rfl
      · exact NoNewMarks.refl _
      · exact noNewMarks_cleared depth ids t
    cases runSuccessor_internal_cases hrun with
    | small hsmall hstore =>
      rcases store1_explains (s := guarded depth ids s) hexp hperm hbelow hoff hsmall hstore with
        hon | ⟨hnone, hdeep⟩
      · exact Or.inl (hstay hon)
      · refine Or.inr ⟨?_, Or.inr (Or.inr ⟨hsmall.of_guarded hpos, hdeep⟩)⟩
        exact (noNewMarks_guarded depth hpos ids s).trans (hnone.trans hmarks)
    | failed _ hwhy =>
      rcases hwhy with hno | hon | habove
      · rw [hno] at hperm
        cases hperm
      · exact Or.inl (hstay hon)
      · exact absurd habove hbelow
    | backupFailed _ hbackup =>
      exact Or.inl (hstay ((runSupervisedGraphID_ran hrs hlt hbackup).backup rfl))

theorem runSuccessors_error (hrs : Framed rs) (hexp : Explains E rs)
    (hperm : E.permissiveCompression = true) (hbelow : ¬ AboveSegmenter E depth)
    {rtsids : List Nat} {entered : RTGraph} {e : ErrorCode} :
    ∀ {successors : List (SuccessorInfo ρ)} {s₀ s s' : CCtx ρ},
    Ran (depth + 1) rtsids s₀ (.ok () : Except ErrorCode Unit) s → s.inBackupMode = false →
    (∀ si ∈ successors, ∀ x ∈ si.rtInputs, Within s₀.rtgraph rtsids x) →
    runSuccessors rs rtsids entered depth successors s = some (.error e, s') →
    s'.inBackupMode = true ∨
      (ZL_MAX_GRAPH_DEPTH ≤ depth + 1 ∧ NoNewMarks s.rtgraph s'.rtgraph) ∨
      ∃ si now, .wentOn rtsids entered now si depth ∈ s'.events ∧ NoBackup E si depth now ∧
        (∃ new, Frame (depth + 1) s₀.rtgraph rtsids new now) ∧ NoNewMarks now s'.rtgraph
  | [], s₀, s, s', _, _, _, h => by cases (Cmd.run_pure_iff.1 h).1
  | si :: successors, s₀, s, s', hran, hoff, hwithin, h => by
    have hrecord := hran.trans ⟨(), rfl⟩ (Ran.record (depth + 1) rtsids s
      (.wentOn rtsids entered s.rtgraph si depth) (.ok () : Except ErrorCode Unit))
      fun x hx => Or.inl hx
    rcases runSuccessors_cons h with ⟨e', he, -⟩ | ⟨t, ht, hrest⟩
    · obtain ⟨-, hwhy⟩ := hexp _ _ _ _ _ _ _ depth.succ_pos he hoff
      have hevent : .wentOn rtsids entered s.rtgraph si depth ∈ s'.events :=
        (hrs _ _ _ _ _ _ _ depth.succ_pos he).events.subset (by simp [goingOn])
      rcases hwhy hperm (AboveSegmenter.of_succ hbelow) e' rfl with
        hon | ⟨hmarks, hdeep | hseg | hsmall⟩
      · exact Or.inl hon
      · exact Or.inr (Or.inl ⟨hdeep, hmarks⟩)
      · exact Or.inr (Or.inr ⟨si, s.rtgraph, hevent, Or.inl hseg, hran.frame, hmarks⟩)
      · exact Or.inr (Or.inr ⟨si, s.rtgraph, hevent, Or.inr hsmall, hran.frame, hmarks⟩)
    · have hchild := hrs _ _ _ _ _ _ _ depth.succ_pos ht
      have hshallow := (hexp _ _ _ _ _ _ _ depth.succ_pos ht hoff).1 rfl
      have hstep := hrecord.trans ⟨(), rfl⟩ hchild (hwithin si List.mem_cons_self)
      have hoff' : t.inBackupMode = false := (hchild.ok () rfl).trans hoff
      rcases runSuccessors_error hrs hexp hperm hbelow hstep hoff'
        (fun si' hmem => hwithin si' (List.mem_cons_of_mem _ hmem)) hrest with
        hon | ⟨hdeep, -⟩ | hthere
      · exact Or.inl hon
      · exact absurd hshallow (Nat.not_lt.2 hdeep)
      · exact Or.inr (Or.inr hthere)

/-- **A graph that fails leaves no marks** on the streams it was on, unless its backup would not
start, or the run is not fine. -/
theorem failed_marks (hrs : Framed rs) (hexp : Explains E rs)
    (hperm : E.permissiveCompression = true) (hbelow : ¬ AboveSegmenter E depth)
    (hdepth : depth + 1 ≤ 2 ^ 32) (hoff : s.inBackupMode = false) {once : Prop}
    (hlt : ∀ x ∈ ids, x < s.rtgraph.streams.length) {gid : GraphID} {rgp : Option ρ}
    {e : ErrorCode} (h : runSupervisedGraphID E rs gid rgp ids depth s = some (.error e, s'))
    (hfine : ∀ event ∈ s'.events, event.Fine E once) (hoff' : s'.inBackupMode = false) :
    ∀ x ∈ ids, s'.rtgraph.isStored x = true → s.rtgraph.isStored x = true := by
  cases runSupervisedGraphID_cases h with
  | missing => exact fun _ _ => id
  | unfit _ hadapt =>
    obtain ⟨-, hmarks, -⟩ := adaptInputs_frame hdepth hadapt
    exact fun x _ => hmarks x
  | @graph desc graph_f g rtsids _ _ _ _ hadapt hrun =>
    obtain ⟨⟨_, hframe⟩, hmarks, hwithin⟩ := adaptInputs_frame hdepth hadapt
    intro x hx hstored
    refine hmarks x ?_
    rcases runGraphDesc_cases hrun with ⟨_, -, rfl, -⟩ | ⟨report, gctx, hf, hrest⟩
    · exact hstored
    have hhandled := GraphFunction.run_handled hdepth _ rtsids g hf
    obtain ⟨new, hnew⟩ := hhandled.frame
    rcases hrest with ⟨_, -, rfl, -⟩ | ⟨successors, -, -, hsucc, hsuccs⟩
    · exact hhandled.marks x hstored
    have hafter : Ran (depth + 1) rtsids { s with rtgraph := g }
        (.ok () : Except ErrorCode Unit)
        (afterGraph { s with rtgraph := g } (graph_f rgp rtsids.length depth) rtsids
          gctx.rtgraph) :=
      ⟨List.prefix_append .., ⟨new, hnew⟩, id, fun _ _ => rfl⟩
    rcases runSuccessors_error hrs hexp hperm hbelow hafter hoff
      (getSuccessors_within hhandled hsucc) hsuccs with
      hon | ⟨-, hnone⟩ | ⟨si, now, hevent, hrefused, ⟨_, hnow⟩, hnone⟩
    · rw [hoff'] at hon
      cases hon
    · exact hhandled.marks x (hnone x hstored)
    · by_cases hin : x ∈ rtsids
      · exact hfine _ hevent hrefused x hin (hnone x hstored)
      · have hg : x < g.streams.length := (hlt x hx).trans_le hframe.length_le
        rw [← hnow.isStored_eq hin hg]
        exact hnone x hstored

end refusals

/-- **Why a successor fails.** -/
theorem runSuccessor_explains (E : Engine ρ) (fuel : Nat) : Explains E (runSuccessor E fuel) := by
  induction fuel with
  | zero =>
    intro gid rgp ids depth s r s' _ h
    cases h
  | succ fuel ih => exact runSuccessorStep_explains (runSuccessor_ran E fuel) ih

end OpenZL.Compress
