import OpenZL.Compress.Engine
import OpenZL.Compress.Frame

/-!
# What the functions of the engine can do

Each function of the engine by its outcomes: what was run on the way, in which state, and how it
ended.

Principal results: `runSuccessors_cons`, `runGraphDesc_cases`, `runSupervisedGraphID_cases`,
`runSuccessor_internal_cases`, `runSuccessorStep_cases`.
-/

namespace OpenZL.Compress

open OpenZL.Lib CCtx

variable {ρ α : Type}

theorem onGraph_some {m : RTM α} {s s' : CCtx ρ} {r : Except ErrorCode α}
    (h : CCtx.onGraph m s = some (r, s')) :
    ∃ g, m s.rtgraph = some (r, g) ∧ s' = { s with rtgraph := g } := by
  obtain ⟨⟨q, g⟩, hm, heq⟩ := Option.map_eq_some_iff.1 h
  obtain ⟨rfl, rfl⟩ := Prod.mk.inj heq
  exact ⟨g, hm, rfl⟩

variable {E : Engine ρ} {rs : SuccessorFn ρ} {gid : GraphID} {rgp : Option ρ} {depth : Nat}
  {ids rtsids : List Nat} {s s' : CCtx ρ} {r : Except ErrorCode Unit}

/-- The state in which the graph on `rtsids` goes on to a successor. -/
def goingOn (rtsids : List Nat) (entered : RTGraph) (si : SuccessorInfo ρ) (depth : Nat)
    (s : CCtx ρ) : CCtx ρ :=
  { s with events := s.events ++ [.wentOn rtsids entered s.rtgraph si depth] }

theorem runSuccessors_cons {entered : RTGraph} {si : SuccessorInfo ρ}
    {successors : List (SuccessorInfo ρ)}
    (h : runSuccessors rs rtsids entered depth (si :: successors) s = some (r, s')) :
    (∃ e, rs si.graphID si.rgp si.rtInputs (depth + 1) (goingOn rtsids entered si depth s) =
        some (.error e, s') ∧ r = .error e) ∨
      ∃ t, rs si.graphID si.rgp si.rtInputs (depth + 1) (goingOn rtsids entered si depth s) =
          some (.ok (), t) ∧
        runSuccessors rs rtsids entered depth successors t = some (r, s') := by
  unfold runSuccessors at h
  rw [Cmd.run_get_bind] at h
  rcases Cmd.run_bind_some (h : (CCtx.record _ >>= _) s = _) with ⟨_, he, -⟩ | ⟨_, t, ht, hrest⟩
  · cases he
  obtain ⟨-, rfl⟩ := Prod.mk.inj (Option.some.inj ht)
  exact (Cmd.run_bind_some hrest).imp_right fun ⟨_, t, ht, hrest⟩ => ⟨t, ht, hrest⟩

/-- The state when the function of a graph has ended. -/
def afterGraph (s : CCtx ρ) (graph_f : GraphFunction ρ) (rtsids : List Nat) (g : RTGraph) :
    CCtx ρ :=
  { s with rtgraph := g
           events := s.events ++ [.ranGraph graph_f (initGraph rtsids s.rtgraph)] }

theorem runGraphDesc_cases {graph_f : GraphFunction ρ}
    (h : runGraphDesc E rs graph_f rtsids depth s = some (r, s')) :
    (∃ e, r = .error e ∧ s' = s ∧ ZL_ENCODER_GRAPH_LIMIT < rtsids.length) ∨
      ∃ report gctx, graph_f.run E (initGraph rtsids s.rtgraph) = some (report, gctx) ∧
        ((∃ e, r = .error e ∧ s' = afterGraph s graph_f rtsids gctx.rtgraph ∧
          (report = .ok () → gctx.status = .ok () → E.permissiveCompression = false)) ∨
          ∃ successors, report = .ok () ∧ gctx.status = .ok () ∧
            getSuccessors gctx = some successors ∧
            runSuccessors rs rtsids s.rtgraph depth successors
              (afterGraph s graph_f rtsids gctx.rtgraph) = some (r, s')) := by
  unfold runGraphDesc at h
  rcases Cmd.run_failWhen_bind_some h with ⟨hlimit, rfl, rfl⟩ | ⟨-, h₁⟩
  · exact Or.inl ⟨_, rfl, rfl, hlimit⟩
  rw [Cmd.run_get_bind] at h₁
  rcases Cmd.run_bind_some (h₁ : (CCtx.record _ >>= _) s = _) with ⟨e, he, -⟩ | ⟨_, t, ht, h₂⟩
  · cases he
  obtain ⟨-, rfl⟩ := Prod.mk.inj (Option.some.inj ht)
  obtain ⟨⟨report, gctx⟩, hrun, h₃⟩ := Cmd.run_expect_bind.1 h₂
  refine Or.inr ⟨report, gctx, hrun, ?_⟩
  dsimp only at h₃
  rw [Cmd.run_modify_bind] at h₃
  rcases Cmd.run_bind_some h₃ with ⟨e, he, rfl⟩ | ⟨_, t, ht, h₄⟩
  · obtain ⟨hreport, rfl⟩ := Prod.mk.inj (Option.some.inj he)
    exact Or.inl ⟨_, rfl, rfl, fun hr => by rw [hr] at hreport; cases hreport⟩
  obtain ⟨hreport, rfl⟩ := Prod.mk.inj (Option.some.inj ht)
  rcases Cmd.run_bind_some h₄ with ⟨e, he, rfl⟩ | ⟨_, t, ht, h₅⟩
  · obtain ⟨hstatus, rfl⟩ := Prod.mk.inj (Option.some.inj he)
    exact Or.inl ⟨_, rfl, rfl, fun _ hr => by rw [hr] at hstatus; cases hstatus⟩
  obtain ⟨hstatus, rfl⟩ := Prod.mk.inj (Option.some.inj ht)
  rcases Cmd.run_failWhen_bind_some h₅ with ⟨hcheck, rfl, rfl⟩ | ⟨-, h₆⟩
  · exact Or.inl ⟨_, rfl, rfl, fun _ _ => hcheck.1⟩
  obtain ⟨successors, hsucc, h₇⟩ := Cmd.run_expect_bind.1 h₆
  exact Or.inr ⟨successors, hreport, hstatus, hsucc, h₇⟩

/-- The outcomes of `CCTX_runSupervisedGraphID`. -/
inductive Supervised (E : Engine ρ) (rs : SuccessorFn ρ) (gid : GraphID) (rgp : Option ρ)
    (ids : List Nat) (depth : Nat) (s : CCtx ρ) : Except ErrorCode Unit → CCtx ρ → Prop
  | missing {e : ErrorCode} : E.graphs gid = none →
      Supervised E rs gid rgp ids depth s (.error e) s
  | unfit {e : ErrorCode} {desc : GraphDesc ρ} {g : RTGraph} : E.graphs gid = some desc →
      adaptInputs E desc.inputTypeMasks ids s.rtgraph = some (.error e, g) →
      Supervised E rs gid rgp ids depth s (.error e) { s with rtgraph := g }
  | stored {masks : List (DataType → Bool)} {g : RTGraph} {rtsid : Nat} :
      adaptInputs E masks ids s.rtgraph = some (.ok [rtsid], g) →
      Supervised E rs gid rgp ids depth s (.ok ())
        { s with rtgraph := ⟨g.nodes, g.streams.modify rtsid ({ · with toStore := true })⟩ }
  | graph {desc : GraphDesc ρ} {graph_f : Option ρ → Nat → Nat → GraphFunction ρ} {g : RTGraph}
      {rtsids : List Nat} {r : Except ErrorCode Unit} {s' : CCtx ρ} :
      E.graphs gid = some desc → desc.type = .miGraph graph_f →
      adaptInputs E desc.inputTypeMasks ids s.rtgraph = some (.ok rtsids, g) →
      runGraphDesc E rs (graph_f rgp rtsids.length depth) rtsids depth { s with rtgraph := g } =
        some (r, s') →
      Supervised E rs gid rgp ids depth s r s'

theorem runSupervisedGraphID_cases
    (h : runSupervisedGraphID E rs gid rgp ids depth s = some (r, s')) :
    Supervised E rs gid rgp ids depth s r s' := by
  unfold runSupervisedGraphID at h
  cases hgid : E.graphs gid with
  | none =>
    rw [hgid] at h
    obtain ⟨rfl, rfl⟩ := Prod.mk.inj (Option.some.inj h)
    exact .missing hgid
  | some desc =>
    rw [hgid] at h
    rcases Cmd.run_bind_some h with ⟨e, he, rfl⟩ | ⟨rtsids, t, hadapt, h₁⟩
    · obtain ⟨g, hg, rfl⟩ := onGraph_some he
      exact .unfit hgid hg
    obtain ⟨g, hg, rfl⟩ := onGraph_some hadapt
    cases htype : desc.type with
    | store =>
      rw [htype] at h₁
      obtain ⟨rtsid, hrtsid, h₂⟩ := Cmd.run_expect_bind.1 h₁
      obtain ⟨g', hstore, rfl⟩ := onGraph_some h₂
      obtain ⟨rfl, rfl⟩ := Prod.mk.inj (Option.some.inj hstore)
      split at hrtsid
      · rename_i hlen
        obtain ⟨x, rfl⟩ := List.length_eq_one_iff.1 hlen
        obtain rfl : x = rtsid := by simpa using hrtsid
        exact .stored hg
      · cases hrtsid
    | miGraph graph_f =>
      rw [htype] at h₁
      exact .graph hgid htype hg h₁
    | segmenter =>
      rw [htype] at h₁
      cases h₁

/-- A graph that is replaced by STORE. -/
def IsSmall (E : Engine ρ) (gid : GraphID) (rtsids : List Nat) (g : RTGraph) : Prop :=
  ∃ rtsid slot input, rtsids = [rtsid] ∧ gid ≠ .SERIAL_STORE ∧ g.streams[rtsid]? = some slot ∧
    slot.stream = some input ∧ input.type ≠ .string ∧
    min input.content.length INT_MAX < E.minStreamSize

theorem isSmall_singleton {rtsid : Nat} {g : RTGraph} :
    IsSmall E gid [rtsid] g ↔ gid ≠ .SERIAL_STORE ∧
      (g.streams[rtsid]?.bind (·.stream)).any (fun input =>
        input.type ≠ .string ∧ min input.content.length INT_MAX < E.minStreamSize) = true := by
  rw [Option.any_eq_true]
  constructor
  · rintro ⟨_, slot, input, heq, hgid, hslot, hinput, hsmall⟩
    obtain rfl := List.singleton_inj.1 heq
    refine ⟨hgid, input, ?_, decide_eq_true hsmall⟩
    rw [hslot, Option.bind_some, hinput]
  · rintro ⟨hgid, input, hinput, hsmall⟩
    obtain ⟨slot, hslot, hinput⟩ := Option.bind_eq_some_iff.1 hinput
    exact ⟨rtsid, slot, input, rfl, hgid, hslot, hinput, of_decide_eq_true hsmall⟩

instance IsSmall.decidable (E : Engine ρ) (gid : GraphID) (rtsids : List Nat) (g : RTGraph) :
    Decidable (IsSmall E gid rtsids g) :=
  match rtsids with
  | [] => .isFalse fun ⟨_, _, _, h, _⟩ => by cases h
  | [_] => decidable_of_iff _ isSmall_singleton.symm
  | _ :: _ :: _ => .isFalse fun ⟨_, _, _, h, _⟩ => by cases h

theorem isSmallInput_some {g g' : RTGraph} {q : Except ErrorCode Bool}
    (h : isSmallInput E gid ids g = some (q, g')) :
    g' = g ∧ ∃ small, q = .ok small ∧ (small = true → IsSmall E gid ids g) := by
  unfold isSmallInput at h
  split at h
  · rename_i rtsid
    split at h
    · obtain ⟨rfl, rfl⟩ := Prod.mk.inj (Option.some.inj h)
      exact ⟨rfl, false, rfl, fun hs => by cases hs⟩
    · rename_i hgid
      rcases Cmd.run_bind_some h with ⟨e, he, -⟩ | ⟨input, t, hinput, hrest⟩
      · obtain ⟨_, _, -, -, hr, -⟩ := getRStream_some he
        cases hr
      obtain ⟨slot, stream, hslot, hstream, hr, rfl⟩ := getRStream_some hinput
      obtain rfl := Except.ok.inj hr
      obtain ⟨rfl, rfl⟩ := Cmd.run_pure_iff.1 hrest
      refine ⟨rfl, _, rfl, fun hs => ?_⟩
      obtain ⟨htype, hsize⟩ := of_decide_eq_true hs
      exact ⟨rtsid, slot, input, rfl, hgid, hslot, hstream, htype, hsize⟩
  · obtain ⟨rfl, rfl⟩ := Prod.mk.inj (Option.some.inj h)
    exact ⟨rfl, false, rfl, fun hs => by cases hs⟩

/-- The state in which the backup of a failed graph on `ids` runs. -/
def backupState (s t : CCtx ρ) (ids : List Nat) (g : RTGraph) : CCtx ρ :=
  ⟨g, true, t.events ++ [.fellBack ids s.rtgraph g]⟩

/-- No fallback above a segmenter. -/
def AboveSegmenter (E : Engine ρ) (depth : Nat) : Prop :=
  E.segmenterDepth ≠ 0 ∧ depth ≤ E.segmenterDepth

/-- A graph on `ids` has failed, has been undone, and is about to be replaced by its backup. -/
structure FallsBack (E : Engine ρ) (rs : SuccessorFn ρ) (gid : GraphID) (rgp : Option ρ)
    (ids : List Nat) (depth : Nat) (s t : CCtx ρ) (g : RTGraph) : Prop where
  failed : ∃ e, runSupervisedGraphID E rs gid rgp ids depth s = some (.error e, t)
  permissive : E.permissiveCompression = true
  off : t.inBackupMode = false
  below : ¬ AboveSegmenter E depth
  cleared : RTGM.clearNodesFrom s.rtgraph.nodes.length t.rtgraph = some (.ok (), g)

/-- The outcomes of `CCTX_runSuccessor_internal`. -/
inductive Attempted (E : Engine ρ) (rs : SuccessorFn ρ) (gid : GraphID) (rgp : Option ρ)
    (ids : List Nat) (depth : Nat) (s : CCtx ρ) : Except ErrorCode Unit → CCtx ρ → Prop
  | small {r : Except ErrorCode Unit} {s' : CCtx ρ} : IsSmall E gid ids s.rtgraph →
      runSupervisedGraphID E rs .STORE1 none ids depth s = some (r, s') →
      Attempted E rs gid rgp ids depth s r s'
  | done {s' : CCtx ρ} : runSupervisedGraphID E rs gid rgp ids depth s = some (.ok (), s') →
      Attempted E rs gid rgp ids depth s (.ok ()) s'
  | failed {e : ErrorCode} {s' : CCtx ρ} :
      runSupervisedGraphID E rs gid rgp ids depth s = some (.error e, s') →
      E.permissiveCompression = false ∨ s'.inBackupMode = true ∨ AboveSegmenter E depth →
      Attempted E rs gid rgp ids depth s (.error e) s'
  | backedUp {t u : CCtx ρ} {g : RTGraph} : FallsBack E rs gid rgp ids depth s t g →
      runSupervisedGraphID E rs .COMPRESS_GENERIC none ids depth (backupState s t ids g) =
        some (.ok (), u) →
      Attempted E rs gid rgp ids depth s (.ok ()) { u with inBackupMode := false }
  | backupFailed {e : ErrorCode} {t s' : CCtx ρ} {g : RTGraph} :
      FallsBack E rs gid rgp ids depth s t g →
      runSupervisedGraphID E rs .COMPRESS_GENERIC none ids depth (backupState s t ids g) =
        some (.error e, s') →
      Attempted E rs gid rgp ids depth s (.error e) s'

theorem runSuccessor_internal_cases
    (h : runSuccessor_internal E rs gid rgp ids depth s = some (r, s')) :
    Attempted E rs gid rgp ids depth s r s' := by
  unfold runSuccessor_internal at h
  rcases Cmd.run_bind_some h with ⟨e, he, -⟩ | ⟨small, t, hsmall, h₁⟩
  · obtain ⟨g, hg, -⟩ := onGraph_some he
    obtain ⟨-, _, hr, -⟩ := isSmallInput_some hg
    cases hr
  obtain ⟨g, hg, rfl⟩ := onGraph_some hsmall
  obtain ⟨rfl, small', hr, hisSmall⟩ := isSmallInput_some hg
  obtain rfl := Except.ok.inj hr
  cases small with
  | true => exact .small (hisSmall rfl) h₁
  | false =>
    rw [if_neg Bool.false_ne_true, Cmd.run_get_bind] at h₁
    obtain ⟨outcome, t, hrun, h₂⟩ := Cmd.run_attempt_bind.1 h₁
    cases outcome with
    | ok u =>
      obtain ⟨rfl, rfl⟩ := Cmd.run_pure_iff.1 h₂
      exact .done hrun
    | error e =>
      dsimp only at h₂
      rw [Cmd.run_get_bind] at h₂
      by_cases hstop : E.permissiveCompression = false ∨ t.inBackupMode = true
      · rw [if_pos hstop] at h₂
        obtain ⟨rfl, rfl⟩ := Prod.mk.inj (Option.some.inj h₂)
        exact .failed hrun (hstop.imp_right Or.inl)
      rw [if_neg hstop] at h₂
      by_cases habove : E.segmenterDepth ≠ 0 ∧ depth ≤ E.segmenterDepth
      · rw [if_pos habove] at h₂
        obtain ⟨rfl, rfl⟩ := Prod.mk.inj (Option.some.inj h₂)
        exact .failed hrun (Or.inr (Or.inr habove))
      rw [if_neg habove] at h₂
      obtain ⟨hperm, hoff⟩ := not_or.1 hstop
      have hoff : t.inBackupMode = false := by simpa using hoff
      have hperm : E.permissiveCompression = true := by simpa using hperm
      have hclear : ∀ {q : Except ErrorCode Unit} {g : RTGraph},
          RTGM.clearNodesFrom s.rtgraph.nodes.length t.rtgraph = some (q, g) → q = .ok () := by
        intro q g hq
        unfold RTGM.clearNodesFrom at hq
        rw [Cmd.run_get_bind] at hq
        split at hq
        · exact (Cmd.run_pure_iff.1 hq).1
        · obtain ⟨_, -, hq⟩ := Cmd.run_expect_bind.1 hq
          exact (Prod.mk.inj (Option.some.inj hq)).1.symm
      rcases Cmd.run_bind_some h₂ with ⟨e, he, -⟩ | ⟨_, t', hcleared, h₃⟩
      · obtain ⟨g, hg, -⟩ := onGraph_some he
        cases hclear hg
      obtain ⟨g, hg, rfl⟩ := onGraph_some hcleared
      have hfalls : FallsBack E rs gid rgp ids depth s t g := ⟨⟨e, hrun⟩, hperm, hoff, habove, hg⟩
      rw [Cmd.run_get_bind] at h₃
      rcases Cmd.run_bind_some (h₃ : (CCtx.record _ >>= _) _ = _) with ⟨e, he, -⟩ | ⟨_, t', ht, h₄⟩
      · cases he
      obtain ⟨-, rfl⟩ := Prod.mk.inj (Option.some.inj ht)
      unfold triggerBackupMode at h₄
      rw [Cmd.run_get_bind] at h₄
      rcases Cmd.run_failWhen_bind_some h₄ with ⟨hon, -, -⟩ | ⟨-, h₅⟩
      · rw [hoff] at hon
        cases hon
      rw [Cmd.run_modify_bind] at h₅
      rcases Cmd.run_bind_some h₅ with ⟨e, he, rfl⟩ | ⟨_, u, hu, h₆⟩
      · exact .backupFailed hfalls he
      · obtain ⟨rfl, rfl⟩ := Prod.mk.inj (Option.some.inj h₆)
        exact .backedUp hfalls hu

/-- The state in which a successor on `ids` starts. -/
def guarded (depth : Nat) (ids : List Nat) (s : CCtx ρ) : CCtx ρ :=
  { s with rtgraph := ⟨s.rtgraph.nodes, guardSlots depth ids s.rtgraph.streams⟩ }

/-- The state in which a successor on `ids` ends. -/
def cleared (depth : Nat) (ids : List Nat) (s : CCtx ρ) : CCtx ρ :=
  { s with rtgraph := ⟨s.rtgraph.nodes, clearSlots depth ids s.rtgraph.streams⟩ }

/-- The outcomes of `CCTX_runSuccessor`. -/
inductive Stepped (E : Engine ρ) (rs : SuccessorFn ρ) (gid : GraphID) (rgp : Option ρ)
    (ids : List Nat) (depth : Nat) (s : CCtx ρ) : Except ErrorCode Unit → CCtx ρ → Prop
  | tooDeep {e : ErrorCode} : ZL_MAX_GRAPH_DEPTH ≤ depth → s.inBackupMode = false →
      Stepped E rs gid rgp ids depth s (.error e) s
  | segmenter {e : ErrorCode} : isSegmenter E gid = true →
      isSegmentable E ids s.rtgraph = false → Stepped E rs gid rgp ids depth s (.error e) s
  | ran {r : Except ErrorCode Unit} {s' t : CCtx ρ} :
      depth < ZL_MAX_GRAPH_DEPTH ∨ s.inBackupMode = true →
      runSuccessor_internal E rs gid rgp ids depth (guarded depth ids s) = some (r, t) →
      s' = t ∨ s' = cleared depth ids t → Stepped E rs gid rgp ids depth s r s'

theorem runSuccessorStep_cases (hpos : 0 < depth)
    (h : runSuccessorStep E rs gid rgp ids depth s = some (r, s')) :
    depth < 2 ^ 32 ∧ Stepped E rs gid rgp ids depth s r s' := by
  unfold runSuccessorStep at h
  rw [Cmd.run_get_bind] at h
  obtain ⟨hdepth, h₁⟩ := Cmd.run_require_bind.1 h
  refine ⟨hdepth, ?_⟩
  rcases Cmd.run_failWhen_bind_some h₁ with ⟨⟨hdeep, hoff⟩, rfl, rfl⟩ | ⟨hdeep, h₂⟩
  · exact .tooDeep hdeep hoff
  have hlimit : depth < ZL_MAX_GRAPH_DEPTH ∨ s.inBackupMode = true := by
    by_cases hlt : depth < ZL_MAX_GRAPH_DEPTH
    · exact Or.inl hlt
    · right
      cases hon : s.inBackupMode with
      | true => rfl
      | false => exact absurd ⟨Nat.le_of_not_lt hlt, hon⟩ hdeep
  by_cases hseg : isSegmenter E gid = true
  · rw [if_pos hseg] at h₂
    obtain ⟨hnot, h₃⟩ := Cmd.run_require_bind.1 h₂
    obtain ⟨rfl, rfl⟩ := Prod.mk.inj (Option.some.inj h₃)
    exact .segmenter hseg hnot
  rw [if_neg hseg] at h₂
  have hguard : CCtx.onGraph (Cmd.forEach (fun rtsid => RTGM.guardRTStream rtsid depth) ids) s =
      some (.ok (), guarded depth ids s) := by
    unfold CCtx.onGraph
    rw [forEach_guardRTStream hpos]
    rfl
  rw [Cmd.run_bind_of_ok hguard] at h₂
  obtain ⟨outcome, t, hrun, h₃⟩ := Cmd.run_attempt_bind.1 h₂
  split at h₃
  · obtain ⟨rfl, rfl⟩ := Prod.mk.inj (Option.some.inj h₃)
    exact .ran hlimit hrun (Or.inl rfl)
  · have hclear : CCtx.onGraph (Cmd.forEach (RTGM.clearRTStream depth) ids) t =
        some (.ok (), cleared depth ids t) := by
      unfold CCtx.onGraph
      rw [forEach_clearRTStream]
      rfl
    rw [Cmd.run_bind_of_ok hclear] at h₃
    obtain ⟨rfl, rfl⟩ := Prod.mk.inj (Option.some.inj h₃)
    exact .ran hlimit hrun (Or.inr rfl)

end OpenZL.Compress
