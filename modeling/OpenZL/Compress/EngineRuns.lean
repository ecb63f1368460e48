import OpenZL.Compress.Conversions
import OpenZL.Compress.EngineCases

/-!
# Runs of the engine

Whatever the engine runs on some streams, and however it ends: the record of the run grows, the
graph changes as far as a frame allows, and the backup mode, once on, stays on; a run that ends
well leaves it as it was.

Principal results: `Ran.trans`, `runSuccessor_ran`.
-/

namespace OpenZL.Compress

open OpenZL.Lib GraphCtx CCtx

variable {ρ α β : Type}

/-- What every run on the streams `ids` at `depth` does, from `s` to `s'` with the outcome `r`. -/
structure Ran (depth : Nat) (ids : List Nat) (s : CCtx ρ) (r : Except ErrorCode α)
    (s' : CCtx ρ) : Prop where
  events : s.events <+: s'.events
  frame : ∃ new, Frame depth s.rtgraph ids new s'.rtgraph
  backup : s.inBackupMode = true → s'.inBackupMode = true
  ok : ∀ a, r = .ok a → s'.inBackupMode = s.inBackupMode

namespace Ran

variable {depth : Nat} {ids ids' : List Nat} {s t s' : CCtx ρ}

theorem refl (depth : Nat) (ids : List Nat) (s : CCtx ρ) (r : Except ErrorCode α) :
    Ran depth ids s r s where
  events := List.prefix_rfl
  frame := ⟨[], Frame.refl depth s.rtgraph ids⟩
  backup := id
  ok _ _ := rfl

/-- **Runs one after the other**, the second on streams of the first or on newer ones. -/
theorem trans {q : Except ErrorCode α} {r : Except ErrorCode β} (h : Ran depth ids s q t)
    (hok : ∃ a, q = .ok a) (h' : Ran depth ids' t r s')
    (hids : ∀ x ∈ ids', Within s.rtgraph ids x) : Ran depth ids s r s' where
  events := h.events.trans h'.events
  frame := by
    obtain ⟨new, hframe⟩ := h.frame
    obtain ⟨new', hframe'⟩ := h'.frame
    exact ⟨new ++ new', hframe.trans hframe' hids⟩
  backup hs := h'.backup (h.backup hs)
  ok a ha := by
    obtain ⟨b, hb⟩ := hok
    rw [h'.ok a ha, h.ok b hb]

theorem mono {r : Except ErrorCode α} {depth' : Nat} (h : Ran depth ids s r s')
    (hle : depth' ≤ depth) : Ran depth' ids s r s' where
  events := h.events
  frame := by
    obtain ⟨new, hframe⟩ := h.frame
    exact ⟨new, hframe.mono hle fun _ hx => hx⟩
  backup := h.backup
  ok := h.ok

theorem of_error {q : Except ErrorCode α} {r : Except ErrorCode β} (h : Ran depth ids s q s')
    (hr : ∀ b, r = .ok b → ∃ a, q = .ok a) : Ran depth ids s r s' where
  events := h.events
  frame := h.frame
  backup := h.backup
  ok b hb := by
    obtain ⟨a, ha⟩ := hr b hb
    exact h.ok a ha

theorem of_graph {new : List RTNode} {g : RTGraph} (h : Frame depth s.rtgraph ids new g)
    (r : Except ErrorCode α) : Ran depth ids s r { s with rtgraph := g } where
  events := List.prefix_rfl
  frame := ⟨new, h⟩
  backup := id
  ok _ _ := rfl

theorem record (depth : Nat) (ids : List Nat) (s : CCtx ρ) (event : Event ρ)
    (r : Except ErrorCode α) :
    Ran depth ids s r { s with events := s.events ++ [event] } where
  events := List.prefix_append ..
  frame := ⟨[], Frame.refl depth s.rtgraph ids⟩
  backup := id
  ok _ _ := rfl

end Ran

/-- Every run of `runSuccessor` is one as described. -/
def Framed (runSuccessor : SuccessorFn ρ) : Prop :=
  ∀ gid rgp ids depth s r s', 0 < depth → runSuccessor gid rgp ids depth s = some (r, s') →
    Ran depth ids s r s'

section ran

variable {E : Engine ρ} {rs : SuccessorFn ρ} {depth : Nat} {ids : List Nat} {s s' : CCtx ρ}
  {r : Except ErrorCode Unit}

theorem runSuccessors_ran (hrs : Framed rs) {rtsids : List Nat} {entered : RTGraph} :
    ∀ {successors : List (SuccessorInfo ρ)} {s₀ s s' : CCtx ρ} {r : Except ErrorCode Unit},
    Ran (depth + 1) ids s₀ (.ok () : Except ErrorCode Unit) s →
    (∀ si ∈ successors, ∀ x ∈ si.rtInputs, Within s₀.rtgraph ids x) →
    runSuccessors rs rtsids entered depth successors s = some (r, s') →
    Ran (depth + 1) ids s₀ r s'
  | [], s₀, s, s', r, hran, _, h => by
    obtain ⟨rfl, rfl⟩ := Cmd.run_pure_iff.1 h
    exact hran
  | si :: successors, s₀, s, s', r, hran, hwithin, h => by
    have hrecord : Ran (depth + 1) ids s₀ (.ok () : Except ErrorCode Unit)
        (goingOn rtsids entered si depth s) :=
      hran.trans ⟨(), rfl⟩ (Ran.record (depth + 1) ids s _ _) fun x hx => Or.inl hx
    have hsi := hwithin si List.mem_cons_self
    rcases runSuccessors_cons h with ⟨e, he, rfl⟩ | ⟨t, ht, hrest⟩
    · exact hrecord.trans ⟨(), rfl⟩ (hrs _ _ _ _ _ _ _ depth.succ_pos he) hsi
    · have hstep := hrecord.trans ⟨(), rfl⟩ (hrs _ _ _ _ _ _ _ depth.succ_pos ht) hsi
      exact runSuccessors_ran hrs hstep
        (fun si' hmem => hwithin si' (List.mem_cons_of_mem _ hmem)) hrest

theorem getSuccessors_within {base : RTGraph} {gctx : GraphCtx ρ} {d : Nat}
    (hhandled : Handled d base ids gctx) {sis : List (SuccessorInfo ρ)}
    (h : getSuccessors gctx = some sis) : ∀ si ∈ sis, ∀ x ∈ si.rtInputs, Within base ids x := by
  obtain ⟨lists, hlists, rfl⟩ := Option.map_eq_some_iff.1 h
  intro si hsi x hx
  have hmem : x ∈ lists.flatten.flatMap (·.rtInputs) := List.mem_flatMap.2 ⟨si, hsi, hx⟩
  rw [mapM_successorOf hlists] at hmem
  obtain ⟨ctx, hctx, hmem⟩ := List.mem_flatMap.1 hmem
  rcases List.mem_append.1 hmem with hmem | hmem
  · obtain ⟨pos, -, hmem⟩ := List.mem_flatMap.1 hmem
    unfold triggeredSlice at hmem
    cases hsd : gctx.dstGraphDescs[pos]? with
    | none =>
      rw [hsd] at hmem
      cases hmem
    | some sd =>
      rw [hsd] at hmem
      exact hhandled.dests x (List.mem_of_mem_drop (List.mem_of_mem_take hmem))
  · refine hhandled.edges x (List.mem_map.2 ⟨ctx, hctx, ?_⟩)
    unfold StreamCtx.unassigned at hmem
    split at hmem
    · exact (List.mem_singleton.1 hmem).symm
    · cases hmem

theorem runGraphDesc_ran (hrs : Framed rs) (hdepth : depth + 1 ≤ 2 ^ 32)
    {graph_f : GraphFunction ρ} (h : runGraphDesc E rs graph_f ids depth s = some (r, s')) :
    Ran (depth + 1) ids s r s' := by
  rcases runGraphDesc_cases h with ⟨e, rfl, rfl, -⟩ | ⟨report, gctx, hrun, hrest⟩
  · exact Ran.refl ..
  have hhandled := GraphFunction.run_handled hdepth graph_f ids s.rtgraph hrun
  obtain ⟨new, hframe⟩ := hhandled.frame
  have hafter : Ran (depth + 1) ids s (.ok () : Except ErrorCode Unit)
      (afterGraph s graph_f ids gctx.rtgraph) :=
    ⟨List.prefix_append .., ⟨new, hframe⟩, id, fun _ _ => rfl⟩
  rcases hrest with ⟨e, rfl, rfl, -⟩ | ⟨successors, -, -, hsucc, hrest⟩
  · exact hafter.of_error fun _ hr => by cases hr
  · exact runSuccessors_ran hrs hafter (getSuccessors_within hhandled hsucc) hrest

theorem runSupervisedGraphID_ran (hrs : Framed rs) (hdepth : depth + 1 ≤ 2 ^ 32) {gid : GraphID}
    {rgp : Option ρ} (h : runSupervisedGraphID E rs gid rgp ids depth s = some (r, s')) :
    Ran (depth + 1) ids s r s' := by
  cases runSupervisedGraphID_cases h with
  | missing => exact Ran.refl ..
  | unfit _ hadapt =>
    obtain ⟨⟨new, hframe⟩, -⟩ := adaptInputs_frame hdepth hadapt
    exact Ran.of_graph hframe _
  | @stored masks g rtsid hadapt =>
    obtain ⟨⟨new, hframe⟩, -, hwithin⟩ := adaptInputs_frame hdepth hadapt
    refine Ran.of_graph (hframe.trans (storeStream_frame (depth + 1) g rtsid) fun x hx => ?_) _
    exact hwithin _ rfl x hx
  | graph _ _ hadapt hrun =>
    obtain ⟨⟨new, hframe⟩, -, hwithin⟩ := adaptInputs_frame hdepth hadapt
    exact (Ran.of_graph hframe (.ok () : Except ErrorCode Unit)).trans ⟨(), rfl⟩
      (runGraphDesc_ran hrs hdepth hrun) (hwithin _ rfl)

theorem FallsBack.ran (hrs : Framed rs) (hdepth : depth + 1 ≤ 2 ^ 32) {gid : GraphID}
    {rgp : Option ρ} {t : CCtx ρ} {g : RTGraph} (h : FallsBack E rs gid rgp ids depth s t g) :
    s.inBackupMode = false ∧ g = ⟨s.rtgraph.nodes, t.rtgraph.streams.take s.rtgraph.streams.length⟩ ∧
      s.events <+: t.events ∧ Frame (depth + 1) s.rtgraph ids [] g := by
  obtain ⟨e, hrun⟩ := h.failed
  have hran := runSupervisedGraphID_ran hrs hdepth hrun
  obtain ⟨new, hframe⟩ := hran.frame
  have hg := h.cleared
  rw [hframe.clearNodesFrom] at hg
  obtain ⟨-, rfl⟩ := Prod.mk.inj (Option.some.inj hg)
  refine ⟨?_, rfl, hran.events, hframe.truncate⟩
  cases hon : s.inBackupMode with
  | false => rfl
  | true =>
    have := hran.backup hon
    rw [h.off] at this
    cases this

theorem runSuccessor_internal_ran (hrs : Framed rs) (hdepth : depth + 1 ≤ 2 ^ 32) {gid : GraphID}
    {rgp : Option ρ} (h : runSuccessor_internal E rs gid rgp ids depth s = some (r, s')) :
    Ran (depth + 1) ids s r s' := by
  cases runSuccessor_internal_cases h with
  | small _ hrun => exact runSupervisedGraphID_ran hrs hdepth hrun
  | done hrun => exact runSupervisedGraphID_ran hrs hdepth hrun
  | failed hrun _ => exact runSupervisedGraphID_ran hrs hdepth hrun
  | @backedUp t u g hfalls hrun =>
    obtain ⟨hoff, -, hevents, hframe⟩ := hfalls.ran hrs hdepth
    have hran := runSupervisedGraphID_ran hrs hdepth hrun
    obtain ⟨new, hframe'⟩ := hran.frame
    refine ⟨hevents.trans ((List.prefix_append ..).trans hran.events),
      ⟨_, hframe.trans hframe' fun _ hx => Or.inl hx⟩, fun hon => ?_, fun _ _ => hoff.symm⟩
    rw [hoff] at hon
    cases hon
  | @backupFailed e t s' g hfalls hrun =>
    obtain ⟨hoff, -, hevents, hframe⟩ := hfalls.ran hrs hdepth
    have hran := runSupervisedGraphID_ran hrs hdepth hrun
    obtain ⟨new, hframe'⟩ := hran.frame
    exact ⟨hevents.trans ((List.prefix_append ..).trans hran.events),
      ⟨_, hframe.trans hframe' fun _ hx => Or.inl hx⟩, fun _ => hran.backup rfl,
      fun _ hr => by cases hr⟩

theorem runSuccessorStep_ran (hrs : Framed rs) (hpos : 0 < depth) {gid : GraphID}
    {rgp : Option ρ} (h : runSuccessorStep E rs gid rgp ids depth s = some (r, s')) :
    Ran depth ids s r s' := by
  obtain ⟨hlt, hstepped⟩ := runSuccessorStep_cases hpos h
  cases hstepped with
  | tooDeep => exact Ran.refl ..
  | segmenter => exact Ran.refl ..
  | @ran _ _ t _ hrun hend =>
    have hguard : Ran depth ids s (.ok () : Except ErrorCode Unit) (guarded depth ids s) :=
      Ran.of_graph (guardSlots_frame depth hpos s.rtgraph ids) _
    have hran := hguard.trans ⟨(), rfl⟩
      ((runSuccessor_internal_ran hrs hlt hrun).mono (Nat.le_succ depth)) fun _ hx => Or.inl hx
    rcases hend with rfl | rfl
    · exact hran
    · obtain ⟨new, hframe⟩ := hran.frame
      exact ⟨hran.events, ⟨_, hframe.trans (clearSlots_frame hlt t.rtgraph ids)
        fun _ hx => Or.inl hx⟩, hran.backup, hran.ok⟩

end ran

/-- **Every run of the engine.** -/
theorem runSuccessor_ran (E : Engine ρ) (fuel : Nat) : Framed (runSuccessor E fuel) := by
  induction fuel with
  | zero =>
    intro gid rgp ids depth s r s' _ h
    cases h
  | succ fuel ih =>
    intro gid rgp ids depth s r s' hpos h
    exact runSuccessorStep_ran ih hpos h

end OpenZL.Compress
