import OpenZL.Compress.Refusals

/-!
# Fallbacks and the use of streams, over whole runs

In a fine run, a graph that fails and is replaced leaves nothing behind: its backup starts on the
graph there was before the attempt.

Principal results: `Ready.trans`, `Ready.finish`, `runSuccessor_settles`.
-/

namespace OpenZL.Compress

open OpenZL.Lib RTGraph GraphCtx CCtx

variable {ρ : Type}

/-- A run on the streams `ids` of `base` has used them, and what it has made. -/
structure Finished (E : Engine ρ) (once : Prop) (base : RTGraph) (ids : List Nat)
    (g : RTGraph) : Prop where
  steps : Extends E base g
  sound : Sound once g
  used : ∀ x ∈ ids, g.Used x
  outs : ∀ node ∈ g.nodes.drop base.nodes.length, ∀ x, node.Puts x → g.Used x

section ready

variable {E : Engine ρ} {once : Prop} {depth : Nat} {base g g' : RTGraph}
  {ids mid rest : List Nat} {new new' : List RTNode}

theorem Ready.trans {d : Nat} (h : Ready E once depth base ids mid g)
    (hframe : Frame d base ids new g) (h' : Ready E once depth g mid rest g')
    (hframe' : Frame d g mid new' g') : Ready E once depth base ids rest g' where
  steps := h.steps.trans h'.steps
  sound := h'.sound
  nodup := h'.nodup
  free := h'.free
  inputs x hx := by
    rcases h.inputs x hx with hmid | hused
    · exact h'.inputs x hmid
    · exact Or.inr (hframe'.used_mono hused)
  outs node hnode x hx := by
    have hle : base.nodes.length ≤ g.nodes.length := by
      rw [hframe.nodes, List.length_append]
      omega
    rw [hframe'.nodes, List.drop_append_of_le_length hle] at hnode
    rcases List.mem_append.1 hnode with hold | hnew
    · rcases h.outs node hold x hx with hmid | hused
      · exact h'.inputs x hmid
      · exact Or.inr (hframe'.used_mono hused)
    · refine h'.outs node ?_ x hx
      rwa [hframe'.nodes, List.drop_left]

theorem Finished.ready {d : Nat} (h : Finished E once g mid g') (hframe : Frame d g mid new g')
    (hnodup : (mid ++ rest).Nodup) (hfree : ∀ x ∈ rest, g.Free depth x) :
    Ready E once depth g (mid ++ rest) rest g' where
  steps := h.steps
  sound := h.sound
  nodup := (List.nodup_append'.1 hnodup).2.1
  free x hx := hframe.free (fun hmid => (List.nodup_append'.1 hnodup).2.2 hmid hx) (hfree x hx)
  inputs x hx := by
    rcases List.mem_append.1 hx with hmid | hrest
    · exact Or.inr (h.used x hmid)
    · exact Or.inl hrest
  outs node hnode x hx := Or.inr (h.outs node hnode x hx)

theorem Ready.finish (h : Ready E once depth base ids [] g) : Finished E once base ids g where
  steps := h.steps
  sound := h.sound
  used x hx := (h.inputs x hx).resolve_left List.not_mem_nil
  outs node hnode x hx := (h.outs node hnode x hx).resolve_left List.not_mem_nil

theorem Ready.then_finished {d : Nat} (h : Ready E once depth base ids mid g)
    (hframe : Frame d base ids new g) (h' : Finished E once g mid g')
    (hframe' : Frame d g mid new' g') : Finished E once base ids g' := by
  have hready : Ready E once depth g (mid ++ []) [] g' :=
    h'.ready hframe' (by simpa using h.nodup) (by simp)
  rw [List.append_nil] at hready
  exact (h.trans hframe hready hframe').finish

theorem Ready.of_perm {left : List Nat} (h : Ready E once depth base ids left g)
    (hperm : rest.Perm left) : Ready E once depth base ids rest g where
  steps := h.steps
  sound := h.sound
  nodup := hperm.nodup_iff.2 h.nodup
  free x hx := h.free x (hperm.mem_iff.1 hx)
  inputs x hx := (h.inputs x hx).imp_left hperm.mem_iff.2
  outs node hnode x hx := (h.outs node hnode x hx).imp_left hperm.mem_iff.2

end ready

theorem Finished.storeStream {E : Engine ρ} {once : Prop} {depth rtsid : Nat} {g : RTGraph}
    (hsound : Sound once g) (hfree : g.Free depth rtsid) :
    Finished E once g [rtsid]
      ⟨g.nodes, g.streams.modify rtsid ({ · with toStore := true })⟩ where
  steps := (Extends.refl E g).tail (.storeStream hfree.alive)
  sound := hsound.storeStream hfree.unread
  used x hx := by
    obtain ⟨slot, hslot, -⟩ := hfree.slot
    have hget : (g.streams.modify rtsid ({ · with toStore := true }))[rtsid]? =
        some { slot with toStore := true } := by
      rw [List.getElem?_modify_eq, hslot]
      rfl
    rw [List.mem_singleton.1 hx]
    exact Or.inr (RTGraph.isStored_eq (g := ⟨g.nodes, _⟩) hget)
  outs node hnode := by
    rw [List.drop_length] at hnode
    cases hnode

theorem mem_flatMap_pending {ctxs : List StreamCtx} {x : Nat} :
    x ∈ ctxs.flatMap StreamCtx.pending ↔ (x, false) ∈ ctxs.map StreamCtx.use := by
  rw [List.mem_flatMap, List.mem_map]
  refine exists_congr fun ctx => and_congr_right fun _ => ?_
  unfold StreamCtx.pending StreamCtx.use
  cases ctx.dest_set <;> simp [eq_comm]

theorem flatMap_pending_sublist (ctxs : List StreamCtx) :
    (ctxs.flatMap StreamCtx.pending).Sublist (ctxs.map (·.rtsid)) := by
  induction ctxs with
  | nil => exact List.Sublist.refl _
  | cons ctx ctxs ih =>
    rw [List.flatMap_cons, List.map_cons, ← List.singleton_append]
    refine List.Sublist.append ?_ ih
    unfold StreamCtx.pending
    split
    · exact List.nil_sublist _
    · exact List.Sublist.refl _

theorem Linked.ready {E : Engine ρ} {once : Prop} {depth : Nat} {base : RTGraph} {ids : List Nat}
    {gctx : GraphCtx ρ} (h : Linked E once depth base ids gctx) :
    Ready E once depth base ids (gctx.streamCtxs.flatMap StreamCtx.pending) gctx.rtgraph := by
  have hcover : ∀ x ∈ gctx.streamCtxs.map (·.rtsid),
      x ∈ gctx.streamCtxs.flatMap StreamCtx.pending ∨ gctx.rtgraph.Used x := by
    intro x hx
    obtain ⟨ctx, hctx, rfl⟩ := List.mem_map.1 hx
    have huse : ctx.use ∈ gctx.streamCtxs.map StreamCtx.use := List.mem_map_of_mem hctx
    unfold StreamCtx.use at huse
    cases hp : decide (ctx.dest_set = .processed) with
    | true => exact Or.inr (h.processed _ (hp ▸ huse))
    | false => exact Or.inl (mem_flatMap_pending.2 (hp ▸ huse))
  exact
    { steps := h.steps
      sound := h.sound
      nodup := h.nodup.sublist (flatMap_pending_sublist _)
      free := fun x hx => h.pending x (mem_flatMap_pending.1 hx)
      inputs := fun x hx => hcover x (h.inputs x hx)
      outs := fun node hnode x hx => hcover x (h.outs node hnode x hx) }

/-- A fallback starts on the graph there was before the attempt, and its streams can be read. -/
def Event.Clean : Event ρ → Prop
  | .fellBack rtsids before started => started = before ∧ ∀ x ∈ rtsids, before.Alive x
  | .ranGraph _ _ => True
  | .wentOn _ _ _ _ _ => True

/-- A run on the streams `ids` of `base` has ended in `s'` with the outcome `r`. -/
structure Settles (E : Engine ρ) (once : Prop) (base : RTGraph) (ids : List Nat)
    (r : Except ErrorCode Unit) (s' : CCtx ρ) : Prop where
  clean : ∀ event ∈ s'.events, event.Clean
  finished : r = .ok () → Finished E once base ids s'.rtgraph

/-- Every fine run of `runSuccessor` on free streams of a sound graph settles. -/
def Linear (E : Engine ρ) (once : Prop) (runSuccessor : SuccessorFn ρ) : Prop :=
  ∀ gid rgp ids depth s r s', 0 < depth → runSuccessor gid rgp ids depth s = some (r, s') →
    Sound once s.rtgraph → ids.Nodup → (∀ x ∈ ids, s.rtgraph.Free depth x) →
    (∀ event ∈ s'.events, event.Fine E once) → (∀ event ∈ s.events, event.Clean) →
    Settles E once s.rtgraph ids r s'

section settles

variable {E : Engine ρ} {rs : SuccessorFn ρ} {once : Prop} {depth : Nat} {ids : List Nat}
  {s s' : CCtx ρ} {r : Except ErrorCode Unit}

theorem mem_append_singleton {P : Event ρ → Prop} {events : List (Event ρ)} {event : Event ρ}
    (h : ∀ event ∈ events, P event) (hevent : P event) : ∀ e ∈ events ++ [event], P e := by
  intro e he
  rcases List.mem_append.1 he with he | he
  · exact h e he
  · rw [List.mem_singleton.1 he]
    exact hevent

theorem runSuccessors_settles (hrs : Framed rs) (hlin : Linear E once rs) {rtsids : List Nat}
    {entered base : RTGraph} :
    ∀ {successors : List (SuccessorInfo ρ)} {s s' : CCtx ρ} {r : Except ErrorCode Unit}
      {new : List RTNode},
    Frame (depth + 1) base ids new s.rtgraph →
    Ready E once (depth + 1) base ids (successors.flatMap (·.rtInputs)) s.rtgraph →
    (∀ x ∈ successors.flatMap (·.rtInputs), Within base ids x) →
    runSuccessors rs rtsids entered depth successors s = some (r, s') →
    (∀ event ∈ s'.events, event.Fine E once) → (∀ event ∈ s.events, event.Clean) →
    Settles E once base ids r s'
  | [], s, s', r, new, _, hready, _, h, _, hclean => by
    obtain ⟨rfl, rfl⟩ := Cmd.run_pure_iff.1 h
    exact ⟨hclean, fun _ => hready.finish⟩
  | si :: successors, s, s', r, new, hframe, hready, hwithin, h, hfine, hclean => by
    rw [List.flatMap_cons] at hready hwithin
    have hclean' : ∀ event ∈ s.events ++ [.wentOn rtsids entered s.rtgraph si depth],
        event.Clean := mem_append_singleton hclean trivial
    have hnodup : si.rtInputs.Nodup := (List.nodup_append'.1 hready.nodup).1
    have hfree : ∀ x ∈ si.rtInputs, s.rtgraph.Free (depth + 1) x := fun x hx =>
      hready.free x (List.mem_append_left _ hx)
    rcases runSuccessors_cons h with ⟨e, he, rfl⟩ | ⟨t, ht, hrest⟩
    · have hsettles := hlin _ _ _ _ _ _ _ depth.succ_pos he hready.sound hnodup hfree hfine hclean'
      exact ⟨hsettles.clean, fun hr => by cases hr⟩
    · have hchild := hrs _ _ _ _ _ _ _ depth.succ_pos ht
      have hlater : t.events <+: s'.events :=
        (runSuccessors_ran hrs (Ran.refl (depth + 1) (successors.flatMap (·.rtInputs)) t _)
          (fun si' hsi' x hx => Or.inl (List.mem_flatMap.2 ⟨si', hsi', hx⟩)) hrest).events
      have hsettles := hlin _ _ _ _ _ _ _ depth.succ_pos ht hready.sound hnodup hfree
        (fun event he => hfine event (hlater.subset he)) hclean'
      obtain ⟨new', hframe'⟩ := hchild.frame
      have hleft : Ready E once (depth + 1) base ids (successors.flatMap (·.rtInputs)) t.rtgraph :=
        hready.trans hframe ((hsettles.finished rfl).ready hframe' hready.nodup fun x hx =>
          hready.free x (List.mem_append_right _ hx))
          (hframe'.mono (Nat.le_refl _) fun x hx => List.mem_append_left _ hx)
      refine runSuccessors_settles hrs hlin
        (hframe.trans hframe' fun x hx => hwithin x (List.mem_append_left _ hx)) hleft
        (fun x hx => hwithin x (List.mem_append_right _ hx)) hrest hfine hsettles.clean

theorem runGraphDesc_settles (hrs : Framed rs) (hlin : Linear E once rs)
    (hdepth : depth + 1 ≤ 2 ^ 32) {graph_f : GraphFunction ρ}
    (h : runGraphDesc E rs graph_f ids depth s = some (r, s')) (hsound : Sound once s.rtgraph)
    (hnodup : ids.Nodup) (hfree : ∀ x ∈ ids, s.rtgraph.Free (depth + 1) x)
    (hfine : ∀ event ∈ s'.events, event.Fine E once) (hclean : ∀ event ∈ s.events, event.Clean) :
    Settles E once s.rtgraph ids r s' := by
  rcases runGraphDesc_cases h with ⟨_, rfl, rfl, -⟩ | ⟨report, gctx, hf, hrest⟩
  · exact ⟨hclean, fun hr => by cases hr⟩
  have hclean' : ∀ event ∈ (afterGraph s graph_f ids gctx.rtgraph).events, event.Clean :=
    mem_append_singleton hclean trivial
  rcases hrest with ⟨_, rfl, rfl, -⟩ | ⟨successors, rfl, hstatus, hsucc, hsuccs⟩
  · exact ⟨hclean', fun hr => by cases hr⟩
  have hhandled := GraphFunction.run_handled hdepth graph_f ids s.rtgraph hf
  have hwithin := getSuccessors_within hhandled hsucc
  obtain ⟨new, hframe⟩ := hhandled.frame
  have hlater : (afterGraph s graph_f ids gctx.rtgraph).events <+: s'.events :=
    (runSuccessors_ran hrs (Ran.refl (depth + 1) (successors.flatMap (·.rtInputs)) _ _)
      (fun si' hsi' x hx => Or.inl (List.mem_flatMap.2 ⟨si', hsi', hx⟩)) hsuccs).events
  have hcareful : graph_f.FailsClean E (initGraph ids s.rtgraph) ∧
      (once → graph_f.ListsOnce E (initGraph ids s.rtgraph)) :=
    hfine (.ranGraph graph_f (initGraph ids s.rtgraph)) (hlater.subset (by simp [afterGraph]))
      gctx hf hstatus
  have hlinked := GraphFunction.run_linked hdepth depth.succ_pos hsound hnodup hfree hcareful.1
    hcareful.2 hf
  have hready := hlinked.ready.of_perm
    (getSuccessors_perm (GraphFunction.run_routing hcareful.1 hf) hsucc)
  refine runSuccessors_settles hrs hlin hframe hready (fun x hx => ?_) hsuccs hfine hclean'
  obtain ⟨si, hsi, hx⟩ := List.mem_flatMap.1 hx
  exact hwithin si hsi x hx

theorem runSupervisedGraphID_settles (hrs : Framed rs) (hlin : Linear E once rs)
    (hdepth : depth + 1 ≤ 2 ^ 32) {gid : GraphID} {rgp : Option ρ}
    (h : runSupervisedGraphID E rs gid rgp ids depth s = some (r, s'))
    (hsound : Sound once s.rtgraph) (hnodup : ids.Nodup)
    (hfree : ∀ x ∈ ids, s.rtgraph.Free (depth + 1) x)
    (hfine : ∀ event ∈ s'.events, event.Fine E once) (hclean : ∀ event ∈ s.events, event.Clean) :
    Settles E once s.rtgraph ids r s' := by
  cases runSupervisedGraphID_cases h with
  | missing => exact ⟨hclean, fun hr => by cases hr⟩
  | unfit => exact ⟨hclean, fun hr => by cases hr⟩
  | @stored masks g rtsid hadapt =>
    refine ⟨hclean, fun _ => ?_⟩
    obtain ⟨⟨_, hframe⟩, -, -⟩ := adaptInputs_frame hdepth hadapt
    have hready := adaptInputs_ready hdepth depth.succ_pos hsound hnodup hfree hadapt
    have hrtsid := hready.free rtsid (List.mem_singleton_self rtsid)
    exact hready.then_finished hframe (Finished.storeStream hready.sound hrtsid)
      (storeStream_frame (depth + 1) g rtsid)
  | @graph desc graph_f g rtsids _ _ _ _ hadapt hrun =>
    obtain ⟨⟨_, hframe⟩, -, -⟩ := adaptInputs_frame hdepth hadapt
    have hready := adaptInputs_ready hdepth depth.succ_pos hsound hnodup hfree hadapt
    have hsettles := runGraphDesc_settles hrs hlin hdepth hrun hready.sound hready.nodup
      hready.free hfine hclean
    refine ⟨hsettles.clean, fun hr => ?_⟩
    obtain ⟨new, hframe'⟩ := (runGraphDesc_ran hrs hdepth hrun).frame
    exact hready.then_finished hframe (hsettles.finished hr) hframe'

theorem FallsBack.restores (hrs : Framed rs) (hexp : Explains E rs) (hdepth : depth + 1 ≤ 2 ^ 32)
    (hfree : ∀ x ∈ ids, s.rtgraph.Free (depth + 1) x)
    (hrank : ∀ x ∈ ids, ∀ slot, s.rtgraph.streams[x]? = some slot → 0 < slot.protectRank)
    {gid : GraphID} {rgp : Option ρ} {t : CCtx ρ} {g : RTGraph}
    (h : FallsBack E rs gid rgp ids depth s t g)
    (hfine : ∀ event ∈ t.events, event.Fine E once) : g = s.rtgraph := by
  obtain ⟨hoff, hg, -, -⟩ := h.ran hrs hdepth
  obtain ⟨e, hrun⟩ := h.failed
  obtain ⟨new, hframe⟩ := (runSupervisedGraphID_ran hrs hdepth hrun).frame
  have hmarks := failed_marks hrs hexp h.permissive h.below hdepth hoff
    (fun x hx => (hfree x hx).lt) hrun hfine h.off
  rw [hg]
  refine hframe.take_eq (fun x hx slot hslot => ⟨hrank x hx slot hslot, ?_⟩) hmarks
  obtain ⟨slot', hslot', -, -, hlt⟩ := (hfree x hx).slot
  obtain rfl := Option.some.inj (hslot'.symm.trans hslot)
  exact hlt

theorem runSuccessor_internal_settles (hrs : Framed rs) (hexp : Explains E rs)
    (hlin : Linear E once rs) (hdepth : depth + 1 ≤ 2 ^ 32) {gid : GraphID} {rgp : Option ρ}
    (h : runSuccessor_internal E rs gid rgp ids depth s = some (r, s'))
    (hsound : Sound once s.rtgraph) (hnodup : ids.Nodup)
    (hfree : ∀ x ∈ ids, s.rtgraph.Free (depth + 1) x)
    (hrank : ∀ x ∈ ids, ∀ slot, s.rtgraph.streams[x]? = some slot → 0 < slot.protectRank)
    (hfine : ∀ event ∈ s'.events, event.Fine E once) (hclean : ∀ event ∈ s.events, event.Clean) :
    Settles E once s.rtgraph ids r s' := by
  have hbackup : ∀ {t u : CCtx ρ} {g : RTGraph} {q : Except ErrorCode Unit},
      FallsBack E rs gid rgp ids depth s t g →
      runSupervisedGraphID E rs .COMPRESS_GENERIC none ids depth (backupState s t ids g) =
        some (q, u) → (∀ event ∈ u.events, event.Fine E once) →
      Settles E once s.rtgraph ids q u := by
    intro t u g q hfalls hrun hfine'
    have hkept : t.events <+: u.events :=
      (List.prefix_append ..).trans (runSupervisedGraphID_ran hrs hdepth hrun).events
    have hfineT : ∀ event ∈ t.events, event.Fine E once := fun event he =>
      hfine' event (hkept.subset he)
    obtain rfl := hfalls.restores hrs hexp hdepth hfree hrank hfineT
    obtain ⟨e, hfailed⟩ := hfalls.failed
    have hfirst := runSupervisedGraphID_settles hrs hlin hdepth hfailed hsound hnodup hfree hfineT
      hclean
    have hundone : (Event.fellBack ids s.rtgraph s.rtgraph : Event ρ).Clean :=
      ⟨rfl, fun x hx => (hfree x hx).alive⟩
    exact runSupervisedGraphID_settles (s := backupState s t ids s.rtgraph) hrs hlin hdepth hrun
      hsound hnodup hfree hfine' (mem_append_singleton hfirst.clean hundone)
  cases runSuccessor_internal_cases h with
  | small _ hrun =>
    exact runSupervisedGraphID_settles hrs hlin hdepth hrun hsound hnodup hfree hfine hclean
  | done hrun =>
    exact runSupervisedGraphID_settles hrs hlin hdepth hrun hsound hnodup hfree hfine hclean
  | failed hrun _ =>
    exact runSupervisedGraphID_settles hrs hlin hdepth hrun hsound hnodup hfree hfine hclean
  | backedUp hfalls hrun =>
    have hsettles := hbackup hfalls hrun hfine
    exact ⟨hsettles.clean, hsettles.finished⟩
  | backupFailed hfalls hrun => exact hbackup hfalls hrun hfine

theorem guarded_free (hpos : 0 < depth) {x : Nat} (hx : x ∈ ids)
    (hfree : s.rtgraph.Free depth x) : (guarded depth ids s).rtgraph.Free (depth + 1) x where
  slot := by
    obtain ⟨slot, hslot, hsome, hstored, hlt⟩ := hfree.slot
    refine ⟨guardSlot depth slot, ?_, ?_⟩
    · rw [guarded]
      rw [getElem?_guardSlots hpos, if_pos hx, hslot]
      rfl
    · unfold guardSlot
      split
      · exact ⟨hsome, hstored, Nat.lt_succ_self depth⟩
      · exact ⟨hsome, hstored, hlt.trans (Nat.lt_succ_self depth)⟩
  unread := hfree.unread

theorem guarded_rank (hpos : 0 < depth) {x : Nat} (hx : x ∈ ids) {slot : RTCStream}
    (hslot : (guarded depth ids s).rtgraph.streams[x]? = some slot) : 0 < slot.protectRank := by
  rw [guarded] at hslot
  dsimp only at hslot
  rw [getElem?_guardSlots hpos, if_pos hx] at hslot
  obtain ⟨old, -, rfl⟩ := Option.map_eq_some_iff.1 hslot
  unfold guardSlot
  split
  · exact hpos
  · omega

theorem runSuccessorStep_settles (hrs : Framed rs) (hexp : Explains E rs)
    (hlin : Linear E once rs) : Linear E once (runSuccessorStep E rs) := by
  intro gid rgp ids depth s r s' hpos h hsound hnodup hfree hfine hclean
  obtain ⟨hlt, hstepped⟩ := runSuccessorStep_cases hpos h
  cases hstepped with
  | tooDeep => exact ⟨hclean, fun hr => by cases hr⟩
  | segmenter => exact ⟨hclean, fun hr => by cases hr⟩
  | @ran _ _ t _ hrun hend =>
    have hsound' : Sound once (guarded depth ids s).rtgraph :=
      hsound.of_streams (guardSlots_frame depth hpos s.rtgraph ids).length_le
        fun x _ => noNewMarks_guarded depth hpos ids s x
    have hevents : s'.events = t.events := by
      rcases hend with rfl | rfl <;> rfl
    have hsettles := runSuccessor_internal_settles hrs hexp hlin hlt hrun hsound' hnodup
      (fun x hx => guarded_free hpos hx (hfree x hx)) (fun x hx slot => guarded_rank hpos hx)
      (by rwa [← hevents]) hclean
    refine ⟨by rw [hevents]; exact hsettles.clean, fun hr => ?_⟩
    have hfin := hsettles.finished hr
    have hguard : Extends E s.rtgraph (guarded depth ids s).rtgraph :=
      Extends.guardSlots depth ids s.rtgraph
    rcases hend with rfl | rfl
    · exact ⟨hguard.trans hfin.steps, hfin.sound, hfin.used, hfin.outs⟩
    · have hclear := clearSlots_frame hlt t.rtgraph ids
      exact
        { steps := (hguard.trans hfin.steps).trans (Extends.clearSlots depth ids t.rtgraph)
          sound := hfin.sound.of_streams hclear.length_le
            fun x _ => noNewMarks_cleared depth ids t x
          used := fun x hx => hclear.used_mono (hfin.used x hx)
          outs := fun node hnode x hx => hclear.used_mono (hfin.outs node hnode x hx) }

end settles

/-- **Every run of the engine** from free streams of a sound graph. -/
theorem runSuccessor_settles (E : Engine ρ) (once : Prop) (fuel : Nat) :
    Linear E once (runSuccessor E fuel) := by
  induction fuel with
  | zero =>
    intro gid rgp ids depth s r s' _ h
    cases h
  | succ fuel ih =>
    exact runSuccessorStep_settles (runSuccessor_ran E fuel) (runSuccessor_explains E fuel) ih

end OpenZL.Compress
