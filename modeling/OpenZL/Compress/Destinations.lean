import OpenZL.Compress.EdgeUse
import Mathlib.Data.List.Range

/-!
# Where the streams of a graph function go

The destinations that a graph function sets are slices of one table of streams.

Principal results: `GraphFunction.run_routing`, `getSuccessors_perm`.
-/

namespace OpenZL.Compress

open OpenZL.Lib GraphCtx

variable {ρ : Type}

namespace StreamCtx

/-- The destination that an edge triggers. -/
def triggered (ctx : StreamCtx) : List Nat :=
  match ctx.dest_set with
  | .trigger => [ctx.successionPos]
  | _ => []

/-- The stream of an edge that was given to a destination. -/
def assigned (ctx : StreamCtx) : List Nat :=
  match ctx.dest_set with
  | .trigger => [ctx.rtsid]
  | .follow => [ctx.rtsid]
  | _ => []

/-- The stream of an edge that nothing has become of. -/
def unassigned (ctx : StreamCtx) : List Nat :=
  match ctx.dest_set with
  | .unassigned => [ctx.rtsid]
  | _ => []

/-- The stream of an edge that is not processed. -/
def pending (ctx : StreamCtx) : List Nat :=
  match ctx.dest_set with
  | .processed => []
  | _ => [ctx.rtsid]

theorem assigned_append_unassigned (ctx : StreamCtx) :
    ctx.assigned ++ ctx.unassigned = ctx.pending := by
  unfold assigned unassigned pending
  cases ctx.dest_set <;> rfl

end StreamCtx

/-- The destinations are slices that lie one behind the other, from `start` to `stop`. -/
def Tiles : Nat → List (DestGraphDesc ρ) → Nat → Prop
  | start, [], stop => start = stop
  | start, sd :: sds, stop => sd.rtiStartIdx = start ∧ Tiles (start + sd.nbInputs) sds stop

/-- The streams of a destination. -/
def slice (rtsids : List Nat) (sd : DestGraphDesc ρ) : List Nat :=
  (rtsids.drop sd.rtiStartIdx).take sd.nbInputs

theorem Tiles.append : ∀ {start stop : Nat} {sds : List (DestGraphDesc ρ)} {sd : DestGraphDesc ρ},
    Tiles start sds stop → sd.rtiStartIdx = stop → Tiles start (sds ++ [sd]) (stop + sd.nbInputs)
  | _, _, [], _, h, hsd => ⟨hsd.trans h.symm, by rw [h]; rfl⟩
  | _, _, _ :: _, _, ⟨hstart, h⟩, hsd => ⟨hstart, h.append hsd⟩

theorem Tiles.le : ∀ {start stop : Nat} {sds : List (DestGraphDesc ρ)},
    Tiles start sds stop → start ≤ stop
  | _, _, [], h => Nat.le_of_eq h
  | _, _, _ :: _, ⟨_, h⟩ => (Nat.le_add_right _ _).trans h.le

theorem Tiles.flatMap_slice (rtsids : List Nat) : ∀ {start stop : Nat}
    {sds : List (DestGraphDesc ρ)}, Tiles start sds stop →
    sds.flatMap (slice rtsids) = (rtsids.drop start).take (stop - start)
  | start, stop, [], h => by
    obtain rfl : start = stop := h
    rw [Nat.sub_self, List.take_zero]
    rfl
  | start, stop, sd :: sds, ⟨hstart, h⟩ => by
    have hle := h.le
    rw [List.flatMap_cons, Tiles.flatMap_slice rtsids h, slice, hstart, ← List.drop_drop,
      ← List.take_add]
    congr 1
    omega

/-- The edges of a graph function and its destinations fit together; `n` edges have been given to
one that is being set. -/
structure Routing (n : Nat) (s : GraphCtx ρ) : Prop where
  triggers : (s.streamCtxs.flatMap StreamCtx.triggered).Perm
    (List.range (s.dstGraphDescs.length + min n 1))
  assigned : s.rtsids.Perm (s.streamCtxs.flatMap StreamCtx.assigned)
  tiles : Tiles 0 s.dstGraphDescs (s.rtsids.length - n)
  le : n ≤ s.rtsids.length

namespace Routing

variable {s s' : GraphCtx ρ}

theorem triggered_nil {ctx : StreamCtx}
    (h : ctx.dest_set = .unassigned ∨ ctx.dest_set = .processed) : ctx.triggered = [] := by
  unfold StreamCtx.triggered
  rcases h with h | h <;> rw [h]

theorem assigned_nil {ctx : StreamCtx}
    (h : ctx.dest_set = .unassigned ∨ ctx.dest_set = .processed) : ctx.assigned = [] := by
  unfold StreamCtx.assigned
  rcases h with h | h <;> rw [h]

theorem flatMap_init {β : Type} {f : StreamCtx → List β}
    (hf : ∀ ctx, ctx.dest_set = .unassigned ∨ ctx.dest_set = .processed → f ctx = [])
    (rtsids : List Nat) : (rtsids.map StreamCtx.init).flatMap f = [] := by
  rw [List.flatMap_map]
  exact List.flatMap_eq_nil_iff.2 fun _ _ => hf _ (Or.inl rfl)

theorem init (ids : List Nat) (g : RTGraph) : Routing 0 (CCtx.initGraph (ρ := ρ) ids g) where
  triggers := by
    change ((ids.map StreamCtx.init).flatMap StreamCtx.triggered).Perm []
    rw [flatMap_init fun _ => triggered_nil]
  assigned := by
    change List.Perm [] ((ids.map StreamCtx.init).flatMap StreamCtx.assigned)
    rw [flatMap_init fun _ => assigned_nil]
  tiles := rfl
  le := Nat.le_refl _

theorem flatMap_setProcessed {β : Type} {f : StreamCtx → List β}
    (hf : ∀ ctx, ctx.dest_set = .unassigned ∨ ctx.dest_set = .processed → f ctx = []) :
    ∀ {edges : List Nat} {ctxs : List StreamCtx},
    (∀ edge ∈ edges, ∃ ctx, ctxs[edge]? = some ctx ∧
      (ctx.dest_set = .unassigned ∨ ctx.dest_set = .processed)) →
    (setProcessed edges ctxs).flatMap f = ctxs.flatMap f
  | [], _, _ => rfl
  | edge :: edges, ctxs, h => by
    obtain ⟨ctx, hctx, hset⟩ := h edge (by simp)
    have hstep : (ctxs.modify edge (·.setDest .processed)).flatMap f = ctxs.flatMap f :=
      flatMap_modify_eq hctx (by rw [hf ctx hset, hf _ (Or.inr rfl)])
    refine (@flatMap_setProcessed β f hf edges _ fun x hx => ?_).trans hstep
    obtain ⟨c, hc, hcset⟩ := h x (List.mem_cons_of_mem _ hx)
    by_cases heq : edge = x
    · subst heq
      refine ⟨_, by rw [List.getElem?_modify_eq, hc]; rfl, Or.inr rfl⟩
    · exact ⟨c, by rw [List.getElem?_modify_ne _ _ heq, hc], hcset⟩

theorem flatMap_ran {β : Type} {f : StreamCtx → List β} {edges : List Nat}
    (hf : ∀ ctx, ctx.dest_set = .unassigned ∨ ctx.dest_set = .processed → f ctx = [])
    (hedges : ∀ edge ∈ edges, s.Unassigned edge) (rtosids : List Nat) :
    (setProcessed edges s.streamCtxs ++ rtosids.map StreamCtx.init).flatMap f =
      s.streamCtxs.flatMap f := by
  rw [List.flatMap_append, flatMap_init hf, List.append_nil]
  exact flatMap_setProcessed hf fun edge hedge => by
    obtain ⟨ctx, hctx, hset⟩ := hedges edge hedge
    exact ⟨ctx, hctx, Or.inl hset⟩

theorem runMultiInputNode (h : Routing 0 s) {E : Engine ρ} {edges : List Nat} {nodeid : NodeID}
    {localParams : Option ρ} {outs : List Nat}
    (hcall : GraphCtx.runMultiInputNode E edges nodeid localParams s = some (.ok outs, s')) :
    Routing 0 s' := by
  cases runMultiInputNode_cases hcall with
  | ran hedges hrun _ =>
    constructor
    · dsimp only
      rw [flatMap_ran (fun _ => triggered_nil) hedges]
      exact h.triggers
    · dsimp only
      rw [flatMap_ran (fun _ => assigned_nil) hedges]
      exact h.assigned
    · exact h.tiles
    · exact h.le

theorem assign {n edge : Nat} {ctx : StreamCtx} (h : Routing n s)
    (hctx : s.streamCtxs[edge]? = some ctx) (hset : ctx.dest_set = .unassigned) :
    Routing (n + 1) (s.assign n edge ctx.rtsid) where
  triggers := by
    refine (flatMap_modify_perm hctx (triggered_nil (Or.inl hset))).trans ?_
    refine (h.triggers.append_right _).trans ?_
    change (List.range (s.dstGraphDescs.length + min n 1) ++ _).Perm
      (List.range (s.dstGraphDescs.length + min (n + 1) 1))
    cases n with
    | zero =>
      rw [Nat.min_eq_right (by omega : 1 ≤ 0 + 1), List.range_succ]
      exact List.Perm.refl _
    | succ n =>
      rw [Nat.min_eq_right (by omega : 1 ≤ n + 1), Nat.min_eq_right (by omega : 1 ≤ n + 1 + 1)]
      rw [StreamCtx.triggered, StreamCtx.setSuccession, StreamCtx.setDest,
        if_neg (Nat.succ_ne_zero n), List.append_nil]
  assigned := by
    refine List.Perm.trans ?_ (flatMap_modify_perm hctx (assigned_nil (Or.inl hset))).symm
    refine h.assigned.append ?_
    unfold StreamCtx.assigned StreamCtx.setSuccession StreamCtx.setDest
    split <;> simp_all
  tiles := by
    change Tiles 0 s.dstGraphDescs ((s.rtsids ++ [ctx.rtsid]).length - (n + 1))
    rw [List.length_append, List.length_singleton, Nat.add_sub_add_right]
    exact h.tiles
  le := by
    change n + 1 ≤ (s.rtsids ++ [ctx.rtsid]).length
    rw [List.length_append, List.length_singleton]
    exact Nat.succ_le_succ h.le

theorem assignEdges : ∀ {n : Nat} {edges : List Nat} {s s' : GraphCtx ρ} {u : Unit},
    Routing n s → GraphCtx.assignEdges n edges s = some (.ok u, s') →
    Routing (n + edges.length) s'
  | _, [], s, s', u, h, hcall => by
    obtain ⟨-, rfl⟩ := Cmd.run_pure_iff.1 hcall
    exact h
  | n, edge :: edges, s, s', u, h, hcall => by
    rcases assignEdges_cons hcall with ⟨e, he, -⟩ | ⟨ctx, hctx, hset, hrest⟩
    · cases he
    · rw [List.length_cons, Nat.add_comm edges.length 1, ← Nat.add_assoc]
      exact (h.assign hctx hset).assignEdges hrest

theorem setParameterizedDestination (h : Routing 0 s) {E : Engine ρ} {edges : List Nat}
    {gid : GraphID} {rGraphParams : Option ρ} {u : Unit}
    (hcall : GraphCtx.setParameterizedDestination E edges gid rGraphParams s = some (.ok u, s')) :
    Routing 0 s' := by
  obtain ⟨t, hassign, hne, rfl⟩ := Linked.setParameterizedDestination_ok hcall
  have ht : Routing edges.length t := by
    have := h.assignEdges hassign
    rwa [Nat.zero_add] at this
  have hpos : 1 ≤ edges.length := List.length_pos_iff.2 hne
  constructor
  · dsimp only
    rw [List.length_append, List.length_singleton, Nat.zero_min, Nat.add_zero]
    have htriggers := ht.triggers
    rwa [Nat.min_eq_right hpos] at htriggers
  · exact ht.assigned
  · have htiles := @Tiles.append ρ _ _ _ ⟨gid, rGraphParams, edges.length,
      t.rtsids.length - edges.length⟩ ht.tiles rfl
    dsimp only at htiles ⊢
    rwa [Nat.sub_add_cancel ht.le] at htiles
  · exact Nat.zero_le _

end Routing

/-- **Every careful graph function** keeps its edges and its destinations together. -/
theorem GraphFunction.run_routing {E : Engine ρ} {f : GraphFunction ρ} {ids : List Nat}
    {g : RTGraph} {s' : GraphCtx ρ} {r : Except ErrorCode Unit}
    (hclean : f.FailsClean E (CCtx.initGraph ids g))
    (h : f.run E (CCtx.initGraph ids g) = some (r, s')) : Routing 0 s' :=
  @GraphFunction.preserves_careful ρ E (Routing 0) False
    (fun _ _ _ _ _ _ _ hs hcall => hs.runMultiInputNode hcall)
    (fun _ _ _ _ _ _ hs hcall => hs.setParameterizedDestination hcall) f _ s' r
    (Routing.init ids g) hclean (fun ho => ho.elim) h

section successors

variable {s : GraphCtx ρ} {sis : List (SuccessorInfo ρ)}

/-- The streams of the destination that an edge triggers. -/
def triggeredSlice (s : GraphCtx ρ) (pos : Nat) : List Nat :=
  (s.dstGraphDescs[pos]?.map (slice s.rtsids)).getD []

theorem flatMap_range_getElem? {α β : Type} (f : α → List β) (l : List α) :
    (List.range l.length).flatMap (fun i => (l[i]?.map f).getD []) = l.flatMap f := by
  induction l using List.reverseRecOn with
  | nil => rfl
  | append_singleton l a ih =>
    rw [List.length_append, List.length_singleton, List.range_succ, List.flatMap_append,
      List.flatMap_append, ← ih]
    congr 1
    · refine List.flatMap_congr fun i hi => ?_
      rw [List.getElem?_append_left (List.mem_range.1 hi)]
    · simp

theorem successorOf_inputs {ctx : StreamCtx} (h : CCtx.successorOf s ctx = some sis) :
    sis.flatMap (·.rtInputs) = ctx.triggered.flatMap (triggeredSlice s) ++ ctx.unassigned := by
  unfold CCtx.successorOf at h
  unfold StreamCtx.triggered StreamCtx.unassigned
  cases hset : ctx.dest_set with
  | trigger =>
    rw [hset] at h
    obtain ⟨sd, hsd, h⟩ := Option.bind_eq_some_iff.1 h
    obtain rfl := Option.some.inj h
    simp [triggeredSlice, hsd, slice]
  | unassigned =>
    rw [hset] at h
    obtain rfl := Option.some.inj h
    rfl
  | follow =>
    rw [hset] at h
    obtain rfl := Option.some.inj h
    rfl
  | processed =>
    rw [hset] at h
    obtain rfl := Option.some.inj h
    rfl

theorem mapM_successorOf : ∀ {ctxs : List StreamCtx} {lists : List (List (SuccessorInfo ρ))},
    ctxs.mapM (CCtx.successorOf s) = some lists →
    lists.flatten.flatMap (·.rtInputs) =
      ctxs.flatMap fun ctx => ctx.triggered.flatMap (triggeredSlice s) ++ ctx.unassigned
  | [], lists, h => by
    obtain rfl := Option.some.inj h
    rfl
  | ctx :: ctxs, lists, h => by
    rw [List.mapM_cons] at h
    obtain ⟨head, hhead, h⟩ := Option.bind_eq_some_iff.1 h
    obtain ⟨rest, hrest, h⟩ := Option.bind_eq_some_iff.1 h
    obtain rfl := Option.some.inj h
    rw [List.flatten_cons, List.flatMap_append, List.flatMap_cons, mapM_successorOf hrest,
      successorOf_inputs hhead]

/-- **The successors have the streams of the edges that are not processed, each once.** -/
theorem getSuccessors_perm (hrouting : Routing 0 s) (h : CCtx.getSuccessors s = some sis) :
    (sis.flatMap (·.rtInputs)).Perm (s.streamCtxs.flatMap StreamCtx.pending) := by
  obtain ⟨lists, hlists, rfl⟩ := Option.map_eq_some_iff.1 h
  have htriggered : ((s.streamCtxs.flatMap StreamCtx.triggered).flatMap (triggeredSlice s)).Perm
      (s.streamCtxs.flatMap StreamCtx.assigned) := by
    refine (hrouting.triggers.flatMap_right _).trans (List.Perm.trans ?_ hrouting.assigned)
    have hall : (List.range s.dstGraphDescs.length).flatMap (triggeredSlice s) =
        s.dstGraphDescs.flatMap (slice s.rtsids) :=
      flatMap_range_getElem? _ _
    rw [Nat.zero_min, Nat.add_zero, hall, hrouting.tiles.flatMap_slice, List.drop_zero,
      Nat.sub_zero, Nat.sub_zero, List.take_length]
  rw [mapM_successorOf hlists]
  refine (List.flatMap_append_perm ..).symm.trans ?_
  rw [← List.flatMap_assoc]
  refine (htriggered.append_right _).trans ((List.flatMap_append_perm ..).trans ?_)
  rw [List.flatMap_congr fun ctx _ => ctx.assigned_append_unassigned]

end successors

end OpenZL.Compress
