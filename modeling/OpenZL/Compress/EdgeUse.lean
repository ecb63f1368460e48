import OpenZL.Compress.Edges
import Mathlib.Data.List.Nodup

/-!
# What has become of the streams of a graph function

As long as no call that fails changes anything, the table of edges of a graph function tells of
each stream it has seen whether it is used: the streams of processed edges are, those of all others
are free.

Principal results: `Linked.runMultiInputNode`, `Linked.setParameterizedDestination`,
`GraphFunction.run_linked`.
-/

namespace OpenZL.Compress

open OpenZL.Lib RTGraph GraphCtx

variable {ρ : Type}

/-- The stream of an edge, and whether it is processed. -/
def StreamCtx.use (ctx : StreamCtx) : Nat × Bool := (ctx.rtsid, ctx.dest_set = .processed)

/-- The edges of a graph function on the streams `ids` of `base` tell what is used. -/
structure Linked (E : Engine ρ) (once : Prop) (depth : Nat) (base : RTGraph) (ids : List Nat)
    (s : GraphCtx ρ) : Prop where
  steps : Extends E base s.rtgraph
  base_le : base.nodes.length ≤ s.rtgraph.nodes.length
  sound : Sound once s.rtgraph
  nodup : (s.streamCtxs.map (·.rtsid)).Nodup
  inputs : ∀ x ∈ ids, x ∈ s.streamCtxs.map (·.rtsid)
  outs : ∀ node ∈ s.rtgraph.nodes.drop base.nodes.length, ∀ x, node.Puts x →
    x ∈ s.streamCtxs.map (·.rtsid)
  processed : ∀ x, (x, true) ∈ s.streamCtxs.map StreamCtx.use → s.rtgraph.Used x
  pending : ∀ x, (x, false) ∈ s.streamCtxs.map StreamCtx.use → s.rtgraph.Free depth x

theorem map_fst_use (ctxs : List StreamCtx) :
    (ctxs.map StreamCtx.use).map Prod.fst = ctxs.map (·.rtsid) := by
  rw [List.map_map]
  rfl

theorem Linked.of_use {E : Engine ρ} {once : Prop} {depth : Nat} {base : RTGraph} {ids : List Nat}
    {s s' : GraphCtx ρ} (h : Linked E once depth base ids s) (hg : s'.rtgraph = s.rtgraph)
    (huse : s'.streamCtxs.map StreamCtx.use = s.streamCtxs.map StreamCtx.use) :
    Linked E once depth base ids s' := by
  have hids : s'.streamCtxs.map (·.rtsid) = s.streamCtxs.map (·.rtsid) := by
    rw [← map_fst_use, huse, map_fst_use]
  constructor
  · rw [hg]
    exact h.steps
  · rw [hg]
    exact h.base_le
  · rw [hg]
    exact h.sound
  · rw [hids]
    exact h.nodup
  · rw [hids]
    exact h.inputs
  · rw [hg, hids]
    exact h.outs
  · rw [hg, huse]
    exact h.processed
  · rw [hg, huse]
    exact h.pending

theorem getElem?_setProcessed (edges : List Nat) (ctxs : List StreamCtx) (i : Nat) :
    (setProcessed edges ctxs)[i]? =
      ctxs[i]?.map fun ctx => if i ∈ edges then ctx.setDest .processed else ctx := by
  induction edges generalizing ctxs with
  | nil => simp [setProcessed]
  | cons edge edges ih =>
    refine (ih (ctxs.modify edge (·.setDest .processed))).trans ?_
    rw [List.getElem?_modify]
    cases ctxs[i]? with
    | none => rfl
    | some ctx =>
      change some _ = some _
      congr 1
      by_cases hi : edge = i
      · subst hi
        by_cases hmem : edge ∈ edges
        · simp [hmem, StreamCtx.setDest]
        · simp [hmem]
      · simp [hi, List.mem_cons, Ne.symm hi]

theorem mem_use_setProcessed {edges : List Nat} {ctxs : List StreamCtx} {x : Nat} {b : Bool}
    (h : (x, b) ∈ (setProcessed edges ctxs).map StreamCtx.use) :
    ∃ i ctx, ctxs[i]? = some ctx ∧ ctx.rtsid = x ∧
      (i ∈ edges ∧ b = true ∨ i ∉ edges ∧ (x, b) ∈ ctxs.map StreamCtx.use) := by
  obtain ⟨ctx', hmem, heq⟩ := List.mem_map.1 h
  obtain ⟨i, hi⟩ := List.getElem?_of_mem hmem
  rw [getElem?_setProcessed] at hi
  obtain ⟨ctx, hctx, rfl⟩ := Option.map_eq_some_iff.1 hi
  refine ⟨i, ctx, hctx, ?_, ?_⟩
  · by_cases hin : i ∈ edges
    · rw [if_pos hin] at heq
      exact (Prod.mk.inj heq).1
    · rw [if_neg hin] at heq
      exact (Prod.mk.inj heq).1
  · by_cases hin : i ∈ edges
    · rw [if_pos hin] at heq
      exact Or.inl ⟨hin, by simpa [StreamCtx.use, StreamCtx.setDest] using (Prod.mk.inj heq).2.symm⟩
    · rw [if_neg hin] at heq
      exact Or.inr ⟨hin, heq ▸ List.mem_map_of_mem (List.mem_of_getElem? hctx)⟩

theorem eq_of_rtsid_eq {ctxs : List StreamCtx} (hnodup : (ctxs.map (·.rtsid)).Nodup) {i j : Nat}
    {a b : StreamCtx} (hi : ctxs[i]? = some a) (hj : ctxs[j]? = some b)
    (h : a.rtsid = b.rtsid) : i = j := by
  obtain ⟨hilt, rfl⟩ := List.getElem?_eq_some_iff.1 hi
  obtain ⟨hjlt, rfl⟩ := List.getElem?_eq_some_iff.1 hj
  refine (@List.Nodup.getElem_inj_iff _ _ hnodup i (by simpa using hilt) j
    (by simpa using hjlt)).1 ?_
  rw [List.getElem_map, List.getElem_map, h]

namespace Linked

variable {E : Engine ρ} {once : Prop} {depth : Nat} {base : RTGraph} {ids : List Nat}
  {s s' : GraphCtx ρ} {edges : List Nat}

theorem mem_use {edge : Nat} {ctx : StreamCtx} (hctx : s.streamCtxs[edge]? = some ctx)
    (hset : ctx.dest_set = .unassigned) : (ctx.rtsid, false) ∈ s.streamCtxs.map StreamCtx.use := by
  refine List.mem_map.2 ⟨ctx, List.mem_of_getElem? hctx, ?_⟩
  rw [StreamCtx.use, hset]
  rfl

theorem free_of_unassigned (h : Linked E once depth base ids s)
    (hedges : ∀ edge ∈ edges, s.Unassigned edge) :
    ∀ x ∈ edges.map s.rtsidAt, s.rtgraph.Free depth x := by
  intro x hx
  obtain ⟨edge, hedge, rfl⟩ := List.mem_map.1 hx
  obtain ⟨ctx, hctx, hset⟩ := hedges edge hedge
  rw [rtsidAt, hctx]
  exact h.pending _ (mem_use hctx hset)

theorem rtsidAt_eq {edge : Nat} {ctx : StreamCtx} (hctx : s.streamCtxs[edge]? = some ctx) :
    s.rtsidAt edge = ctx.rtsid := by
  rw [rtsidAt, hctx]
  rfl

theorem nodup_rtsids (h : Linked E once depth base ids s)
    (hedges : ∀ edge ∈ edges, s.Unassigned edge) (hnodup : edges.Nodup) :
    (edges.map s.rtsidAt).Nodup := by
  refine hnodup.map_on fun i hi j hj heq => ?_
  obtain ⟨a, ha, -⟩ := hedges i hi
  obtain ⟨b, hb, -⟩ := hedges j hj
  rw [rtsidAt_eq ha, rtsidAt_eq hb] at heq
  exact eq_of_rtsid_eq h.nodup ha hb heq

theorem lt (h : Linked E once depth base ids s) :
    ∀ x ∈ s.streamCtxs.map (·.rtsid), x < s.rtgraph.streams.length := by
  intro x hx
  obtain ⟨ctx, hctx, rfl⟩ := List.mem_map.1 hx
  have huse : (ctx.rtsid, decide (ctx.dest_set = .processed)) ∈ s.streamCtxs.map StreamCtx.use :=
    List.mem_map_of_mem hctx
  cases hp : decide (ctx.dest_set = .processed) with
  | true => exact h.sound.used_lt (h.processed _ (hp ▸ huse))
  | false => exact (h.pending _ (hp ▸ huse)).lt

/-- **A node that ran** has used the streams of its edges; its outputs are new edges. -/
theorem runMultiInputNode (h : Linked E once depth base ids s) (hdepth : depth ≤ 2 ^ 32)
    (hpos : 0 < depth) {nodeid : NodeID} {localParams : Option ρ} {outs : List Nat}
    (honce : once → edges.Nodup)
    (hcall : GraphCtx.runMultiInputNode E edges nodeid localParams s = some (.ok outs, s')) :
    Linked E once depth base ids s' := by
  cases runMultiInputNode_cases hcall with
  | @ran cnode node tail g _ hedges hrun hstep =>
  have hframe := hrun.frame hdepth
  have hfree := h.free_of_unassigned hedges
  have hctxs : (setProcessed edges s.streamCtxs ++ (outRtsids node).map StreamCtx.init).map
      (·.rtsid) = s.streamCtxs.map (·.rtsid) ++ outRtsids node := by
    rw [List.map_append, map_setProcessed, map_init]
  have hread : ∀ x ∈ edges.map s.rtsidAt, x ∈ g.consumed := by
    intro x hx
    refine hframe.mem_consumed_iff.2 (Or.inr ⟨node, List.mem_singleton_self node, ?_⟩)
    rwa [hrun.running.inRtsids_eq]
  constructor
  · exact h.steps.tail hstep
  · dsimp only
    rw [hframe.nodes, List.length_append]
    exact h.base_le.trans (Nat.le_add_right _ _)
  · exact h.sound.runNode hrun hfree fun ho => h.nodup_rtsids hedges (honce ho)
  · dsimp only
    rw [hctxs]
    refine h.nodup.append ?_ fun x hold hnew => ?_
    · exact List.nodup_range.map fun i j hij => Nat.add_left_cancel hij
    · have hlt := h.lt x hold
      have hle := (mem_outRtsids.1 hnew).1
      rw [hrun.running.start_eq] at hle
      omega
  · intro x hx
    rw [hctxs]
    exact List.mem_append_left _ (h.inputs x hx)
  · intro n hn x hx
    dsimp only at hn ⊢
    rw [hframe.nodes, List.drop_append_of_le_length h.base_le] at hn
    rw [hctxs]
    rcases List.mem_append.1 hn with hn | hn
    · exact List.mem_append_left _ (h.outs n hn x hx)
    · rw [List.mem_singleton.1 hn] at hx
      exact List.mem_append_right _ (mem_outRtsids.2 hx)
  · intro x hx
    dsimp only at hx ⊢
    rw [List.map_append] at hx
    rcases List.mem_append.1 hx with hx | hx
    · obtain ⟨i, ctx, hctx, rfl, ⟨hi, -⟩ | ⟨-, hold⟩⟩ := mem_use_setProcessed hx
      · refine Or.inl (hread _ (List.mem_map.2 ⟨i, hi, rtsidAt_eq hctx⟩))
      · exact hframe.used_mono (h.processed _ hold)
    · rw [List.map_map] at hx
      obtain ⟨y, -, hy⟩ := List.mem_map.1 hx
      cases (Prod.mk.inj hy).2
  · intro x hx
    dsimp only at hx ⊢
    rw [List.map_append] at hx
    rcases List.mem_append.1 hx with hx | hx
    · obtain ⟨i, ctx, hctx, rfl, ⟨-, hb⟩ | ⟨hi, hold⟩⟩ := mem_use_setProcessed hx
      · cases hb
      · refine hframe.free (fun hmem => hi ?_) (h.pending _ hold)
        obtain ⟨j, hj, heq⟩ := List.mem_map.1 hmem
        obtain ⟨b, hb, -⟩ := hedges j hj
        rw [rtsidAt_eq hb] at heq
        rwa [eq_of_rtsid_eq h.nodup hctx hb heq.symm]
    · rw [List.map_map] at hx
      obtain ⟨y, hy, heq⟩ := List.mem_map.1 hx
      obtain rfl : y = x := (Prod.mk.inj heq).1
      exact hrun.free hpos h.sound.lt (mem_outRtsids.1 hy)

theorem assignEdges_use : ∀ {n : Nat} {edges : List Nat} {s s' : GraphCtx ρ} {u : Unit},
    GraphCtx.assignEdges n edges s = some (.ok u, s') →
    s'.rtgraph = s.rtgraph ∧ s'.streamCtxs.map StreamCtx.use = s.streamCtxs.map StreamCtx.use
  | _, [], s, s', u, h => by
    obtain ⟨-, rfl⟩ := Cmd.run_pure_iff.1 h
    exact ⟨rfl, rfl⟩
  | n, edge :: edges, s, s', u, h => by
    rcases assignEdges_cons h with ⟨e, he, -⟩ | ⟨ctx, hctx, hset, hrest⟩
    · cases he
    obtain ⟨hg, huse⟩ := assignEdges_use hrest
    refine ⟨hg, huse.trans (map_modify_of_get hctx ?_)⟩
    unfold StreamCtx.use StreamCtx.setSuccession StreamCtx.setDest
    rw [hset]
    split <;> rfl

theorem setParameterizedDestination_ok {gid : GraphID} {rGraphParams : Option ρ} {u : Unit}
    (hcall : GraphCtx.setParameterizedDestination E edges gid rGraphParams s = some (.ok u, s')) :
    ∃ t, GraphCtx.assignEdges 0 edges s = some (.ok (), t) ∧ edges ≠ [] ∧
      s' = { t with dstGraphDescs := t.dstGraphDescs ++
              [⟨gid, rGraphParams, edges.length, t.rtsids.length - edges.length⟩] } := by
  unfold GraphCtx.setParameterizedDestination at hcall
  obtain ⟨hne, hcall⟩ := Cmd.run_failWhen_bind_ok.1 hcall
  cases hgid : E.graphs gid with
  | none =>
    rw [hgid] at hcall
    cases hcall
  | some desc =>
    rw [hgid] at hcall
    obtain ⟨-, hcall⟩ := Cmd.run_failWhen_bind_ok.1 hcall
    obtain ⟨-, hcall⟩ := Cmd.run_failWhen_bind_ok.1 hcall
    obtain ⟨u', t, hassign, hcall⟩ := Cmd.run_bind_ok.1 hcall
    rw [Cmd.run_get_bind] at hcall
    obtain ⟨-, hcall⟩ := Cmd.run_failWhen_bind_ok.1 hcall
    obtain ⟨-, rfl⟩ := Prod.mk.inj (Option.some.inj hcall)
    exact ⟨t, hassign, hne, rfl⟩

theorem setParameterizedDestination (h : Linked E once depth base ids s) {gid : GraphID}
    {rGraphParams : Option ρ} {u : Unit}
    (hcall : GraphCtx.setParameterizedDestination E edges gid rGraphParams s = some (.ok u, s')) :
    Linked E once depth base ids s' := by
  obtain ⟨t, hassign, -, rfl⟩ := setParameterizedDestination_ok hcall
  obtain ⟨hg, huse⟩ := assignEdges_use hassign
  exact h.of_use hg huse

theorem init {g : RTGraph} (hsound : Sound once g) (hnodup : ids.Nodup)
    (hfree : ∀ x ∈ ids, g.Free depth x) :
    Linked E once depth g ids (CCtx.initGraph (ρ := ρ) ids g) := by
  have huse : (ids.map StreamCtx.init).map StreamCtx.use = ids.map (·, false) := by
    rw [List.map_map]
    rfl
  constructor
  · exact Extends.refl E g
  · exact Nat.le_refl _
  · exact hsound
  · change ((ids.map StreamCtx.init).map (·.rtsid)).Nodup
    rwa [map_init]
  · intro x hx
    change x ∈ (ids.map StreamCtx.init).map (·.rtsid)
    rwa [map_init]
  · intro node hnode
    change node ∈ g.nodes.drop g.nodes.length at hnode
    rw [List.drop_length] at hnode
    cases hnode
  · intro x hx
    change (x, true) ∈ (ids.map StreamCtx.init).map StreamCtx.use at hx
    rw [huse] at hx
    obtain ⟨y, -, heq⟩ := List.mem_map.1 hx
    cases (Prod.mk.inj heq).2
  · intro x hx
    change (x, false) ∈ (ids.map StreamCtx.init).map StreamCtx.use at hx
    rw [huse] at hx
    obtain ⟨y, hy, heq⟩ := List.mem_map.1 hx
    exact (Prod.mk.inj heq).1 ▸ hfree y hy

end Linked

/-- **A careful graph function** knows what has become of every stream it has seen. -/
theorem GraphFunction.run_linked {E : Engine ρ} {once : Prop} {depth : Nat}
    (hdepth : depth ≤ 2 ^ 32) (hpos : 0 < depth) {f : GraphFunction ρ} {ids : List Nat}
    {g : RTGraph} {s' : GraphCtx ρ} {r : Except ErrorCode Unit} (hsound : Sound once g)
    (hnodup : ids.Nodup) (hfree : ∀ x ∈ ids, g.Free depth x)
    (hclean : f.FailsClean E (CCtx.initGraph ids g))
    (honce : once → f.ListsOnce E (CCtx.initGraph ids g))
    (h : f.run E (CCtx.initGraph ids g) = some (r, s')) : Linked E once depth g ids s' :=
  GraphFunction.preserves_careful (I := Linked E once depth g ids)
    (fun _ _ _ _ _ _ ho hs hcall => hs.runMultiInputNode hdepth hpos ho hcall)
    (fun _ _ _ _ _ _ hs hcall => hs.setParameterizedDestination hcall) f _ s' r
    (Linked.init hsound hnodup hfree) hclean honce h

end OpenZL.Compress
