import OpenZL.Compress.LinearUse
import OpenZL.Compress.Engine
import Mathlib.Data.List.Perm.Basic
import Mathlib.Algebra.GroupWithZero.Nat

/-!
# The edges of a graph function

Whatever a graph function does, it stays with the streams it was given and those it has made, and
marks none for storage (`Handled`).

Principal results: `GraphFunction.run_handled`, `GraphFunction.run_linked`,
`GraphFunction.run_routing`, `getSuccessors_perm`.
-/

namespace OpenZL.Compress

open OpenZL.Lib

variable {ρ : Type}

section entries

variable {α β : Type} {l : List α} {i : Nat} {a : α} {m : α → α}

theorem map_modify_eq {f : α → β} (h : ∀ a, f (m a) = f a) (l : List α) (i : Nat) :
    (l.modify i m).map f = l.map f := by
  induction l generalizing i with
  | nil => rw [List.modify_nil]
  | cons b l ih =>
    cases i with
    | zero => rw [List.modify_zero_cons, List.map_cons, List.map_cons, h]
    | succ i => rw [List.modify_succ_cons, List.map_cons, List.map_cons, ih]

theorem map_modify_of_get {f : α → β} (hget : l[i]? = some a) (hsame : f (m a) = f a) :
    (l.modify i m).map f = l.map f := by
  have hlt := (List.getElem?_eq_some_iff.1 hget).1
  have ha : l[i] = a := (List.getElem?_eq_some_iff.1 hget).2
  conv_rhs => rw [← List.take_append_drop i l, List.drop_eq_getElem_cons hlt, ha]
  rw [List.modify_eq_take_cons_drop hlt, ha, List.map_append, List.map_append, List.map_cons,
    List.map_cons, hsame]

theorem flatMap_modify_perm {f : α → List β} (hget : l[i]? = some a) (hnil : f a = []) :
    ((l.modify i m).flatMap f).Perm (l.flatMap f ++ f (m a)) := by
  have hlt := (List.getElem?_eq_some_iff.1 hget).1
  have ha : l[i] = a := (List.getElem?_eq_some_iff.1 hget).2
  have hl : l.flatMap f = (l.take i).flatMap f ++ (l.drop (i + 1)).flatMap f := by
    conv_lhs => rw [← List.take_append_drop i l, List.drop_eq_getElem_cons hlt, ha]
    rw [List.flatMap_append, List.flatMap_cons, hnil, List.nil_append]
  rw [List.modify_eq_take_cons_drop hlt, ha, hl, List.flatMap_append, List.flatMap_cons,
    List.append_assoc]
  exact List.Perm.append_left _ List.perm_append_comm

theorem flatMap_modify_eq {f : α → List β} (hget : l[i]? = some a) (hsame : f (m a) = f a) :
    (l.modify i m).flatMap f = l.flatMap f := by
  have hlt := (List.getElem?_eq_some_iff.1 hget).1
  have ha : l[i] = a := (List.getElem?_eq_some_iff.1 hget).2
  conv_rhs => rw [← List.take_append_drop i l, List.drop_eq_getElem_cons hlt, ha]
  rw [List.modify_eq_take_cons_drop hlt, ha, List.flatMap_append, List.flatMap_append,
    List.flatMap_cons, List.flatMap_cons, hsame]

end entries

namespace GraphCtx

/-- The stream of an edge that exists. -/
def rtsidAt (s : GraphCtx ρ) (edge : Nat) : Nat := (s.streamCtxs[edge]?.map (·.rtsid)).getD 0

/-- Nothing has become of the edge yet. -/
def Unassigned (s : GraphCtx ρ) (edge : Nat) : Prop :=
  ∃ ctx, s.streamCtxs[edge]? = some ctx ∧ ctx.dest_set = .unassigned

theorem checkEdges_some : ∀ {edges : List Nat} {s s' : GraphCtx ρ}
    {r : Except ErrorCode (List Nat)}, checkEdges edges s = some (r, s') →
    s' = s ∧ ∀ rtsids, r = .ok rtsids →
      rtsids = edges.map s.rtsidAt ∧ ∀ edge ∈ edges, s.Unassigned edge
  | [], s, s', r, h => by
    obtain ⟨rfl, rfl⟩ := Cmd.run_pure_iff.1 h
    exact ⟨rfl, fun _ hr => ⟨(Except.ok.inj hr).symm, by simp⟩⟩
  | edge :: edges, s, s', r, h => by
    obtain ⟨ctx, hctx, h⟩ := Cmd.run_expect_bind.1 h
    rcases Cmd.run_failWhen_bind_some h with ⟨-, rfl, rfl⟩ | ⟨hset, h₁⟩
    · exact ⟨rfl, fun _ hr => by cases hr⟩
    rcases Cmd.run_bind_some h₁ with ⟨e, he, -⟩ | ⟨data, t, hdata, h₂⟩
    · obtain ⟨⟨_, hr⟩, -⟩ := GraphFunction.getData_some he
      cases hr
    obtain ⟨-, rfl⟩ := GraphFunction.getData_some hdata
    rcases Cmd.run_bind_some h₂ with ⟨e, he, rfl⟩ | ⟨rtsids, t', hrest, h₃⟩
    · exact ⟨(checkEdges_some he).1, fun _ hr => by cases hr⟩
    obtain ⟨rfl, hrtsids⟩ := checkEdges_some hrest
    obtain ⟨rfl, rfl⟩ := Cmd.run_pure_iff.1 h₃
    obtain ⟨rfl, hedges⟩ := hrtsids rtsids rfl
    refine ⟨rfl, fun _ hr => ?_⟩
    obtain rfl := Except.ok.inj hr
    have hat : s'.rtsidAt edge = ctx.rtsid := by
      unfold rtsidAt
      rw [hctx]
      rfl
    refine ⟨by rw [List.map_cons, hat], fun x hx => ?_⟩
    rcases List.mem_cons.1 hx with rfl | hx
    · exact ⟨ctx, hctx, by simpa using hset⟩
    · exact hedges x hx

/-- The outputs of a node. -/
def outRtsids (node : RTNode) : List Nat :=
  (List.range node.nbOutStreams).map (node.startOutRtsids + ·)

/-- The outcomes of `ZL_Edge_runMultiInputNode_withParams`. -/
inductive NodeCall (E : Engine ρ) (edges : List Nat) (s : GraphCtx ρ) :
    Except ErrorCode (List Nat) → GraphCtx ρ → Prop
  | refused {e : ErrorCode} : NodeCall E edges s (.error e) s
  | opened {e : ErrorCode} {node : RTNode} {tail : List RTCStream} {g : RTGraph} :
      (∀ edge ∈ edges, s.Unassigned edge) →
      Opened s.rtgraph (edges.map s.rtsidAt) node tail g →
      NodeCall E edges s (.error e) { s with rtgraph := g }
  | full {e : ErrorCode} {cnode : CNode} {node : RTNode} {tail : List RTCStream} {g : RTGraph} :
      (∀ edge ∈ edges, s.Unassigned edge) →
      NodeRun E.formatVersion s.rtgraph cnode (edges.map s.rtsidAt) node tail g →
      NodeCall E edges s (.error e)
        { s with rtgraph := g, streamCtxs := setProcessed edges s.streamCtxs }
  | ran {cnode : CNode} {node : RTNode} {tail : List RTCStream} {g : RTGraph}
      {outEdges : List Nat} :
      (∀ edge ∈ edges, s.Unassigned edge) →
      NodeRun E.formatVersion s.rtgraph cnode (edges.map s.rtsidAt) node tail g →
      GraphStep E s.rtgraph g →
      NodeCall E edges s (.ok outEdges)
        { s with rtgraph := g
                 streamCtxs := setProcessed edges s.streamCtxs ++
                   (outRtsids node).map StreamCtx.init }

theorem runMultiInputNode_cases {E : Engine ρ} {edges : List Nat} {nodeid : NodeID}
    {localParams : Option ρ} {s s' : GraphCtx ρ} {r : Except ErrorCode (List Nat)}
    (h : runMultiInputNode E edges nodeid localParams s = some (r, s')) :
    NodeCall E edges s r s' := by
  unfold runMultiInputNode at h
  obtain ⟨hne, h⟩ := Cmd.run_require_bind.1 h
  rcases Cmd.run_bind_some h with ⟨e, he, rfl⟩ | ⟨rtsids, t, hcheck, h₁⟩
  · obtain ⟨rfl, -⟩ := checkEdges_some he
    exact .refused
  obtain ⟨rfl, hok⟩ := checkEdges_some hcheck
  obtain ⟨rfl, hedges⟩ := hok rtsids rfl
  rcases Cmd.run_bind_some h₁ with ⟨e, he, rfl⟩ | ⟨⟨rtnid, nbOuts⟩, t', hcall, h₂⟩
  · obtain ⟨⟨q, g⟩, hnode, heq⟩ := Option.map_eq_some_iff.1 he
    obtain ⟨rfl, rfl⟩ := Prod.mk.inj heq
    rcases runNodeID_some hnode with ⟨_, -, rfl | ⟨node, tail, ho⟩⟩ | ⟨_, _, _, hr, -⟩
    · exact .refused
    · exact .opened hedges ho
    · cases hr
  obtain ⟨⟨q, g⟩, hnode, heq⟩ := Option.map_eq_some_iff.1 hcall
  obtain ⟨rfl, rfl⟩ := Prod.mk.inj heq
  rcases runNodeID_some hnode with ⟨_, hr, -⟩ | ⟨cnode, node, tail, hr, hrun⟩
  · cases hr
  obtain ⟨rfl, rfl⟩ := Prod.mk.inj (Except.ok.inj hr)
  dsimp only at h₂
  rw [Cmd.run_modify_bind, Cmd.run_get_bind] at h₂
  rcases Cmd.run_failWhen_bind_some h₂ with ⟨-, rfl, rfl⟩ | ⟨-, h₃⟩
  · exact .full hedges hrun
  obtain ⟨rtosids, houts, h₄⟩ := Cmd.run_expect_bind.1 h₃
  rw [Cmd.run_modify_bind] at h₄
  obtain ⟨rfl, rfl⟩ := Cmd.run_pure_iff.1 h₄
  have hlast : g.nodes[t.rtgraph.nodes.length]? = some node := by
    rw [hrun.eq]
    simp
  dsimp only [outStreamIDs] at houts
  rw [hlast] at houts
  obtain rfl := Option.some.inj houts
  exact .ran hedges hrun (runNodeID_step (by simpa using hne) hnode)

theorem map_rtsid_modify (ctxs : List StreamCtx) (edge : Nat) {m : StreamCtx → StreamCtx}
    (hm : ∀ ctx, (m ctx).rtsid = ctx.rtsid) :
    (ctxs.modify edge m).map (·.rtsid) = ctxs.map (·.rtsid) :=
  map_modify_eq hm ctxs edge

/-- The edge at `edge` is the next one of a destination that has `n` already. -/
def assign (n edge rtsid : Nat) (s : GraphCtx ρ) : GraphCtx ρ :=
  { s with
    rtsids := s.rtsids ++ [rtsid]
    streamCtxs := s.streamCtxs.modify edge fun ctx =>
      (ctx.setDest (if n = 0 then .trigger else .follow)).setSuccession s.dstGraphDescs.length }

theorem assignEdges_cons {n edge : Nat} {edges : List Nat} {s s' : GraphCtx ρ}
    {r : Except ErrorCode Unit} (h : assignEdges n (edge :: edges) s = some (r, s')) :
    (∃ e, r = .error e ∧ s'.rtgraph = s.rtgraph ∧ s'.rtsids = s.rtsids ∧
      s'.streamCtxs.map (·.rtsid) = s.streamCtxs.map (·.rtsid)) ∨
    ∃ ctx, s.streamCtxs[edge]? = some ctx ∧ ctx.dest_set = .unassigned ∧
      assignEdges (n + 1) edges (s.assign n edge ctx.rtsid) = some (r, s') := by
  obtain ⟨ctx, hctx, h⟩ := Cmd.run_expect_bind.1 h
  split at h
  · rw [Cmd.run_modify_bind] at h
    obtain ⟨rfl, rfl⟩ := Prod.mk.inj (Option.some.inj h)
    exact Or.inl ⟨_, rfl, rfl, rfl, rfl⟩
  · rename_i hset
    dsimp only at h
    rw [Cmd.run_modify_bind, Cmd.run_get_bind] at h
    rcases Cmd.run_failWhen_bind_some h with ⟨-, rfl, rfl⟩ | ⟨-, h₁⟩
    · refine Or.inl ⟨_, rfl, rfl, rfl, ?_⟩
      exact map_rtsid_modify s.streamCtxs edge (fun _ => rfl)
    · rw [Cmd.run_modify_bind] at h₁
      dsimp only at h₁
      rw [List.modify_modify_eq] at h₁
      exact Or.inr ⟨ctx, hctx, by simpa using hset, h₁⟩

theorem Unassigned.rtsidAt_mem {s : GraphCtx ρ} {edge : Nat} (h : s.Unassigned edge) :
    s.rtsidAt edge ∈ s.streamCtxs.map (·.rtsid) := by
  obtain ⟨ctx, hctx, -⟩ := h
  rw [rtsidAt, hctx]
  exact List.mem_map_of_mem (List.mem_of_getElem? hctx)

theorem map_setProcessed (edges : List Nat) (ctxs : List StreamCtx) :
    (setProcessed edges ctxs).map (·.rtsid) = ctxs.map (·.rtsid) := by
  unfold setProcessed
  induction edges generalizing ctxs with
  | nil => rfl
  | cons edge edges ih => exact (ih _).trans (map_rtsid_modify ctxs edge fun _ => rfl)

theorem map_init (rtsids : List Nat) : (rtsids.map StreamCtx.init).map (·.rtsid) = rtsids := by
  rw [List.map_map]
  exact List.map_id rtsids

theorem mem_outRtsids {node : RTNode} {s : Nat} : s ∈ outRtsids node ↔ node.Puts s := by
  unfold outRtsids RTNode.Puts
  rw [List.mem_map]
  constructor
  · rintro ⟨i, hi, rfl⟩
    have := List.mem_range.1 hi
    omega
  · rintro ⟨hle, hlt⟩
    exact ⟨s - node.startOutRtsids, List.mem_range.2 (by omega), by omega⟩

/-- A graph function on the streams `ids` of `base` has stayed with them and with newer ones, and
has marked none. -/
structure Handled (depth : Nat) (base : RTGraph) (ids : List Nat) (s : GraphCtx ρ) : Prop where
  frame : ∃ new, Frame depth base ids new s.rtgraph
  marks : NoNewMarks base s.rtgraph
  edges : ∀ rtsid ∈ s.streamCtxs.map (·.rtsid), Within base ids rtsid
  dests : ∀ rtsid ∈ s.rtsids, Within base ids rtsid

section handled

variable {depth : Nat} {base g : RTGraph} {ids : List Nat} {s s' : GraphCtx ρ}

theorem Handled.onGraph (h : Handled depth base ids s) {new : List RTNode} {rtsids : List Nat}
    (hframe : Frame depth s.rtgraph rtsids new g) (hmarks : NoNewMarks s.rtgraph g)
    (hids : ∀ rtsid ∈ rtsids, Within base ids rtsid) :
    (∃ new, Frame depth base ids new g) ∧ NoNewMarks base g := by
  obtain ⟨old, hold⟩ := h.frame
  exact ⟨⟨old ++ new, hold.trans hframe hids⟩, h.marks.trans hmarks⟩

theorem Handled.of_edges (h : Handled depth base ids s) {edges : List Nat}
    (hedges : ∀ edge ∈ edges, s.Unassigned edge) :
    ∀ rtsid ∈ edges.map s.rtsidAt, Within base ids rtsid := by
  intro rtsid hmem
  obtain ⟨edge, hedge, rfl⟩ := List.mem_map.1 hmem
  exact h.edges _ (hedges edge hedge).rtsidAt_mem

theorem Handled.runMultiInputNode (E : Engine ρ) (hdepth : depth ≤ 2 ^ 32) (edges : List Nat)
    (nodeid : NodeID) (localParams : Option ρ) :
    Cmd.Preserves (Handled depth base ids)
      (GraphCtx.runMultiInputNode E edges nodeid localParams) := by
  intro s r s' hs h
  cases runMultiInputNode_cases h with
  | refused => exact hs
  | opened hedges ho =>
    obtain ⟨hframe, hmarks⟩ := hs.onGraph (ho.frame depth) ho.noNewMarks (hs.of_edges hedges)
    exact ⟨hframe, hmarks, hs.edges, hs.dests⟩
  | full hedges hrun =>
    obtain ⟨hframe, hmarks⟩ := hs.onGraph (hrun.frame hdepth) hrun.noNewMarks (hs.of_edges hedges)
    refine ⟨hframe, hmarks, ?_, hs.dests⟩
    rw [map_setProcessed]
    exact hs.edges
  | @ran cnode node tail g outEdges hedges hrun _ =>
    obtain ⟨hframe, hmarks⟩ := hs.onGraph (hrun.frame hdepth) hrun.noNewMarks (hs.of_edges hedges)
    refine ⟨hframe, hmarks, fun rtsid hmem => ?_, hs.dests⟩
    dsimp only at hmem
    rw [List.map_append, map_setProcessed, map_init] at hmem
    rcases List.mem_append.1 hmem with hmem | hmem
    · exact hs.edges rtsid hmem
    · obtain ⟨_, hold⟩ := hs.frame
      have hlow := (mem_outRtsids.1 hmem).1
      rw [hrun.running.start_eq] at hlow
      exact Or.inr (hold.length_le.trans hlow)

theorem Handled.assignEdges : ∀ (n : Nat) (edges : List Nat),
    Cmd.Preserves (Handled (ρ := ρ) depth base ids) (GraphCtx.assignEdges n edges)
  | _, [] => Cmd.Preserves.pure ()
  | n, edge :: edges => by
    intro s r s' hs h
    rcases assignEdges_cons h with ⟨_, -, hg, hrtsids, hctxs⟩ | ⟨ctx, hctx, -, hrest⟩
    · refine ⟨?_, ?_, ?_, ?_⟩
      · rw [hg]
        exact hs.frame
      · rw [hg]
        exact hs.marks
      · rw [hctxs]
        exact hs.edges
      · rw [hrtsids]
        exact hs.dests
    · refine Handled.assignEdges (n + 1) edges (s.assign n edge ctx.rtsid) r s'
        ⟨hs.frame, hs.marks, ?_, ?_⟩ hrest
      · have hctxs := map_rtsid_modify s.streamCtxs edge (m := fun ctx =>
          (ctx.setDest (if n = 0 then .trigger else .follow)).setSuccession
            s.dstGraphDescs.length) fun _ => rfl
        rw [assign, hctxs]
        exact hs.edges
      · intro rtsid hmem
        rcases List.mem_append.1 hmem with hmem | hmem
        · exact hs.dests rtsid hmem
        · rw [List.mem_singleton.1 hmem]
          exact hs.edges _ (List.mem_map_of_mem (List.mem_of_getElem? hctx))

theorem Handled.setParameterizedDestination (E : Engine ρ) (edges : List Nat) (gid : GraphID)
    (rGraphParams : Option ρ) :
    Cmd.Preserves (Handled depth base ids)
      (GraphCtx.setParameterizedDestination E edges gid rGraphParams) := by
  refine (Cmd.Preserves.failWhen _).bind fun _ => ?_
  cases E.graphs gid with
  | none => exact Cmd.Preserves.fail _
  | some desc =>
    refine (Cmd.Preserves.failWhen _).bind fun _ => (Cmd.Preserves.failWhen _).bind fun _ => ?_
    refine (Handled.assignEdges 0 edges).bind fun _ => Cmd.Preserves.get.bind fun _ => ?_
    refine (Cmd.Preserves.failWhen _).bind fun _ => Cmd.Preserves.modify fun s hs => ?_
    exact ⟨hs.frame, hs.marks, hs.edges, hs.dests⟩

end handled

end GraphCtx

open GraphCtx

/-- **Every graph function stays with the streams it was given and those it has made.** -/
theorem GraphFunction.run_handled {E : Engine ρ} {depth : Nat} (hdepth : depth ≤ 2 ^ 32)
    (f : GraphFunction ρ) (ids : List Nat) (g : RTGraph) {s' : GraphCtx ρ}
    {r : Except ErrorCode Unit} (h : f.run E (CCtx.initGraph ids g) = some (r, s')) :
    Handled depth g ids s' := by
  refine GraphFunction.preserves (Handled.runMultiInputNode E hdepth)
    (Handled.setParameterizedDestination E) f _ r s'
    ⟨⟨[], Frame.refl depth g ids⟩, NoNewMarks.refl g, ?_, ?_⟩ h
  · intro rtsid hmem
    change rtsid ∈ (ids.map StreamCtx.init).map (·.rtsid) at hmem
    rw [map_init] at hmem
    exact Or.inl hmem
  · intro rtsid hmem
    cases hmem

end OpenZL.Compress
