import OpenZL.Compress.FinalGraph
import OpenZL.Compress.GraphFunction

/-!
# What a run leaves of the graph it started from

The engine works depth first: whatever is run on some streams adds nodes and streams behind those
there are, and of the older streams only touches the ones it is run on.

Principal results: `Frame.trans`, `Frame.clearNodesFrom`, `NodeRun.frame`.
-/

namespace OpenZL.Compress

open OpenZL.Lib

/-- A slot that a run at `depth` has worked on: a mark stays, and a protected stream is still
there. -/
structure Touched (depth : Nat) (old new : RTCStream) : Prop where
  marked : old.toStore = true → new.toStore = true
  kept : 0 < old.protectRank → old.protectRank < depth → new = { old with toStore := new.toStore }

namespace Touched

variable {depth : Nat} {old mid new : RTCStream}

theorem refl (depth : Nat) (slot : RTCStream) : Touched depth slot slot :=
  ⟨id, fun _ _ => rfl⟩

theorem trans (h : Touched depth old mid) (h' : Touched depth mid new) : Touched depth old new where
  marked := fun hold => h'.marked (h.marked hold)
  kept hpos hlt := by
    have hmid := h.kept hpos hlt
    have hrank : mid.protectRank = old.protectRank := by rw [hmid]
    rw [h'.kept (hrank ▸ hpos) (hrank ▸ hlt), hmid]

theorem mono {depth' : Nat} (hle : depth' ≤ depth) (h : Touched depth old new) :
    Touched depth' old new :=
  ⟨h.marked, fun hpos hlt => h.kept hpos (hlt.trans_le hle)⟩

end Touched

theorem clearSlot_toStore (protectRank : Nat) (s : RTCStream) :
    (RTGM.clearSlot protectRank s).toStore = s.toStore := by
  unfold RTGM.clearSlot
  split
  · rfl
  · split <;> rfl

theorem clearSlot_touched {depth rank : Nat} (s : RTCStream) (hdepth : depth ≤ 2 ^ 32)
    (hrank : rank = 0 ∨ rank = depth ∧ depth < 2 ^ 32) :
    Touched depth s (RTGM.clearSlot rank s) where
  marked h := by rw [clearSlot_toStore, h]
  kept hpos hlt := by
    unfold RTGM.clearSlot
    by_cases hstored : s.toStore = true
    · rw [if_pos hstored]
    · have hlower : (s.protectRank + 2 ^ 32 - 1) % 2 ^ 32 < (rank + 2 ^ 32 - 1) % 2 ^ 32 := by
        rcases hrank with rfl | ⟨rfl, hlt'⟩ <;> omega
      rw [if_neg hstored, if_pos hlower]

theorem RTGraph.isStored_eq {g : RTGraph} {s : Nat} {slot : RTCStream}
    (h : g.streams[s]? = some slot) : g.isStored s = slot.toStore := by
  rw [RTGraph.isStored, h]
  rfl

/-- No stream is marked for storage in `g` that was not in `base`. -/
def NoNewMarks (base g : RTGraph) : Prop := ∀ s, g.isStored s = true → base.isStored s = true

theorem NoNewMarks.refl (g : RTGraph) : NoNewMarks g g := fun _ h => h

theorem NoNewMarks.trans {base mid g : RTGraph} (h : NoNewMarks base mid)
    (h' : NoNewMarks mid g) : NoNewMarks base g := fun s hs => h s (h' s hs)

/-- A stream that a run on `ids` may be on: one of `ids`, or one newer than the graph it started
from. -/
def Within (base : RTGraph) (ids : List Nat) (s : Nat) : Prop :=
  s ∈ ids ∨ base.streams.length ≤ s

/-- `g` is what a run on the streams `ids` at `depth` has made of `base`, with the nodes `new`. -/
structure Frame (depth : Nat) (base : RTGraph) (ids : List Nat) (new : List RTNode)
    (g : RTGraph) : Prop where
  nodes : g.nodes = base.nodes ++ new
  starts : ∀ node, new.head? = some node → node.startOutRtsids = base.streams.length
  grown : new = [] → g.streams.length = base.streams.length
  later : ∀ node ∈ new, base.streams.length ≤ node.startOutRtsids
  inputs : ∀ node ∈ new, ∀ s ∈ node.inRtsids, Within base ids s
  length_le : base.streams.length ≤ g.streams.length
  slots : ∀ s old, base.streams[s]? = some old → ∃ slot, g.streams[s]? = some slot ∧
    Touched depth old slot ∧ (s ∉ ids → slot = old)

namespace Frame

variable {depth : Nat} {base g g' : RTGraph} {ids ids' : List Nat} {new new' : List RTNode}

theorem refl (depth : Nat) (base : RTGraph) (ids : List Nat) : Frame depth base ids [] base where
  nodes := (List.append_nil _).symm
  starts := by simp
  grown _ := rfl
  later := by simp
  inputs := by simp
  length_le := Nat.le_refl _
  slots s old h := ⟨old, h, Touched.refl depth old, fun _ => rfl⟩

/-- **Runs one after the other**, the second on streams of the first or on newer ones. -/
theorem trans (h : Frame depth base ids new g) (h' : Frame depth g ids' new' g')
    (hids : ∀ s ∈ ids', Within base ids s) : Frame depth base ids (new ++ new') g' where
  nodes := by rw [h'.nodes, h.nodes, List.append_assoc]
  starts node hnode := by
    cases new with
    | nil =>
      rw [h'.starts node (by simpa using hnode), h.grown rfl]
    | cons first rest => exact h.starts node (by simpa using hnode)
  grown hnil := by
    obtain ⟨hnew, hnew'⟩ := List.append_eq_nil_iff.1 hnil
    rw [h'.grown hnew', h.grown hnew]
  later node hnode := by
    rcases List.mem_append.1 hnode with hnode | hnode
    · exact h.later node hnode
    · exact h.length_le.trans (h'.later node hnode)
  inputs node hnode s hs := by
    rcases List.mem_append.1 hnode with hnode | hnode
    · exact h.inputs node hnode s hs
    · rcases h'.inputs node hnode s hs with hs | hs
      · exact hids s hs
      · exact Or.inr (h.length_le.trans hs)
  length_le := h.length_le.trans h'.length_le
  slots s old hold := by
    obtain ⟨mid, hmid, htouched, hsame⟩ := h.slots s old hold
    obtain ⟨slot, hslot, htouched', hsame'⟩ := h'.slots s mid hmid
    refine ⟨slot, hslot, htouched.trans htouched', fun hs => ?_⟩
    have hs' : s ∉ ids' := by
      intro hmem
      rcases hids s hmem with hmem | hle
      · exact hs hmem
      · have := (List.getElem?_eq_some_iff.1 hold).1
        omega
    rw [hsame' hs', hsame hs]

theorem mono {depth' : Nat} (h : Frame depth base ids new g) (hle : depth' ≤ depth)
    (hids : ∀ s ∈ ids, s ∈ ids') : Frame depth' base ids' new g where
  nodes := h.nodes
  starts := h.starts
  grown := h.grown
  later := h.later
  inputs node hnode s hs := (h.inputs node hnode s hs).imp_left (hids s)
  length_le := h.length_le
  slots s old hold := by
    obtain ⟨slot, hslot, htouched, hsame⟩ := h.slots s old hold
    exact ⟨slot, hslot, htouched.mono hle, fun hs => hsame fun hmem => hs (hids s hmem)⟩

theorem of_length (h : Frame depth base ids new g) {s : Nat} (hs : s < base.streams.length) :
    ∃ old slot, base.streams[s]? = some old ∧ g.streams[s]? = some slot ∧
      Touched depth old slot ∧ (s ∉ ids → slot = old) := by
  obtain ⟨slot, hslot, htouched, hsame⟩ :=
    h.slots s base.streams[s] (List.getElem?_eq_getElem hs)
  exact ⟨_, slot, List.getElem?_eq_getElem hs, hslot, htouched, hsame⟩

theorem slot_eq (h : Frame depth base ids new g) {s : Nat} (hs : s ∉ ids)
    (hlt : s < base.streams.length) : g.streams[s]? = base.streams[s]? := by
  obtain ⟨old, slot, hold, hslot, -, hsame⟩ := h.of_length hlt
  rw [hold, hslot, hsame hs]

/-- **Dropping the nodes that a run has added** drops the streams that it has added. -/
theorem clearNodesFrom (h : Frame depth base ids new g) :
    RTGM.clearNodesFrom base.nodes.length g =
      some (.ok (), ⟨base.nodes, g.streams.take base.streams.length⟩) := by
  unfold RTGM.clearNodesFrom
  rw [Cmd.run_get_bind]
  cases new with
  | nil =>
    have hnodes : g.nodes = base.nodes := by simpa using h.nodes
    rw [if_pos (by rw [hnodes]), List.take_of_length_le (h.grown rfl).le, ← hnodes]
    rfl
  | cons node rest =>
    have hnodes := h.nodes
    rw [if_neg (by rw [hnodes, List.length_append, List.length_cons]; omega)]
    have hget : g.nodes[base.nodes.length]? = some node := by rw [hnodes]; simp
    rw [hget, ← h.starts node rfl]
    change some (_, RTGraph.mk _ _) = _
    rw [hnodes, List.take_left]

theorem truncate (h : Frame depth base ids new g) :
    Frame depth base ids [] ⟨base.nodes, g.streams.take base.streams.length⟩ where
  nodes := (List.append_nil _).symm
  starts := by simp
  grown _ := by rw [List.length_take_of_le h.length_le]
  later := by simp
  inputs := by simp
  length_le := by rw [List.length_take_of_le h.length_le]
  slots s old hold := by
    obtain ⟨slot, hslot, hrest⟩ := h.slots s old hold
    refine ⟨slot, ?_, hrest⟩
    rw [List.getElem?_take_of_lt (List.getElem?_eq_some_iff.1 hold).1, hslot]

theorem take_eq (h : Frame depth base ids new g)
    (hrank : ∀ s ∈ ids, ∀ slot, base.streams[s]? = some slot →
      0 < slot.protectRank ∧ slot.protectRank < depth)
    (hmarks : ∀ s ∈ ids, g.isStored s = true → base.isStored s = true) :
    (⟨base.nodes, g.streams.take base.streams.length⟩ : RTGraph) = base := by
  have hstreams : g.streams.take base.streams.length = base.streams := by
    refine List.ext_getElem? fun s => ?_
    rw [List.getElem?_take]
    split
    · rename_i hlt
      obtain ⟨old, slot, hold, hslot, htouched, hsame⟩ := h.of_length hlt
      rw [hold, hslot]
      by_cases hs : s ∈ ids
      · obtain ⟨hpos, hlt'⟩ := hrank s hs old hold
        have hkept := htouched.kept hpos hlt'
        have hstore : slot.toStore = old.toStore := by
          cases hold' : old.toStore with
          | true => exact htouched.marked hold'
          | false =>
            cases hslot' : slot.toStore with
            | false => rfl
            | true =>
              have hmark := hmarks s hs (by rw [RTGraph.isStored_eq hslot, hslot'])
              rw [RTGraph.isStored_eq hold, hold'] at hmark
              cases hmark
        rw [hkept, hstore]
      · rw [hsame hs]
    · rename_i hge
      rw [List.getElem?_eq_none (Nat.le_of_not_lt hge)]
  rw [hstreams]

end Frame

/-- The slot after `RTGM_guardRTStream`. -/
def guardSlot (protectRank : Nat) (s : RTCStream) : RTCStream :=
  if s.protectRank = 0 then { s with protectRank } else s

/-- The streams after `RTGM_guardRTStream` on each of `rtsids`. -/
def guardSlots (protectRank : Nat) (rtsids : List Nat) (streams : List RTCStream) :
    List RTCStream :=
  rtsids.foldl (fun l rtsid => l.modify rtsid (guardSlot protectRank)) streams

theorem forEach_guardRTStream {protectRank : Nat} (hpos : 0 < protectRank) :
    ∀ (rtsids : List Nat) (g : RTGraph),
    Cmd.forEach (fun rtsid => RTGM.guardRTStream rtsid protectRank) rtsids g =
      some (.ok (), ⟨g.nodes, guardSlots protectRank rtsids g.streams⟩)
  | [], _ => rfl
  | rtsid :: rtsids, g => by
    have hstep : RTGM.guardRTStream rtsid protectRank g =
        some (.ok (), ⟨g.nodes, g.streams.modify rtsid (guardSlot protectRank)⟩) := by
      rw [RTGM.guardRTStream, Cmd.run_modify, if_neg (Nat.ne_of_gt hpos)]
      rfl
    exact (Cmd.run_bind_of_ok hstep).trans (forEach_guardRTStream hpos rtsids _)

theorem guardSlot_guardSlot {protectRank : Nat} (hpos : 0 < protectRank) (s : RTCStream) :
    guardSlot protectRank (guardSlot protectRank s) = guardSlot protectRank s := by
  unfold guardSlot
  split
  · rw [if_neg (Nat.ne_of_gt hpos)]
  · rfl

theorem getElem?_guardSlots {protectRank : Nat} (hpos : 0 < protectRank) (rtsids : List Nat)
    (streams : List RTCStream) (s : Nat) : (guardSlots protectRank rtsids streams)[s]? =
      if s ∈ rtsids then streams[s]?.map (guardSlot protectRank) else streams[s]? := by
  unfold guardSlots
  induction rtsids generalizing streams with
  | nil => simp
  | cons rtsid rtsids ih =>
    rw [List.foldl_cons, ih, List.getElem?_modify]
    by_cases hs : rtsid = s
    · subst hs
      by_cases hmem : rtsid ∈ rtsids
      · simp [hmem, Function.comp_def, guardSlot_guardSlot hpos]
      · simp [hmem]
    · have hs' : s ≠ rtsid := fun h => hs h.symm
      simp [hs, hs']

theorem guardSlot_touched (depth : Nat) (s : RTCStream) :
    Touched depth s (guardSlot depth s) where
  marked h := by
    unfold guardSlot
    split <;> exact h
  kept hpos _ := by
    rw [guardSlot, if_neg (Nat.ne_of_gt hpos)]

theorem Frame.of_slots {depth : Nat} {g : RTGraph} {ids : List Nat} {streams : List RTCStream}
    {f : RTCStream → RTCStream}
    (hget : ∀ s : Nat, streams[s]? = if s ∈ ids then g.streams[s]?.map f else g.streams[s]?)
    (hf : ∀ slot, Touched depth slot (f slot)) : Frame depth g ids [] ⟨g.nodes, streams⟩ := by
  have hlen : streams.length = g.streams.length := by
    have hnone : ∀ s : Nat, streams[s]? = none ↔ g.streams[s]? = none := by
      intro s
      rw [hget]
      split
      · exact Option.map_eq_none_iff
      · exact Iff.rfl
    refine Nat.le_antisymm ?_ ?_
    · exact List.getElem?_eq_none_iff.1 ((hnone _).2 (List.getElem?_eq_none (Nat.le_refl _)))
    · exact List.getElem?_eq_none_iff.1 ((hnone _).1 (List.getElem?_eq_none (Nat.le_refl _)))
  exact
    { nodes := (List.append_nil _).symm
      starts := by simp
      grown := fun _ => hlen
      later := by simp
      inputs := by simp
      length_le := hlen.ge
      slots := fun s old hold => by
        rw [hget, hold]
        by_cases hs : s ∈ ids
        · rw [if_pos hs]
          exact ⟨_, rfl, hf old, fun hn => absurd hs hn⟩
        · rw [if_neg hs]
          exact ⟨old, rfl, Touched.refl depth old, fun _ => rfl⟩ }

theorem guardSlots_frame (depth : Nat) (hpos : 0 < depth) (g : RTGraph) (ids : List Nat) :
    Frame depth g ids [] ⟨g.nodes, guardSlots depth ids g.streams⟩ :=
  Frame.of_slots (getElem?_guardSlots hpos ids g.streams) (guardSlot_touched depth)

theorem clearSlots_frame {depth : Nat} (hdepth : depth < 2 ^ 32) (g : RTGraph) (ids : List Nat) :
    Frame depth g ids [] ⟨g.nodes, clearSlots depth ids g.streams⟩ :=
  Frame.of_slots (getElem?_clearSlots depth ids g.streams) fun slot =>
    clearSlot_touched slot hdepth.le (Or.inr ⟨rfl, hdepth⟩)

theorem storeStream_frame (depth : Nat) (g : RTGraph) (rtsid : Nat) :
    Frame depth g [rtsid] []
      ⟨g.nodes, g.streams.modify rtsid ({ · with toStore := true })⟩ := by
  refine Frame.of_slots (f := ({ · with toStore := true })) (fun s => ?_) fun slot =>
    ⟨fun _ => rfl, fun _ _ => rfl⟩
  rw [List.getElem?_modify]
  by_cases hs : rtsid = s
  · subst hs
    simp
  · simp [hs, Ne.symm hs]

theorem isStored_of_slots {g : RTGraph} {ids : List Nat} {streams : List RTCStream}
    {f : RTCStream → RTCStream}
    (hget : ∀ s : Nat, streams[s]? = if s ∈ ids then g.streams[s]?.map f else g.streams[s]?)
    (hf : ∀ slot, (f slot).toStore = slot.toStore) (s : Nat) :
    RTGraph.isStored ⟨g.nodes, streams⟩ s = g.isStored s := by
  unfold RTGraph.isStored
  rw [hget]
  by_cases hs : s ∈ ids
  · rw [if_pos hs, Option.map_map]
    congr 2
    exact funext hf
  · rw [if_neg hs]

section nodes

variable {depth v : Nat} {g g' : RTGraph} {cnode : CNode} {irtsids : List Nat} {node : RTNode}
  {tail : List RTCStream}

theorem noNewMarks_append {nodes : List RTNode} {streams : List RTCStream}
    (hold : ∀ s, RTGraph.isStored ⟨nodes, streams⟩ s = true → g.isStored s = true)
    (hfresh : ∀ slot ∈ tail, slot.toStore = false) :
    NoNewMarks g ⟨nodes, streams ++ tail⟩ := by
  intro s hs
  rcases Nat.lt_or_ge s streams.length with hlt | hge
  · refine hold s ?_
    unfold RTGraph.isStored at hs ⊢
    dsimp only at hs ⊢
    rwa [List.getElem?_append_left hlt] at hs
  · unfold RTGraph.isStored at hs
    dsimp only at hs
    rw [List.getElem?_append_right hge] at hs
    cases hget : tail[s - streams.length]? with
    | none =>
      rw [hget] at hs
      cases hs
    | some slot =>
      rw [hget] at hs
      change slot.toStore = true at hs
      rw [hfresh slot (List.mem_of_getElem? hget)] at hs
      cases hs

theorem Opened.noNewMarks (h : Opened g irtsids node tail g') : NoNewMarks g g' := by
  rw [h.eq]
  exact noNewMarks_append (fun _ hs => hs) fun slot hslot => (h.fresh slot hslot).1

theorem isStored_clearSlots (rank : Nat) (rtsids : List Nat) (g : RTGraph) (s : Nat) :
    RTGraph.isStored ⟨g.nodes, clearSlots rank rtsids g.streams⟩ s = g.isStored s :=
  isStored_of_slots (getElem?_clearSlots rank rtsids g.streams) (clearSlot_toStore rank) s

theorem NodeRun.noNewMarks (h : NodeRun v g cnode irtsids node tail g') : NoNewMarks g g' := by
  rw [h.eq]
  refine noNewMarks_append (fun s hs => ?_) fun slot hslot =>
    (h.running.fresh slot hslot).1
  rwa [← isStored_clearSlots 0 irtsids]

theorem Opened.frame (depth : Nat) (h : Opened g irtsids node tail g') :
    Frame depth g irtsids [node] g' where
  nodes := by rw [h.eq]
  starts n hn := by
    obtain rfl : node = n := by simpa using hn
    exact h.start_eq
  grown hnil := by cases hnil
  later n hn := by
    obtain rfl := List.mem_singleton.1 hn
    exact h.start_eq.ge
  inputs n hn s hs := by
    obtain rfl := List.mem_singleton.1 hn
    exact Or.inl (h.inRtsids_eq ▸ hs)
  length_le := by rw [h.eq, List.length_append]; omega
  slots s old hold := by
    refine ⟨old, ?_, Touched.refl depth old, fun _ => rfl⟩
    rw [h.eq, List.getElem?_append_left (List.getElem?_eq_some_iff.1 hold).1, hold]

theorem NodeRun.frame (h : NodeRun v g cnode irtsids node tail g') (hdepth : depth ≤ 2 ^ 32) :
    Frame depth g irtsids [node] g' where
  nodes := by rw [h.eq]
  starts n hn := by
    obtain rfl : node = n := by simpa using hn
    exact h.running.start_eq
  grown hnil := by cases hnil
  later n hn := by
    obtain rfl := List.mem_singleton.1 hn
    exact h.running.start_eq.ge
  inputs n hn s hs := by
    obtain rfl := List.mem_singleton.1 hn
    exact Or.inl (h.running.inRtsids_eq ▸ hs)
  length_le := by rw [h.eq, List.length_append, length_clearSlots]; omega
  slots s old hold := by
    have hlt := (List.getElem?_eq_some_iff.1 hold).1
    rw [h.eq]
    rw [List.getElem?_append_left (by rwa [length_clearSlots]), getElem?_clearSlots, hold]
    by_cases hs : s ∈ irtsids
    · rw [if_pos hs]
      exact ⟨_, rfl, clearSlot_touched old hdepth (Or.inl rfl), fun hn => absurd hs hn⟩
    · rw [if_neg hs]
      exact ⟨old, rfl, Touched.refl depth old, fun _ => rfl⟩

theorem runNodeID_some {ρ : Type} {E : Engine ρ} {nodeid : NodeID} {localParams : Option ρ}
    {r : Except ErrorCode (Nat × Nat)}
    (h : GraphCtx.runNodeID E irtsids nodeid localParams g = some (r, g')) :
    (∃ e, r = .error e ∧ (g' = g ∨ ∃ node tail, Opened g irtsids node tail g')) ∨
      ∃ cnode node tail, r = .ok (g.nodes.length, node.nbOutStreams) ∧
        NodeRun E.formatVersion g cnode irtsids node tail g' := by
  unfold GraphCtx.runNodeID at h
  split at h
  · obtain ⟨rfl, rfl⟩ := Prod.mk.inj (Option.some.inj h)
    exact Or.inl ⟨_, rfl, Or.inl rfl⟩
  · rename_i cnode codec _
    rcases runCNode_some h with hfail | ⟨node, tail, hr, hrun⟩
    · exact Or.inl hfail
    · exact Or.inr ⟨cnode, node, tail, hr, hrun⟩

end nodes

end OpenZL.Compress
