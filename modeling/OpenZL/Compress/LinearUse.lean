import OpenZL.Compress.GraphSteps

/-!
# Streams used once

A stream is used when a node reads it or when it is marked for storage.

Principal results: `Frame.free`, `Sound.runNode`, `Sound.storeStream`,
`Sound.usedOnce`.
-/

namespace OpenZL.Compress

open OpenZL.Lib

variable {s : Nat}

namespace RTGraph

/-- A node reads the stream, or it is to be stored. -/
def Used (g : RTGraph) (s : Nat) : Prop := s ∈ g.consumed ∨ g.isStored s = true

/-- The stream can be read at `depth` and nothing uses it yet. -/
structure Free (g : RTGraph) (depth s : Nat) : Prop where
  slot : ∃ slot, g.streams[s]? = some slot ∧ slot.stream.isSome ∧ slot.toStore = false ∧
    slot.protectRank < depth
  unread : s ∉ g.consumed

/-- No stream is read by two nodes or both read and stored. -/
structure Sound (once : Prop) (g : RTGraph) : Prop where
  disjoint : g.nodes.Pairwise fun a b => List.Disjoint a.inRtsids b.inRtsids
  unstored : ∀ s ∈ g.consumed, g.isStored s = false
  lt : ∀ s ∈ g.consumed, s < g.streams.length
  nodup : once → ∀ node ∈ g.nodes, node.inRtsids.Nodup

theorem mem_consumed {g : RTGraph} :
    s ∈ g.consumed ↔ ∃ node ∈ g.nodes, s ∈ node.inRtsids :=
  List.mem_flatMap

end RTGraph

open RTGraph

/-- The stream is an output of the node. -/
def RTNode.Puts (node : RTNode) (s : Nat) : Prop :=
  node.startOutRtsids ≤ s ∧ s < node.startOutRtsids + node.nbOutStreams

namespace RTGraph.Free

variable {g : RTGraph} {depth s : Nat}

theorem lt (h : g.Free depth s) : s < g.streams.length := by
  obtain ⟨slot, hslot, -⟩ := h.slot
  exact (List.getElem?_eq_some_iff.1 hslot).1

theorem alive (h : g.Free depth s) : g.Alive s := by
  obtain ⟨slot, hslot, hsome, -⟩ := h.slot
  obtain ⟨stream, hstream⟩ := Option.isSome_iff_exists.1 hsome
  exact ⟨slot, stream, hslot, hstream⟩

theorem not_stored (h : g.Free depth s) : g.isStored s = false := by
  obtain ⟨slot, hslot, -, hstored, -⟩ := h.slot
  rw [isStored_eq hslot, hstored]

end RTGraph.Free

namespace Frame

variable {depth : Nat} {base g : RTGraph} {ids : List Nat} {new : List RTNode}

variable (h : Frame depth base ids new g)

include h

theorem mem_consumed_iff :
    s ∈ g.consumed ↔ s ∈ base.consumed ∨ ∃ node ∈ new, s ∈ node.inRtsids := by
  rw [RTGraph.consumed, h.nodes, List.flatMap_append, List.mem_append, List.mem_flatMap (l := new)]
  rfl

theorem isStored_eq (hs : s ∉ ids) (hlt : s < base.streams.length) :
    g.isStored s = base.isStored s := by
  rw [RTGraph.isStored, h.slot_eq hs hlt]
  rfl

theorem isStored_mono (hs : base.isStored s = true) :
    g.isStored s = true := by
  have hlt : s < base.streams.length := by
    by_contra hge
    rw [RTGraph.isStored, List.getElem?_eq_none (Nat.le_of_not_lt hge)] at hs
    cases hs
  obtain ⟨old, slot, hold, hslot, htouched, -⟩ := h.of_length hlt
  rw [RTGraph.isStored_eq hold] at hs
  rw [RTGraph.isStored_eq hslot, htouched.marked hs]

theorem used_mono (hs : base.Used s) : g.Used s :=
  hs.imp (fun hread => h.mem_consumed_iff.2 (Or.inl hread)) h.isStored_mono

theorem mem_consumed_of_not_mem (hs : s ∉ ids) (hlt : s < base.streams.length) :
    s ∈ g.consumed ↔ s ∈ base.consumed := by
  rw [h.mem_consumed_iff]
  constructor
  · rintro (hold | ⟨node, hnode, hin⟩)
    · exact hold
    · rcases h.inputs node hnode s hin with hmem | hge
      · exact absurd hmem hs
      · exact absurd hlt (Nat.not_lt.2 hge)
  · exact Or.inl

theorem free {d s : Nat} (hs : s ∉ ids) (hfree : base.Free d s) :
    g.Free d s where
  slot := by
    rw [h.slot_eq hs hfree.lt]
    exact hfree.slot
  unread := by
    rw [h.mem_consumed_of_not_mem hs hfree.lt]
    exact hfree.unread

end Frame

/-- **The outputs of a node** are free. -/
theorem NodeRun.free {v depth : Nat} {g g' : RTGraph} {cnode : CNode} {irtsids : List Nat}
    {node : RTNode} {tail : List RTCStream} (hrun : NodeRun v g cnode irtsids node tail g')
    (hpos : 0 < depth) (hlt : ∀ s ∈ g.consumed, s < g.streams.length) (hs : node.Puts s) :
    g'.Free depth s := by
  obtain ⟨hle, hltOut⟩ := hs
  rw [hrun.running.start_eq] at hle hltOut
  obtain ⟨slot, hslot, hsome⟩ := hrun.registered (s - g.streams.length) (by omega)
  have hfresh := hrun.running.fresh slot (List.mem_of_getElem? hslot)
  constructor
  · refine ⟨slot, ?_, hsome, hfresh.1, by omega⟩
    rw [hrun.eq]
    rw [List.getElem?_append_right (by rwa [length_clearSlots]), length_clearSlots, hslot]
  · rw [(hrun.frame (Nat.zero_le _ : 0 ≤ 2 ^ 32)).mem_consumed_iff]
    rintro (hread | ⟨n, hn, hin⟩)
    · have := hlt s hread
      omega
    · rw [List.mem_singleton.1 hn, hrun.running.inRtsids_eq] at hin
      have := (hrun.alive s hin).lt
      omega

namespace RTGraph.Sound

variable {once : Prop} {g g' : RTGraph}

variable (h : Sound once g)

include h

theorem of_streams {streams : List RTCStream} (hlen : g.streams.length ≤ streams.length)
    (hmarks : ∀ s ∈ g.consumed, RTGraph.isStored ⟨g.nodes, streams⟩ s = true →
      g.isStored s = true) : Sound once ⟨g.nodes, streams⟩ where
  disjoint := h.disjoint
  unstored s hs := by
    cases hstored : RTGraph.isStored ⟨g.nodes, streams⟩ s with
    | false => rfl
    | true => rw [← hmarks s hs hstored, h.unstored s hs]
  lt s hs := (h.lt s hs).trans_le hlen
  nodup := h.nodup

/-- **A free stream may be stored.** -/
theorem storeStream {rtsid : Nat} (hfree : rtsid ∉ g.consumed) :
    Sound once ⟨g.nodes, g.streams.modify rtsid ({ · with toStore := true })⟩ := by
  refine h.of_streams (List.length_modify ..).ge fun s hs hstored => ?_
  have hne : rtsid ≠ s := fun heq => hfree (heq ▸ hs)
  unfold RTGraph.isStored at hstored ⊢
  dsimp only at hstored
  rwa [List.getElem?_modify_ne _ _ hne] at hstored

/-- **A node may read free streams.** -/
theorem runNode {depth v : Nat} {cnode : CNode} {irtsids : List Nat} {node : RTNode}
    {tail : List RTCStream} (hrun : NodeRun v g cnode irtsids node tail g')
    (hfree : ∀ s ∈ irtsids, g.Free depth s) (hnodup : once → irtsids.Nodup) : Sound once g' := by
  have hin := hrun.running.inRtsids_eq
  have hframe := hrun.frame (Nat.zero_le _ : 0 ≤ 2 ^ 32)
  have hmem : ∀ {s}, s ∈ g'.consumed ↔ s ∈ g.consumed ∨ s ∈ irtsids := by
    intro s
    rw [hframe.mem_consumed_iff]
    simp [hin]
  constructor
  · rw [hframe.nodes, List.pairwise_append]
    refine ⟨h.disjoint, List.pairwise_singleton .., fun a ha b hb => ?_⟩
    rw [List.mem_singleton.1 hb, hin]
    exact fun s hs hs' => (hfree s hs').unread (mem_consumed.2 ⟨a, ha, hs⟩)
  · intro s hs
    cases hstored : g'.isStored s with
    | false => rfl
    | true =>
      have hold := hrun.noNewMarks s hstored
      rcases hmem.1 hs with hs | hs
      · rw [← hold, h.unstored s hs]
      · rw [← hold, (hfree s hs).not_stored]
  · intro s hs
    refine Nat.lt_of_lt_of_le ?_ hframe.length_le
    rcases hmem.1 hs with hs | hs
    · exact h.lt s hs
    · exact (hfree s hs).lt
  · intro ho n hn
    rw [hframe.nodes, List.mem_append, List.mem_singleton] at hn
    rcases hn with hn | rfl
    · exact h.nodup ho n hn
    · rw [hin]
      exact hnodup ho

theorem used_lt (hs : g.Used s) : s < g.streams.length := by
  rcases hs with hread | hstored
  · exact h.lt s hread
  · by_contra hge
    rw [RTGraph.isStored, List.getElem?_eq_none (Nat.le_of_not_lt hge)] at hstored
    cases hstored

theorem consumed_nodup (ho : once) : g.consumed.Nodup :=
  List.nodup_flatMap.2 ⟨h.nodup ho, h.disjoint⟩

/-- **In a sound graph, a stream that is used is used exactly once.** -/
theorem usedOnce (ho : once) (hs : g.Used s) : g.UsedOnce s := by
  by_cases hread : s ∈ g.consumed
  · exact Or.inl ⟨List.count_eq_one_of_mem (h.consumed_nodup ho) hread, h.unstored s hread⟩
  · exact Or.inr ⟨List.count_eq_zero_of_not_mem hread, hs.resolve_left hread⟩

end RTGraph.Sound

end OpenZL.Compress
