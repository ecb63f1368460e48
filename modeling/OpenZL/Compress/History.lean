import OpenZL.Compress.CodecOutputs
import OpenZL.Compress.GraphSteps

/-!
# What the streams of a graph held

The engine frees streams as soon as nothing is to read them.

Principal results: `Recorded.runCNode`, `Extends.recorded`.
-/

namespace OpenZL.Compress

open OpenZL.Lib

variable {ρ : Type}

/-- Every codec that ends well has asked only for what it can get. -/
def Engine.Complete (E : Engine ρ) : Prop :=
  ∀ nodeid cnode codec, E.nodes nodeid = some (cnode, codec) → ∀ localParams inputs,
    (codec localParams inputs).result = .ok () → (codec localParams inputs).Complete cnode

/-- What stream `s` held. -/
def held (history : List (Option Data)) (s : Nat) : Option Data := history[s]?.join

/-- The content of stream `s`. -/
def heldContent (history : List (Option Data)) (s : Nat) : List UInt8 :=
  ((held history s).map (·.content)).getD []

/-- The node is a run of a codec, from the streams it reads to its outputs. -/
structure RTNode.Encodes (node : RTNode) (codec : Codec) (history : List (Option Data))
    (inputs : List Data) : Prop where
  takes : node.cnode.Takes inputs
  inputs_eq : node.inRtsids.map (held history) = inputs.map some
  succeeded : (codec inputs).result = .ok ()
  header_eq : node.nodeHeader = (codec inputs).header
  streams_eq : (List.range' node.startOutRtsids node.nbOutStreams).map (held history) =
    (codec inputs).streams node.cnode
  reserved : ∀ stream ∈ (codec inputs).streams node.cnode, stream.isSome

/-- `history` has what the streams of a graph on the inputs `ins` held. -/
structure Recorded (E : Engine ρ) (ins : List Data) (history : List (Option Data))
    (g : RTGraph) : Prop where
  length_eq : history.length = g.streams.length
  kept : ∀ (s : Nat) slot d, g.streams[s]? = some slot → slot.stream = some d →
    held history s = some d
  session : ∀ (k : Nat) d, ins[k]? = some d → held history k = some d
  nodes : ∀ node ∈ g.nodes, ∃ nodeid codec localParams inputs,
    E.nodes nodeid = some (node.cnode, codec) ∧ node.Encodes (codec localParams) history inputs
  covered : ∀ s < g.streams.length, s < ins.length ∨
    ∃ node ∈ g.nodes, node.startOutRtsids ≤ s ∧ s < node.startOutRtsids + node.nbOutStreams

section history

variable {E : Engine ρ} {ins : List Data} {history : List (Option Data)} {g g' : RTGraph}

theorem held_append {s : Nat} {d : Data} (h : held history s = some d)
    (more : List (Option Data)) : held (history ++ more) s = some d := by
  have hlt : s < history.length := by
    by_contra hge
    rw [held, List.getElem?_eq_none (Nat.le_of_not_lt hge)] at h
    cases h
  rw [held, List.getElem?_append_left hlt]
  exact h

theorem map_held_append {ids : List Nat} {streams : List (Option Data)}
    (h : ids.map (held history) = streams) (hsome : ∀ stream ∈ streams, stream.isSome)
    (more : List (Option Data)) : ids.map (held (history ++ more)) = streams := by
  subst h
  refine List.map_congr_left fun s hs => ?_
  obtain ⟨d, hd⟩ := Option.isSome_iff_exists.1 (hsome _ (List.mem_map_of_mem hs))
  rw [hd, held_append hd]

theorem RTNode.Encodes.append {node : RTNode} {codec : Codec} {inputs : List Data}
    (h : node.Encodes codec history inputs) (more : List (Option Data)) :
    node.Encodes codec (history ++ more) inputs where
  takes := h.takes
  inputs_eq := map_held_append h.inputs_eq (by simp) more
  succeeded := h.succeeded
  header_eq := h.header_eq
  streams_eq := map_held_append h.streams_eq h.reserved more
  reserved := h.reserved

theorem Recorded.of_modify (h : Recorded E ins history g) {rtsid : Nat}
    {f : RTCStream → RTCStream}
    (hf : ∀ slot, (f slot).stream = slot.stream ∨ (f slot).stream = none) :
    Recorded E ins history ⟨g.nodes, g.streams.modify rtsid f⟩ where
  length_eq := by rw [List.length_modify, h.length_eq]
  kept s slot d hslot hd := by
    dsimp only at hslot
    rw [List.getElem?_modify] at hslot
    obtain ⟨old, hold, rfl⟩ := Option.map_eq_some_iff.1 hslot
    refine h.kept s old d hold ?_
    split at hd
    · rcases hf old with heq | hnone
      · rw [← heq, hd]
      · rw [hnone] at hd
        cases hd
    · exact hd
  session := h.session
  nodes := h.nodes
  covered s hs := h.covered s (by rwa [List.length_modify] at hs)

theorem clearSlot_stream (protectRank : Nat) (slot : RTCStream) :
    (RTGM.clearSlot protectRank slot).stream = slot.stream ∨
      (RTGM.clearSlot protectRank slot).stream = none := by
  unfold RTGM.clearSlot
  split
  · exact Or.inl rfl
  · split
    · exact Or.inl rfl
    · exact Or.inr rfl

theorem guardSlot_stream (protectRank : Nat) (slot : RTCStream) :
    (guardSlot protectRank slot).stream = slot.stream := by
  unfold guardSlot
  split <;> rfl

theorem nbOutStreams_eq {v : Nat} {codec : Codec} {cnode : CNode} {irtsids : List Nat}
    {node : RTNode} {tail : List RTCStream} {inputs : List Data}
    (hrun : NodeRun v g cnode irtsids node tail g')
    (hcodec : CodecRan codec cnode irtsids g node tail inputs)
    (hcomplete : (codec inputs).Complete cnode) :
    node.nbOutStreams = tail.length ∧
      ∀ stream ∈ (codec inputs).streams cnode, stream.isSome := by
  have hstreams := hcodec.streams_eq hcomplete
  have hall : ∀ stream ∈ (codec inputs).streams cnode, stream.isSome := by
    intro stream hmem
    obtain ⟨i, hi⟩ := List.getElem?_of_mem hmem
    rcases Nat.lt_or_ge i cnode.getNbOut1s with hlt | hge
    · have hle := hrun.accepted.nbOut1s_le
      rw [hrun.running.cnode_eq] at hle
      obtain ⟨slot, hslot, hsome⟩ := hrun.registered i (hlt.trans_le hle)
      rw [← hstreams, List.getElem?_map, hslot] at hi
      rwa [← Option.some.inj hi]
    · refine hcomplete.variable stream (List.mem_of_getElem? (i := i - cnode.getNbOut1s) ?_)
      rw [List.getElem?_drop, Nat.add_sub_cancel' hge, hi]
  refine ⟨?_, hall⟩
  rw [hrun.running.nbOut_eq, List.countP_eq_length]
  intro slot hslot
  exact hall _ (hstreams ▸ List.mem_map_of_mem hslot)

/-- **A node that has run** adds its outputs to the history. -/
theorem Recorded.runCNode (h : Recorded E ins history g) (hE : E.Complete) {nodeid : NodeID}
    {cnode : CNode} {codec : Option ρ → Codec} {localParams : Option ρ} {rtsids : List Nat}
    {out : Nat × Nat} (hnode : E.nodes nodeid = some (cnode, codec))
    (hroom : g'.streams.length < streamCapacity)
    (hcall : Compress.runCNode E.formatVersion (codec localParams) cnode rtsids g =
      some (.ok out, g')) :
    ∃ more, Recorded E ins (history ++ more) g' := by
  obtain ⟨node, tail, inputs, hrun, hcodec⟩ := runCNode_codec hroom hcall
  have hcomplete := hE nodeid cnode codec hnode localParams inputs hcodec.succeeded
  obtain ⟨hnb, hsome⟩ := nbOutStreams_eq hrun hcodec hcomplete
  have hcnode := hrun.running.cnode_eq
  have hstart := hrun.running.start_eq
  have hlen : g'.streams.length = g.streams.length + tail.length := by
    rw [hrun.eq, List.length_append, length_clearSlots]
  refine ⟨tail.map (·.stream), ?_, ?_, ?_, ?_, ?_⟩
  · rw [List.length_append, List.length_map, h.length_eq, hlen]
  · intro s slot d hslot hd
    rw [hrun.eq] at hslot
    dsimp only at hslot
    rcases Nat.lt_or_ge s g.streams.length with hlt | hge
    · rw [List.getElem?_append_left (by rwa [length_clearSlots]), getElem?_clearSlots] at hslot
      refine held_append ?_ _
      split at hslot
      · obtain ⟨old, hold, rfl⟩ := Option.map_eq_some_iff.1 hslot
        rcases clearSlot_stream 0 old with heq | hnone
        · exact h.kept s old d hold (heq ▸ hd)
        · rw [hnone] at hd
          cases hd
      · exact h.kept s slot d hslot hd
    · rw [List.getElem?_append_right (by rwa [length_clearSlots]), length_clearSlots] at hslot
      rw [held, List.getElem?_append_right (by rwa [h.length_eq]), h.length_eq, List.getElem?_map,
        hslot, Option.map_some, hd]
      rfl
  · intro k d hk
    exact held_append (h.session k d hk) _
  · intro n hn
    rw [hrun.eq] at hn
    rcases List.mem_append.1 hn with hold | hnew
    · obtain ⟨nodeid', codec', localParams', inputs', hnode', hencodes⟩ := h.nodes n hold
      exact ⟨nodeid', codec', localParams', inputs', hnode', hencodes.append _⟩
    · rw [List.mem_singleton.1 hnew]
      refine ⟨nodeid, codec, localParams, inputs, by rw [hcnode, hnode], ?_⟩
      constructor
      · rw [hcnode]
        exact hcodec.takes
      · rw [hrun.running.inRtsids_eq]
        refine map_held_append ?_ (by simp) _
        rw [← hcodec.inputs_eq]
        refine List.map_congr_left fun s hs => ?_
        obtain ⟨slot, d, hslot, hd⟩ := hrun.alive s hs
        rw [h.kept s slot d hslot hd, hslot, Option.bind_some, hd]
      · exact hcodec.succeeded
      · exact hcodec.header_eq
      · rw [hcnode, ← hcodec.streams_eq hcomplete, hstart, hnb]
        apply List.ext_getElem
        · simp
        · intro i h1 h2
          have hi : i < tail.length := by simpa using h2
          simp [held, ← h.length_eq, hi]
      · rw [hcnode]
        exact hsome
  · intro s hs
    rcases Nat.lt_or_ge s g.streams.length with hlt | hge
    · refine (h.covered s hlt).imp_right fun ⟨n, hn, hputs⟩ => ⟨n, ?_, hputs⟩
      rw [hrun.eq]
      exact List.mem_append_left _ hn
    · refine Or.inr ⟨node, ?_, ?_⟩
      · rw [hrun.eq]
        exact List.mem_append_right _ (List.mem_singleton_self node)
      · omega

theorem GraphStep.length_le (h : GraphStep E g g') : g.streams.length ≤ g'.streams.length := by
  cases h with
  | runCNode _ _ hrun =>
    rcases runCNode_some hrun with ⟨_, hr, -⟩ | ⟨node, tail, -, hnode⟩
    · cases hr
    · rw [hnode.eq, List.length_append, length_clearSlots]
      exact Nat.le_add_right _ _
  | storeStream => exact (List.length_modify ..).ge
  | guardRTStream => exact (List.length_modify ..).ge
  | clearRTStream => exact (List.length_modify ..).ge

/-- **A history can be kept** through every run that succeeds. -/
theorem Extends.recorded {base : RTGraph} (h : Extends E base g) (hE : E.Complete)
    (hbase : ∃ history, Recorded E ins history base)
    (hroom : g.streams.length < streamCapacity) : ∃ history, Recorded E ins history g := by
  induction h with
  | refl => exact hbase
  | tail _ hstep ih =>
    obtain ⟨history, hrecorded⟩ := ih (hstep.length_le.trans_lt hroom)
    cases hstep with
    | runCNode hnode _ hrun =>
      obtain ⟨more, hmore⟩ := hrecorded.runCNode hE hnode hroom hrun
      exact ⟨_, hmore⟩
    | storeStream => exact ⟨history, hrecorded.of_modify fun _ => Or.inl rfl⟩
    | guardRTStream protectRank =>
      exact ⟨history, hrecorded.of_modify fun slot => Or.inl (guardSlot_stream protectRank slot)⟩
    | clearRTStream protectRank =>
      exact ⟨history, hrecorded.of_modify (clearSlot_stream protectRank)⟩

end history

end OpenZL.Compress
