import OpenZL.Compress.RTGraph

/-!
# The outputs of a codec

A codec asks for its outputs one by one: the stream of a singleton goes to the slot of its outcome,
that of a variable output to a new slot behind the others.

Principal results: `createOutputs_places`, `runCNode_codec`.
-/

namespace OpenZL.Compress

open OpenZL.Lib

/-- The slots of a node after one more output. -/
def CNode.place (cnode : CNode) (slots : List (Option Data)) (out : Nat × Option Data) :
    List (Option Data) :=
  if cnode.isVO out.1 then slots ++ [out.2] else slots.set out.1 out.2

/-- The streams of a node once its codec has got all it asks for. -/
def CodecRun.streams (run : CodecRun) (cnode : CNode) : List (Option Data) :=
  run.outputs.foldl cnode.place (List.replicate cnode.getNbOut1s none)

/-- What these streams hold. -/
def CodecRun.contents (run : CodecRun) (cnode : CNode) : List (List UInt8) :=
  (run.streams cnode).map fun stream => (stream.map (·.content)).getD []

/-- What a codec asks for can be reserved, and it asks for no singleton twice. -/
structure CodecRun.Complete (run : CodecRun) (cnode : CNode) : Prop where
  reserved : ∀ out ∈ run.outputs, out.2.isSome
  nodup : ((run.outputs.map (·.1)).filter fun id => cnode.isVO id = false).Nodup

section place

variable {cnode : CNode} {slots : List (Option Data)}

theorem CNode.isVO_eq_false {id : Nat} : cnode.isVO id = false ↔ id < cnode.getNbOut1s := by
  rw [CNode.isVO, decide_eq_false_iff_not, ge_iff_le, Nat.not_le]

theorem length_place_le (out : Nat × Option Data) :
    slots.length ≤ (cnode.place slots out).length := by
  unfold CNode.place
  split
  · rw [List.length_append]
    exact Nat.le_add_right _ _
  · exact (List.length_set ..).ge

theorem drop_place {out : Nat × Option Data} (hout : out.2.isSome)
    (hle : cnode.getNbOut1s ≤ slots.length)
    (h : ∀ slot ∈ slots.drop cnode.getNbOut1s, slot.isSome) :
    ∀ slot ∈ (cnode.place slots out).drop cnode.getNbOut1s, slot.isSome := by
  unfold CNode.place
  split
  · rw [List.drop_append_of_le_length hle]
    intro slot hslot
    rcases List.mem_append.1 hslot with hslot | hslot
    · exact h slot hslot
    · rwa [List.mem_singleton.1 hslot]
  · rename_i hvo
    rwa [List.drop_set_of_lt (CNode.isVO_eq_false.1 (by simpa using hvo))]

theorem drop_foldl_place : ∀ {outputs : List (Nat × Option Data)} {slots : List (Option Data)},
    (∀ out ∈ outputs, out.2.isSome) → cnode.getNbOut1s ≤ slots.length →
    (∀ slot ∈ slots.drop cnode.getNbOut1s, slot.isSome) →
    ∀ slot ∈ (outputs.foldl cnode.place slots).drop cnode.getNbOut1s, slot.isSome
  | [], _, _, _, h => h
  | out :: outputs, slots, hout, hle, h => by
    rw [List.foldl_cons]
    exact drop_foldl_place (fun o ho => hout o (List.mem_cons_of_mem out ho))
      (hle.trans (length_place_le out)) (drop_place (hout out List.mem_cons_self) hle h)

end place

theorem CodecRun.Complete.variable {cnode : CNode} {run : CodecRun} (h : run.Complete cnode) :
    ∀ slot ∈ (run.streams cnode).drop cnode.getNbOut1s, slot.isSome := by
  refine drop_foldl_place h.reserved (List.length_replicate ..).ge fun slot hslot => ?_
  rw [List.drop_replicate, Nat.sub_self] at hslot
  cases hslot

section calls

variable {base g g' : RTGraph} {cnode : CNode} {irtsids : List Nat}

/-- A node is being run on top of `base`, and has the streams `slots`. -/
def Placing (base : RTGraph) (cnode : CNode) (irtsids : List Nat) (slots : List (Option Data))
    (g : RTGraph) : Prop :=
  ∃ node tail, g = ⟨base.nodes ++ [node], base.streams ++ tail⟩ ∧
    RunningNode base cnode irtsids node tail ∧ tail.map (·.stream) = slots

theorem register_places {node : RTNode} {tail : List RTCStream}
    (hn : RunningNode base cnode irtsids node tail) {i : Nat} {slot : RTCStream}
    (hslot : tail[i]? = some slot) (hfree : slot.stream = none) {outcomeID : Nat} {stream : Data}
    {r : Except ErrorCode Unit}
    (h : RTGM.registerOutputStream base.nodes.length (base.streams.length + i) outcomeID stream
      ⟨base.nodes ++ [node], base.streams ++ tail⟩ = some (r, g')) :
    r = .ok () ∧ Placing base cnode irtsids ((tail.map (·.stream)).set i (some stream)) g' := by
  obtain ⟨rfl, rfl⟩ := Prod.mk.inj (Option.some.inj h)
  refine ⟨rfl, _, _, ?_, hn.register hslot hfree outcomeID stream, ?_⟩
  · dsimp only
    rw [modify_append_last, modify_append_right]
  · apply List.ext_getElem?
    intro j
    rw [List.getElem?_map, List.getElem?_modify, List.getElem?_set]
    by_cases hij : i = j
    · subst hij
      have hlt := (List.getElem?_eq_some_iff.1 hslot).1
      simp [hlt]
    · simp [hij]

theorem reserve_places {slots : List (Option Data)} {id : Nat} {r : Except ErrorCode Nat}
    (hg : Placing base cnode irtsids slots g) (hout : id < cnode.getNbOutcomes)
    (h : RTGM.reserveOutputStreamSlot base.nodes.length id (cnode.isVO id) g = some (r, g')) :
    (∃ e, r = .error e) ∧ streamCapacity ≤ g'.streams.length ∨
      ∃ i slots', r = .ok (base.streams.length + i) ∧ Placing base cnode irtsids slots' g' ∧
        (cnode.isVO id = false → i = id ∧ slots' = slots) ∧
        (cnode.isVO id = true → i = slots.length ∧ slots' = slots ++ [none]) := by
  obtain ⟨node, tail, rfl, hn, rfl⟩ := hg
  unfold RTGM.reserveOutputStreamSlot at h
  rw [Cmd.run_get_bind] at h
  obtain ⟨n, hnode, h⟩ := Cmd.run_expect_bind.1 h
  obtain rfl : node = n := by simpa using hnode
  split at h
  · rename_i hvo
    rcases Cmd.run_failWhen_bind_some h with ⟨hfull, rfl, rfl⟩ | ⟨-, h₁⟩
    · exact Or.inl ⟨⟨_, rfl⟩, hfull⟩
    rw [Cmd.run_modify_bind] at h₁
    obtain ⟨rfl, rfl⟩ := Cmd.run_pure_iff.1 h₁
    have hpos : 0 < cnode.getNbVOs := by
      have hge : cnode.getNbOut1s ≤ id := of_decide_eq_true hvo
      unfold CNode.getNbOutcomes at hout
      omega
    refine Or.inr ⟨tail.length, tail.map (·.stream) ++ [none], ?_, ?_, ?_, ?_⟩
    · rw [List.length_append]
    · refine ⟨node, tail ++ [RTCStream.empty], ?_, hn.pushVO hpos, ?_⟩
      · rw [List.append_assoc]
      · rw [List.map_append]
        rfl
    · intro hno
      rw [hvo] at hno
      cases hno
    · intro _
      rw [List.length_map]
      exact ⟨rfl, rfl⟩
  · rename_i hvo
    have hlt := CNode.isVO_eq_false.1 (by simpa using hvo)
    have hlen := hn.nbOut1s_le
    rcases Cmd.run_failWhen_bind_some h with ⟨hfull, -, -⟩ | ⟨-, h₁⟩
    · rw [hn.start_eq, List.length_append] at hfull
      omega
    obtain ⟨rfl, rfl⟩ := Cmd.run_pure_iff.1 h₁
    refine Or.inr ⟨id, tail.map (·.stream), by rw [hn.start_eq], ⟨node, tail, rfl, hn, rfl⟩,
      fun _ => ⟨rfl, rfl⟩, fun hyes => absurd hyes hvo⟩

theorem getNewStream_places {slots : List (Option Data)} {id : Nat} {stream : Data}
    {r : Except ErrorCode Nat} (hg : Placing base cnode irtsids slots g)
    (hfree : cnode.isVO id = false → slots[id]? = some none)
    (h : getNewStream cnode base.nodes.length id (some stream) g = some (r, g')) :
    streamCapacity ≤ g'.streams.length ∨
      Placing base cnode irtsids (cnode.place slots (id, some stream)) g' := by
  unfold getNewStream at h
  obtain ⟨_, hout, h⟩ := Cmd.run_expect_bind.1 h
  have hout : id < cnode.getNbOutcomes := by
    by_contra hlt
    rw [if_neg hlt] at hout
    cases hout
  unfold RTGM.addStream at h
  rcases Cmd.run_bind_some h with ⟨e, he, rfl⟩ | ⟨rtsid, t, hres, h₁⟩
  · rcases reserve_places hg hout he with ⟨-, hfull⟩ | ⟨_, _, hr, -⟩
    · exact Or.inl hfull
    · cases hr
  rcases reserve_places hg hout hres with ⟨⟨_, hr⟩, -⟩ | ⟨i, slots', hr, hplacing, hsingle, hvo⟩
  · cases hr
  obtain rfl := Except.ok.inj hr
  obtain ⟨node, tail, rfl, hn, rfl⟩ := hplacing
  have hplace : (tail.map (·.stream)).set i (some stream) = cnode.place slots (id, some stream) ∧
      (tail.map (·.stream))[i]? = some none := by
    unfold CNode.place
    cases hid : cnode.isVO id with
    | false =>
      obtain ⟨rfl, hslots⟩ := hsingle hid
      rw [hslots]
      exact ⟨rfl, hfree hid⟩
    | true =>
      obtain ⟨rfl, hslots⟩ := hvo hid
      rw [hslots]
      simp
  rw [Cmd.run_get_bind] at h₁
  obtain ⟨slot, hslot, h₂⟩ := Cmd.run_expect_bind.1 h₁
  rw [List.getElem?_append_right (Nat.le_add_right _ _), Nat.add_sub_cancel_left] at hslot
  have hnone : slot.stream = none := by
    have hget := hplace.2
    rw [List.getElem?_map, hslot] at hget
    exact Option.some.inj hget
  rw [Cmd.run_bind_of_ok (Cmd.run_failWhen_ok (u := ()).2 ⟨by simp [hnone], rfl⟩)] at h₂
  rcases Cmd.run_bind_some h₂ with ⟨e, he, -⟩ | ⟨_, t, ht, h₃⟩
  · cases (register_places hn hslot hnone he).1
  obtain ⟨-, hplacing⟩ := register_places hn hslot hnone ht
  obtain ⟨-, rfl⟩ := Cmd.run_pure_iff.1 h₃
  rw [hplace.1] at hplacing
  exact Or.inr hplacing

theorem getNewStream_length (n rtnodeid outcomeID : Nat) (stream : Option Data) :
    Cmd.Preserves (fun g => n ≤ g.streams.length)
      (getNewStream cnode rtnodeid outcomeID stream) := by
  refine (Cmd.Preserves.expect _).bind fun _ => Cmd.Preserves.bind ?_ fun rtsid => ?_
  · refine Cmd.Preserves.get.bind fun g => (Cmd.Preserves.expect _).bind fun node => ?_
    split
    · refine (Cmd.Preserves.failWhen _).bind fun _ =>
        (Cmd.Preserves.modify fun g' hg' => ?_).bind fun _ => Cmd.Preserves.pure _
      rw [List.length_append]
      exact hg'.trans (Nat.le_add_right _ _)
    · exact (Cmd.Preserves.failWhen _).bind fun _ => Cmd.Preserves.pure _
  · refine Cmd.Preserves.get.bind fun g => (Cmd.Preserves.expect _).bind fun slot =>
      (Cmd.Preserves.failWhen _).bind fun _ => ?_
    cases stream with
    | none => exact Cmd.Preserves.fail _
    | some stream =>
      refine (Cmd.Preserves.modify fun g' hg' => ?_).bind fun _ => Cmd.Preserves.pure _
      rwa [List.length_modify]

theorem createOutputs_length (n rtnodeid : Nat) (outputs : List (Nat × Option Data)) :
    Cmd.Preserves (fun g => n ≤ g.streams.length) (createOutputs cnode rtnodeid outputs) :=
  Cmd.Preserves.forEach fun out _ =>
    (Cmd.Preserves.attempt (getNewStream_length n rtnodeid out.1 out.2)).bind fun _ =>
      Cmd.Preserves.pure ()

theorem getElem?_place {slots : List (Option Data)} {id : Nat} {stream : Option Data} {j : Nat}
    (hne : cnode.isVO id = false → j ≠ id) (hj : slots[j]? = some none) :
    (cnode.place slots (id, stream))[j]? = some none := by
  unfold CNode.place
  split
  · rw [List.getElem?_append_left (List.getElem?_eq_some_iff.1 hj).1, hj]
  · rename_i hvo
    rwa [List.getElem?_set_ne (hne (by simpa using hvo)).symm]

/-- **The slots of a node after the calls of its codec**, unless there was no room for one. -/
theorem createOutputs_places : ∀ {outputs : List (Nat × Option Data)}
    {slots : List (Option Data)} {g g' : RTGraph} {r : Except ErrorCode Unit},
    Placing base cnode irtsids slots g → (∀ out ∈ outputs, out.2.isSome) →
    ((outputs.map (·.1)).filter fun id => cnode.isVO id = false).Nodup →
    (∀ id ∈ outputs.map (·.1), cnode.isVO id = false → slots[id]? = some none) →
    createOutputs cnode base.nodes.length outputs g = some (r, g') →
    streamCapacity ≤ g'.streams.length ∨
      Placing base cnode irtsids (outputs.foldl cnode.place slots) g'
  | [], slots, g, g', r, hg, _, _, _, h => by
    obtain ⟨-, rfl⟩ := Cmd.run_pure_iff.1 h
    exact Or.inr hg
  | (id, none) :: outputs, slots, g, g', r, _, hsome, _, _, _ => by
    cases hsome _ List.mem_cons_self
  | (id, some stream) :: outputs, slots, g, g', r, hg, hsome, hnodup, hfree, h => by
    have hhead : cnode.isVO id = false → slots[id]? = some none := fun hid =>
      hfree id List.mem_cons_self hid
    have hcall : ∀ {q : Except ErrorCode Unit} {t : RTGraph},
        (do let _ ← Cmd.attempt (getNewStream cnode base.nodes.length id (some stream))
            return () : RTM Unit) g = some (q, t) → q = .ok () ∧
          (streamCapacity ≤ t.streams.length ∨
            Placing base cnode irtsids (cnode.place slots (id, some stream)) t) := by
      intro q t hq
      obtain ⟨outcome, u, hrun, hpure⟩ := Cmd.run_attempt_bind.1 hq
      obtain ⟨rfl, rfl⟩ := Cmd.run_pure_iff.1 hpure
      exact ⟨rfl, getNewStream_places hg hhead hrun⟩
    rcases Cmd.run_bind_some h with ⟨e, he, -⟩ | ⟨_, t, ht, hrest⟩
    · cases (hcall he).1
    rcases (hcall ht).2 with hfull | hplacing
    · exact Or.inl (createOutputs_length streamCapacity _ outputs _ _ _ hfull hrest)
    rw [List.foldl_cons]
    refine createOutputs_places hplacing (fun o ho => hsome o (List.mem_cons_of_mem _ ho)) ?_ ?_
      hrest
    · rw [List.map_cons, List.filter_cons] at hnodup
      split at hnodup
      · exact (List.nodup_cons.1 hnodup).2
      · exact hnodup
    · intro j hj hjvo
      refine getElem?_place (fun hid heq => ?_) (hfree j (List.mem_cons_of_mem _ hj) hjvo)
      subst heq
      rw [List.map_cons, List.filter_cons_of_pos (by simpa using hid)] at hnodup
      exact (List.nodup_cons.1 hnodup).1 (List.mem_filter.2 ⟨hj, by simpa using hid⟩)

end calls

theorem getRStreams_ok : ∀ {rtsids : List Nat} {g g' : RTGraph} {inputs : List Data},
    getRStreams rtsids g = some (.ok inputs, g') →
    rtsids.map (fun rtsid => g.streams[rtsid]?.bind (·.stream)) = inputs.map some
  | [], g, g', inputs, h => by
    obtain ⟨hr, -⟩ := Cmd.run_pure_iff.1 h
    rw [Except.ok.inj hr]
    rfl
  | rtsid :: rtsids, g, g', inputs, h => by
    obtain ⟨input, t, hhead, hrest⟩ := Cmd.run_bind_ok.1 h
    obtain ⟨slot, stream, hslot, hstream, hr, rfl⟩ := getRStream_some hhead
    obtain rfl := Except.ok.inj hr
    obtain ⟨others, t', htail, hpure⟩ := Cmd.run_bind_ok.1 hrest
    obtain ⟨hr', rfl⟩ := Cmd.run_pure_iff.1 hpure
    rw [Except.ok.inj hr', List.map_cons, List.map_cons, getRStreams_ok htail, hslot,
      Option.bind_some, hstream]

/-- Inputs that `CCTX_runCNode_wParams` hands to a codec. -/
structure CNode.Takes (cnode : CNode) (inputs : List Data) : Prop where
  number : cnode.isNbInputsCompatible inputs.length = true
  types : ∀ i input, inputs[i]? = some input → input.type = cnode.getInputType i

/-- What is known of the codec of a node that has run on `g`. -/
structure CodecRan (codec : Codec) (cnode : CNode) (irtsids : List Nat) (g : RTGraph)
    (node : RTNode) (tail : List RTCStream) (inputs : List Data) : Prop where
  takes : cnode.Takes inputs
  inputs_eq : irtsids.map (fun rtsid => g.streams[rtsid]?.bind (·.stream)) = inputs.map some
  succeeded : (codec inputs).result = .ok ()
  header_eq : node.nodeHeader = (codec inputs).header
  streams_eq : (codec inputs).Complete cnode → tail.map (·.stream) = (codec inputs).streams cnode

section node

variable {cnode : CNode} {irtsids : List Nat} {g g' : RTGraph}

theorem createNode_placing {rtnodeid : Nat}
    (h : RTGM.createNode cnode irtsids g = some (.ok rtnodeid, g')) :
    rtnodeid = g.nodes.length ∧
      Placing g cnode irtsids (List.replicate cnode.getNbOut1s none) g' := by
  unfold RTGM.createNode at h
  rw [Cmd.run_get_bind] at h
  obtain ⟨-, h⟩ := Cmd.run_failWhen_bind_ok.1 h
  rw [Cmd.run_modify_bind] at h
  obtain ⟨-, h⟩ := Cmd.run_failWhen_bind_ok.1 h
  rw [Cmd.run_modify_bind] at h
  obtain ⟨hr, rfl⟩ := Cmd.run_pure_iff.1 h
  refine ⟨Except.ok.inj hr, _, _, rfl, ⟨rfl, rfl, rfl, ?_, ?_, ?_, ?_⟩, ?_⟩
  · simp [List.countP_replicate, RTCStream.empty]
  · intro s hs
    rw [List.eq_of_mem_replicate hs]
    exact ⟨rfl, rfl⟩
  · simp
  · simp
  · rw [List.map_replicate]
    rfl

theorem runTransform_placing {v : Nat} {codec : Codec} {inputs : List Data} {nbOuts : Nat}
    {t : RTGraph} (hg : Placing g cnode irtsids (List.replicate cnode.getNbOut1s none) t)
    (h : runTransform v codec cnode g.nodes.length inputs t = some (.ok nbOuts, g')) :
    (codec inputs).result = .ok () ∧ ∃ node tail,
      g' = ⟨g.nodes ++ [node], g.streams ++ tail⟩ ∧ node.nodeHeader = (codec inputs).header ∧
        ((codec inputs).Complete cnode → streamCapacity ≤ g'.streams.length ∨
          tail.map (·.stream) = (codec inputs).streams cnode) := by
  have hrunning : Running g cnode irtsids t := by
    obtain ⟨node, tail, ht, hn, -⟩ := hg
    exact ⟨node, tail, ht, hn⟩
  unfold runTransform at h
  obtain ⟨_, t₁, houts, h₁⟩ := Cmd.run_bind_ok.1 h
  obtain ⟨_, t₂, hheader, h₂⟩ := Cmd.run_bind_ok.1 h₁
  obtain ⟨-, rfl⟩ := Prod.mk.inj (Option.some.inj hheader)
  cases hresult : (codec inputs).result with
  | error e =>
    rw [hresult] at h₂
    cases h₂
  | ok u =>
    rw [hresult] at h₂
    change (Cmd.get >>= _) _ = _ at h₂
    rw [Cmd.run_get_bind] at h₂
    obtain ⟨n, -, h₃⟩ := Cmd.run_expect_bind.1 h₂
    obtain ⟨-, h₄⟩ := Cmd.run_failWhen_bind_ok.1 h₃
    obtain ⟨-, h₅⟩ := Cmd.run_failWhen_bind_ok.1 h₄
    obtain ⟨-, h₆⟩ := Cmd.run_failWhen_bind_ok.1 h₅
    obtain ⟨-, rfl⟩ := Cmd.run_pure_iff.1 h₆
    obtain ⟨node, tail, rfl, -⟩ := createOutputs_running _ _ _ _ hrunning houts
    refine ⟨rfl, { node with nodeHeader := (codec inputs).header }, tail, ?_, rfl, fun hc => ?_⟩
    · dsimp only
      rw [modify_append_last]
    · have hfree : ∀ id ∈ (codec inputs).outputs.map (·.1), cnode.isVO id = false →
          (List.replicate cnode.getNbOut1s (none : Option Data))[id]? = some none := by
        intro id _ hid
        rw [List.getElem?_replicate, if_pos (CNode.isVO_eq_false.1 hid)]
      rcases createOutputs_places hg hc.reserved hc.nodup hfree houts with hfull | hplaced
      · exact Or.inl hfull
      · obtain ⟨_, tail', heq, -, hstreams⟩ := hplaced
        obtain rfl := List.append_cancel_left (RTGraph.mk.inj heq).2
        exact Or.inr hstreams

theorem checkOutputCommitted_ok {rtnodeid : Nat} {u : Unit}
    (h : checkOutputCommitted rtnodeid g = some (.ok u, g')) : g' = g := by
  unfold checkOutputCommitted at h
  rw [Cmd.run_get_bind] at h
  obtain ⟨_, -, h⟩ := Cmd.run_expect_bind.1 h
  exact (checkCommitted_some h).1

/-- **A node that has run**: its header and its outputs are those of its codec on its inputs. -/
theorem runCNode_codec {v : Nat} {codec : Codec} {out : Nat × Nat}
    (hroom : g'.streams.length < streamCapacity)
    (h : runCNode v codec cnode irtsids g = some (.ok out, g')) :
    ∃ node tail inputs, NodeRun v g cnode irtsids node tail g' ∧
      CodecRan codec cnode irtsids g node tail inputs := by
  obtain ⟨node, tail, hnode⟩ : ∃ node tail, NodeRun v g cnode irtsids node tail g' := by
    rcases runCNode_some h with ⟨_, hr, -⟩ | ⟨node, tail, -, hnode⟩
    · cases hr
    · exact ⟨node, tail, hnode⟩
  unfold runCNode at h
  obtain ⟨inputs, t, hins, h₁⟩ := Cmd.run_bind_ok.1 h
  obtain ⟨_, hr, rfl, hlen, -⟩ := getRStreams_some hins
  obtain rfl := Except.ok.inj hr
  obtain ⟨hcompat, h₂⟩ := Cmd.run_failWhen_bind_ok.1 h₁
  obtain ⟨-, h₃⟩ := Cmd.run_failWhen_bind_ok.1 h₂
  obtain ⟨htypes, h₄⟩ := Cmd.run_failWhen_bind_ok.1 h₃
  obtain ⟨-, h₅⟩ := Cmd.run_failWhen_bind_ok.1 h₄
  obtain ⟨rtnodeid, t₁, hcreate, h₆⟩ := Cmd.run_bind_ok.1 h₅
  obtain ⟨rfl, hplacing⟩ := createNode_placing hcreate
  obtain ⟨nbOuts, t₂, htransform, h₇⟩ := Cmd.run_bind_ok.1 h₆
  obtain ⟨hresult, node', tail', rfl, hheader, hstreams⟩ := runTransform_placing hplacing htransform
  obtain ⟨_, t₃, hcheck, h₈⟩ := Cmd.run_bind_ok.1 h₇
  obtain rfl := (checkOutputCommitted_ok hcheck).symm
  rw [Cmd.run_bind_of_ok (forEach_clearRTStream 0 irtsids _)] at h₈
  obtain ⟨-, heq⟩ := Cmd.run_pure_iff.1 h₈
  have hsame := hnode.eq.symm.trans heq
  rw [clearSlots_append fun s hs => (hnode.alive s hs).lt] at hsame
  obtain ⟨hnodes, htails⟩ := RTGraph.mk.inj hsame
  obtain rfl := List.singleton_inj.1 (List.append_cancel_left hnodes)
  obtain rfl := List.append_cancel_left htails
  refine ⟨node, tail, inputs, hnode, ⟨?_, ?_⟩, getRStreams_ok hins, hresult, hheader, fun hc => ?_⟩
  · rw [hlen]
    simpa using hcompat
  · intro i input hi
    by_contra hne
    refine htypes (List.any_eq_true.2 ⟨(input, i), ?_, by simpa using hne⟩)
    exact List.mem_of_getElem? (i := i) (by rw [List.getElem?_zipIdx, hi]; simp)
  · refine (hstreams hc).resolve_left fun hfull => ?_
    rw [heq] at hroom
    dsimp only at hroom hfull
    rw [length_clearSlots] at hroom
    omega

end node

end OpenZL.Compress
