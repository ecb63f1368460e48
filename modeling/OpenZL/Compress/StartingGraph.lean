import OpenZL.Compress.Rollback

/-!
# Runs of a starting graph

A compression, or a chunk of it, starts from the inputs alone: none of them is read, stored or
protected.

Principal results: `runStartingGraph_some`, `fallback_restores`, `streams_usedOnce`.
-/

namespace OpenZL.Compress

open OpenZL.Lib RTGraph GraphCtx CCtx

variable {ρ : Type}

/-- The runtime graph that holds the inputs, and nothing else. -/
def inputsGraph (ins : List Data) : RTGraph :=
  ⟨[], ins.map fun d => { RTCStream.empty with stream := some d }⟩

theorem refInputs_some : ∀ {ins : List Data} {g g' : RTGraph} {r : Except ErrorCode (List Nat)},
    refInputs ins g = some (r, g') → ∀ rtsids, r = .ok rtsids →
      g' = ⟨g.nodes, g.streams ++ ins.map fun d => { RTCStream.empty with stream := some d }⟩ ∧
        rtsids = List.range' g.streams.length ins.length
  | [], g, g', r, h, rtsids, hr => by
    obtain ⟨rfl, rfl⟩ := Cmd.run_pure_iff.1 h
    obtain rfl := Except.ok.inj hr
    simp
  | d :: ins, g, g', r, h, rtsids, hr => by
    rcases Cmd.run_bind_some h with ⟨e, -, rfl⟩ | ⟨rtsid, t, hhead, hrest⟩
    · cases hr
    obtain ⟨hnodes, hstreams⟩ := refInput_some hhead
    obtain ⟨hrtsid, hstreams⟩ := hstreams rtsid rfl
    rcases Cmd.run_bind_some hrest with ⟨e, -, rfl⟩ | ⟨others, t', htail, hpure⟩
    · cases hr
    obtain ⟨rfl, rfl⟩ := Cmd.run_pure_iff.1 hpure
    obtain ⟨rfl, rfl⟩ := refInputs_some htail others rfl
    rw [← Except.ok.inj hr, hnodes, hstreams, hrtsid]
    simp [List.range'_succ]

theorem inputsGraph_free {ins : List Data} {depth x : Nat} (hpos : 0 < depth)
    (hx : x < ins.length) : (inputsGraph ins).Free depth x where
  slot := by
    refine ⟨{ RTCStream.empty with stream := some ins[x] }, ?_, rfl, rfl, hpos⟩
    rw [inputsGraph, List.getElem?_map, List.getElem?_eq_getElem hx]
    rfl
  unread h := by cases h

theorem inputsGraph_sound (once : Prop) (ins : List Data) : Sound once (inputsGraph ins) where
  disjoint := List.Pairwise.nil
  unstored s hs := by cases hs
  lt s hs := by cases hs
  nodup _ node hnode := by cases hnode

section run

variable {E : Engine ρ} {fuel : Nat} {gid : GraphID} {rgp : Option ρ} {ins : List Data} {b : Bool}
  {r : Except ErrorCode Unit} {s' : CCtx ρ}

theorem runStartingGraph_some
    (h : runStartingGraph E fuel gid rgp ins (CCtx.init b) = some (r, s')) :
    (∃ e, r = .error e ∧ s'.events = []) ∨
      ins ≠ [] ∧ runSuccessor E fuel gid rgp (List.range ins.length) (E.segmenterDepth + 1)
        ⟨inputsGraph ins, b, []⟩ = some (r, s') := by
  rcases Cmd.run_failWhen_bind_some h with ⟨-, rfl, rfl⟩ | ⟨hne, hrun⟩
  · exact Or.inl ⟨_, rfl, rfl⟩
  rcases Cmd.run_bind_some hrun with ⟨e, he, rfl⟩ | ⟨rtsids, t, href, hrest⟩
  · obtain ⟨g, -, rfl⟩ := onGraph_some he
    exact Or.inl ⟨e, rfl, rfl⟩
  obtain ⟨g, hins, rfl⟩ := onGraph_some href
  obtain ⟨rfl, rfl⟩ := refInputs_some hins rtsids rfl
  refine Or.inr ⟨fun hnil => hne ?_, ?_⟩
  · rw [hnil]
    exact Nat.one_pos
  · rw [List.range_eq_range']
    exact hrest

theorem runStartingGraph_settles {once : Prop}
    (h : runStartingGraph E fuel gid rgp ins (CCtx.init b) = some (r, s'))
    (hfine : ∀ event ∈ s'.events, event.Fine E once) :
    Settles E once (inputsGraph ins) (List.range ins.length) r s' := by
  rcases runStartingGraph_some h with ⟨e, rfl, hevents⟩ | ⟨-, hrun⟩
  · refine ⟨fun event he => ?_, fun hr => by cases hr⟩
    rw [hevents] at he
    cases he
  · refine runSuccessor_settles E once fuel _ _ _ _ _ _ _ E.segmenterDepth.succ_pos hrun
      (inputsGraph_sound once ins) List.nodup_range (fun x hx => ?_) hfine fun event he => by
        cases he
    exact inputsGraph_free E.segmenterDepth.succ_pos (List.mem_range.1 hx)

end run

/-- **A graph that is replaced leaves nothing behind**: the backup starts on the graph there was
before the attempt, and the streams can still be read.  In the final graph no stream is both stored
and read by a node. -/
theorem fallback_restores (E : Engine ρ) (fuel : Nat) (gid : GraphID) (rgp : Option ρ)
    (ins : List Data) (b : Bool) (r : Except ErrorCode Unit) (s' : CCtx ρ)
    (h : runStartingGraph E fuel gid rgp ins (CCtx.init b) = some (r, s'))
    (hfine : ∀ event ∈ s'.events, event.Fine E False) :
    (∀ rtsids before started, .fellBack rtsids before started ∈ s'.events →
      started = before ∧ ∀ x ∈ rtsids, before.Alive x) ∧
    (r = .ok () → ∀ x ∈ s'.rtgraph.consumed, s'.rtgraph.isStored x = false) := by
  have hsettles := runStartingGraph_settles h hfine
  exact ⟨fun rtsids before started he => hsettles.clean _ he,
    fun hr => (hsettles.finished hr).sound.unstored⟩

theorem serial_ne_nil : [DataType.serial] ≠ [] := List.cons_ne_nil _ _

/-- A codec that cuts a serial stream behind its first byte. -/
def headNode : CNode :=
  ⟨⟨.standard, 3⟩, [.serial], false, [.serial, .serial], [], 8, 27, DICT_INDEX_NONE,
    serial_ne_nil⟩

def headCodec : Codec := fun inputs =>
  let content := inputs.flatMap (·.content)
  ⟨[(0, some ⟨.serial, content.take 1, true⟩), (1, some ⟨.serial, content.drop 1, true⟩)], [9],
    .ok ()⟩

/-- Graph 0 runs the codec and fails; graph 1 runs it, stores its first output and sends the second
to graph 0. -/
def headEngine : Engine Unit where
  registeredGraphs := fun
    | .COMPRESS_GENERIC => some ⟨.miGraph fun _ _ _ => selectorStore, [fun _ => true], false⟩
    | .gid 0 => some ⟨.miGraph fun _ _ _ => .runNode [0] (.nid 0) none fun _ =>
        .done (.error .GENERIC), [fun _ => true], false⟩
    | .gid 1 => some ⟨.miGraph fun _ _ _ => .runNode [0] (.nid 0) none fun _ =>
        .setDestination [1] .SERIAL_STORE none fun _ =>
          .setDestination [2] (.gid 0) none fun _ => .done (.ok ()), [fun _ => true], false⟩
    | _ => none
  nodes := fun
    | .nid 0 => some (headNode, fun _ => headCodec)
    | _ => none
  formatVersion := 21
  permissiveCompression := true
  minStreamSize := 0
  nbInputs := 1
  numSegments := 0
  segmenterDepth := 0

/-- A serial input of three bytes. -/
def threeBytes : List Data := [⟨.serial, [1, 2, 3], true⟩]

/-- The streams a fallback was for. -/
def Event.fallbackOf : Event ρ → Option (List Nat)
  | .fellBack rtsids _ _ => some rtsids
  | .ranGraph _ _ => none
  | .wentOn _ _ _ _ _ => none

theorem Event.fallbackOf_some {event : Event ρ} {rtsids : List Nat}
    (h : event.fallbackOf = some rtsids) :
    ∃ before started, event = .fellBack rtsids before started := by
  cases event with
  | fellBack rtsids' before started =>
    obtain rfl := Option.some.inj h
    exact ⟨before, started, rfl⟩
  | ranGraph _ _ => cases h
  | wentOn _ _ _ _ _ => cases h

theorem runStartingGraph_head : ∃ s', runStartingGraph headEngine 4 (.gid 1) none threeBytes
    (CCtx.init false) = some (.ok (), s') ∧ (∀ event ∈ s'.events, event.Fine headEngine True) ∧
    ∃ event ∈ s'.events, event.fallbackOf = some [2] := by
  have hany : ((runStartingGraph headEngine 4 (.gid 1) none threeBytes (CCtx.init false)).any
      fun out => out.1 = .ok () ∧ (∀ event ∈ out.2.events, event.Fine headEngine True) ∧
        ∃ event ∈ out.2.events, event.fallbackOf = some [2]) = true := by
    decide +kernel
  obtain ⟨⟨r, s'⟩, hrun, h⟩ := (Option.any_eq_true _ _).1 hany
  obtain ⟨hr, hfine⟩ := of_decide_eq_true h
  obtain rfl : r = .ok () := hr
  exact ⟨s', hrun, hfine⟩

theorem Event.Fine.weaken {E : Engine ρ} {event : Event ρ} (h : event.Fine E True) :
    event.Fine E False := by
  cases event with
  | ranGraph graph_f start =>
    exact fun s' hrun hstatus => ⟨(h s' hrun hstatus).1, False.elim⟩
  | wentOn _ _ _ _ _ => exact h
  | fellBack _ _ _ => trivial

theorem fallback_restores_head : ∃ s' before, runStartingGraph headEngine 4 (.gid 1) none threeBytes
    (CCtx.init false) = some (.ok (), s') ∧ .fellBack [2] before before ∈ s'.events ∧
    before.Alive 2 ∧ ∀ x ∈ s'.rtgraph.consumed, s'.rtgraph.isStored x = false := by
  obtain ⟨s', hrun, hfine, event, hevent, hids⟩ := runStartingGraph_head
  obtain ⟨before, started, rfl⟩ := Event.fallbackOf_some hids
  obtain ⟨hclean, hfinal⟩ := fallback_restores headEngine 4 (.gid 1) none threeBytes false _ s'
    hrun fun event he => (hfine event he).weaken
  obtain ⟨rfl, halive⟩ := hclean _ _ _ hevent
  exact ⟨s', started, hrun, hevent, halive 2 (List.mem_singleton_self 2), hfinal rfl⟩

/-- **Streams are used once**: in the graph that a fine run ends with, each input and each output
of a node is read through one input of one node, or stored, and not both. -/
theorem streams_usedOnce (E : Engine ρ) (fuel : Nat) (gid : GraphID) (rgp : Option ρ)
    (ins : List Data) (b : Bool) (s' : CCtx ρ)
    (h : runStartingGraph E fuel gid rgp ins (CCtx.init b) = some (.ok (), s'))
    (hfine : ∀ event ∈ s'.events, event.Fine E True) :
    ∀ x, (x < ins.length ∨ ∃ node ∈ s'.rtgraph.nodes, node.Puts x) → s'.rtgraph.UsedOnce x := by
  have hfinished := (runStartingGraph_settles h hfine).finished rfl
  rintro x (hx | ⟨node, hnode, hx⟩)
  · exact hfinished.sound.usedOnce trivial (hfinished.used x (List.mem_range.2 hx))
  · exact hfinished.sound.usedOnce trivial (hfinished.outs node hnode x hx)

theorem streams_usedOnce_head : ∃ s', runStartingGraph headEngine 4 (.gid 1) none threeBytes
    (CCtx.init false) = some (.ok (), s') ∧
    ∀ x, (x < 1 ∨ ∃ node ∈ s'.rtgraph.nodes, node.Puts x) → s'.rtgraph.UsedOnce x := by
  obtain ⟨s', hrun, hfine, -⟩ := runStartingGraph_head
  exact ⟨s', hrun, streams_usedOnce headEngine 4 (.gid 1) none threeBytes false s' hrun hfine⟩

end OpenZL.Compress
