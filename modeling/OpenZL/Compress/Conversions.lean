import OpenZL.Compress.Destinations

/-!
# The conversions before a graph

A stream whose type a graph does not take is converted by a node of its own, and the graph gets the
output of that node in its place.

Principal results: `convertInputs_frame`, `convertInputs_ready`.
-/

namespace OpenZL.Compress

open OpenZL.Lib RTGraph GraphCtx CCtx

variable {ρ : Type} {E : Engine ρ} {masks : List (DataType → Bool)} {g g' : RTGraph}

theorem convertInput_cases {rtsid : Nat} {inType : DataType} {mask : DataType → Bool}
    {r : Except ErrorCode Nat} (h : convertInput E rtsid inType mask g = some (r, g')) :
    (∃ e, r = .error e ∧ (g' = g ∨ ∃ node tail, Opened g [rtsid] node tail g')) ∨
      ∃ cnode node tail, r = .ok g.streams.length ∧ node.nbOutStreams = 1 ∧
        NodeRun E.formatVersion g cnode [rtsid] node tail g' ∧ GraphStep E g g' := by
  unfold convertInput at h
  cases hconv : implicitConversionNodeID inType mask with
  | none =>
    rw [hconv] at h
    obtain ⟨rfl, rfl⟩ := Prod.mk.inj (Option.some.inj h)
    exact Or.inl ⟨_, rfl, Or.inl rfl⟩
  | some conversion =>
    rw [hconv] at h
    rcases Cmd.run_bind_some h with ⟨e, he, rfl⟩ | ⟨⟨rtnodeid, nbOuts⟩, t, hnode, hrest⟩
    · rcases runNodeID_some he with ⟨_, hr, hg⟩ | ⟨_, _, _, hr, -⟩
      · exact Or.inl ⟨e, rfl, hg⟩
      · cases hr
    rcases runNodeID_some hnode with ⟨_, hr, -⟩ | ⟨cnode, node, tail, hr, hrun⟩
    · cases hr
    obtain ⟨rfl, rfl⟩ := Prod.mk.inj (Except.ok.inj hr)
    obtain ⟨hone, hrest⟩ := Cmd.run_require_bind.1 hrest
    rw [Cmd.run_get_bind] at hrest
    obtain ⟨last, hlast, hrest⟩ := Cmd.run_expect_bind.1 hrest
    obtain ⟨rfl, rfl⟩ := Cmd.run_pure_iff.1 hrest
    obtain rfl : node = last := by
      rw [hrun.eq] at hlast
      simpa using hlast
    exact Or.inr ⟨cnode, node, tail, by rw [hrun.running.start_eq], hone, hrun,
      runNodeID_step (List.cons_ne_nil _ _) hnode⟩

/-- A stream that a graph gets: the one it was given, or the output of a conversion. -/
def Adapted (E : Engine ρ) (rtsid : Nat) (g : RTGraph) (converted : Nat) (g' : RTGraph) : Prop :=
  converted = rtsid ∧ g' = g ∨
    ∃ cnode node tail, converted = g.streams.length ∧ node.nbOutStreams = 1 ∧
      NodeRun E.formatVersion g cnode [rtsid] node tail g' ∧ GraphStep E g g'

theorem convertOneInput_cases {rtsid : Nat} {mask : DataType → Bool} {r : Except ErrorCode Nat}
    (h : convertOneInput E rtsid mask g = some (r, g')) :
    (∃ e, r = .error e ∧ (g' = g ∨ ∃ node tail, Opened g [rtsid] node tail g')) ∨
      ∃ converted, r = .ok converted ∧ Adapted E rtsid g converted g' := by
  rcases Cmd.run_bind_some h with ⟨e, he, -⟩ | ⟨input, t, hinput, hrest⟩
  · obtain ⟨_, _, -, -, hr, -⟩ := getRStream_some he
    cases hr
  obtain ⟨_, _, -, -, -, rfl⟩ := getRStream_some hinput
  split at hrest
  · obtain ⟨rfl, rfl⟩ := Cmd.run_pure_iff.1 hrest
    exact Or.inr ⟨rtsid, rfl, Or.inl ⟨rfl, rfl⟩⟩
  · rcases convertInput_cases hrest with hfail | ⟨cnode, node, tail, hr, hone, hrun⟩
    · exact Or.inl hfail
    · exact Or.inr ⟨_, hr, Or.inr ⟨cnode, node, tail, rfl, hone, hrun⟩⟩

theorem convertInputs_cons {n rtsid : Nat} {rtsids : List Nat} {r : Except ErrorCode (List Nat)}
    (h : convertInputs E masks n (rtsid :: rtsids) g = some (r, g')) :
    (∃ e, r = .error e ∧ (g' = g ∨ ∃ node tail, Opened g [rtsid] node tail g')) ∨
      ∃ converted t q, Adapted E rtsid g converted t ∧
        convertInputs E masks (n + 1) rtsids t = some (q, g') ∧ r = q.map (converted :: ·) := by
  rcases Cmd.run_bind_some h with ⟨e, he, rfl⟩ | ⟨converted, t, hconverted, hrest⟩
  · rcases convertOneInput_cases he with ⟨_, hr, hg⟩ | ⟨_, hr, -⟩
    · exact Or.inl ⟨e, rfl, hg⟩
    · cases hr
  rcases convertOneInput_cases hconverted with ⟨_, hr, -⟩ | ⟨_, hr, hadapted⟩
  · cases hr
  obtain rfl := Except.ok.inj hr
  rcases Cmd.run_bind_some hrest with ⟨e, he, rfl⟩ | ⟨rest, t', hrestOk, hpure⟩
  · exact Or.inr ⟨converted, t, .error e, hadapted, he, rfl⟩
  · obtain ⟨rfl, rfl⟩ := Cmd.run_pure_iff.1 hpure
    exact Or.inr ⟨converted, t, .ok rest, hadapted, hrestOk, rfl⟩

/-- **Conversions** stay with the streams they are on, and mark none. -/
theorem convertInputs_frame {depth : Nat} (hdepth : depth ≤ 2 ^ 32) :
    ∀ {rtsids : List Nat} {n : Nat} {g g' : RTGraph}
    {r : Except ErrorCode (List Nat)}, convertInputs E masks n rtsids g = some (r, g') →
    (∃ new, Frame depth g rtsids new g') ∧ NoNewMarks g g' ∧
      ∀ converted, r = .ok converted → ∀ x ∈ converted, Within g rtsids x
  | [], n, g, g', r, h => by
    obtain ⟨rfl, rfl⟩ := Cmd.run_pure_iff.1 h
    refine ⟨⟨[], Frame.refl ..⟩, NoNewMarks.refl _, fun converted hr x hx => ?_⟩
    rw [← Except.ok.inj hr] at hx
    cases hx
  | rtsid :: rtsids, n, g, g', r, h => by
    have hmono : ∀ {new : List RTNode} {t : RTGraph}, Frame depth g [rtsid] new t →
        Frame depth g (rtsid :: rtsids) new t := fun hf =>
      hf.mono (Nat.le_refl _) fun x hx => by
        rw [List.mem_singleton.1 hx]
        exact List.mem_cons_self
    rcases convertInputs_cons h with ⟨e, rfl, rfl | ⟨node, tail, ho⟩⟩ |
      ⟨converted, t, q, hhead, hrest, rfl⟩
    · exact ⟨⟨[], Frame.refl ..⟩, NoNewMarks.refl _, fun _ hr => by cases hr⟩
    · exact ⟨⟨_, hmono (ho.frame depth)⟩, ho.noNewMarks, fun _ hr => by cases hr⟩
    obtain ⟨⟨new, hframe⟩, hmarks, hwithin⟩ := convertInputs_frame hdepth hrest
    have hstep : (∃ new, Frame depth g (rtsid :: rtsids) new t) ∧ NoNewMarks g t ∧
        Within g (rtsid :: rtsids) converted := by
      rcases hhead with ⟨rfl, rfl⟩ | ⟨cnode, node, tail, rfl, -, hrun, -⟩
      · exact ⟨⟨[], Frame.refl ..⟩, NoNewMarks.refl _, Or.inl List.mem_cons_self⟩
      · exact ⟨⟨_, hmono (hrun.frame hdepth)⟩, hrun.noNewMarks, Or.inr (Nat.le_refl _)⟩
    obtain ⟨⟨old, hold⟩, hmarks', hconv⟩ := hstep
    refine ⟨⟨old ++ new, hold.trans hframe fun x hx => Or.inl (List.mem_cons_of_mem _ hx)⟩,
      hmarks'.trans hmarks, fun list hr x hx => ?_⟩
    cases q with
    | error e => cases hr
    | ok rest =>
      rw [← Except.ok.inj hr] at hx
      rcases List.mem_cons.1 hx with rfl | hx
      · exact hconv
      · rcases hwithin rest rfl x hx with hmem | hge
        · exact Or.inl (List.mem_cons_of_mem _ hmem)
        · exact Or.inr (hold.length_le.trans hge)

theorem adaptInputs_frame {depth : Nat} (hdepth : depth ≤ 2 ^ 32) {rtsids : List Nat}
    {r : Except ErrorCode (List Nat)} (h : adaptInputs E masks rtsids g = some (r, g')) :
    (∃ new, Frame depth g rtsids new g') ∧ NoNewMarks g g' ∧
      ∀ converted, r = .ok converted → ∀ x ∈ converted, Within g rtsids x := by
  rcases Cmd.run_bind_some h with ⟨e, he, -⟩ | ⟨inputs, t, hinputs, hrest⟩
  · obtain ⟨_, hr, -⟩ := getRStreams_some he
    cases hr
  obtain ⟨_, -, rfl, -⟩ := getRStreams_some hinputs
  split at hrest
  · exact convertInputs_frame hdepth hrest
  · obtain ⟨rfl, rfl⟩ := Cmd.run_pure_iff.1 hrest
    refine ⟨⟨[], Frame.refl ..⟩, NoNewMarks.refl _, fun converted hr x hx => ?_⟩
    rw [← Except.ok.inj hr] at hx
    exact Or.inl hx

/-- Of the streams `rtsids` of `g`, and of what was made from them, all but `converted` are used in
`g'`, and these are free. -/
structure Ready (E : Engine ρ) (once : Prop) (depth : Nat) (g : RTGraph)
    (rtsids converted : List Nat) (g' : RTGraph) : Prop where
  steps : Extends E g g'
  sound : Sound once g'
  nodup : converted.Nodup
  free : ∀ x ∈ converted, g'.Free depth x
  inputs : ∀ x ∈ rtsids, x ∈ converted ∨ g'.Used x
  outs : ∀ node ∈ g'.nodes.drop g.nodes.length, ∀ x, node.Puts x → x ∈ converted ∨ g'.Used x

theorem Ready.refl {once : Prop} {depth : Nat} {g : RTGraph} {rtsids : List Nat}
    (hsound : Sound once g) (hnodup : rtsids.Nodup) (hfree : ∀ x ∈ rtsids, g.Free depth x) :
    Ready E once depth g rtsids rtsids g where
  steps := Extends.refl E g
  sound := hsound
  nodup := hnodup
  free := hfree
  inputs _ hx := Or.inl hx
  outs node hnode := by
    rw [List.drop_length] at hnode
    cases hnode

theorem Ready.cons {once : Prop} {depth rtsid : Nat} (hdepth : depth ≤ 2 ^ 32)
    (hpos : 0 < depth) {g t : RTGraph} {rtsids : List Nat} {converted : Nat}
    (hsound : Sound once g) (hnodup : (rtsid :: rtsids).Nodup)
    (hfree : ∀ x ∈ rtsid :: rtsids, g.Free depth x) (hadapted : Adapted E rtsid g converted t)
    {rest : List Nat} {new : List RTNode} {g' : RTGraph} (hframe : Frame depth t rtsids new g')
    (hwithin : ∀ x ∈ rest, Within t rtsids x)
    (hrest : Sound once t → (∀ x ∈ rtsids, t.Free depth x) → Ready E once depth t rtsids rest g') :
    Ready E once depth g (rtsid :: rtsids) (converted :: rest) g' := by
  obtain ⟨hnotin, hnodup'⟩ := List.nodup_cons.1 hnodup
  have hhead := hfree rtsid List.mem_cons_self
  rcases hadapted with ⟨rfl, rfl⟩ | ⟨cnode, node, tail, rfl, hone, hrun, hgraph⟩
  · have hready := hrest hsound fun x hx => hfree x (List.mem_cons_of_mem _ hx)
    have hnew : converted ∉ rest := by
      intro hmem
      rcases hwithin _ hmem with hin | hge
      · exact hnotin hin
      · exact absurd hhead.lt (Nat.not_lt.2 hge)
    constructor
    · exact hready.steps
    · exact hready.sound
    · exact List.nodup_cons.2 ⟨hnew, hready.nodup⟩
    · intro x hx
      rcases List.mem_cons.1 hx with rfl | hx
      · exact hframe.free hnotin hhead
      · exact hready.free x hx
    · intro x hx
      rcases List.mem_cons.1 hx with rfl | hx
      · exact Or.inl List.mem_cons_self
      · exact (hready.inputs x hx).imp_left (List.mem_cons_of_mem _)
    · exact fun n hn x hx => (hready.outs n hn x hx).imp_left (List.mem_cons_of_mem _)
  · have hstep := hrun.frame hdepth
    have hputs : ∀ {x}, node.Puts x → x = g.streams.length := by
      rintro x ⟨hle, hlt⟩
      rw [hrun.running.start_eq] at hle hlt
      omega
    have hfreeNew : t.Free depth g.streams.length := hrun.free hpos hsound.lt
      ⟨hrun.running.start_eq.le, by rw [hrun.running.start_eq]; omega⟩
    have hsound' : Sound once t := hsound.runNode hrun
      (fun x hx => by rwa [List.mem_singleton.1 hx]) fun _ => List.nodup_singleton rtsid
    have hready := hrest hsound' fun x hx => hstep.free
      (fun hmem => hnotin (List.mem_singleton.1 hmem ▸ hx)) (hfree x (List.mem_cons_of_mem _ hx))
    have hnew : g.streams.length ∉ rtsids := fun hmem =>
      absurd (hfree _ (List.mem_cons_of_mem _ hmem)).lt (Nat.lt_irrefl _)
    have hused : t.Used rtsid := by
      refine Or.inl (hstep.mem_consumed_iff.2 (Or.inr ⟨node, List.mem_singleton_self _, ?_⟩))
      rw [hrun.running.inRtsids_eq]
      exact List.mem_singleton_self _
    constructor
    · exact ((Extends.refl E g).tail hgraph).trans hready.steps
    · exact hready.sound
    · refine List.nodup_cons.2 ⟨fun hmem => ?_, hready.nodup⟩
      rcases hwithin _ hmem with hin | hge
      · exact hnew hin
      · exact absurd hfreeNew.lt (Nat.not_lt.2 hge)
    · intro x hx
      rcases List.mem_cons.1 hx with rfl | hx
      · exact hframe.free hnew hfreeNew
      · exact hready.free x hx
    · intro x hx
      rcases List.mem_cons.1 hx with rfl | hx
      · exact Or.inr (hframe.used_mono hused)
      · exact (hready.inputs x hx).imp_left (List.mem_cons_of_mem _)
    · intro n hn x hx
      rw [hframe.nodes, hstep.nodes, List.append_assoc, List.drop_left] at hn
      rcases List.mem_append.1 hn with hn | hn
      · rw [List.mem_singleton.1 hn] at hx
        rw [hputs hx]
        exact Or.inl List.mem_cons_self
      · refine (hready.outs n ?_ x hx).imp_left (List.mem_cons_of_mem _)
        rwa [hframe.nodes, List.drop_left]

/-- **Conversions** use the streams they replace. -/
theorem convertInputs_ready {once : Prop} {depth : Nat} (hdepth : depth ≤ 2 ^ 32)
    (hpos : 0 < depth) : ∀ {rtsids converted : List Nat} {n : Nat}
    {g g' : RTGraph}, Sound once g → rtsids.Nodup → (∀ x ∈ rtsids, g.Free depth x) →
    convertInputs E masks n rtsids g = some (.ok converted, g') →
    Ready E once depth g rtsids converted g'
  | [], converted, n, g, g', hsound, hnodup, hfree, h => by
    obtain ⟨hr, rfl⟩ := Cmd.run_pure_iff.1 h
    obtain rfl := Except.ok.inj hr
    exact Ready.refl hsound hnodup hfree
  | rtsid :: rtsids, list, n, g, g', hsound, hnodup, hfree, h => by
    rcases convertInputs_cons h with ⟨e, hr, -⟩ | ⟨converted, t, q, hadapted, hrest, hr⟩
    · cases hr
    cases q with
    | error e => cases hr
    | ok rest =>
      obtain rfl := Except.ok.inj hr
      obtain ⟨⟨new, hframe⟩, -, hwithin⟩ := convertInputs_frame hdepth hrest
      exact Ready.cons hdepth hpos hsound hnodup hfree hadapted hframe (hwithin rest rfl)
        fun hsound' hfree' =>
          convertInputs_ready hdepth hpos hsound' (List.nodup_cons.1 hnodup).2 hfree' hrest

theorem adaptInputs_ready {once : Prop} {depth : Nat} (hdepth : depth ≤ 2 ^ 32) (hpos : 0 < depth)
    {rtsids converted : List Nat} (hsound : Sound once g) (hnodup : rtsids.Nodup)
    (hfree : ∀ x ∈ rtsids, g.Free depth x)
    (h : adaptInputs E masks rtsids g = some (.ok converted, g')) :
    Ready E once depth g rtsids converted g' := by
  obtain ⟨inputs, t, hinputs, hrest⟩ := Cmd.run_bind_ok.1 h
  obtain ⟨_, -, rfl, -⟩ := getRStreams_some hinputs
  split at hrest
  · exact convertInputs_ready hdepth hpos hsound hnodup hfree hrest
  · obtain ⟨hr, rfl⟩ := Cmd.run_pure_iff.1 hrest
    obtain rfl := Except.ok.inj hr
    exact Ready.refl hsound hnodup hfree

end OpenZL.Compress
