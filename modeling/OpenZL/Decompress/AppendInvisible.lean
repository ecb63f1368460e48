import OpenZL.Decompress.AppendSimulation

/-!
# When the optimisation cannot be seen

The optimisation gives the output of the plain decoder unless a node creates the stream that is
next in order after it has committed others of its streams that the tail commits reach: those are
freed under the node, which is then refused its own result.

Principal results: `Simulates.producer_iff`, `appendToOutput_invisible`.
-/

namespace OpenZL.Decompress

open OpenZL.Lib

/-- Before `act`, the stream it creates is next in order, and every input from some stream of the
same node up to the tail is ready: the hook moves that stream. -/
def Spoils (prod : Producer) (act : Action) (s : DecodeState) : Prop :=
  ∃ index w n idx type a, act = .create index w n ∧
    prod.regens[index]? = some ⟨some idx, type⟩ ∧ s.append = some a ∧ idx = a.headInputIdx ∧
    ∃ j ∈ prod.inputs, j < a.tailInputIdx ∧ ∀ i, j ≤ i → i < a.tailInputIdx → s.Ready i

/-- No action of a node spoils its streams. -/
def CleanActions (prod : Producer) : List Action → DecodeState → Prop
  | [], _ => True
  | act :: acts, s => ¬ Spoils prod act s ∧
    ∀ s', runAction prod.regens act s = some (.ok (), s') → CleanActions prod acts s'

/-- A node that spoils none of its streams. -/
def CleanNode (prod : Producer) (s : DecodeState) : Prop :=
  ∀ s', preTransformHook prod s = some (.ok (), s') → CleanActions prod prod.actions s'

/-- A run in which no node does. -/
def Clean : List Producer → DecodeState → Prop
  | [], _ => True
  | prod :: prods, s => CleanNode prod s ∧
    ∀ s', runProducer prod s = some (.ok (), s') → Clean prods s'

variable {decoder : Concat} {p p' s s' : DecodeState} {a a' : AppendToOutput} {prod : Producer}

/-- The streams of the node have not been moved. -/
def InRange (prod : Producer) (a : AppendToOutput) : Prop :=
  ∀ j ∈ prod.inputs, a.headInputIdx ≤ j ∧ j < a.tailInputIdx

theorem Producer.mem_inputs {index idx : Nat} {type : DataType}
    (h : prod.regens[index]? = some ⟨some idx, type⟩) : idx ∈ prod.inputs :=
  List.mem_filterMap.2 ⟨_, List.mem_of_getElem? h, rfl⟩

/-! ## Codecs -/

theorem Simulates.runAction (h : Simulates p s a) {act : Action}
    (hact : runAction prod.regens act p = some (.ok (), p')) (hok : decoder.Accepts p') :
    (∃ s' a', runAction prod.regens act s = some (.ok (), s') ∧ Simulates p' s' a' ∧
      a'.headInputIdx = a.headInputIdx ∧ a'.tailInputIdx ≤ a.tailInputIdx ∧
      (Spoils prod act s → ∃ j ∈ prod.inputs, a'.tailInputIdx ≤ j) ∧
      (¬ Spoils prod act s → InRange prod a → InRange prod a')) ∨
    (runAction prod.regens act s = none ∧ ¬ InRange prod a) := by
  rcases runAction_ok.1 hact with ⟨type, hregen, rfl⟩ | ⟨idx, type, hregen, hrun⟩
  · refine Or.inl ⟨s, a, runAction_ok.2 (Or.inl ⟨type, hregen, rfl⟩), h, rfl, Nat.le_refl _, ?_,
      fun _ hin => hin⟩
    rintro ⟨index, w, n, idx, type', a'', rfl, hregen', -⟩
    rw [Action.index] at hregen
    rw [hregen] at hregen'
    cases hregen'
  rcases h.action hrun hok with ⟨s', a', hrun', hsim, hst⟩ | ⟨hnone, hout⟩
  · refine Or.inl ⟨s', a', runAction_ok.2 (Or.inr ⟨idx, type, hregen, hrun'⟩), hsim, hst.head_eq,
      hst.tail_le, ?_, ?_⟩
    · rintro ⟨index, w, n, idx', type', a'', rfl, hregen', happ, hhead, j, hj, hlt, hall⟩
      rw [Action.index] at hregen
      rw [hregen] at hregen'
      cases hregen'
      rw [h.holds.append_eq] at happ
      cases happ
      exact ⟨j, hj, hst.reaches ⟨_, _, _, rfl⟩ hhead j hlt hall⟩
    · intro hclean hin j hj
      obtain ⟨hlo, hhi⟩ := hin j hj
      refine ⟨hst.head_eq ▸ hlo, ?_⟩
      by_contra hle
      obtain ⟨⟨index, w, n, rfl⟩, hhead⟩ := hst.create (by omega)
      exact hclean ⟨index, w, n, idx, type, a, rfl, hregen, h.holds.append_eq, hhead, j, hj, hhi,
        fun i hi hlt => hst.ready i (by omega) hlt⟩
  · refine Or.inr ⟨?_, fun hin => ?_⟩
    · unfold Decompress.runAction
      rw [hregen]
      exact hnone
    · have := hin idx (Producer.mem_inputs hregen)
      omega

theorem Simulates.cleanActions : ∀ {acts : List Action} {p s : DecodeState} {a : AppendToOutput},
    Simulates p s a → InRange prod a →
    Cmd.forEach (Decompress.runAction prod.regens) acts p = some (.ok (), p') →
    decoder.Accepts p' → CleanActions prod acts s →
    ∃ s' a', Cmd.forEach (Decompress.runAction prod.regens) acts s = some (.ok (), s') ∧
      Simulates p' s' a' ∧ InRange prod a'
  | [], p, s, a, h, hin, hrun, _, _ => by
    obtain ⟨-, rfl⟩ := Cmd.run_pure_iff.1 hrun
    exact ⟨s, a, rfl, h, hin⟩
  | act :: acts, p, s, a, h, hin, hrun, hok, ⟨hact, hrest⟩ => by
    obtain ⟨_, p₁, h₁, h₂⟩ := Cmd.run_bind_ok.1 hrun
    have hok₁ := hok.of_runActions (h.plain.runAction h₁) h₂
    rcases h.runAction h₁ hok₁ with ⟨s₁, a₁, hs₁, hsim₁, -, -, -, hin₁⟩ | ⟨-, hout⟩
    · obtain ⟨s', a', hs', hsim', hin'⟩ :=
        Simulates.cleanActions hsim₁ (hin₁ hact hin) h₂ hok (hrest s₁ hs₁)
      exact ⟨s', a', (Cmd.run_bind_of_ok hs₁).trans hs', hsim', hin'⟩
    · exact absurd hin hout

theorem Simulates.spoiledActions : ∀ {acts : List Action} {p s : DecodeState}
    {a : AppendToOutput}, Simulates p s a →
    Cmd.forEach (Decompress.runAction prod.regens) acts p = some (.ok (), p') →
    decoder.Accepts p' →
    Cmd.forEach (Decompress.runAction prod.regens) acts s = some (.ok (), s') →
    ∃ a', Simulates p' s' a' ∧ a'.tailInputIdx ≤ a.tailInputIdx ∧
      (¬ CleanActions prod acts s → ∃ j ∈ prod.inputs, a'.tailInputIdx ≤ j)
  | [], p, s, a, h, hrun, _, hrun' => by
    obtain ⟨-, rfl⟩ := Cmd.run_pure_iff.1 hrun
    obtain ⟨-, rfl⟩ := Cmd.run_pure_iff.1 hrun'
    exact ⟨a, h, Nat.le_refl _, fun hnot => absurd trivial hnot⟩
  | act :: acts, p, s, a, h, hrun, hok, hrun' => by
    obtain ⟨_, p₁, h₁, h₂⟩ := Cmd.run_bind_ok.1 hrun
    obtain ⟨_, s₁, h₁', h₂'⟩ := Cmd.run_bind_ok.1 hrun'
    have hok₁ := hok.of_runActions (h.plain.runAction h₁) h₂
    rcases h.runAction h₁ hok₁ with ⟨t, a₁, ht, hsim₁, -, htail, hspoil, -⟩ | ⟨hnone, -⟩
    · obtain rfl : s₁ = t := by
        rw [h₁'] at ht
        cases ht
        rfl
      obtain ⟨a', hsim', htail', hspoil'⟩ := Simulates.spoiledActions hsim₁ h₂ hok h₂'
      refine ⟨a', hsim', Nat.le_trans htail' htail, fun hnot => ?_⟩
      by_cases hact : Spoils prod act s
      · obtain ⟨j, hj, hle⟩ := hspoil hact
        exact ⟨j, hj, Nat.le_trans htail' hle⟩
      · refine hspoil' fun hclean => hnot ⟨hact, fun s' hs' => ?_⟩
        rw [h₁'] at hs'
        cases hs'
        exact hclean
    · rw [h₁'] at hnone
      cases hnone

theorem forEach_expectFree {r : Except ErrorCode Unit} : ∀ {idxs : List Nat} {s s' : DecodeState},
    Cmd.forEach expectFree idxs s = some (r, s') ↔
      r = .ok () ∧ s' = s ∧ ∀ j ∈ idxs, s.inputs[j]? = some none
  | [], s, s' => Cmd.run_pure_iff.trans (by simp)
  | idx :: idxs, s, s' => by
    have hone : ∀ {q t}, expectFree idx s = some (q, t) ↔
        q = .ok () ∧ t = s ∧ s.inputs[idx]? = some none := by
      intro q t
      rw [expectFree, Cmd.run_get_bind]
      constructor
      · intro h
        obtain ⟨_, hfree, rfl, rfl⟩ := Cmd.run_expect h
        split at hfree
        · exact ⟨rfl, rfl, ‹_›⟩
        · cases hfree
      · rintro ⟨rfl, rfl, hfree⟩
        rw [if_pos hfree]
        rfl
    constructor
    · intro h
      rcases Cmd.run_bind_some h with ⟨e, he, -⟩ | ⟨_, t, ht, hrest⟩
      · cases (hone.1 he).1
      · obtain ⟨-, rfl, hfree⟩ := hone.1 ht
        obtain ⟨rfl, rfl, hall⟩ := forEach_expectFree.1 hrest
        refine ⟨rfl, rfl, fun j hj => ?_⟩
        rcases List.mem_cons.1 hj with rfl | hj
        · exact hfree
        · exact hall j hj
    · rintro ⟨rfl, rfl, hall⟩
      refine (Cmd.run_bind_of_ok (hone.2 ⟨rfl, rfl, hall idx (by simp)⟩)).trans ?_
      exact forEach_expectFree.2 ⟨rfl, rfl, fun j hj => hall j (by simp [hj])⟩

theorem forEach_validateOutput_ready : ∀ {idxs : List Nat}, (∀ i ∈ idxs, s.Ready i) →
    Cmd.forEach validateOutput idxs s = some (.ok (), s)
  | [], _ => rfl
  | idx :: idxs, h => by
    obtain ⟨d, hd, hc⟩ := h idx (by simp)
    have hone : validateOutput idx s = some (.ok (), s) := by
      rw [validateOutput, Cmd.run_get_bind, hd]
      change (Cmd.expect (if d.writeCommitted then some () else none) : DecodeM Unit) s = _
      rw [if_pos hc]
      rfl
    exact (Cmd.run_bind_of_ok hone).trans
      (forEach_validateOutput_ready fun i hi => h i (by simp [hi]))

theorem runProducer_ok {t : DecodeState} (hhook : preTransformHook prod s = some (.ok (), t)) :
    runProducer prod s = some (.ok (), s') ↔
      (∀ j ∈ prod.inputs, t.inputs[j]? = some none) ∧ prod.result = .ok () ∧
      Cmd.forEach (Decompress.runAction prod.regens) prod.actions t = some (.ok (), s') ∧
      ∀ j ∈ prod.inputs, s'.Ready j := by
  unfold runProducer
  rw [Cmd.run_bind_of_ok hhook]
  constructor
  · intro h
    obtain ⟨_, t₁, h₁, h₂⟩ := Cmd.run_bind_ok.1 h
    obtain ⟨-, rfl, hfree⟩ := forEach_expectFree.1 h₁
    obtain ⟨_, t₂, h₃, h₄⟩ := Cmd.run_bind_ok.1 h₂
    cases hres : prod.result with
    | error e =>
      rw [hres] at h₄
      cases h₄
    | ok u =>
      rw [hres] at h₄
      obtain ⟨rfl, hready⟩ := forEach_validateOutput h₄
      exact ⟨hfree, rfl, h₃, hready rfl⟩
  · rintro ⟨hfree, hres, hacts, hready⟩
    rw [Cmd.run_bind_of_ok (forEach_expectFree.2 ⟨rfl, rfl, hfree⟩), Cmd.run_bind_of_ok hacts, hres]
    exact forEach_validateOutput_ready hready

theorem preTransformHook_plain (h : p.append = none) :
    preTransformHook prod p = some (.ok (), p) := by
  unfold preTransformHook
  rw [Cmd.run_get_bind, h]
  rfl

theorem preTransformHook_eq : preTransformHook prod s = Decompress.commitInputs s ∨
    preTransformHook prod s = some (.ok (), s) := by
  unfold preTransformHook
  rw [Cmd.run_get_bind]
  cases s.append with
  | none => exact Or.inr rfl
  | some a =>
    rcases prod.regens with _ | ⟨⟨_ | idx, type⟩, _ | ⟨regen, regens⟩⟩
    · exact Or.inr rfl
    · exact Or.inr rfl
    · exact Or.inr rfl
    · exact Or.inl rfl
    · exact Or.inr rfl

/-! ## Producers -/

theorem Simulates.preTransformHook (h : Simulates p s a) (hok : decoder.Accepts p)
    (hidle : Idle [] s) :
    ∃ s' a', Decompress.preTransformHook prod s = some (.ok (), s') ∧ Simulates p s' a' := by
  have hcases : Decompress.preTransformHook prod s = Decompress.commitInputs s ∨ _ :=
    preTransformHook_eq
  rcases hcases with heq | heq
  · obtain ⟨s', a', hrun, hsim, -⟩ := h.commitInputs hok hidle.lent_eq
    exact ⟨s', a', heq.trans hrun, hsim⟩
  · exact ⟨s, a, heq, h⟩

/-- **With the optimisation a node succeeds exactly when it spoils none of its streams, and then
the two states stay in step.** -/
theorem Simulates.producer_iff (h : Simulates p s a) (hidle : Idle [] s)
    (hrun : runProducer prod p = some (.ok (), p')) (hok : decoder.Accepts p') :
    (CleanNode prod s → ∃ s' a', runProducer prod s = some (.ok (), s') ∧ Simulates p' s' a') ∧
    ∀ s', runProducer prod s = some (.ok (), s') → CleanNode prod s := by
  obtain ⟨hfree, hres, hacts, hready⟩ :=
    (runProducer_ok (preTransformHook_plain h.plain.append_eq)).1 hrun
  have hok₀ := hok.of_runActions h.plain hacts
  obtain ⟨t, b, hhook, hsim⟩ : ∃ t b, Decompress.preTransformHook prod s = some (.ok (), t) ∧
      Simulates p t b := h.preTransformHook hok₀ hidle
  constructor
  · intro hclean
    have hin : InRange prod b := fun j hj =>
      ⟨(hsim.free (hfree j hj)).1, (hsim.free (hfree j hj)).2.1⟩
    obtain ⟨s', a', hacts', hsim', hin'⟩ :=
      hsim.cleanActions hin hacts hok (hclean t hhook)
    refine ⟨s', a', (runProducer_ok hhook).2 ⟨fun j hj => (hsim.free (hfree j hj)).2.2, hres,
      hacts', fun j hj => ?_⟩, hsim'⟩
    obtain ⟨d, hd, hc⟩ := hready j hj
    obtain ⟨buffer, hslot⟩ := hsim'.slot hd (hin' j hj).1 (hin' j hj).2
    exact ⟨_, hslot, hc⟩
  · intro s' hrun' t' ht'
    rw [hhook] at ht'
    cases ht'
    obtain ⟨-, -, hacts', hready'⟩ := (runProducer_ok hhook).1 hrun'
    obtain ⟨a', hsim', -, hspoil⟩ := hsim.spoiledActions hacts hok hacts'
    by_contra hnot
    obtain ⟨j, hj, hle⟩ := hspoil hnot
    obtain ⟨d, hd, -⟩ := hready' j hj
    have := (hsim'.holds.range hd).2
    omega

theorem Plain.runProducer (hp : Plain p)
    (h : Decompress.runProducer prod p = some (.ok (), p')) : Plain p' := by
  obtain ⟨-, -, hacts, -⟩ := (runProducer_ok (preTransformHook_plain hp.append_eq)).1 h
  exact hp.runActions hacts

theorem Concat.Accepts.of_runProducer (hok : decoder.Accepts p') (hp : Plain p)
    (h : Decompress.runProducer prod p = some (.ok (), p')) : decoder.Accepts p := by
  obtain ⟨-, -, hacts, -⟩ := (runProducer_ok (preTransformHook_plain hp.append_eq)).1 h
  exact hok.of_runActions hp hacts

theorem Concat.Accepts.of_runProducers (hok : decoder.Accepts p') : ∀ {prods : List Producer}
    {p : DecodeState}, Plain p → Cmd.forEach Decompress.runProducer prods p = some (.ok (), p') →
    decoder.Accepts p
  | [], p, hp, h => by
    obtain ⟨-, rfl⟩ := Cmd.run_pure_iff.1 h
    exact hok
  | prod :: prods, p, hp, h => by
    obtain ⟨_, p₁, h₁, h₂⟩ := Cmd.run_bind_ok.1 h
    exact (hok.of_runProducers (hp.runProducer h₁) h₂).of_runProducer hp h₁

theorem Simulates.producers_iff (hok : decoder.Accepts p') : ∀ {prods : List Producer}
    {p s : DecodeState} {a : AppendToOutput}, Simulates p s a → Idle [] s →
    Cmd.forEach runProducer prods p = some (.ok (), p') →
    (Clean prods s → ∃ s' a', Cmd.forEach runProducer prods s = some (.ok (), s') ∧
      Simulates p' s' a') ∧
    ∀ s', Cmd.forEach runProducer prods s = some (.ok (), s') → Clean prods s
  | [], p, s, a, h, hidle, hrun => by
    obtain ⟨-, rfl⟩ := Cmd.run_pure_iff.1 hrun
    exact ⟨fun _ => ⟨s, a, rfl, h⟩, fun _ _ => trivial⟩
  | prod :: prods, p, s, a, h, hidle, hrun => by
    obtain ⟨_, p₁, h₁, h₂⟩ := Cmd.run_bind_ok.1 hrun
    obtain ⟨hnode, hback⟩ := h.producer_iff hidle h₁
      (hok.of_runProducers (h.plain.runProducer h₁) h₂)
    have hrest : ∀ {s₁}, runProducer prod s = some (.ok (), s₁) → CleanNode prod s →
        (Clean prods s₁ → ∃ s' a', Cmd.forEach runProducer prods s₁ = some (.ok (), s') ∧
          Simulates p' s' a') ∧
        ∀ s', Cmd.forEach runProducer prods s₁ = some (.ok (), s') → Clean prods s₁ := by
      intro s₁ hs₁ hclean
      obtain ⟨t, b, ht, hsim⟩ := hnode hclean
      rw [hs₁] at ht
      cases ht
      exact Simulates.producers_iff hok hsim ((runProducer_guarded hidle hs₁).2 rfl) h₂
    constructor
    · rintro ⟨hclean, hnext⟩
      obtain ⟨s₁, b, hs₁, -⟩ := hnode hclean
      obtain ⟨s', a', hs', hsim'⟩ := (hrest hs₁ hclean).1 (hnext s₁ hs₁)
      exact ⟨s', a', (Cmd.run_bind_of_ok hs₁).trans hs', hsim'⟩
    · intro s' hs'
      obtain ⟨_, s₁, hs₁, hs₂⟩ := Cmd.run_bind_ok.1 hs'
      have hclean := hback s₁ hs₁
      refine ⟨hclean, fun t ht => ?_⟩
      rw [hs₁] at ht
      cases ht
      exact (hrest hs₁ hclean).2 s' hs₂

theorem Holds.joined {contents : List (List UInt8)} (h : Holds contents s a)
    (hall : a.headInputIdx = a.tailInputIdx) :
    (a.joined s.output).take (a.outputHead + (s.output.length - a.outputTail)) =
      s.committed ++ contents.flatten := by
  have h₁ := h.used_le
  have h₂ := h.head_le
  have h₃ := h.tail_le
  have htail : (Buffer.read s.output a.outputTail (s.output.length - a.outputTail)).length =
      s.output.length - a.outputTail := Buffer.length_read (by omega)
  have hbefore : ∀ pos n, pos + n ≤ a.outputHead →
      Buffer.read (a.joined s.output) pos n = Buffer.read s.output pos n := by
    intro pos n hle
    unfold AppendToOutput.joined
    split
    · exact Buffer.read_write_before (by omega) hle _
    · rfl
  have hmoved : Buffer.read (a.joined s.output) a.outputHead (s.output.length - a.outputTail) =
      Buffer.read s.output a.outputTail (s.output.length - a.outputTail) := by
    unfold AppendToOutput.joined
    split
    · have hself : Buffer.read (Buffer.write s.output a.outputHead _) a.outputHead _ =
          Buffer.read s.output a.outputTail (s.output.length - a.outputTail) :=
        Buffer.read_write_self (by omega) _
      rwa [htail] at hself
    · rw [show a.outputHead = a.outputTail by omega]
  rw [← Buffer.read_of_start, show a.outputHead + (s.output.length - a.outputTail) =
      s.outputUsed + ((a.outputHead - s.outputUsed) + (s.output.length - a.outputTail)) by omega,
    Buffer.read_add, Buffer.read_add, hbefore _ _ (by omega), hbefore _ _ (by omega),
    show 0 + s.outputUsed + (a.outputHead - s.outputUsed) = a.outputHead by omega, hmoved,
    Nat.zero_add, h.head_eq, h.tail_eq, Buffer.read_of_start, ← hall, ← List.flatten_append,
    List.take_append_drop]
  rfl

theorem finishAppend_ok {t : DecodeState} (hrun : Decompress.commitInputs s = some (.ok (), t))
    {contents : List (List UInt8)} (h : Holds contents t a)
    (hall : a.headInputIdx = a.tailInputIdx) :
    ∃ s', finishAppend s = some (.ok (), s') ∧ s'.committed = t.committed ++ contents.flatten := by
  have h₁ := h.used_le
  have h₂ := h.head_le
  have h₃ := h.tail_le
  have hsize : t.outputUsed + (a.outputHead + (t.output.length - a.outputTail) - t.outputUsed) =
      a.outputHead + (t.output.length - a.outputTail) := by omega
  have hok : finishAppend s = some (.ok (), { t with
      output := a.joined t.output
      outputUsed := t.outputUsed +
        (a.outputHead + (t.output.length - a.outputTail) - t.outputUsed)
      append := none }) := by
    unfold finishAppend
    rw [Cmd.run_bind_of_ok hrun, Cmd.run_get_bind]
    refine Cmd.run_expect_bind.2 ⟨a, h.append_eq, ?_⟩
    rw [Cmd.run_bind_of_ok ((Cmd.run_failWhen_ok (u := ())).2 ⟨by simp [hall], rfl⟩),
      Cmd.run_bind_of_ok ((Cmd.run_failWhen_ok (u := ())).2 ⟨by omega, rfl⟩)]
    rfl
  refine ⟨_, hok, ?_⟩
  unfold DecodeState.committed
  rw [hsize]
  exact h.joined hall

theorem eq_map_some_of_mapM_id {α : Type} : ∀ {l : List (Option α)} {xs : List α},
    l.mapM id = some xs → l = xs.map some
  | [], xs, h => by
    cases h
    rfl
  | slot :: l, xs, h => by
    cases slot with
    | none => cases h
    | some x =>
      rw [List.mapM_cons] at h
      change (l.mapM id).bind (fun ys => some (x :: ys)) = some xs at h
      cases hl : l.mapM id with
      | none =>
        rw [hl] at h
        cases h
      | some ys =>
        rw [hl] at h
        cases h
        rw [List.map_cons, ← eq_map_some_of_mapM_id hl]

theorem concatInputs_ok (hp : Plain p) (h : concatInputs decoder p = some (.ok (), p')) :
    decoder.Accepts p ∧ (∀ i < p.inputs.length, ∃ d, p.inputs[i]? = some (some d)) ∧
      (p.outputUsed ≤ p.output.length →
        p'.committed = p.committed ++ p.contents.flatten) := by
  rw [concatInputs, Cmd.run_get_bind] at h
  obtain ⟨inputs, hinputs, h₁⟩ := Cmd.run_expect_bind.1 h
  obtain ⟨-, h₂⟩ := Cmd.run_failWhen_bind_ok.1 h₁
  obtain ⟨htypes, h₃⟩ := Cmd.run_failWhen_bind_ok.1 h₂
  obtain ⟨hsize, h₄⟩ := Cmd.run_failWhen_bind_ok.1 h₃
  obtain ⟨-, rfl⟩ := Prod.mk.inj (Option.some.inj h₄)
  have hmap := eq_map_some_of_mapM_id hinputs
  have hslot : ∀ (i : Nat), p.inputs[i]? = inputs[i]?.map some := fun i => by
    rw [hmap, List.getElem?_map]
  have hcontents : inputs.flatMap (·.content p.output) = p.contents.flatten := by
    rw [DecodeState.contents, hmap, List.map_map, List.flatMap]
    congr 1
    refine List.map_congr_left fun d hd => ?_
    obtain ⟨i, hi⟩ := List.mem_iff_getElem?.1 hd
    obtain ⟨content, hown, -⟩ := hp.own i d (by rw [hslot, hi]; rfl)
    exact (InputData.content_own hown _).trans (InputData.content_own hown _).symm
  rw [hcontents] at hsize
  refine ⟨⟨?_, by omega⟩, ?_, ?_⟩
  · intro i d hd
    by_contra hne
    rw [hslot] at hd
    obtain ⟨e, he, heq⟩ := Option.map_eq_some_iff.1 hd
    cases heq
    exact htypes ⟨d, List.mem_of_getElem? he, hne⟩
  · intro i hi
    have hi' : i < inputs.length := by rwa [hmap, List.length_map] at hi
    exact ⟨inputs[i], by rw [hslot, List.getElem?_eq_getElem hi']; rfl⟩
  · intro hused
    unfold DecodeState.committed
    rw [hcontents, ← Buffer.read_of_start, Buffer.read_add,
      Buffer.read_write_before hused (by omega), Nat.zero_add, Buffer.read_write_self hused,
      Buffer.read_of_start]

theorem Plain.plain (output : List UInt8) (outputUsed : Nat)
    (stored : List (Option (List UInt8))) :
    Plain (DecodeState.plain output outputUsed stored) := by
  refine ⟨rfl, fun i d hd => ?_⟩
  obtain ⟨slot, -, hslot⟩ := List.mem_map.1 (List.mem_of_getElem? hd)
  cases slot with
  | none => cases hslot
  | some content =>
    cases hslot
    exact ⟨content, rfl, rfl, Nat.le_refl _⟩

/-! ## Runs -/

theorem Simulates.register (hp : Plain p) (hused : p.outputUsed ≤ p.output.length) :
    Simulates p p.register ⟨0, p.inputs.length, p.outputUsed, p.output.length⟩ := by
  have hlen : p.contents.length = p.inputs.length := by
    rw [DecodeState.contents, List.length_map]
  refine ⟨⟨rfl, hlen.symm, Nat.zero_le _, Nat.le_of_eq hlen.symm, Nat.le_refl _, hused,
    Nat.le_refl _, ?_, ?_, ?_, ?_⟩, hp, ⟨rfl, rfl, rfl⟩, ?_, ?_⟩
  · change Buffer.read p.output p.outputUsed (p.outputUsed - p.outputUsed) = _
    rw [Nat.sub_self, Buffer.read_zero]
    rfl
  · change Buffer.read p.output p.output.length (p.output.length - p.output.length) =
      (p.contents.drop p.inputs.length).flatten
    rw [Nat.sub_self, Buffer.read_zero, ← hlen, List.drop_length]
    rfl
  · intro i hi hout
    dsimp only at hout
    omega
  · intro i d hd
    change p.inputs[i]? = _ at hd
    obtain ⟨content, hown, hsize, hcap⟩ := hp.own i d hd
    refine ⟨?_, ?_, hcap, Or.inl ⟨content, hown⟩⟩
    · rw [DecodeState.contents_some hd, InputData.content_own hown, InputData.content_own hown]
    · rw [InputData.content_own hown]
      exact hsize
  · intro i _ _
    cases hslot : p.inputs[i]? with
    | none => exact ⟨.own [], hslot⟩
    | some slot =>
      cases slot with
      | none => exact ⟨.own [], hslot⟩
      | some d => exact ⟨d.buffer, hslot⟩
  · intro i hi hout
    dsimp only at hout
    omega

theorem Idle.ready {i : Nat} (h : Idle [] p) {d : InputData} (hd : p.inputs[i]? = some (some d)) :
    p.Ready i := by
  refine ⟨d, hd, ?_⟩
  cases hc : d.writeCommitted with
  | true => rfl
  | false => cases (h.own i d hd hc).1

theorem Simulates.finish (h : Simulates p s a) (hidle : Idle [] s) (hok : decoder.Accepts p)
    (hready : ∀ i < p.inputs.length, p.Ready i) :
    ∃ s', finishAppend s = some (.ok (), s') ∧ s'.committed = p.committed ++ p.contents.flatten := by
  obtain ⟨t, b, hrun, hsim, hm⟩ := h.commitInputs hok hidle.lent_eq
  have hall : b.headInputIdx = b.tailInputIdx := by
    by_contra hne
    have h₁ := hm.head_le
    have h₂ := hm.tail_le
    have h₃ := hm.holds.idx_le
    have h₄ := h.holds.idx_le_length
    rw [DecodeState.contents, List.length_map] at h₄
    obtain ⟨hnot, -⟩ := hm.stuck.resolve_left hne
    obtain ⟨d, hd, hc⟩ := hready b.headInputIdx (by omega)
    obtain ⟨buffer, hslot⟩ := h.slot hd h₁ (by omega)
    exact hnot ⟨_, hslot, hc⟩
  obtain ⟨s', hfin, hcommitted⟩ := finishAppend_ok hrun hm.holds hall
  exact ⟨s', hfin, hcommitted.trans (by rw [hsim.kept.committed_eq])⟩

theorem runConcat_plain (h : p.append = none) : runConcat decoder p = concatInputs decoder p := by
  rw [runConcat, Cmd.run_get_bind, h]

theorem runConcat_append (h : s.append = some a) : runConcat decoder s = finishAppend s := by
  rw [runConcat, Cmd.run_get_bind, h]

theorem Plain.runProducers : ∀ {prods : List Producer} {p p' : DecodeState}, Plain p →
    Cmd.forEach Decompress.runProducer prods p = some (.ok (), p') → Plain p'
  | [], p, p', hp, h => by
    obtain ⟨-, rfl⟩ := Cmd.run_pure_iff.1 h
    exact hp
  | prod :: prods, p, p', hp, h => by
    obtain ⟨_, p₁, h₁, h₂⟩ := Cmd.run_bind_ok.1 h
    exact Plain.runProducers (hp.runProducer h₁) h₂

theorem Idle.plain {output : List UInt8} {outputUsed : Nat}
    {stored : List (Option (List UInt8))} :
    Idle [] (DecodeState.plain output outputUsed stored) := by
  have h : Idle [] (DecodeState.plain output outputUsed stored).register := Idle.register
  exact ⟨h.own, h.commits⟩

/-- **When the plain decoder succeeds, the optimisation succeeds with the same output exactly when
no node of the chunk creates the stream that is next in order after committing a stream of its own
that the tail commits reach.  In every run, no tail commit writes to a part of the output that is
lent to an open stream.** -/
theorem appendToOutput_invisible (decoder : Concat) (prods : List Producer) (output : List UInt8)
    (outputUsed : Nat) (stored : List (Option (List UInt8))) (hused : outputUsed ≤ output.length) :
    (∀ p, runChunk decoder prods (DecodeState.plain output outputUsed stored) = some (.ok (), p) →
      ((∃ s, runChunk decoder prods (DecodeState.plain output outputUsed stored).register =
          some (.ok (), s) ∧ s.committed = p.committed) ↔
        Clean prods (DecodeState.plain output outputUsed stored).register)) ∧
    ∀ r s, runChunk decoder prods (DecodeState.plain output outputUsed stored).register =
        some (r, s) →
      ∀ t ∈ s.tailCommits, ∀ part ∈ t.lent, part.stop ≤ t.written.start := by
  constructor
  · intro p hrun
    obtain ⟨_, p₁, hprods, hconcat⟩ := Cmd.run_bind_ok.1 hrun
    have hplain := Plain.plain output outputUsed stored
    have hplain₁ := hplain.runProducers hprods
    rw [runConcat_plain hplain₁.append_eq] at hconcat
    obtain ⟨hok, hslots, hout⟩ := concatInputs_ok hplain₁ hconcat
    have hidle₁ := (runProducers_guarded Idle.plain hprods).2 rfl
    obtain ⟨hclean, hback⟩ := (Simulates.register hplain hused).producers_iff hok Idle.register
      hprods
    constructor
    · rintro ⟨s, hs, -⟩
      obtain ⟨_, s₁, hs₁, -⟩ := Cmd.run_bind_ok.1 hs
      exact hback s₁ hs₁
    · intro h
      obtain ⟨s₁, a₁, hs₁, hsim⟩ := hclean h
      have hready : ∀ i < p₁.inputs.length, p₁.Ready i := fun i hi => by
        obtain ⟨d, hd⟩ := hslots i hi
        exact hidle₁.ready hd
      obtain ⟨s, hfin, hcommitted⟩ :=
        hsim.finish ((runProducers_guarded Idle.register hs₁).2 rfl) hok hready
      have hused₁ : p₁.outputUsed ≤ p₁.output.length := by
        rw [← hsim.kept.outputUsed_eq, ← hsim.kept.length_eq]
        have h₁ := hsim.holds.used_le
        have h₂ := hsim.holds.head_le
        have h₃ := hsim.holds.tail_le
        omega
      refine ⟨s, Cmd.run_bind_ok.2 ⟨(), s₁, hs₁, ?_⟩, hcommitted.trans (hout hused₁).symm⟩
      rw [runConcat_append hsim.holds.append_eq]
      exact hfin
  · intro r s hrun t ht part hpart
    rw [runChunk_guarded hrun t ht] at hpart
    cases hpart

/-- Two nodes produce the last and the first of three inputs behind a byte of output; the second
over-reserves, and the third input is stored in the frame. -/
theorem appendToOutput_invisible_threeInputs : let prods : List Producer :=
      [⟨[⟨some 1, .serial⟩], [.create 0 1 1, .commit 0 [3] []], .ok ()⟩,
        ⟨[⟨some 0, .serial⟩], [.create 0 1 4, .commit 0 [1, 2] [6, 6]], .ok ()⟩]
    let init := DecodeState.plain [9, 0, 0, 0, 0, 0, 0, 0] 1 [none, none, some [7, 8]]
    ∃ p, runChunk .splitN prods init = some (.ok (), p) ∧ p.committed = [9, 1, 2, 3, 7, 8] ∧
      Clean prods init.register :=
  ⟨_, rfl, by decide, ((appendToOutput_invisible .splitN _ _ 1 [none, none, some [7, 8]]
    (by decide)).1 _ rfl).1 ⟨_, rfl, by decide⟩⟩

/-- A node that regenerates both inputs and commits the second before it creates the first is
refused its result, where the plain decoder succeeds. -/
theorem appendToOutput_ownStreamFreed : let prods : List Producer :=
      [⟨[⟨some 1, .serial⟩, ⟨some 0, .serial⟩],
        [.create 0 1 1, .commit 0 [3] [], .create 1 1 2, .commit 1 [1, 2] []], .ok ()⟩]
    let init := DecodeState.plain [0, 0, 0, 0] 0 [none, none]
    (∃ p, runChunk .splitN prods init = some (.ok (), p) ∧ p.committed = [1, 2, 3]) ∧
      ∃ s, runChunk .splitN prods init.register = some (.error .transform_executionFailure, s) :=
  ⟨⟨_, rfl, by decide⟩, _, rfl⟩

end OpenZL.Decompress
