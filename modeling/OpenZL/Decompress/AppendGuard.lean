import OpenZL.Decompress.AppendToOutput

/-!
# Streams that are written in the output

The optimisation lends a part of the output to a stream while a node writes to it.

Principal results: `Guarded.newStream`, `runChunk_guarded`.
-/

namespace OpenZL.Decompress

open OpenZL.Lib

variable {opened : List Nat} {s : DecodeState} {r : Except ErrorCode Unit}

/-- No stream is open but those of `opened`, and none holds a part of the output; nor did one at
any tail commit. -/
structure Idle (opened : List Nat) (s : DecodeState) : Prop where
  own : ∀ (i : Nat) (d : InputData), s.inputs[i]? = some (some d) → d.writeCommitted = false →
    i ∈ opened ∧ ∃ content, d.buffer = .own content
  commits : ∀ t ∈ s.tailCommits, t.lent = []

theorem Idle.lent_eq (h : Idle opened s) : s.lent = [] := by
  refine DecodeState.lent_eq_nil.2 fun i d hd => ?_
  cases hc : d.writeCommitted with
  | true => simp [InputData.lent, hc]
  | false =>
    obtain ⟨-, content, hown⟩ := h.own i d hd hc
    simp [InputData.lent, hown]

theorem Idle.placeInput (h : Idle opened s) (a : AppendToOutput) (i : Nat) (d : InputData) :
    Idle opened (s.placeInput a i d) := by
  constructor
  · intro j e he hopen
    rw [DecodeState.placeInput_inputs] at he
    by_cases hij : i = j
    · subst hij
      rw [List.getElem?_set] at he
      simp at he
    · rw [List.getElem?_set_ne hij] at he
      exact h.own j e he hopen
  · intro t ht
    rcases s.placeInput_tailCommits a i d t ht with hold | hlent
    · exact h.commits t hold
    · rw [hlent, h.lent_eq]

theorem Idle.commitInput (a : AppendToOutput) (i : Nat) :
    Cmd.Preserves (Idle opened) (commitInput a i) := by
  intro s r s' hs h
  rcases commitInput_some h with ⟨rfl, -⟩ | ⟨d, -, -, -, rfl⟩
  · exact hs
  · exact hs.placeInput a i d

theorem Idle.commitInputsLoop : ∀ n : Nat,
    Cmd.Preserves (Idle opened) (commitInputsLoop n)
  | 0 => Cmd.Preserves.pure ()
  | n + 1 => by
    refine Cmd.Preserves.bind Cmd.Preserves.get fun s => ?_
    refine Cmd.Preserves.bind (Cmd.Preserves.expect _) fun a => ?_
    refine Cmd.Preserves.bind (Idle.commitInput a _) fun success => ?_
    split
    · refine Cmd.Preserves.bind (Cmd.Preserves.modify fun s hs => ⟨hs.own, hs.commits⟩) fun _ => ?_
      exact Idle.commitInputsLoop n
    · refine Cmd.Preserves.bind (Idle.commitInput a _) fun success => ?_
      split
      · refine Cmd.Preserves.bind (Cmd.Preserves.modify fun s hs => ⟨hs.own, hs.commits⟩)
          fun _ => ?_
        exact Idle.commitInputsLoop n
      · exact Cmd.Preserves.pure ()

theorem Idle.commitInputs : Cmd.Preserves (Idle opened) commitInputs := by
  refine Cmd.Preserves.bind Cmd.Preserves.get fun s => ?_
  refine Cmd.Preserves.bind (Cmd.Preserves.expect _) fun a => ?_
  exact Idle.commitInputsLoop _

/-- The next input in order is `h`, and it is open. -/
def HeadOpen (h : Nat) (s : DecodeState) : Prop :=
  (∃ a, s.append = some a ∧ a.headInputIdx = h) ∧
    ∃ d, s.inputs[h]? = some (some d) ∧ d.writeCommitted = false

theorem HeadOpen.not_ready {h : Nat} (hs : HeadOpen h s) : ¬ s.Ready h := by
  rintro ⟨d, hd, hc⟩
  obtain ⟨-, e, he, ho⟩ := hs
  rw [hd] at he
  cases he
  rw [hc] at ho
  cases ho

theorem HeadOpen.commitInputsLoop {h : Nat} : ∀ n : Nat,
    Cmd.Preserves (HeadOpen h) (commitInputsLoop n)
  | 0 => Cmd.Preserves.pure ()
  | n + 1 => by
    intro s r s' hs hrun
    rw [Decompress.commitInputsLoop, Cmd.run_get_bind] at hrun
    obtain ⟨a, ha, h₁⟩ := Cmd.run_expect_bind.1 hrun
    obtain rfl : a.headInputIdx = h := by
      obtain ⟨⟨a', ha', hh⟩, -⟩ := hs
      rw [ha] at ha'
      cases ha'
      exact hh
    have hlt : a.headInputIdx < s.inputs.length := by
      obtain ⟨-, d, hd, -⟩ := hs
      exact (List.getElem?_eq_some_iff.1 hd).1
    rw [Cmd.run_bind_of_ok (commitInput_wait hlt hs.not_ready)] at h₁
    rcases Cmd.run_bind_some h₁ with ⟨e, herr, -⟩ | ⟨success, t, htail, h₂⟩
    · rcases commitInput_some herr with ⟨rfl, -⟩ | ⟨_, _, _, hr, _⟩
      · exact hs
      · cases hr
    rcases commitInput_some htail with ⟨rfl, hr⟩ | ⟨d, hd, hc, hr, rfl⟩
    · obtain rfl : success = false := by simpa using hr
      obtain ⟨-, rfl⟩ := Cmd.run_pure_iff.1 h₂
      exact hs
    cases hr
    simp only [if_true] at h₂
    rw [Cmd.run_modify_bind] at h₂
    refine HeadOpen.commitInputsLoop n _ r s' ⟨?_, ?_⟩ h₂
    · obtain ⟨a', ha', hh, -⟩ := s.placeInput_append a (a.tailInputIdx - 1) d
      exact ⟨_, DecodeState.advanceTail_append ha', hh⟩
    · obtain ⟨-, e, he, ho⟩ := hs
      refine ⟨e, ?_, ho⟩
      have hne : a.tailInputIdx - 1 ≠ a.headInputIdx := by
        intro heq
        rw [heq, he] at hd
        cases hd
        rw [hc] at ho
        cases ho
      change (s.placeInput a (a.tailInputIdx - 1) d).inputs[_]? = _
      rw [DecodeState.placeInput_inputs, List.getElem?_set_ne hne]
      exact he

theorem HeadOpen.commitInputs {h : Nat} : Cmd.Preserves (HeadOpen h) commitInputs := by
  refine Cmd.Preserves.bind Cmd.Preserves.get fun s => ?_
  refine Cmd.Preserves.bind (Cmd.Preserves.expect _) fun a => ?_
  exact HeadOpen.commitInputsLoop _

/-- As `Idle`, but an open stream that is next in order may hold a part of the output. -/
structure Guarded (opened : List Nat) (s : DecodeState) : Prop where
  loans : ∀ (i : Nat) (d : InputData), s.inputs[i]? = some (some d) → d.writeCommitted = false →
    i ∈ opened ∧ ∀ offset, d.buffer = .output offset →
      ∃ a, s.append = some a ∧ a.headInputIdx = i
  commits : ∀ t ∈ s.tailCommits, t.lent = []

theorem Idle.guarded (h : Idle opened s) :
    Guarded opened s := by
  refine ⟨fun i d hd hopen => ?_, h.commits⟩
  obtain ⟨hi, content, hown⟩ := h.own i d hd hopen
  refine ⟨hi, fun offset hout => ?_⟩
  rw [hown] at hout
  cases hout

theorem Idle.mono {opened opened' : List Nat} (h : Idle opened s)
    (hsub : ∀ i ∈ opened, i ∈ opened') : Idle opened' s :=
  ⟨fun i d hd hopen => ⟨hsub i (h.own i d hd hopen).1, (h.own i d hd hopen).2⟩, h.commits⟩

theorem DecodeState.getElem?_setInput {idx i : Nat} {d e : InputData}
    (h : (s.setInput idx d).inputs[i]? = some (some e)) :
    i = idx ∧ e = d ∨ i ≠ idx ∧ s.inputs[i]? = some (some e) := by
  unfold DecodeState.setInput at h
  dsimp only at h
  by_cases hi : idx = i
  · subst hi
    rw [List.getElem?_set] at h
    simp only [if_true] at h
    split at h
    · cases h
      exact Or.inl ⟨rfl, rfl⟩
    · cases h
  · rw [List.getElem?_set_ne hi] at h
    exact Or.inr ⟨fun heq => hi heq.symm, h⟩

theorem Guarded.setInput (h : Guarded opened s) {idx : Nat} {d : InputData} (hidx : idx ∈ opened)
    (hd : d.writeCommitted = false → ∃ content, d.buffer = .own content) :
    Guarded opened (s.setInput idx d) := by
  refine ⟨fun i e he hopen => ?_, h.commits⟩
  rcases DecodeState.getElem?_setInput he with ⟨rfl, rfl⟩ | ⟨-, he⟩
  · refine ⟨hidx, fun offset hout => ?_⟩
    obtain ⟨content, hown⟩ := hd hopen
    rw [hown] at hout
    cases hout
  · exact h.loans i e he hopen

theorem Guarded.idle_setInput (h : Guarded opened s) {a : AppendToOutput} (ha : s.append = some a)
    {idx : Nat} (hidx : idx ∈ opened) (hhead : idx = a.headInputIdx) {d : InputData}
    (hd : ∃ content, d.buffer = .own content) :
    Idle opened (s.setInput idx d) := by
  refine ⟨fun i e he hopen => ?_, h.commits⟩
  rcases DecodeState.getElem?_setInput he with ⟨rfl, rfl⟩ | ⟨hne, he⟩
  · exact ⟨hidx, hd⟩
  · obtain ⟨hi, hloan⟩ := h.loans i e he hopen
    refine ⟨hi, ?_⟩
    cases hbuf : e.buffer with
    | own content => exact ⟨content, rfl⟩
    | output offset =>
      obtain ⟨a', ha', heq⟩ := hloan offset hbuf
      rw [ha] at ha'
      cases ha'
      exact absurd (heq.symm.trans hhead.symm) hne

theorem Guarded.newStreamHook {s s' : DecodeState} {a : AppendToOutput}
    {idx eltWidth eltsCapacity : Nat} {type : DataType} {r : Except ErrorCode Bool}
    (hs : Guarded opened s) (hidx : idx ∈ opened)
    (hidle : idx = a.headInputIdx → Idle opened s ∧ HeadOpen idx s)
    (h : newStreamHook a idx type eltWidth eltsCapacity s = some (r, s')) : Guarded opened s' := by
  unfold Decompress.newStreamHook at h
  rcases Cmd.run_failWhen_bind_some h with ⟨-, -, rfl⟩ | ⟨-, h₁⟩
  · exact hs
  rcases Cmd.run_failWhen_bind_some h₁ with ⟨-, -, rfl⟩ | ⟨-, h₂⟩
  · exact hs
  split at h₂
  · obtain ⟨-, rfl⟩ := Cmd.run_pure_iff.1 h₂
    exact hs
  rename_i hhead
  obtain ⟨hi, hopen⟩ := hidle (by simpa using hhead)
  rcases Cmd.run_bind_some h₂ with ⟨e, hc, -⟩ | ⟨_, t, hc, h₃⟩
  · exact (Idle.commitInputs _ _ _ hi hc).guarded
  have hit := Idle.commitInputs _ _ _ hi hc
  have hopent := HeadOpen.commitInputs _ _ _ hopen hc
  rcases Cmd.run_failWhen_bind_some h₃ with ⟨-, -, rfl⟩ | ⟨-, h₄⟩
  · exact hit.guarded
  rw [Cmd.run_get_bind] at h₄
  obtain ⟨a', ha', h₅⟩ := Cmd.run_expect_bind.1 h₄
  split at h₅
  · obtain ⟨-, rfl⟩ := Cmd.run_pure_iff.1 h₅
    exact hit.guarded
  rcases Cmd.run_failWhen_bind_some h₅ with ⟨-, -, rfl⟩ | ⟨-, h₆⟩
  · exact hit.guarded
  rw [Cmd.run_modify_bind] at h₆
  obtain ⟨-, rfl⟩ := Cmd.run_pure_iff.1 h₆
  refine ⟨fun i e he ho => ?_, hit.commits⟩
  rcases DecodeState.getElem?_setInput he with ⟨rfl, rfl⟩ | ⟨-, he⟩
  · obtain ⟨⟨a'', ha'', hh⟩, -⟩ := hopent
    exact ⟨hidx, fun _ _ => ⟨a'', ha'', hh⟩⟩
  · exact hit.guarded.loans i e he ho

theorem Guarded.newStream {idx : Nat} (hidx : idx ∈ opened) (type : DataType)
    (eltWidth eltsCapacity : Nat) :
    Cmd.Preserves (Guarded opened) (newStream idx type eltWidth eltsCapacity) := by
  intro s r s' hs h
  unfold Decompress.newStream at h
  rcases Cmd.run_failWhen_bind_some h with ⟨-, -, rfl⟩ | ⟨-, h₁⟩
  · exact hs
  rcases Cmd.run_failWhen_bind_some h₁ with ⟨-, -, rfl⟩ | ⟨-, h₂⟩
  · exact hs
  rw [Cmd.run_get_bind] at h₂
  obtain ⟨slot, hslot, h₃⟩ := Cmd.run_expect_bind.1 h₂
  obtain ⟨_, -, h₄⟩ := Cmd.run_expect_bind.1 h₃
  rw [Cmd.run_modify_bind] at h₄
  have hfresh := hs.setInput hidx (d := .empty type eltWidth 0 (.own [])) fun _ => ⟨[], rfl⟩
  have hattach : ∀ {q t}, tryAttach s.append idx type eltWidth eltsCapacity
      (s.setInput idx (.empty type eltWidth 0 (.own []))) = some (q, t) → Guarded opened t := by
    intro q t ht
    cases ha : s.append with
    | none =>
      rw [ha] at ht
      obtain ⟨-, rfl⟩ := Cmd.run_pure_iff.1 ht
      exact hfresh
    | some a =>
      rw [ha] at ht
      obtain ⟨q', t', hook, ht'⟩ := Cmd.run_attempt_bind.1 ht
      have hg : Guarded opened t' := by
        refine hfresh.newStreamHook hidx (fun hhead => ⟨?_, ⟨a, ha, hhead.symm⟩, ?_⟩) hook
        · exact hs.idle_setInput ha hidx hhead ⟨[], rfl⟩
        · have hlt := (List.getElem?_eq_some_iff.1 hslot).1
          exact ⟨_, List.getElem?_set_self hlt, rfl⟩
      cases q' with
      | error e =>
        obtain ⟨-, rfl⟩ := Prod.mk.inj (Option.some.inj ht')
        exact hg
      | ok attached =>
        obtain ⟨-, rfl⟩ := Cmd.run_pure_iff.1 ht'
        exact hg
  rcases Cmd.run_bind_some h₄ with ⟨e, ht, -⟩ | ⟨attached, t, ht, h₅⟩
  · exact hattach ht
  have hg := hattach ht
  split at h₅
  · obtain ⟨-, rfl⟩ := Cmd.run_pure_iff.1 h₅
    exact hg
  rcases Cmd.run_failWhen_bind_some h₅ with ⟨-, -, rfl⟩ | ⟨-, h₆⟩
  · exact hg
  · obtain ⟨-, rfl⟩ := Prod.mk.inj (Option.some.inj h₆)
    exact hg.setInput hidx fun _ => ⟨[], rfl⟩

theorem Guarded.action {idx : Nat} (hidx : idx ∈ opened) (type : DataType) (a : Action) :
    Cmd.Preserves (Guarded opened) (a.run idx type) := by
  cases a with
  | create index eltWidth eltsCapacity => exact Guarded.newStream hidx _ _ _
  | reference index eltWidth content =>
    refine Cmd.Preserves.bind Cmd.Preserves.get fun s => ?_
    refine Cmd.Preserves.bind (Cmd.Preserves.expect _) fun slot => ?_
    refine Cmd.Preserves.bind (Cmd.Preserves.expect _) fun _ => ?_
    refine Cmd.Preserves.bind (Cmd.Preserves.failWhen _) fun _ => ?_
    exact Cmd.Preserves.modify fun s hs => hs.setInput hidx fun hc => by cases hc
  | commit index content scratch =>
    refine Cmd.Preserves.bind Cmd.Preserves.get fun s => ?_
    refine Cmd.Preserves.bind (Cmd.Preserves.expect _) fun slot => ?_
    refine Cmd.Preserves.bind (Cmd.Preserves.expect _) fun input => ?_
    refine Cmd.Preserves.bind (Cmd.Preserves.expect _) fun _ => ?_
    refine Cmd.Preserves.modify fun s hs => ?_
    have hset := hs.setInput hidx (d := input.commit content) fun hc => by cases hc
    exact ⟨hset.loans, hset.commits⟩

theorem Guarded.runAction {p : Producer} (a : Action) :
    Cmd.Preserves (Guarded p.inputs) (runAction p.regens a) := by
  unfold Decompress.runAction
  split
  · exact Cmd.Preserves.fail _
  · exact Cmd.Preserves.pure ()
  · rename_i idx type h
    exact Guarded.action (List.mem_filterMap.2 ⟨_, List.mem_of_getElem? h, rfl⟩) type a

theorem forEach_validateOutput {s s' : DecodeState} :
    ∀ {idxs : List Nat}, Cmd.forEach validateOutput idxs s = some (r, s') →
    s' = s ∧ (r = .ok () → ∀ i ∈ idxs, s.Ready i)
  | [], h => by
    obtain ⟨-, rfl⟩ := Cmd.run_pure_iff.1 h
    exact ⟨rfl, by simp⟩
  | idx :: idxs, h => by
    have hone : ∀ {q t}, validateOutput idx s = some (q, t) →
        t = s ∧ (q = .ok () → s.Ready idx) := by
      intro q t hq
      rw [validateOutput, Cmd.run_get_bind] at hq
      cases hd : s.inputs[idx]?.join with
      | none =>
        rw [hd] at hq
        obtain ⟨rfl, rfl⟩ := Prod.mk.inj (Option.some.inj hq)
        exact ⟨rfl, fun hr => by cases hr⟩
      | some d =>
        rw [hd] at hq
        obtain ⟨_, hc, -, rfl⟩ := Cmd.run_expect hq
        refine ⟨rfl, fun _ => ⟨d, Option.join_eq_some_iff.1 hd, ?_⟩⟩
        by_contra hopen
        rw [if_neg hopen] at hc
        cases hc
    rcases Cmd.run_bind_some h with ⟨e, he, rfl⟩ | ⟨_, t, ht, hrest⟩
    · exact ⟨(hone he).1, fun hr => by cases hr⟩
    · obtain ⟨rfl, hready⟩ := hone ht
      obtain ⟨rfl, hrec⟩ := forEach_validateOutput hrest
      refine ⟨rfl, fun hr i hi => ?_⟩
      rcases List.mem_cons.1 hi with rfl | hi
      · exact hready rfl
      · exact hrec hr i hi

theorem Guarded.idle (h : Guarded opened s) (hready : ∀ i ∈ opened, s.Ready i) : Idle [] s := by
  refine ⟨fun i d hd hopen => ?_, h.commits⟩
  obtain ⟨e, he, hc⟩ := hready i (h.loans i d hd hopen).1
  rw [hd] at he
  cases he
  rw [hopen] at hc
  cases hc

theorem Idle.preTransformHook (p : Producer) :
    Cmd.Preserves (Idle opened) (preTransformHook p) := by
  refine Cmd.Preserves.bind Cmd.Preserves.get fun s => ?_
  split
  · exact Idle.commitInputs
  · exact Cmd.Preserves.pure ()

theorem Guarded.expectFree (idx : Nat) :
    Cmd.Preserves (Guarded opened) (expectFree idx) :=
  Cmd.Preserves.bind Cmd.Preserves.get fun _ => Cmd.Preserves.expect _

theorem runProducer_guarded {p : Producer} {s s' : DecodeState} (hs : Idle [] s)
    (h : runProducer p s = some (r, s')) :
    (∀ t ∈ s'.tailCommits, t.lent = []) ∧ (r = .ok () → Idle [] s') := by
  rcases Cmd.run_bind_some h with ⟨e, he, rfl⟩ | ⟨_, s₁, hhook, h₁⟩
  · exact ⟨(Idle.preTransformHook p _ _ _ hs he).commits, fun hr => by cases hr⟩
  have hg₁ : Guarded p.inputs s₁ :=
    ((Idle.preTransformHook p _ _ _ hs hhook).mono (by simp)).guarded
  have hfree : Cmd.Preserves (Guarded p.inputs) (Cmd.forEach expectFree p.inputs) :=
    Cmd.Preserves.forEach fun i _ => Guarded.expectFree i
  have hacts : Cmd.Preserves (Guarded p.inputs) (Cmd.forEach (runAction p.regens) p.actions) :=
    Cmd.Preserves.forEach fun a _ => Guarded.runAction a
  rcases Cmd.run_bind_some h₁ with ⟨e, he, rfl⟩ | ⟨_, s₂, hf, h₂⟩
  · exact ⟨(hfree _ _ _ hg₁ he).commits, fun hr => by cases hr⟩
  have hg₂ := hfree _ _ _ hg₁ hf
  rcases Cmd.run_bind_some h₂ with ⟨e, he, rfl⟩ | ⟨_, s₃, ha, h₃⟩
  · exact ⟨(hacts _ _ _ hg₂ he).commits, fun hr => by cases hr⟩
  have hg₃ := hacts _ _ _ hg₂ ha
  cases hres : p.result with
  | error e =>
    rw [hres] at h₃
    obtain ⟨rfl, rfl⟩ := Prod.mk.inj (Option.some.inj h₃)
    exact ⟨hg₃.commits, fun hr => by cases hr⟩
  | ok u =>
    rw [hres] at h₃
    obtain ⟨rfl, hready⟩ := forEach_validateOutput h₃
    exact ⟨hg₃.commits, fun hr => hg₃.idle (hready hr)⟩

theorem runProducers_guarded {s' : DecodeState} :
    ∀ {producers : List Producer} {s : DecodeState}, Idle [] s →
    Cmd.forEach runProducer producers s = some (r, s') →
    (∀ t ∈ s'.tailCommits, t.lent = []) ∧ (r = .ok () → Idle [] s')
  | [], s, hs, h => by
    obtain ⟨-, rfl⟩ := Cmd.run_pure_iff.1 h
    exact ⟨hs.commits, fun _ => hs⟩
  | p :: producers, s, hs, h => by
    rcases Cmd.run_bind_some h with ⟨e, he, rfl⟩ | ⟨_, t, ht, hrest⟩
    · exact ⟨(runProducer_guarded hs he).1, fun hr => by cases hr⟩
    · exact runProducers_guarded ((runProducer_guarded hs ht).2 rfl) hrest

theorem Idle.register {output : List UInt8} {outputUsed : Nat}
    {stored : List (Option (List UInt8))} :
    Idle [] (DecodeState.plain output outputUsed stored).register := by
  refine ⟨fun i d hd hopen => ?_, by simp [DecodeState.register, DecodeState.plain]⟩
  obtain ⟨slot, -, hslot⟩ := List.mem_map.1 (List.mem_of_getElem? hd)
  cases slot with
  | none => cases hslot
  | some content =>
    cases hslot
    cases hopen

/-- **In every run, no part of the output is lent to an open stream when an input is committed at
the tail.** -/
theorem runChunk_guarded {decoder : Concat} {producers : List Producer} {output : List UInt8}
    {outputUsed : Nat} {stored : List (Option (List UInt8))} (h : runChunk decoder producers
      (DecodeState.plain output outputUsed stored).register = some (r, s)) :
    ∀ t ∈ s.tailCommits, t.lent = [] := by
  rcases Cmd.run_bind_some h with ⟨e, he, rfl⟩ | ⟨_, t, ht, h₁⟩
  · exact (runProducers_guarded Idle.register he).1
  have hidle := (runProducers_guarded Idle.register ht).2 rfl
  have hconcat : Cmd.Preserves (Idle []) (runConcat decoder) := by
    refine Cmd.Preserves.bind Cmd.Preserves.get fun s => ?_
    split
    · refine Cmd.Preserves.bind Cmd.Preserves.get fun s => ?_
      refine Cmd.Preserves.bind (Cmd.Preserves.expect _) fun inputs => ?_
      refine Cmd.Preserves.bind (Cmd.Preserves.failWhen _) fun _ => ?_
      refine Cmd.Preserves.bind (Cmd.Preserves.failWhen _) fun _ => ?_
      refine Cmd.Preserves.bind (Cmd.Preserves.failWhen _) fun _ => ?_
      exact Cmd.Preserves.modify fun s hs => ⟨hs.own, hs.commits⟩
    · refine Cmd.Preserves.bind Idle.commitInputs fun _ => ?_
      refine Cmd.Preserves.bind Cmd.Preserves.get fun s => ?_
      refine Cmd.Preserves.bind (Cmd.Preserves.expect _) fun a => ?_
      refine Cmd.Preserves.bind (Cmd.Preserves.failWhen _) fun _ => ?_
      refine Cmd.Preserves.bind (Cmd.Preserves.failWhen _) fun _ => ?_
      exact Cmd.Preserves.modify fun s hs => ⟨hs.own, hs.commits⟩
  exact (hconcat _ _ _ hidle h₁).commits

end OpenZL.Decompress
