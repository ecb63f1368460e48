import OpenZL.Decompress.AppendCommit

/-!
# The optimisation against the plain decoder

The plain decoder keeps every input in a buffer of its own until the concatenation runs.  A state
of the optimisation stands for a plain one when it holds the inputs it has moved, and the others
are alike but for the place of their buffers.

Principal results: `Simulates.create`, `Simulates.commit`, `Simulates.action`.
-/

namespace OpenZL.Decompress

open OpenZL.Lib

/-! ## Plain steps -/

/-- Every input that is there has a buffer of its own. -/
structure Plain (p : DecodeState) : Prop where
  append_eq : p.append = none
  own : ∀ (i : Nat) (d : InputData), p.inputs[i]? = some (some d) → ∃ content,
    d.buffer = .own content ∧ content.length = d.bufferUsed ∧ d.bufferUsed ≤ d.bufferCapacity

/-- The contents of the inputs, empty for those that are not there yet. -/
def DecodeState.contents (p : DecodeState) : List (List UInt8) :=
  p.inputs.map fun slot => slot.elim [] (·.content [])

theorem newStream_plain {p p' : DecodeState} (hp : p.append = none) {idx w n : Nat}
    (h : newStream idx type w n p = some (.ok (), p')) :
    p.inputs[idx]? = some none ∧ w * n < 2 ^ 64 ∧ w ≠ 0 ∧ validTypeWidth type w = true ∧
      p' = p.setInput idx (.empty type w (w * n) (.own [])) := by
  obtain ⟨hlt, h₁⟩ := Cmd.run_failWhen_bind_ok.1 h
  obtain ⟨hw, h₂⟩ := Cmd.run_failWhen_bind_ok.1 h₁
  rw [Cmd.run_get_bind] at h₂
  obtain ⟨slot, hslot, h₃⟩ := Cmd.run_expect_bind.1 h₂
  obtain ⟨_, hnone, h₄⟩ := Cmd.run_expect_bind.1 h₃
  have hslot' : slot = none := by
    cases slot with
    | none => rfl
    | some d => cases hnone
  rw [Cmd.run_modify_bind, hp] at h₄
  obtain ⟨hv, h₅⟩ := Cmd.run_failWhen_bind_ok.1 h₄
  obtain ⟨-, rfl⟩ := Prod.mk.inj (Option.some.inj h₅)
  refine ⟨hslot' ▸ hslot, by omega, hw, by simpa using hv, ?_⟩
  simp [DecodeState.setInput]

theorem newStreamFromRef_ok {s s' : DecodeState} {idx w : Nat} {content : List UInt8} :
    newStreamFromRef idx type w content s = some (.ok (), s') ↔
      s.inputs[idx]? = some none ∧ content.length % w = 0 ∧ validTypeWidth type w = true ∧
      s' = s.setInput idx ⟨type, w, content.length, .own content, content.length, true⟩ := by
  rw [newStreamFromRef, Cmd.run_get_bind]
  constructor
  · intro h
    obtain ⟨slot, hslot, h₁⟩ := Cmd.run_expect_bind.1 h
    obtain ⟨_, hnone, h₂⟩ := Cmd.run_expect_bind.1 h₁
    split at hnone
    · rename_i hc
      obtain ⟨hv, h₃⟩ := Cmd.run_failWhen_bind_ok.1 h₂
      obtain ⟨-, rfl⟩ := Prod.mk.inj (Option.some.inj h₃)
      cases slot with
      | none => exact ⟨hslot, hc.2, by simpa using hv, rfl⟩
      | some d => exact absurd hc.1 (by simp)
    · cases hnone
  · rintro ⟨hslot, hmod, hv, rfl⟩
    refine Cmd.run_expect_bind.2 ⟨none, hslot, Cmd.run_expect_bind.2 ⟨(), ?_, ?_⟩⟩
    · exact if_pos ⟨rfl, hmod⟩
    · exact Cmd.run_failWhen_bind_ok.2 ⟨by simp [hv], rfl⟩

/-- The state after a commit. -/
def DecodeState.commitTo (s : DecodeState) (idx : Nat) (d : InputData)
    (content scratch : List UInt8) : DecodeState :=
  { s.setInput idx (d.commit content) with
    output := d.writeOutput s.output (content ++ scratch) }

theorem commitStream_ok {s s' : DecodeState} {content scratch : List UInt8}
    {r : Except ErrorCode Unit} : commitStream idx content scratch s = some (r, s') ↔
      r = .ok () ∧ ∃ d, s.inputs[idx]? = some (some d) ∧
        d.bufferUsed + (content ++ scratch).length ≤ d.bufferCapacity ∧
        content.length % d.eltWidth = 0 ∧ s' = s.commitTo idx d content scratch := by
  rw [commitStream, Cmd.run_get_bind]
  constructor
  · intro h
    obtain ⟨slot, hslot, h₁⟩ := Cmd.run_expect_bind.1 h
    obtain ⟨d, rfl, h₂⟩ := Cmd.run_expect_bind.1 h₁
    obtain ⟨_, hc, h₃⟩ := Cmd.run_expect_bind.1 h₂
    split at hc
    · rename_i hle
      obtain ⟨rfl, rfl⟩ := Prod.mk.inj (Option.some.inj h₃)
      exact ⟨rfl, d, hslot, hle.1, hle.2, rfl⟩
    · cases hc
  · rintro ⟨rfl, d, hslot, hle, hmod, rfl⟩
    refine Cmd.run_expect_bind.2 ⟨_, hslot, Cmd.run_expect_bind.2 ⟨d, rfl, ?_⟩⟩
    exact Cmd.run_expect_bind.2 ⟨(), if_pos ⟨hle, hmod⟩, rfl⟩

/-- What an action does to a plain state: it replaces one input, which keeps its type and what it
holds. -/
structure PlainStep (p p' : DecodeState) (idx : Nat) (d : InputData) : Prop where
  eq : p' = p.setInput idx d
  lt : idx < p.inputs.length
  own : ∃ content, d.buffer = .own content ∧ content.length = d.bufferUsed ∧
    d.bufferUsed ≤ d.bufferCapacity
  type_eq : ∀ e, p.inputs[idx]? = some (some e) → d.type = e.type
  content_le : ∀ c, p.contents[idx]? = some c → c.length ≤ (d.content []).length

theorem DecodeState.contents_none {p : DecodeState} {idx : Nat} {c : List UInt8}
    (h : p.inputs[idx]? = some none) (hc : p.contents[idx]? = some c) : c = [] := by
  rw [DecodeState.contents, List.getElem?_map, h] at hc
  exact (Option.some.inj hc).symm

theorem DecodeState.contents_some {p : DecodeState} {idx : Nat}
    (h : p.inputs[idx]? = some (some d)) : p.contents[idx]? = some (d.content []) := by
  rw [DecodeState.contents, List.getElem?_map, h]
  rfl

theorem PlainStep.create {p : DecodeState} {idx : Nat} (hslot : p.inputs[idx]? = some none)
    (hown : ∃ content, d.buffer = .own content ∧ content.length = d.bufferUsed ∧
      d.bufferUsed ≤ d.bufferCapacity) : PlainStep p (p.setInput idx d) idx d := by
  refine ⟨rfl, (List.getElem?_eq_some_iff.1 hslot).1, hown, fun e he => ?_, fun c hc => ?_⟩
  · rw [hslot] at he
    cases he
  · rw [DecodeState.contents_none hslot hc]
    exact Nat.zero_le _

theorem InputData.commit_own {d : InputData} {old : List UInt8} (h : d.buffer = .own old)
    (content : List UInt8) : (d.commit content).buffer = .own (old ++ content) := by
  simp [InputData.commit, h]

theorem PlainStep.commit {p : DecodeState} (hp : Plain p) {idx : Nat} {d : InputData}
    (hslot : p.inputs[idx]? = some (some d)) {content scratch : List UInt8}
    (hle : d.bufferUsed + (content ++ scratch).length ≤ d.bufferCapacity) :
    PlainStep p (p.commitTo idx d content scratch) idx (d.commit content) := by
  obtain ⟨old, hold, hlen, -⟩ := hp.own idx d hslot
  have hbuf := InputData.commit_own hold content
  refine ⟨?_, (List.getElem?_eq_some_iff.1 hslot).1, ⟨old ++ content, hbuf, ?_, ?_⟩, ?_, ?_⟩
  · simp [DecodeState.commitTo, InputData.writeOutput, hold, DecodeState.setInput]
  · rw [List.length_append, hlen]
    rfl
  · rw [List.length_append] at hle
    change d.bufferUsed + content.length ≤ d.bufferCapacity
    omega
  · intro e he
    rw [hslot] at he
    cases he
    rfl
  · intro c hc
    rw [DecodeState.contents_some hslot] at hc
    rw [← Option.some.inj hc, InputData.content_own hold, InputData.content_own hbuf]
    simp

theorem Plain.action {p p' : DecodeState} (hp : Plain p) {idx : Nat} {type : DataType}
    {act : Action} (h : act.run idx type p = some (.ok (), p')) : ∃ d, PlainStep p p' idx d := by
  cases act with
  | create index w n =>
    obtain ⟨hslot, -, -, -, rfl⟩ := newStream_plain hp.append_eq h
    exact ⟨_, PlainStep.create hslot ⟨[], rfl, rfl, Nat.zero_le _⟩⟩
  | reference index w content =>
    obtain ⟨hslot, -, -, rfl⟩ := newStreamFromRef_ok.1 h
    exact ⟨_, PlainStep.create hslot ⟨content, rfl, rfl, Nat.le_refl _⟩⟩
  | commit index content scratch =>
    obtain ⟨-, d, hslot, hle, -, rfl⟩ := commitStream_ok.1 h
    exact ⟨_, PlainStep.commit hp hslot hle⟩

theorem DecodeState.contents_setInput (p : DecodeState) (idx : Nat) (d : InputData) :
    (p.setInput idx d).contents = p.contents.set idx (d.content []) := by
  simp [DecodeState.contents, DecodeState.setInput, List.map_set]

theorem length_flatten_le_set {l : List (List UInt8)} {i : Nat} {c : List UInt8}
    (h : ∀ c₀, l[i]? = some c₀ → c₀.length ≤ c.length) :
    l.flatten.length ≤ (l.set i c).flatten.length := by
  induction l generalizing i with
  | nil => simp
  | cons x xs ih =>
    cases i with
    | zero =>
      have := h x rfl
      simp only [List.set_cons_zero, List.flatten_cons, List.length_append]
      omega
    | succ i =>
      have := ih (i := i) fun c₀ hc₀ => h c₀ (by simpa using hc₀)
      simp only [List.set_cons_succ, List.flatten_cons, List.length_append]
      omega

/-- What the concatenation checks, of the inputs that are there. -/
structure Concat.Accepts (decoder : Concat) (p : DecodeState) : Prop where
  type_eq : ∀ (i : Nat) (d : InputData), p.inputs[i]? = some (some d) → d.type = decoder.inputType
  size_le : p.contents.flatten.length ≤ p.output.length - p.outputUsed

theorem PlainStep.plain {p p' : DecodeState} (h : PlainStep p p' idx d) (hp : Plain p) :
    Plain p' := by
  obtain ⟨rfl, -, hown, -, -⟩ := h
  refine ⟨hp.append_eq, fun i e he => ?_⟩
  rcases DecodeState.getElem?_setInput he with ⟨-, rfl⟩ | ⟨-, he⟩
  · exact hown
  · exact hp.own i e he

theorem PlainStep.accepts {decoder : Concat} {p p' : DecodeState} (h : PlainStep p p' idx d)
    (hok : decoder.Accepts p') : decoder.Accepts p := by
  obtain ⟨rfl, hlt, -, htype, hcontent⟩ := h
  constructor
  · intro i e he
    by_cases hi : i = idx
    · subst hi
      rw [← htype e he]
      exact hok.type_eq i d (List.getElem?_set_self hlt)
    · refine hok.type_eq i e ?_
      change (p.inputs.set idx (some d))[i]? = _
      rw [List.getElem?_set_ne (Ne.symm hi)]
      exact he
  · refine Nat.le_trans (length_flatten_le_set hcontent) ?_
    have hsize := hok.size_le
    rwa [DecodeState.contents_setInput] at hsize

theorem runAction_ok {s s' : DecodeState} {regens : List Regen} {act : Action} :
    runAction regens act s = some (.ok (), s') ↔
      (∃ type, regens[act.index]? = some ⟨none, type⟩ ∧ s' = s) ∨
      ∃ idx type, regens[act.index]? = some ⟨some idx, type⟩ ∧
        act.run idx type s = some (.ok (), s') := by
  unfold Decompress.runAction
  cases hregen : regens[act.index]? with
  | none => simp
  | some regen =>
    obtain ⟨input, type⟩ := regen
    cases input with
    | none =>
      have hpure : (pure () : DecodeM Unit) s = some (.ok (), s') ↔ s' = s :=
        Cmd.run_pure_iff.trans (by simp)
      simpa using hpure
    | some idx => simp

theorem Plain.runAction {p p' : DecodeState} (hp : Plain p) {regens : List Regen} {act : Action}
    (h : runAction regens act p = some (.ok (), p')) : Plain p' := by
  rcases runAction_ok.1 h with ⟨-, -, rfl⟩ | ⟨idx, type, -, hact⟩
  · exact hp
  · obtain ⟨d, hstep⟩ := hp.action hact
    exact hstep.plain hp

theorem Concat.Accepts.of_runAction {decoder : Concat} {p p' : DecodeState}
    (hok : decoder.Accepts p') (hp : Plain p) {regens : List Regen} {act : Action}
    (h : Decompress.runAction regens act p = some (.ok (), p')) : decoder.Accepts p := by
  rcases runAction_ok.1 h with ⟨-, -, rfl⟩ | ⟨idx, type, -, hact⟩
  · exact hok
  · obtain ⟨d, hstep⟩ := hp.action hact
    exact hstep.accepts hok

theorem Plain.runActions {regens : List Regen} {p' : DecodeState} : ∀ {acts : List Action}
    {p : DecodeState}, Plain p →
    Cmd.forEach (Decompress.runAction regens) acts p = some (.ok (), p') → Plain p'
  | [], p, hp, h => by
    obtain ⟨-, rfl⟩ := Cmd.run_pure_iff.1 h
    exact hp
  | act :: acts, p, hp, h => by
    obtain ⟨_, p₁, h₁, h₂⟩ := Cmd.run_bind_ok.1 h
    exact Plain.runActions (hp.runAction h₁) h₂

theorem Concat.Accepts.of_runActions {decoder : Concat} {regens : List Regen} {p' : DecodeState}
    (hok : decoder.Accepts p') : ∀ {acts : List Action} {p : DecodeState}, Plain p →
    Cmd.forEach (Decompress.runAction regens) acts p = some (.ok (), p') → decoder.Accepts p
  | [], p, hp, h => by
    obtain ⟨-, rfl⟩ := Cmd.run_pure_iff.1 h
    exact hok
  | act :: acts, p, hp, h => by
    obtain ⟨_, p₁, h₁, h₂⟩ := Cmd.run_bind_ok.1 h
    exact (hok.of_runActions (hp.runAction h₁) h₂).of_runAction hp h₁

/-! ## Simulation -/

/-- `s`, with the optimisation in state `a`, stands for the plain state `p`. -/
structure Simulates (p s : DecodeState) (a : AppendToOutput) : Prop where
  holds : Holds p.contents s a
  plain : Plain p
  kept : Kept p s
  twin : ∀ i, a.headInputIdx ≤ i → i < a.tailInputIdx → ∃ buffer,
    s.inputs[i]? = p.inputs[i]?.map (Option.map fun d => { d with buffer })
  moved : ∀ i < p.inputs.length, i < a.headInputIdx ∨ a.tailInputIdx ≤ i → p.Ready i

variable {decoder : Concat} {p p' s s' : DecodeState} {a a' : AppendToOutput} {type : DataType}
  {idx : Nat} {d : InputData}

section

variable (h : Simulates p s a)

include h

theorem Simulates.length_eq : s.inputs.length = p.inputs.length := by
  rw [h.holds.length_eq]
  simp [DecodeState.contents]

theorem Simulates.fits (hok : decoder.Accepts p) :
    p.contents.flatten.length ≤ s.output.length - s.outputUsed := by
  rw [h.kept.length_eq, h.kept.outputUsed_eq]
  exact hok.size_le

theorem Simulates.ready {i : Nat} (hr : s.Ready i) : p.Ready i := by
  obtain ⟨d, hd, hc⟩ := hr
  obtain ⟨hlo, hhi⟩ := h.holds.range hd
  obtain ⟨buffer, htwin⟩ := h.twin i hlo hhi
  rw [hd] at htwin
  cases hslot : p.inputs[i]? with
  | none =>
    rw [hslot] at htwin
    cases htwin
  | some slot =>
    cases slot with
    | none =>
      rw [hslot] at htwin
      cases htwin
    | some e =>
      rw [hslot] at htwin
      cases htwin
      exact ⟨e, hslot, hc⟩

theorem Simulates.slot {i : Nat} {e : InputData} (he : p.inputs[i]? = some (some e))
    (hlo : a.headInputIdx ≤ i) (hhi : i < a.tailInputIdx) :
    ∃ buffer, s.inputs[i]? = some (some { e with buffer }) := by
  obtain ⟨buffer, htwin⟩ := h.twin i hlo hhi
  rw [he] at htwin
  exact ⟨buffer, htwin⟩

theorem Simulates.free {i : Nat} (hi : p.inputs[i]? = some none) :
    a.headInputIdx ≤ i ∧ i < a.tailInputIdx ∧ s.inputs[i]? = some none := by
  have hlt := (List.getElem?_eq_some_iff.1 hi).1
  have hrange : a.headInputIdx ≤ i ∧ i < a.tailInputIdx := by
    by_contra hout
    obtain ⟨d, hd, -⟩ := h.moved i hlt (by omega)
    rw [hi] at hd
    cases hd
  obtain ⟨buffer, htwin⟩ := h.twin i hrange.1 hrange.2
  rw [hi] at htwin
  exact ⟨hrange.1, hrange.2, htwin⟩

theorem Simulates.commitInputs (hok : decoder.Accepts p) (hlent : s.lent = []) :
    ∃ s' a', commitInputs s = some (.ok (), s') ∧ Simulates p s' a' ∧
      Moved p.contents s s' a a' := by
  obtain ⟨s', a', hrun, hm⟩ := h.holds.commitInputs (h.fits hok) hlent
  refine ⟨s', a', hrun, ⟨hm.holds, h.plain, h.kept.trans hm.kept, ?_, ?_⟩, hm⟩
  · intro i hlo hhi
    have h₁ := hm.head_le
    have h₂ := hm.tail_le
    obtain ⟨buffer, htwin⟩ := h.twin i (by omega) (by omega)
    exact ⟨buffer, (hm.slots i hlo hhi).trans htwin⟩
  · intro i hi hout
    by_cases hin : a.headInputIdx ≤ i ∧ i < a.tailInputIdx
    · exact h.ready (hm.ready i hin.1 hin.2 hout)
    · exact h.moved i hi (by omega)

variable (hstep : PlainStep p p' idx d) (hlo : a.headInputIdx ≤ idx) (hhi : idx < a.tailInputIdx)

include hstep hlo hhi

theorem Simulates.step {buffer : StreamBuffer} {output : List UInt8}
    (hlen : output.length = s.output.length) (hbefore : ∀ pos n, pos + n ≤ a.outputHead →
      Buffer.read output pos n = Buffer.read s.output pos n)
    (hafter : ∀ pos n, a.outputTail ≤ pos → Buffer.read output pos n = Buffer.read s.output pos n)
    (hsame : output = s.output ∨ idx = a.headInputIdx)
    (hcontent : InputData.content output { d with buffer } = d.content [])
    (hplace : (∃ content, buffer = .own content) ∨ buffer = .output a.outputHead ∧
      idx = a.headInputIdx ∧ a.outputHead + d.bufferCapacity ≤ a.outputTail) :
    Simulates p' { s.setInput idx { d with buffer } with output } a := by
  have hplain := hstep.plain h.plain
  obtain ⟨rfl, hlt, ⟨content, hown, hsize, hcap⟩, -, -⟩ := hstep
  have h₁ := h.holds
  have hbytes : d.content [] = content := InputData.content_own hown []
  have hltc : idx < p.contents.length := by rwa [DecodeState.contents, List.length_map]
  have hset : ∀ {i : Nat}, i ≠ idx → (s.setInput idx { d with buffer }).inputs[i]? =
      s.inputs[i]? := fun hi => List.getElem?_set_ne (Ne.symm hi)
  refine ⟨⟨h₁.append_eq, ?_, h₁.idx_le, ?_, h₁.used_le, h₁.head_le, ?_, ?_, ?_, ?_, ?_⟩, hplain,
    ?_, ?_, ?_⟩
  · simp only [DecodeState.setInput, DecodeState.contents, List.length_set, List.length_map]
    exact h.length_eq
  · rw [DecodeState.contents_setInput, List.length_set]
    exact h₁.idx_le_length
  · exact hlen ▸ h₁.tail_le
  · rw [DecodeState.contents_setInput, List.take_set_of_le hlo]
    exact (hbefore _ _ (by have := h₁.used_le; dsimp only [DecodeState.setInput]; omega)).trans
      h₁.head_eq
  · rw [DecodeState.contents_setInput, List.drop_set_of_lt hhi]
    change Buffer.read output a.outputTail (output.length - a.outputTail) = _
    rw [hafter _ _ (Nat.le_refl _), hlen]
    exact h₁.tail_eq
  · intro i hi hout
    rw [DecodeState.contents_setInput, List.length_set] at hi
    exact (hset (by omega)).trans (h₁.freed i hi hout)
  · intro i e he
    change (s.setInput idx { d with buffer }).inputs[i]? = _ at he
    rcases DecodeState.getElem?_setInput he with ⟨rfl, rfl⟩ | ⟨hne, he'⟩
    · refine ⟨?_, ?_, hcap, hplace⟩
      · rw [DecodeState.contents_setInput, List.getElem?_set_self hltc]
        exact congrArg some hcontent.symm
      · exact (congrArg List.length (hcontent.trans hbytes)).trans hsize
    · have hl := h₁.live i e he'
      have hsame' : e.content output = e.content s.output := by
        rcases hl.place with ⟨c, hc⟩ | ⟨-, hhead, -⟩
        · rw [InputData.content_own hc, InputData.content_own hc]
        · rw [hsame.resolve_right fun heq => hne (hhead.trans heq.symm)]
      refine ⟨?_, ?_, hl.size_le, hl.place⟩
      · rw [DecodeState.contents_setInput, List.getElem?_set_ne (Ne.symm hne)]
        exact hl.content_eq.trans (congrArg some hsame'.symm)
      · exact (congrArg List.length hsame').trans hl.size_eq
  · refine Kept.trans (s := p.setInput idx d) (t := s) ⟨h.kept.outputUsed_eq, h.kept.length_eq,
      h.kept.committed_eq⟩ (Kept.of_read rfl hlen (hbefore _ _ ?_))
    have := h₁.used_le
    omega
  · intro i hlo' hhi'
    by_cases hi : i = idx
    · subst hi
      refine ⟨buffer, ?_⟩
      change (s.inputs.set i _)[i]? = (p.inputs.set i _)[i]?.map _
      rw [List.getElem?_set_self (by rw [h.length_eq]; exact hlt), List.getElem?_set_self hlt]
      rfl
    · obtain ⟨b, htwin⟩ := h.twin i hlo' hhi'
      refine ⟨b, (hset hi).trans ?_⟩
      change _ = (p.inputs.set idx _)[i]?.map _
      rw [List.getElem?_set_ne (Ne.symm hi)]
      exact htwin
  · intro i hi hout
    refine (h.moved i (by simpa [DecodeState.setInput] using hi) hout).congr ?_
    exact List.getElem?_set_ne (by omega)

theorem Simulates.setInput : Simulates p' (s.setInput idx d) a := by
  obtain ⟨content, hown, -, -⟩ := hstep.own
  have hsim : Simulates p' { s.setInput idx { d with buffer := d.buffer } with
      output := s.output } a :=
    h.step hstep hlo hhi rfl (fun _ _ _ => rfl) (fun _ _ _ => rfl) (Or.inl rfl)
      (by rw [InputData.content_own hown, InputData.content_own hown]) (Or.inl ⟨content, hown⟩)
  exact hsim

end

/-! ## One step -/

/-- How an action on input `idx` moves the indices: not at all, or the tail down to the last input
that is not ready, when it creates the stream at the head. -/
structure Stepped (act : Action) (idx : Nat) (s : DecodeState) (a a' : AppendToOutput) : Prop where
  head_eq : a'.headInputIdx = a.headInputIdx
  tail_le : a'.tailInputIdx ≤ a.tailInputIdx
  create : a'.tailInputIdx < a.tailInputIdx →
    (∃ index w n, act = .create index w n) ∧ idx = a.headInputIdx
  ready : ∀ i, a'.tailInputIdx ≤ i → i < a.tailInputIdx → s.Ready i
  reaches : (∃ index w n, act = .create index w n) → idx = a.headInputIdx →
    ∀ j < a.tailInputIdx, (∀ i, j ≤ i → i < a.tailInputIdx → s.Ready i) → a'.tailInputIdx ≤ j

theorem Stepped.refl {act : Action}
    (h : ∀ index w n, act = .create index w n → idx ≠ a.headInputIdx) :
    Stepped act idx s a a := by
  refine ⟨rfl, Nat.le_refl _, fun hlt => absurd hlt (Nat.lt_irrefl _), fun i hlo hhi => ?_, ?_⟩
  · omega
  · rintro ⟨index, w, n, hact⟩ hidx
    exact absurd hidx (h index w n hact)

theorem not_ready_of_none {i : Nat} (h : s.inputs[i]? = some none) : ¬ s.Ready i := by
  rintro ⟨d, hd, -⟩
  rw [h] at hd
  cases hd

theorem DecodeState.setInput_setInput (s : DecodeState) (idx : Nat) (d e : InputData) :
    (s.setInput idx d).setInput idx e = s.setInput idx e := by
  simp [DecodeState.setInput]

theorem newStream_attach {idx w n : Nat} (hlt : w * n < 2 ^ 64) (hw : w ≠ 0)
    (hslot : s.inputs[idx]? = some none) {attached : Bool} {t : DecodeState}
    (h : tryAttach s.append idx type w n (s.setInput idx (.empty type w 0 (.own []))) =
      some (.ok attached, t)) (hv : validTypeWidth type w = true) :
    newStream idx type w n s = some (.ok (),
      if attached then t else t.setInput idx (.empty type w (w * n) (.own []))) := by
  refine Cmd.run_failWhen_bind_ok.2 ⟨by omega, Cmd.run_failWhen_bind_ok.2 ⟨hw, ?_⟩⟩
  rw [Cmd.run_get_bind]
  refine Cmd.run_expect_bind.2 ⟨none, hslot, Cmd.run_expect_bind.2 ⟨(), rfl, ?_⟩⟩
  rw [Cmd.run_modify_bind, Cmd.run_bind_of_ok h]
  cases attached with
  | true => rfl
  | false => exact Cmd.run_failWhen_bind_ok.2 ⟨by simp [hv], rfl⟩

theorem newStreamHook_other {idx w n : Nat} (hstring : ¬ type = .string)
    (hnumeric : ¬ type = .numeric) (hne : idx ≠ a.headInputIdx) :
    newStreamHook a idx type w n s = some (.ok false, s) := by
  unfold Decompress.newStreamHook
  rw [Cmd.run_bind_of_ok ((Cmd.run_failWhen_ok (u := ())).2 ⟨hstring, rfl⟩),
    Cmd.run_bind_of_ok ((Cmd.run_failWhen_ok (u := ())).2 ⟨hnumeric, rfl⟩), if_pos hne]
  rfl

theorem newStreamHook_head {idx w n : Nat} (hstring : ¬ type = .string)
    (hnumeric : ¬ type = .numeric) (hhead : idx = a.headInputIdx) (hlt : w * n < 2 ^ 64)
    (hv : validTypeWidth type w = true) {t : DecodeState}
    (hrun : Decompress.commitInputs s = some (.ok (), t)) (ht : t.append = some a') :
    newStreamHook a idx type w n s =
      if w * n > a'.outputTail - a'.outputHead then some (.ok false, t)
      else some (.ok true, t.setInput idx (.empty type w (w * n) (.output a'.outputHead))) := by
  unfold Decompress.newStreamHook
  rw [Cmd.run_bind_of_ok ((Cmd.run_failWhen_ok (u := ())).2 ⟨hstring, rfl⟩),
    Cmd.run_bind_of_ok ((Cmd.run_failWhen_ok (u := ())).2 ⟨hnumeric, rfl⟩),
    if_neg (by simpa using hhead), Cmd.run_bind_of_ok hrun,
    Cmd.run_bind_of_ok ((Cmd.run_failWhen_ok (u := ())).2 ⟨by omega, rfl⟩), Cmd.run_get_bind]
  split
  · refine Cmd.run_expect_bind.2 ⟨a', ht, ?_⟩
    rw [if_pos (by assumption)]
    rfl
  · refine Cmd.run_expect_bind.2 ⟨a', ht, ?_⟩
    rw [if_neg (by assumption)]
    rw [Cmd.run_bind_of_ok ((Cmd.run_failWhen_ok (u := ())).2 ⟨by simp [hv], rfl⟩)]
    rfl

theorem tryAttach_some {idx w n : Nat} {attached : Bool} {t : DecodeState}
    (h : newStreamHook a idx type w n s = some (.ok attached, t)) :
    tryAttach (some a) idx type w n s = some (.ok attached, t) :=
  Cmd.run_attempt_bind.2 ⟨_, t, h, rfl⟩

theorem PlainStep.reserve {idx w : Nat} (hidx : idx < p.inputs.length) (capacity capacity' : Nat) :
    PlainStep (p.setInput idx (.empty type w capacity (.own [])))
      (p.setInput idx (.empty type w capacity' (.own []))) idx (.empty type w capacity' (.own []))
    := by
  refine ⟨(DecodeState.setInput_setInput _ _ _ _).symm, ?_, ⟨[], rfl, rfl, Nat.zero_le _⟩,
    fun e he => ?_, fun c hc => ?_⟩
  · simpa [DecodeState.setInput] using hidx
  · rcases DecodeState.getElem?_setInput he with ⟨-, rfl⟩ | ⟨hne, -⟩
    · rfl
    · exact absurd rfl hne
  · rw [DecodeState.contents_setInput, List.getElem?_set_self
      (by rwa [DecodeState.contents, List.length_map])] at hc
    rw [← Option.some.inj hc]
    exact Nat.zero_le _

theorem ready_setInput_empty {idx i w capacity : Nat} {buffer : StreamBuffer}
    (h : (s.setInput idx (.empty type w capacity buffer)).Ready i) : i ≠ idx ∧ s.Ready i := by
  obtain ⟨d, hd, hc⟩ := h
  rcases DecodeState.getElem?_setInput hd with ⟨-, rfl⟩ | ⟨hne, hd⟩
  · cases hc
  · exact ⟨hne, d, hd, hc⟩

theorem Moved.stepped {contents : List (List UInt8)} {idx index w n : Nat} {t : DecodeState}
    (hm : Moved contents (s.setInput idx (.empty type w 0 (.own []))) t a a')
    (hfree : s.inputs[idx]? = some none) (hhead : idx = a.headInputIdx)
    (hhi : idx < a.tailInputIdx) :
    Stepped (.create index w n) idx s a a' ∧ idx < a'.tailInputIdx := by
  have hopen : ¬ (s.setInput idx (.empty type w 0 (.own []))).Ready idx := fun hr =>
    (ready_setInput_empty hr).1 rfl
  have hh := hm.head_le
  have hhead' : a'.headInputIdx = a.headInputIdx := by
    by_contra hne
    exact hopen (hm.ready idx (by omega) hhi (by omega))
  have htail' : idx < a'.tailInputIdx := by
    by_contra hle
    exact hopen (hm.ready idx (by omega) hhi (by omega))
  refine ⟨⟨hhead', hm.tail_le, fun _ => ⟨⟨_, _, _, rfl⟩, hhead⟩, ?_, ?_⟩, htail'⟩
  · exact fun i hle hi => (ready_setInput_empty (hm.ready i (by omega) hi (Or.inr hle))).2
  · intro _ _ j hj hall
    by_contra hlt
    have htl := hm.tail_le
    rcases hm.stuck with heq | ⟨-, hnot⟩
    · omega
    have hr := hall (a'.tailInputIdx - 1) (by omega) (by omega)
    refine hnot (hr.congr (List.getElem?_set_ne fun heq => ?_))
    rw [← heq] at hr
    exact not_ready_of_none hfree hr

theorem Simulates.create (h : Simulates p s a) {idx index w n : Nat}
    (hact : newStream idx type w n p = some (.ok (), p')) (hok : decoder.Accepts p') :
    ∃ s' a', newStream idx type w n s = some (.ok (), s') ∧ Simulates p' s' a' ∧
      Stepped (.create index w n) idx s a a' := by
  obtain ⟨hslot, hlt, hw, hv, rfl⟩ := newStream_plain h.plain.append_eq hact
  obtain ⟨hlo, hhi, hfree⟩ := h.free hslot
  have hidx := (List.getElem?_eq_some_iff.1 hslot).1
  have htype : type = decoder.inputType := hok.type_eq idx _ (List.getElem?_set_self hidx)
  have hserial : ¬ type = .string ∧ ¬ type = .numeric := by
    rw [htype]
    cases decoder <;> decide
  have hfresh : PlainStep p (p.setInput idx (.empty type w 0 (.own []))) idx _ :=
    PlainStep.create hslot ⟨[], rfl, rfl, Nat.zero_le _⟩
  have hfinal : PlainStep (p.setInput idx (.empty type w 0 (.own [])))
      (p.setInput idx (.empty type w (w * n) (.own []))) idx _ :=
    PlainStep.reserve hidx 0 (w * n)
  have hsim := h.setInput hfresh hlo hhi
  have happend := h.holds.append_eq
  by_cases hhead : idx = a.headInputIdx
  · have hlent : (s.setInput idx (.empty type w 0 (.own []))).lent = [] := by
      refine DecodeState.lent_eq_nil.2 fun i e he => ?_
      rcases DecodeState.getElem?_setInput he with ⟨-, rfl⟩ | ⟨hne, he⟩
      · rfl
      · rcases (h.holds.live i e he).place with ⟨c, hc⟩ | ⟨-, hi, -⟩
        · simp [InputData.lent, hc]
        · exact absurd (hi.trans hhead.symm) hne
    obtain ⟨t, a', hrun, hsim', hm⟩ := hsim.commitInputs (hfinal.accepts hok) hlent
    obtain ⟨hstepped, htail'⟩ : Stepped (.create index w n) idx s a a' ∧ idx < a'.tailInputIdx :=
      hm.stepped hfree hhead hhi
    have hlo' : a'.headInputIdx ≤ idx := by rw [hstepped.head_eq, hhead]
    have hhook := newStreamHook_head (n := n) hserial.1 hserial.2 hhead hlt hv hrun
      hsim'.holds.append_eq
    split at hhook
    · have hattach := tryAttach_some hhook
      rw [← happend] at hattach
      exact ⟨_, a', newStream_attach hlt hw hfree hattach hv, hsim'.setInput hfinal hlo' htail',
        hstepped⟩
    · have hattach := tryAttach_some hhook
      rw [← happend] at hattach
      have hhl := hsim'.holds.head_le
      refine ⟨_, a', newStream_attach hlt hw hfree hattach hv, ?_, hstepped⟩
      refine hsim'.step hfinal hlo' htail' rfl (fun _ _ _ => rfl) (fun _ _ _ => rfl) (Or.inl rfl)
        ?_ (Or.inr ⟨rfl, hhead.trans hstepped.head_eq.symm, ?_⟩)
      · exact Buffer.read_zero _ _
      · change a'.outputHead + w * n ≤ a'.outputTail
        omega
  · have hattach := tryAttach_some (newStreamHook_other (w := w) (n := n) (s := s.setInput idx
      (.empty type w 0 (.own []))) hserial.1 hserial.2 hhead)
    rw [← happend] at hattach
    refine ⟨_, a, newStream_attach hlt hw hfree hattach hv, ?_, Stepped.refl fun _ _ _ _ => hhead⟩
    exact hsim.setInput hfinal hlo hhi

theorem Simulates.reference (h : Simulates p s a) {idx index w : Nat} {content : List UInt8}
    (hact : newStreamFromRef idx type w content p = some (.ok (), p')) :
    ∃ s', newStreamFromRef idx type w content s = some (.ok (), s') ∧ Simulates p' s' a ∧
      Stepped (.reference index w content) idx s a a := by
  obtain ⟨hslot, hmod, hv, rfl⟩ := newStreamFromRef_ok.1 hact
  obtain ⟨hlo, hhi, hfree⟩ := h.free hslot
  exact ⟨_, newStreamFromRef_ok.2 ⟨hfree, hmod, hv, rfl⟩,
    h.setInput (PlainStep.create hslot ⟨content, rfl, rfl, Nat.le_refl _⟩) hlo hhi,
    Stepped.refl fun _ _ _ hcreate => by cases hcreate⟩

theorem Simulates.commit (h : Simulates p s a) {idx index : Nat} {content scratch : List UInt8}
    (hact : commitStream idx content scratch p = some (.ok (), p'))
    (hlo : a.headInputIdx ≤ idx) (hhi : idx < a.tailInputIdx) :
    ∃ s', commitStream idx content scratch s = some (.ok (), s') ∧ Simulates p' s' a ∧
      Stepped (.commit index content scratch) idx s a a := by
  obtain ⟨-, d, hslot, hle, hmod, rfl⟩ := commitStream_ok.1 hact
  have hstep := PlainStep.commit h.plain hslot hle
  obtain ⟨old, hold, -⟩ := h.plain.own idx d hslot
  have hnew : (d.commit content).content [] = old ++ content :=
    InputData.content_own (InputData.commit_own hold content) []
  obtain ⟨buffer, hs⟩ := h.slot hslot hlo hhi
  have hlive := h.holds.live idx _ hs
  have hcontent : InputData.content s.output { d with buffer } = old := by
    have heq := hlive.content_eq
    rw [DecodeState.contents_some hslot, InputData.content_own hold] at heq
    exact (Option.some.inj heq).symm
  have h₂ := h.holds.tail_le
  refine ⟨_, commitStream_ok.2 ⟨rfl, _, hs, hle, hmod, rfl⟩, ?_,
    Stepped.refl fun _ _ _ hcreate => by cases hcreate⟩
  rcases hlive.place with ⟨c, hc⟩ | ⟨hout, hhead, hroom⟩
  · -- a buffer of its own
    obtain rfl : buffer = .own c := hc
    obtain rfl : c = old := hcontent
    exact h.step hstep hlo hhi rfl (fun _ _ _ => rfl) (fun _ _ _ => rfl) (Or.inl rfl)
      (hnew.symm ▸ rfl) (Or.inl ⟨_, rfl⟩)
  · -- the stream is written at the head of the output
    obtain rfl : buffer = .output a.outputHead := hout
    have hsize := hlive.size_eq
    rw [hcontent] at hsize
    dsimp only at hroom hsize
    have hfit : a.outputHead + d.bufferUsed + (content ++ scratch).length ≤ a.outputTail := by
      omega
    refine h.step hstep hlo hhi (Buffer.length_write (Nat.le_trans hfit h₂))
      (fun pos n hpos => Buffer.read_write_before (by dsimp only; omega) (by dsimp only; omega) _)
      (fun pos n hpos => Buffer.read_write_after (Nat.le_trans hfit h₂) (Nat.le_trans hfit hpos))
      (Or.inr hhead) ?_ (Or.inr ⟨rfl, hhead, hroom⟩)
    change Buffer.read (Buffer.write s.output (a.outputHead + d.bufferUsed) (content ++ scratch))
      a.outputHead (d.bufferUsed + content.length) = _
    rw [hnew, Buffer.read_add, Buffer.read_write_before (by omega) (Nat.le_refl _),
      Buffer.read_write_prefix (by omega)]
    congr 1

theorem Simulates.action (h : Simulates p s a) {act : Action}
    (hact : act.run idx type p = some (.ok (), p')) (hok : decoder.Accepts p') :
    (∃ s' a', act.run idx type s = some (.ok (), s') ∧ Simulates p' s' a' ∧
      Stepped act idx s a a') ∨
    (act.run idx type s = none ∧ (idx < a.headInputIdx ∨ a.tailInputIdx ≤ idx)) := by
  cases act with
  | create index w n => exact Or.inl (h.create hact hok)
  | reference index w content =>
    obtain ⟨s', hmatch⟩ := h.reference hact
    exact Or.inl ⟨s', a, hmatch⟩
  | commit index content scratch =>
    by_cases hin : a.headInputIdx ≤ idx ∧ idx < a.tailInputIdx
    · obtain ⟨s', hmatch⟩ := h.commit hact hin.1 hin.2
      exact Or.inl ⟨s', a, hmatch⟩
    · refine Or.inr ⟨?_, by omega⟩
      obtain ⟨-, d, hslot, -⟩ := commitStream_ok.1 hact
      have hlt := (List.getElem?_eq_some_iff.1 hslot).1
      have hfreed := h.holds.freed idx (by rw [DecodeState.contents, List.length_map]; exact hlt)
        (by omega)
      cases hrun : commitStream idx content scratch s with
      | none => exact hrun
      | some res =>
        obtain ⟨-, e, he, -⟩ := commitStream_ok.1 hrun
        rw [hfreed] at he
        cases he

end OpenZL.Decompress
