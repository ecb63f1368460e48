import OpenZL.Decompress.AppendGuard

/-!
# What `commitInputs` moves

The inputs before the head index are in the output from its beginning, those from the tail index on
at its end.  `commitInputs` moves the inputs that are ready at both ends and stops at one that is
not.

Principal results: `Holds.commitHead`, `Holds.commitTail`, `Holds.commitInputs`.
-/

namespace OpenZL.Decompress

open OpenZL.Lib

variable {contents : List (List UInt8)} {a : AppendToOutput} {s : DecodeState} {d : InputData}

/-- An input that has not been moved: it has its content, in a buffer of its own or at the head of
the output. -/
structure Live (contents : List (List UInt8)) (s : DecodeState) (a : AppendToOutput) (i : Nat)
    (d : InputData) : Prop where
  content_eq : contents[i]? = some (d.content s.output)
  size_eq : (d.content s.output).length = d.bufferUsed
  size_le : d.bufferUsed ≤ d.bufferCapacity
  place : (∃ content, d.buffer = .own content) ∨ d.buffer = .output a.outputHead ∧
    i = a.headInputIdx ∧ a.outputHead + d.bufferCapacity ≤ a.outputTail

/-- The inputs before the head are in the output from `outputUsed` on, those from the tail on are
at its end, and the others are live or not there yet. -/
structure Holds (contents : List (List UInt8)) (s : DecodeState) (a : AppendToOutput) : Prop where
  append_eq : s.append = some a
  length_eq : s.inputs.length = contents.length
  idx_le : a.headInputIdx ≤ a.tailInputIdx
  idx_le_length : a.tailInputIdx ≤ contents.length
  used_le : s.outputUsed ≤ a.outputHead
  head_le : a.outputHead ≤ a.outputTail
  tail_le : a.outputTail ≤ s.output.length
  head_eq : Buffer.read s.output s.outputUsed (a.outputHead - s.outputUsed) =
    (contents.take a.headInputIdx).flatten
  tail_eq : Buffer.read s.output a.outputTail (s.output.length - a.outputTail) =
    (contents.drop a.tailInputIdx).flatten
  freed : ∀ i < contents.length, i < a.headInputIdx ∨ a.tailInputIdx ≤ i →
    s.inputs[i]? = some none
  live : ∀ (i : Nat) (d : InputData), s.inputs[i]? = some (some d) → Live contents s a i d

theorem Holds.range (h : Holds contents s a) {i : Nat} (hd : s.inputs[i]? = some (some d)) :
    a.headInputIdx ≤ i ∧ i < a.tailInputIdx := by
  have hi := (List.getElem?_eq_some_iff.1 hd).1
  rw [h.length_eq] at hi
  by_contra hout
  have := h.freed i hi (by omega)
  rw [hd] at this
  cases this

theorem Holds.room (h : Holds contents s a)
    (hfits : contents.flatten.length ≤ s.output.length - s.outputUsed) {i : Nat}
    (hd : s.inputs[i]? = some (some d)) :
    d.bufferUsed ≤ a.outputTail - a.outputHead := by
  obtain ⟨hlo, hhi⟩ := h.range hd
  have hlive := h.live i d hd
  have hhead := congrArg List.length h.head_eq
  have htail := congrArg List.length h.tail_eq
  have := h.used_le
  have := h.head_le
  have := h.tail_le
  rw [Buffer.length_read (by omega)] at hhead htail
  have hsplit : contents.flatten.length = (contents.take a.headInputIdx).flatten.length +
      ((contents.take a.tailInputIdx).drop a.headInputIdx).flatten.length +
      (contents.drop a.tailInputIdx).flatten.length := by
    rw [← List.length_append, ← List.flatten_append, ← List.length_append, ← List.flatten_append]
    congr 2
    rw [show contents.take a.headInputIdx =
      (contents.take a.tailInputIdx).take a.headInputIdx by
        rw [List.take_take, Nat.min_eq_left (by omega)], List.take_append_drop,
      List.take_append_drop]
  have hmem : d.content s.output ∈ (contents.take a.tailInputIdx).drop a.headInputIdx := by
    refine List.mem_iff_getElem?.2 ⟨i - a.headInputIdx, ?_⟩
    rw [List.getElem?_drop, show a.headInputIdx + (i - a.headInputIdx) = i by omega,
      List.getElem?_take_of_lt hhi]
    exact hlive.content_eq
  have hle : (d.content s.output).length ≤
      ((contents.take a.tailInputIdx).drop a.headInputIdx).flatten.length :=
    (List.sublist_flatten_of_mem hmem).length_le
  have := hlive.size_eq
  omega

theorem InputData.content_own {content : List UInt8} (h : d.buffer = .own content)
    (output : List UInt8) : d.content output = content := by
  rw [InputData.content, h]

/-- The output is as long as before, and what was committed to it is unchanged. -/
structure Kept (s s' : DecodeState) : Prop where
  outputUsed_eq : s'.outputUsed = s.outputUsed
  length_eq : s'.output.length = s.output.length
  committed_eq : s'.committed = s.committed

theorem Kept.refl (s : DecodeState) : Kept s s := ⟨rfl, rfl, rfl⟩

theorem Kept.trans {s t u : DecodeState} (h : Kept s t) (h' : Kept t u) : Kept s u :=
  ⟨h'.outputUsed_eq.trans h.outputUsed_eq, h'.length_eq.trans h.length_eq,
    h'.committed_eq.trans h.committed_eq⟩

theorem Kept.of_read {s s' : DecodeState} (hused : s'.outputUsed = s.outputUsed)
    (hlen : s'.output.length = s.output.length)
    (hread : Buffer.read s'.output 0 s.outputUsed = Buffer.read s.output 0 s.outputUsed) :
    Kept s s' := by
  refine ⟨hused, hlen, ?_⟩
  unfold DecodeState.committed
  rw [hused, ← Buffer.read_of_start, hread, Buffer.read_of_start]

theorem Holds.placeHead (h : Holds contents s a) (hd : s.inputs[a.headInputIdx]? = some (some d))
    (hroom : d.bufferUsed ≤ a.outputTail - a.outputHead) :
    ∃ output, s.placeInput a a.headInputIdx d = { s with
          output
          inputs := s.inputs.set a.headInputIdx none
          append := some { a with outputHead := a.outputHead + d.bufferUsed } } ∧
      output.length = s.output.length ∧
      (∀ pos n, pos + n ≤ a.outputHead → Buffer.read output pos n = Buffer.read s.output pos n) ∧
      (∀ pos n, a.outputTail ≤ pos → Buffer.read output pos n = Buffer.read s.output pos n) ∧
      Buffer.read output a.outputHead d.bufferUsed = d.content s.output := by
  have hlive := h.live _ d hd
  have := h.head_le
  have := h.tail_le
  rcases hlive.place with ⟨content, hown⟩ | ⟨hout, -, -⟩
  · have hbytes := InputData.content_own hown s.output
    have hsize := hlive.size_eq
    rw [hbytes] at hsize
    refine ⟨Buffer.write s.output a.outputHead content, ?_, ?_, ?_, ?_, ?_⟩
    · unfold DecodeState.placeInput
      rw [if_neg (by simp [hown]), if_pos rfl, hbytes]
    · exact Buffer.length_write (by omega)
    · exact fun pos n hle => Buffer.read_write_before (by omega) hle _
    · exact fun pos n hle => Buffer.read_write_after (by omega) (by omega)
    · rw [hbytes, ← hsize]
      exact Buffer.read_write_self (by omega) _
  · refine ⟨s.output, ?_, rfl, fun _ _ _ => rfl, fun _ _ _ => rfl, ?_⟩
    · unfold DecodeState.placeInput
      rw [if_pos hout]
    · rw [InputData.content, hout]

theorem Holds.commitHead (h : Holds contents s a) (hd : s.inputs[a.headInputIdx]? = some (some d))
    (hroom : d.bufferUsed ≤ a.outputTail - a.outputHead) :
    Kept s (s.placeInput a a.headInputIdx d).advanceHead ∧
    ∃ a', Holds contents (s.placeInput a a.headInputIdx d).advanceHead a' ∧
      a'.headInputIdx = a.headInputIdx + 1 ∧ a'.tailInputIdx = a.tailInputIdx := by
  obtain ⟨hlo, hhi⟩ := h.range hd
  have hlive := h.live _ d hd
  have h₁ := h.used_le
  have h₂ := h.head_le
  have h₃ := h.tail_le
  have h₄ := h.idx_le_length
  obtain ⟨output, hplace, hlen, hbefore, hafter, hself⟩ := h.placeHead hd hroom
  rw [hplace]
  have hlt : a.headInputIdx < contents.length := by omega
  refine ⟨Kept.of_read rfl hlen (hbefore _ _ (by omega)), ⟨a.headInputIdx + 1,
    a.tailInputIdx, a.outputHead + d.bufferUsed, a.outputTail⟩, ?_,
    rfl, rfl⟩
  constructor
  · rfl
  · simpa [DecodeState.advanceHead] using h.length_eq
  · exact hhi
  · exact h₄
  · exact Nat.le_trans h₁ (Nat.le_add_right _ _)
  · change a.outputHead + d.bufferUsed ≤ a.outputTail
    omega
  · change a.outputTail ≤ output.length
    omega
  · change Buffer.read output s.outputUsed (a.outputHead + d.bufferUsed - s.outputUsed) =
      (contents.take (a.headInputIdx + 1)).flatten
    rw [show a.outputHead + d.bufferUsed - s.outputUsed =
      (a.outputHead - s.outputUsed) + d.bufferUsed by omega, Buffer.read_add,
      hbefore _ _ (by omega), h.head_eq,
      show s.outputUsed + (a.outputHead - s.outputUsed) = a.outputHead by omega, hself,
      List.take_add_one, hlive.content_eq]
    simp
  · change Buffer.read output a.outputTail (output.length - a.outputTail) = _
    rw [hafter _ _ (Nat.le_refl _), hlen]
    exact h.tail_eq
  · intro i hi hout
    change (s.inputs.set a.headInputIdx none)[i]? = _
    by_cases heq : a.headInputIdx = i
    · subst heq
      exact List.getElem?_set_self (by rw [h.length_eq]; exact hi)
    · rw [List.getElem?_set_ne heq]
      exact h.freed i hi (by dsimp only at hout; omega)
  · intro i e he
    change (s.inputs.set a.headInputIdx none)[i]? = _ at he
    have hne : a.headInputIdx ≠ i := by
      rintro rfl
      rw [List.getElem?_set_self (by rw [h.length_eq]; exact hlt)] at he
      cases he
    rw [List.getElem?_set_ne hne] at he
    have hl := h.live i e he
    -- only the input at the head may be in the output
    obtain ⟨content, hown⟩ := hl.place.resolve_right fun hp => hne hp.2.1.symm
    have hsame : e.content output = e.content s.output := by
      rw [InputData.content_own hown, InputData.content_own hown]
    refine ⟨?_, ?_, hl.size_le, Or.inl ⟨content, hown⟩⟩
    · exact hl.content_eq.trans (congrArg some hsame.symm)
    · exact (congrArg List.length hsame).trans hl.size_eq

theorem Holds.commitTail (h : Holds contents s a)
    (hown : ∀ (i : Nat) (d : InputData), s.inputs[i]? = some (some d) →
      ∃ content, d.buffer = .own content) {i : Nat} (hi : i + 1 = a.tailInputIdx)
    (hne : i ≠ a.headInputIdx) (hd : s.inputs[i]? = some (some d))
    (hroom : d.bufferUsed ≤ a.outputTail - a.outputHead) :
    Kept s (s.placeInput a i d).advanceTail ∧
    ∃ a', Holds contents (s.placeInput a i d).advanceTail a' ∧
      a'.headInputIdx = a.headInputIdx ∧ a'.tailInputIdx = i := by
  obtain ⟨hlo, hhi⟩ := h.range hd
  have hlive := h.live _ d hd
  obtain ⟨content, hbuf⟩ := hown i d hd
  have hbytes := InputData.content_own hbuf s.output
  have hsize := hlive.size_eq
  rw [hbytes] at hsize
  have hcontent := hlive.content_eq
  rw [hbytes] at hcontent
  have h₁ := h.used_le
  have h₂ := h.head_le
  have h₃ := h.tail_le
  have h₄ := h.idx_le_length
  have hlt : i < contents.length := by omega
  have hplace : s.placeInput a i d =
      { s with
        output := Buffer.write s.output (a.outputTail - d.bufferUsed) content
        inputs := s.inputs.set i none
        append := some { a with outputTail := a.outputTail - d.bufferUsed }
        tailCommits := s.tailCommits ++
          [⟨⟨a.outputTail - d.bufferUsed, d.bufferUsed⟩, s.lent⟩] } := by
    unfold DecodeState.placeInput
    rw [if_neg (by simp [hbuf]), if_neg hne, hbytes]
  rw [hplace]
  have hlen : (Buffer.write s.output (a.outputTail - d.bufferUsed) content).length =
      s.output.length := Buffer.length_write (by omega)
  refine ⟨Kept.of_read rfl hlen (Buffer.read_write_before (by omega) (by omega) _),
    ⟨a.headInputIdx, i, a.outputHead, a.outputTail - d.bufferUsed⟩, ?_, rfl, rfl⟩
  constructor
  · rw [DecodeState.advanceTail]
    simp [← hi]
  · simpa [DecodeState.advanceTail] using h.length_eq
  · exact hlo
  · exact Nat.le_of_lt hlt
  · exact h₁
  · change a.outputHead ≤ a.outputTail - d.bufferUsed
    omega
  · change a.outputTail - d.bufferUsed ≤ (Buffer.write s.output _ content).length
    omega
  · change Buffer.read (Buffer.write s.output _ content) s.outputUsed
      (a.outputHead - s.outputUsed) = _
    rw [Buffer.read_write_before (by omega) (by omega)]
    exact h.head_eq
  · change Buffer.read (Buffer.write s.output (a.outputTail - d.bufferUsed) content)
      (a.outputTail - d.bufferUsed) ((Buffer.write s.output (a.outputTail - d.bufferUsed)
        content).length - (a.outputTail - d.bufferUsed)) = (contents.drop i).flatten
    rw [hlen, show s.output.length - (a.outputTail - d.bufferUsed) =
      content.length + (s.output.length - a.outputTail) by omega, Buffer.read_add,
      Buffer.read_write_self (by omega), hsize,
      show a.outputTail - d.bufferUsed + d.bufferUsed = a.outputTail by omega,
      Buffer.read_write_after (by omega) (by omega), h.tail_eq, ← hi,
      List.drop_eq_getElem_cons hlt, List.flatten_cons]
    congr 1
    rw [List.getElem?_eq_getElem hlt] at hcontent
    exact (Option.some.inj hcontent).symm
  · intro j hj hout
    change (s.inputs.set i none)[j]? = _
    by_cases heq : i = j
    · subst heq
      exact List.getElem?_set_self (by rw [h.length_eq]; exact hj)
    · rw [List.getElem?_set_ne heq]
      exact h.freed j hj (by dsimp only at hout; omega)
  · intro j e he
    change (s.inputs.set i none)[j]? = _ at he
    have hji : i ≠ j := by
      rintro rfl
      rw [List.getElem?_set_self (by rw [h.length_eq]; exact hlt)] at he
      cases he
    rw [List.getElem?_set_ne hji] at he
    have hl := h.live j e he
    obtain ⟨content', hown'⟩ := hown j e he
    have hsame : ∀ output, e.content output = e.content s.output := fun output => by
      rw [InputData.content_own hown', InputData.content_own hown']
    refine ⟨?_, ?_, hl.size_le, Or.inl ⟨content', hown'⟩⟩
    · exact hl.content_eq.trans (congrArg some (hsame _).symm)
    · exact (congrArg List.length (hsame _)).trans hl.size_eq

/-- What `commitInputs` does: the inputs that are ready at both ends are moved, up to one that is
not on either side, or until none is left. -/
structure Moved (contents : List (List UInt8)) (s s' : DecodeState) (a a' : AppendToOutput) :
    Prop where
  holds : Holds contents s' a'
  kept : Kept s s'
  head_le : a.headInputIdx ≤ a'.headInputIdx
  tail_le : a'.tailInputIdx ≤ a.tailInputIdx
  slots : ∀ i, a'.headInputIdx ≤ i → i < a'.tailInputIdx → s'.inputs[i]? = s.inputs[i]?
  ready : ∀ i, a.headInputIdx ≤ i → i < a.tailInputIdx →
    i < a'.headInputIdx ∨ a'.tailInputIdx ≤ i → s.Ready i
  stuck : a'.headInputIdx = a'.tailInputIdx ∨
    ¬ s.Ready a'.headInputIdx ∧ ¬ s.Ready (a'.tailInputIdx - 1)

theorem lent_placeInput (h : s.lent = []) (a : AppendToOutput) (i : Nat) (d : InputData) :
    (s.placeInput a i d).lent = [] := by
  refine DecodeState.lent_eq_nil.2 fun j e he => ?_
  rw [DecodeState.placeInput_inputs] at he
  by_cases hij : i = j
  · subst hij
    rw [List.getElem?_set] at he
    simp at he
  · rw [List.getElem?_set_ne hij] at he
    exact DecodeState.lent_eq_nil.1 h j e he

theorem DecodeState.Ready.congr {s s' : DecodeState} {i : Nat} (h : s.Ready i)
    (hslot : s'.inputs[i]? = s.inputs[i]?) : s'.Ready i := by
  obtain ⟨d, hd, hc⟩ := h
  exact ⟨d, hslot.trans hd, hc⟩

theorem Moved.cons {s s₁ s' : DecodeState} {a a₁ a' : AppendToOutput} {i : Nat} (hkept : Kept s s₁)
    (hslots : ∀ j, j ≠ i → s₁.inputs[j]? = s.inputs[j]?) (hready : s.Ready i)
    (hidx : a₁.headInputIdx = a.headInputIdx + 1 ∧ i = a.headInputIdx ∧
        a₁.tailInputIdx = a.tailInputIdx ∨
      a₁.headInputIdx = a.headInputIdx ∧ a₁.tailInputIdx = i ∧ i + 1 = a.tailInputIdx)
    (h : Moved contents s₁ s' a₁ a') : Moved contents s s' a a' := by
  have h₁ := h.head_le
  have h₂ := h.tail_le
  have h₃ := h.holds.idx_le
  refine ⟨h.holds, hkept.trans h.kept, by omega, by omega, ?_, ?_, ?_⟩
  · intro j hlo hhi
    exact (h.slots j hlo hhi).trans (hslots j (by omega))
  · intro j hlo hhi hout
    by_cases hij : j = i
    · exact hij ▸ hready
    · exact (h.ready j (by omega) (by omega) hout).congr (hslots j hij).symm
  · by_cases heq : a'.headInputIdx = a'.tailInputIdx
    · exact Or.inl heq
    obtain ⟨hhead, htail⟩ := h.stuck.resolve_left heq
    refine Or.inr ⟨fun hr => hhead (hr.congr (hslots _ (by omega))), fun hr =>
      htail (hr.congr (hslots _ (by omega)))⟩

theorem Holds.commitInputsLoop : ∀ (n : Nat) {s : DecodeState}
    {a : AppendToOutput}, Holds contents s a →
    contents.flatten.length ≤ s.output.length - s.outputUsed → s.lent = [] →
    n = a.tailInputIdx - a.headInputIdx →
    ∃ s' a', commitInputsLoop n s = some (.ok (), s') ∧ Moved contents s s' a a'
  | 0, s, a, h, _, _, hn => by
    have := h.idx_le
    refine ⟨s, a, rfl, h, Kept.refl s, Nat.le_refl _, Nat.le_refl _, fun _ _ _ => rfl, ?_, ?_⟩
    · intro i hlo hhi hout
      omega
    · exact Or.inl (by omega)
  | n + 1, s, a, h, hfits, hlent, hn => by
    have hlen := h.idx_le_length
    have hslots : ∀ {i j : Nat} {d : InputData}, j ≠ i →
        (s.placeInput a i d).inputs[j]? = s.inputs[j]? := fun hij => by
      rw [DecodeState.placeInput_inputs]
      exact List.getElem?_set_ne hij.symm
    rw [Decompress.commitInputsLoop, Cmd.run_get_bind]
    have hexpect : ∀ {f : AppendToOutput → DecodeM Unit},
        ((Cmd.expect s.append : DecodeM AppendToOutput) >>= f) s = f a s := fun {f} => by
      rw [h.append_eq]
      rfl
    rw [hexpect]
    by_cases hhead : s.Ready a.headInputIdx
    · obtain ⟨d, hd, hc⟩ := hhead
      have hroom := h.room hfits hd
      obtain ⟨hkept, a₁, h₁, hidx, htail⟩ := h.commitHead hd hroom
      rw [Cmd.run_bind_of_ok (commitInput_ready hd hc hroom)]
      obtain ⟨s', a', hrun, hmoved⟩ := Holds.commitInputsLoop n h₁
        (by rw [hkept.length_eq, hkept.outputUsed_eq]; exact hfits)
        (lent_placeInput hlent a _ d) (by omega)
      refine ⟨s', a', hrun, hmoved.cons hkept (fun j hj => hslots hj) ⟨d, hd, hc⟩
        (Or.inl ⟨hidx, rfl, htail⟩)⟩
    rw [Cmd.run_bind_of_ok (commitInput_wait (by rw [h.length_eq]; omega) hhead)]
    by_cases htail : s.Ready (a.tailInputIdx - 1)
    · obtain ⟨d, hd, hc⟩ := htail
      have hroom := h.room hfits hd
      have hne : a.tailInputIdx - 1 ≠ a.headInputIdx := fun heq => hhead ⟨d, heq ▸ hd, hc⟩
      -- a stream in the output would be at the head, and committed
      have hown : ∀ (i : Nat) (e : InputData), s.inputs[i]? = some (some e) →
          ∃ content, e.buffer = .own content := by
        intro i e he
        refine (h.live i e he).place.resolve_right fun hp => ?_
        obtain ⟨hout, rfl, -⟩ := hp
        have hnone := DecodeState.lent_eq_nil.1 hlent _ e he
        cases hec : e.writeCommitted with
        | true => exact hhead ⟨e, he, hec⟩
        | false => simp [InputData.lent, hout, hec] at hnone
      obtain ⟨hkept, a₁, h₁, hidx, htail⟩ := h.commitTail hown (by omega) hne hd hroom
      simp only [Bool.false_eq_true, if_false]
      rw [Cmd.run_bind_of_ok (commitInput_ready hd hc hroom)]
      obtain ⟨s', a', hrun, hmoved⟩ := Holds.commitInputsLoop n h₁
        (by rw [hkept.length_eq, hkept.outputUsed_eq]; exact hfits)
        (lent_placeInput hlent a _ d) (by omega)
      refine ⟨s', a', hrun, hmoved.cons hkept (fun j hj => hslots hj) ⟨d, hd, hc⟩
        (Or.inr ⟨hidx, htail, by omega⟩)⟩
    · simp only [Bool.false_eq_true, if_false]
      rw [Cmd.run_bind_of_ok (commitInput_wait (by rw [h.length_eq]; omega) htail)]
      refine ⟨s, a, rfl, h, Kept.refl s, Nat.le_refl _, Nat.le_refl _, fun _ _ _ => rfl, ?_,
        Or.inr ⟨hhead, htail⟩⟩
      intro i hlo hhi hout
      omega

theorem Holds.commitInputs (h : Holds contents s a)
    (hfits : contents.flatten.length ≤ s.output.length - s.outputUsed) (hlent : s.lent = []) :
    ∃ s' a', commitInputs s = some (.ok (), s') ∧ Moved contents s s' a a' := by
  obtain ⟨s', a', hrun, hmoved⟩ := Holds.commitInputsLoop _ h hfits hlent rfl
  refine ⟨s', a', ?_, hmoved⟩
  rw [Decompress.commitInputs, Cmd.run_get_bind]
  exact Cmd.run_expect_bind.2 ⟨a, h.append_eq, hrun⟩

end OpenZL.Decompress
