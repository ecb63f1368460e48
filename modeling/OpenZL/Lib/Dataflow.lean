import Mathlib.Data.Set.Basic

/-!
# Steps over single-use slots

A computation is a list of steps; each reads its input slots, empties them, and fills its output
slots.

Principal result: `Wired.readyOrder`.
-/

namespace OpenZL.Lib

variable {σ : Type}

/-- The slots a step reads and the slots it writes. -/
structure Step (σ : Type) where
  inputs : List σ
  outputs : List σ

/-- The filled slots after a step: its outputs are filled, its inputs emptied. -/
def Step.next (n : Step σ) (filled : Set σ) : Set σ :=
  {s | (s ∈ filled ∨ s ∈ n.outputs) ∧ s ∉ n.inputs}

/-- From `filled`, every step finds its inputs filled and its outputs empty. -/
def ReadyOrder : Set σ → List (Step σ) → Prop
  | _, [] => True
  | filled, n :: ns =>
    (∀ s ∈ n.inputs, s ∈ filled) ∧ (∀ s ∈ n.outputs, s ∉ filled) ∧ ReadyOrder (n.next filled) ns

/-- Each slot is filled once, initially or by one step, and read by at most one later step. -/
structure Wired (init : Set σ) (ns : List (Step σ)) : Prop where
  inputs_disjoint : ns.Pairwise fun m n => ∀ s ∈ m.inputs, s ∉ n.inputs
  outputs_disjoint : ns.Pairwise fun m n => ∀ s ∈ m.outputs, s ∉ n.outputs
  outputs_fresh : ∀ n ∈ ns, ∀ s ∈ n.outputs, s ∉ init
  produced : ∀ done n rest, ns = done ++ n :: rest →
    ∀ s ∈ n.inputs, s ∈ init ∨ ∃ m ∈ done, s ∈ m.outputs

/-- The slots filled once the steps of `done` have run. -/
def filledAfter (init : Set σ) (done : List (Step σ)) : Set σ :=
  {s | (s ∈ init ∨ ∃ m ∈ done, s ∈ m.outputs) ∧ ∀ m ∈ done, s ∉ m.inputs}

variable {init : Set σ} {ns : List (Step σ)}

theorem Wired.not_input_of_output (h : Wired init ns) {done rest : List (Step σ)} {n : Step σ}
    (hns : ns = done ++ n :: rest) {s : σ} (hs : s ∈ n.outputs) : ∀ m ∈ done, s ∉ m.inputs := by
  intro m hm hin
  obtain ⟨before, after, rfl⟩ := List.append_of_mem hm
  have hsplit : ns = before ++ m :: (after ++ n :: rest) := by simpa using hns
  have hdis := h.outputs_disjoint
  rw [hns, List.pairwise_append] at hdis
  rcases h.produced before m _ hsplit s hin with hinit | ⟨p, hp, hout⟩
  · exact h.outputs_fresh n (by rw [hns]; simp) s hs hinit
  · exact hdis.2.2 p (by simp [hp]) n (by simp) s hout hs

theorem Wired.next_filledAfter (h : Wired init ns) {done rest : List (Step σ)} {n : Step σ}
    (hns : ns = done ++ n :: rest) :
    n.next (filledAfter init done) = filledAfter init (done ++ [n]) := by
  ext s
  constructor
  · rintro ⟨hfilled | hout, hin⟩
    · obtain ⟨hsrc, hnot⟩ := hfilled
      refine ⟨hsrc.imp_right fun ⟨m, hm, hs⟩ => ⟨m, by simp [hm], hs⟩, ?_⟩
      intro m hm
      rcases List.mem_append.1 hm with hm | hm
      · exact hnot m hm
      · rwa [List.mem_singleton.1 hm]
    · refine ⟨Or.inr ⟨n, by simp, hout⟩, ?_⟩
      intro m hm
      rcases List.mem_append.1 hm with hm | hm
      · exact h.not_input_of_output hns hout m hm
      · rwa [List.mem_singleton.1 hm]
  · rintro ⟨hsrc, hnot⟩
    refine ⟨?_, hnot n (by simp)⟩
    rcases hsrc with hinit | ⟨m, hm, hs⟩
    · exact Or.inl ⟨Or.inl hinit, fun m hm => hnot m (by simp [hm])⟩
    · rcases List.mem_append.1 hm with hm | hm
      · exact Or.inl ⟨Or.inr ⟨m, hm, hs⟩, fun p hp => hnot p (by simp [hp])⟩
      · rw [List.mem_singleton.1 hm] at hs
        exact Or.inr hs

theorem Wired.readyOrder_from (h : Wired init ns) : ∀ (rest done : List (Step σ)),
    ns = done ++ rest → ReadyOrder (filledAfter init done) rest
  | [], _, _ => trivial
  | n :: rest, done, hns => by
    have hin := h.inputs_disjoint
    have hout := h.outputs_disjoint
    rw [hns, List.pairwise_append] at hin hout
    refine ⟨fun s hs => ⟨h.produced done n rest hns s hs, fun m hm hm' => ?_⟩, ?_, ?_⟩
    · exact hin.2.2 m hm n (by simp) s hm' hs
    · rintro s hs ⟨hinit | ⟨m, hm, hs'⟩, -⟩
      · exact h.outputs_fresh n (by rw [hns]; simp) s hs hinit
      · exact hout.2.2 m hm n (by simp) s hs' hs
    · rw [h.next_filledAfter hns]
      exact h.readyOrder_from rest (done ++ [n]) (by simpa using hns)

/-- **Static wiring is enough**: the steps run in order without an empty read or a double write. -/
theorem Wired.readyOrder (h : Wired init ns) : ReadyOrder init ns := by
  have hinit : filledAfter init [] = init := by
    ext s
    simp [filledAfter]
  have hrun := h.readyOrder_from ns [] rfl
  rwa [hinit] at hrun

end OpenZL.Lib
