import Mathlib.Data.Finset.Card
import OpenZL.Codecs.MergeSorted
import OpenZL.Common.TableErasure

/-!
# The priority queue of merge_sorted is a set with its least element

The heap and the hash set of `PriorityQueue` hold the same values, each once.

Principal results: `pqInit_holds`, `pqInsert_holds`, `pqPopMin_holds`.
-/

namespace OpenZL.Codecs.MergeSorted

open OpenZL.Common OpenZL.Lib

theorem parentOf_eq (idx : Nat) : parentOf idx = BinaryHeap.parent idx := rfl

theorem cell_eq {heap : List Nat} {i : Nat} (h : i < heap.length) : cell heap i = heap[i] := by
  rw [cell, List.getD, List.getElem?_eq_getElem h, Option.getD_some]

section

variable (heap : List Nat)

include heap

theorem cell_set {i : Nat} (h : i < heap.length) (v j : Nat) :
    cell (heap.set i v) j = if j = i then v else cell heap j := by
  rw [cell, cell, List.getD, List.getD, List.getElem?_set]
  by_cases hij : j = i
  · rw [if_pos hij, if_pos hij.symm, if_pos h, Option.getD_some]
  · rw [if_neg hij, if_neg (Ne.symm hij)]

theorem cell_swap {x y : Nat} (hx : x < heap.length) (hy : y < heap.length) :
    cell (swap heap x y) = cell heap ∘ Equiv.swap x y := by
  funext i
  have hy' : y < (heap.set x (cell heap y)).length := by rwa [List.length_set]
  rw [swap, cell_set _ hy', cell_set _ hx, Function.comp_apply, Equiv.swap_apply_def]
  by_cases hiy : i = y
  · rw [if_pos hiy]
    by_cases hix : i = x
    · rw [if_pos hix, ← hix, hiy]
    · rw [if_neg hix, if_pos hiy]
  · rw [if_neg hiy]
    by_cases hix : i = x
    · rw [if_pos hix, if_pos hix]
    · rw [if_neg hix, if_neg hix, if_neg hiy]

theorem perm_swap {x y : Nat} (hx : x < heap.length) (hy : y < heap.length) :
    (swap heap x y).Perm heap := by
  rw [swap, cell_eq hx, cell_eq hy]
  exact List.set_set_perm hx hy

theorem heapifyUp_spec (idx : Nat) (hidx : idx < heap.length)
    (ho : BinaryHeap.OrderedUpTo heap.length (cell heap) idx) :
    (heapifyUp heap idx).Perm heap ∧
      BinaryHeap.Ordered heap.length (cell (heapifyUp heap idx)) := by
  induction heap, idx using heapifyUp.induct with
  | case1 heap idx hup ih =>
    have hparent : parentOf idx < heap.length :=
      Nat.lt_of_le_of_lt (BinaryHeap.parent_le idx) hidx
    have hswap := ho.swap hidx hup.2
    rw [← parentOf_eq, ← cell_swap heap hparent hidx] at hswap
    rw [length_swap] at ih
    obtain ⟨hperm, hordered⟩ := ih hparent hswap
    rw [heapifyUp, if_pos hup]
    exact ⟨hperm.trans (perm_swap heap hparent hidx), hordered⟩
  | case2 heap idx hup =>
    rw [heapifyUp, if_neg hup]
    refine ⟨List.Perm.refl heap, ho.ordered ?_⟩
    by_cases hzero : idx = 0
    · rw [hzero]
      exact Nat.le_refl _
    · exact Nat.le_of_not_lt fun hlt => hup ⟨hzero, hlt⟩

theorem least_spec (idx : Nat) :
    (least heap idx = idx ∧ ∀ i < heap.length, i ≠ 0 → parentOf i = idx →
        cell heap idx ≤ cell heap i) ∨
      (least heap idx < heap.length ∧ least heap idx ≠ 0 ∧ parentOf (least heap idx) = idx ∧
        cell heap (least heap idx) < cell heap idx ∧
        ∀ i < heap.length, i ≠ 0 → parentOf i = idx →
          cell heap (least heap idx) ≤ cell heap i) := by
  have hchild : ∀ i, i ≠ 0 → parentOf i = idx → i = leftOf idx ∨ i = rightOf idx :=
    fun i hi hp => (BinaryHeap.parent_eq_iff hi).1 hp
  have hleft : parentOf (leftOf idx) = idx := by rw [parentOf, leftOf]; omega
  have hright : parentOf (rightOf idx) = idx := by rw [parentOf, rightOf]; omega
  have hleft' : leftOf idx ≠ 0 := by rw [leftOf]; omega
  have hright' : rightOf idx ≠ 0 := by rw [rightOf]; omega
  rw [least]
  by_cases hl : leftOf idx < heap.length ∧ cell heap (leftOf idx) < cell heap idx
  · rw [if_pos hl]
    by_cases hr : rightOf idx < heap.length ∧ cell heap (rightOf idx) < cell heap (leftOf idx)
    · rw [if_pos hr]
      refine Or.inr ⟨hr.1, hright', hright, Nat.lt_trans hr.2 hl.2, fun i hi hne hp => ?_⟩
      rcases hchild i hne hp with rfl | rfl
      · exact Nat.le_of_lt hr.2
      · exact Nat.le_refl _
    · rw [if_neg hr]
      refine Or.inr ⟨hl.1, hleft', hleft, hl.2, fun i hi hne hp => ?_⟩
      rcases hchild i hne hp with rfl | rfl
      · exact Nat.le_refl _
      · exact Nat.le_of_not_lt fun hlt => hr ⟨hi, hlt⟩
  · rw [if_neg hl]
    by_cases hr : rightOf idx < heap.length ∧ cell heap (rightOf idx) < cell heap idx
    · rw [if_pos hr]
      refine Or.inr ⟨hr.1, hright', hright, hr.2, fun i hi hne hp => ?_⟩
      rcases hchild i hne hp with rfl | rfl
      · exact Nat.le_trans (Nat.le_of_lt hr.2) (Nat.le_of_not_lt fun hlt => hl ⟨hi, hlt⟩)
      · exact Nat.le_refl _
    · rw [if_neg hr]
      refine Or.inl ⟨rfl, fun i hi hne hp => ?_⟩
      rcases hchild i hne hp with rfl | rfl
      · exact Nat.le_of_not_lt fun hlt => hl ⟨hi, hlt⟩
      · exact Nat.le_of_not_lt fun hlt => hr ⟨hi, hlt⟩

theorem heapifyDown_spec (idx : Nat) (hidx : idx < heap.length)
    (ho : BinaryHeap.OrderedDownFrom heap.length (cell heap) idx) :
    (heapifyDown heap idx).Perm heap ∧
      BinaryHeap.Ordered heap.length (cell (heapifyDown heap idx)) := by
  induction heap, idx using heapifyDown.induct with
  | case1 heap idx hdown ih =>
    rcases least_spec heap idx with ⟨hleast, -⟩ | ⟨hlt, hne, hparent, hbelow, hall⟩
    · exact absurd hleast hdown
    · have hswap := ho.swap hlt hne hparent hbelow hall
      rw [← cell_swap heap hlt hidx] at hswap
      rw [length_swap] at ih
      obtain ⟨hperm, hordered⟩ := ih hlt hswap
      rw [heapifyDown, if_pos hdown]
      exact ⟨hperm.trans (perm_swap heap hlt hidx), hordered⟩
  | case2 heap idx hdown =>
    rw [heapifyDown, if_neg hdown]
    refine ⟨List.Perm.refl heap, ho.ordered ?_⟩
    rcases least_spec heap idx with ⟨-, hall⟩ | ⟨-, hne, hparent, -, -⟩
    · exact hall
    · rw [Decidable.not_not.1 hdown] at hparent hne
      exact absurd hparent (Nat.ne_of_lt (BinaryHeap.parent_lt hne))

end

section

variable {hashFn : Nat → UInt64} {a : Table.Allocator Nat}

theorem pqPolicy_lawful (hashFn : Nat → UInt64) : (pqPolicy hashFn).Lawful where
  refl := fun _ => beq_iff_eq.2 rfl
  symm := fun _ _ h => beq_iff_eq.2 (beq_iff_eq.1 h).symm
  trans := fun _ _ _ h h' => beq_iff_eq.2 ((beq_iff_eq.1 h).trans (beq_iff_eq.1 h'))
  hash := fun _ _ h => congrArg hashFn (beq_iff_eq.1 h)

/-- The queue holds the numbers of a set, and has memory for `nbSrcs` of them. -/
structure Holds (hashFn : Nat → UInt64) (nbSrcs : Nat) (pq : PriorityQueue) (s : Finset Nat) :
    Prop where
  ordered : BinaryHeap.Ordered pq.heap.length (cell pq.heap)
  nodup : pq.heap.Nodup
  holding : Table.Holding (pqPolicy hashFn) pq.set pq.heap
  mem : ∀ v, v ∈ pq.heap ↔ v ∈ s
  table : nbSrcs ≤ pq.set.tableCapacity
  chain : nbSrcs ≤ pq.set.chainCapacity

variable {nbSrcs : Nat} {pq : PriorityQueue} {s : Finset Nat}

theorem Holds.length_eq (h : Holds hashFn nbSrcs pq s) : pq.heap.length = s.card := by
  have hs : pq.heap.toFinset = s := Finset.ext fun v => List.mem_toFinset.trans (h.mem v)
  rw [← hs, List.toFinset_card_of_nodup h.nodup]

theorem Holds.tableSize_eq (h : Holds hashFn nbSrcs pq s) : pq.set.tableSize = s.card := by
  obtain ⟨buckets, free, hwf, hperm⟩ := h.holding
  rw [hwf.size, hperm.length_eq, h.length_eq]

/-- **`PQ_init`** makes an empty queue, or there was no memory for it. -/
theorem pqInit_holds (hpos : 0 < nbSrcs) (hle : nbSrcs ≤ HEAP_SIZE) :
    ∃ ok pq, pqInit hashFn a nbSrcs = some (ok, pq) ∧ (ok = true → Holds hashFn nbSrcs pq ∅) ∧
      (ok = false → ∃ i, a.grants i = false) := by
  obtain ⟨ok, set, hrun, hholding, -, -, htable, hchain, hrefused⟩ :=
    Table.reserve_spec (a := a) (Table.create_wf (nbSrcs + 1)) (pqPolicy_lawful hashFn) nbSrcs true
  refine ⟨ok, ⟨[], set⟩, ?_, fun hok => ?_, fun hbad => ?_⟩
  · rw [pqInit, if_pos hle, hrun]
    rfl
  · exact ⟨fun i hi => absurd hi (Nat.not_lt_zero i), List.nodup_nil, hholding,
      fun v => ⟨nofun, fun hv => absurd hv (Finset.notMem_empty v)⟩, htable hok,
      hchain hok rfl hpos⟩
  · rcases hrefused hbad with hmax | ⟨i, -, -, hi⟩ | hmemory
    · have hcap : min (nbSrcs + 1) Table.MAX_CAPACITY < nbSrcs := hmax
      rw [Table.MAX_CAPACITY] at hcap
      rw [HEAP_SIZE] at hle
      omega
    · exact ⟨i, hi⟩
    · exact absurd hmemory (show ¬ 2 ^ 64 ≤ 8 * 2 ^ 31 by decide)

/-- **`PQ_insert`** adds a number, with room for it. -/
theorem pqInsert_holds (h : Holds hashFn nbSrcs pq s) (hle : nbSrcs ≤ HEAP_SIZE)
    (hroom : s.card < nbSrcs) (val : Nat) :
    ∃ pq', pqInsert hashFn a pq val = some pq' ∧ Holds hashFn nbSrcs pq' (insert val s) := by
  have hsize := h.tableSize_eq
  have hlength := h.length_eq
  have htable := h.table
  have hchain := h.chain
  obtain ⟨buckets, free, hwf, hperm⟩ := h.holding
  obtain ⟨res, set, hrun, hinserted, hlater, -, hquiet⟩ :=
    Table.insert_spec (a := a) hwf (pqPolicy_lawful hashFn) val
  have hbad := (hquiet (by omega) (by omega)).2
  have htable' := Nat.le_trans htable hlater.tableCapacity
  have hchain' := Nat.le_trans hchain hlater.chainCapacity
  rw [pqInsert, if_pos ⟨by omega, by omega⟩, Table.insertVal, hrun]
  simp only [Option.bind_eq_bind, Option.bind_some]
  cases hinserted.perm hperm with
  | @present place e t he heq hplace hholding =>
    have hval : val = e := beq_iff_eq.1 heq
    have hmem : val ∈ s := (h.mem val).1 (hval ▸ he)
    refine ⟨{ pq with set := set }, rfl, ?_⟩
    rw [Finset.insert_eq_of_mem hmem]
    exact ⟨h.ordered, h.nodup, hholding, h.mem, htable', hchain'⟩
  | @added place t hnew hplace hholding =>
    have hval : val ∉ pq.heap := fun hmem => by
      have hapart : (val == val) = false := hnew val hmem
      rw [beq_self_eq_true] at hapart
      exact Bool.noConfusion hapart
    have hlast : (pq.heap ++ [val]).length = pq.heap.length + 1 := List.length_append
    have hpush : BinaryHeap.OrderedUpTo (pq.heap ++ [val]).length (cell (pq.heap ++ [val]))
        pq.heap.length := by
      rw [hlast]
      refine h.ordered.push fun i hi => ?_
      rw [cell_eq hi, cell_eq (by omega), List.getElem_append_left hi]
    obtain ⟨hheap, hordered⟩ := heapifyUp_spec _ _ (by omega) hpush
    have hcons : (heapifyUp (pq.heap ++ [val]) pq.heap.length).Perm (val :: pq.heap) :=
      hheap.trans List.perm_append_comm
    refine ⟨⟨heapifyUp (pq.heap ++ [val]) pq.heap.length, set⟩, rfl, ?_,
      hcons.nodup_iff.2 (List.nodup_cons.2 ⟨hval, h.nodup⟩), hholding.perm hcons.symm,
      fun v => ?_, htable', hchain'⟩
    · rw [← hheap.length_eq] at hordered
      exact hordered
    · rw [hcons.mem_iff, List.mem_cons, Finset.mem_insert, h.mem]
  | badAlloc _ => exact absurd hbad (by decide)

theorem perm_take_set {heap : List Nat} (hpos : 0 < heap.length) :
    heap.Perm (cell heap 0 ::
      (heap.set 0 (cell heap (heap.length - 1))).take (heap.length - 1)) := by
  obtain ⟨x, tail, rfl⟩ := List.exists_cons_of_length_pos hpos
  rcases List.eq_nil_or_concat' tail with rfl | ⟨mid, last, rfl⟩
  · exact List.Perm.refl _
  · have hlast : cell (x :: (mid ++ [last])) ((x :: (mid ++ [last])).length - 1) = last := by
      rw [cell, List.getD, List.length_cons, Nat.add_sub_cancel, List.length_append,
        List.length_singleton, List.getElem?_cons_succ, List.getElem?_concat_length,
        Option.getD_some]
    rw [hlast, List.set_cons_zero, List.length_cons, Nat.add_sub_cancel, List.length_append,
      List.length_singleton, List.take_succ_cons, List.take_left]
    exact List.Perm.cons x (@List.perm_append_comm _ mid [last])

/-- **`PQ_popMin`** takes the least number out. -/
theorem pqPopMin_holds (h : Holds hashFn nbSrcs pq s) (hne : pq.heap.length ≠ 0) :
    ∃ min pq', pqPopMin hashFn pq = some (min, pq') ∧ min ∈ s ∧ (∀ v ∈ s, min ≤ v) ∧
      Holds hashFn nbSrcs pq' (s.erase min) := by
  have hpos : 0 < pq.heap.length := Nat.pos_of_ne_zero hne
  have hmem : cell pq.heap 0 ∈ pq.heap := by
    rw [cell_eq hpos]
    exact List.getElem_mem hpos
  have hleast : ∀ v ∈ s, cell pq.heap 0 ≤ v := fun v hv => by
    obtain ⟨i, hi, rfl⟩ := List.getElem_of_mem ((h.mem v).2 hv)
    rw [← cell_eq hi]
    exact h.ordered.root_le i hi
  have htable := h.table
  have hchain := h.chain
  obtain ⟨buckets, free, hwf, hperm⟩ := h.holding
  obtain ⟨ok, set, hrun, herased, hlater, -⟩ :=
    Table.erase_spec hwf (pqPolicy_lawful hashFn) (cell pq.heap 0)
  have htable' := Nat.le_trans htable hlater.tableCapacity
  have hchain' := Nat.le_trans hchain hlater.chainCapacity
  rw [pqPopMin, if_pos hpos]
  simp only [Table.eraseVal, hrun, Option.bind_eq_bind, Option.bind_some]
  cases herased with
  | absent hall _ =>
    have hself : (cell pq.heap 0 == cell pq.heap 0) = false := hall _ (hperm.mem_iff.2 hmem)
    rw [beq_self_eq_true] at hself
    exact Bool.noConfusion hself
  | @erased t e es' hes heq hholding =>
    have he : cell pq.heap 0 = e := beq_iff_eq.1 heq
    subst he
    have htail : pq.heap.Perm (cell pq.heap 0 :: es') := hperm.symm.trans hes
    have hrest := (perm_take_set hpos).symm.trans htail |>.cons_inv
    generalize hdef : (pq.heap.set 0 (cell pq.heap (pq.heap.length - 1))).take
      (pq.heap.length - 1) = rest at hrest
    have hnodup := (hes.symm.trans hperm).symm.nodup_iff.1 h.nodup
    rw [List.nodup_cons] at hnodup
    have hmem' : ∀ v, v ∈ es' ↔ v ∈ s.erase (cell pq.heap 0) := fun v => by
      rw [Finset.mem_erase, ← h.mem, htail.mem_iff, List.mem_cons]
      refine ⟨fun hv => ⟨fun heq => hnodup.1 (heq ▸ hv), Or.inr hv⟩, fun hv => ?_⟩
      exact hv.2.resolve_left hv.1
    by_cases hsize : pq.heap.length - 1 > 0
    · have hlength : rest.length = pq.heap.length - 1 := by
        rw [← hdef, List.length_take, List.length_set]
        omega
      have hdown : BinaryHeap.OrderedDownFrom rest.length (cell rest) 0 := by
        refine (h.ordered.take (by omega)).replace fun i hi hzero => ?_
        rw [cell, List.getD, ← hdef, List.getElem?_take_of_lt (hlength ▸ hi),
          List.getElem?_set_ne (Ne.symm hzero)]
        rfl
      obtain ⟨hheap, hordered⟩ := heapifyDown_spec rest 0 (by omega) hdown
      rw [if_pos rfl, if_pos hsize]
      refine ⟨_, _, rfl, (h.mem _).1 hmem, hleast, ?_, ?_, ?_, fun v => ?_, htable', hchain'⟩
      · rw [← hheap.length_eq] at hordered
        exact hordered
      · exact (hheap.trans hrest).nodup_iff.2 hnodup.2
      · exact hholding.perm (hheap.trans hrest).symm
      · rw [(hheap.trans hrest).mem_iff]
        exact hmem' v
    · have hzero : pq.heap.length - 1 = 0 := Nat.eq_zero_of_not_pos hsize
      rw [← hdef, hzero, List.take_zero] at hrest
      rw [if_pos rfl, if_neg hsize]
      refine ⟨_, _, rfl, (h.mem _).1 hmem, hleast, fun i hi => absurd hi (Nat.not_lt_zero i),
        List.nodup_nil, hholding.perm hrest.symm, fun v => ?_, htable', hchain'⟩
      rw [hrest.mem_iff]
      exact hmem' v

end

end OpenZL.Codecs.MergeSorted
