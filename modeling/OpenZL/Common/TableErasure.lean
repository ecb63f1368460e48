import OpenZL.Common.TableOperations

/-!
# Erasure, clearing and iteration

Principal results: `erase_spec`, `clear_spec`, `iterNext_spec`, `iterate_spec`.
-/

namespace OpenZL.Common.Table

open OpenZL.Lib

variable {κ E : Type} {p : Policy κ E} {a : Allocator E}

/-- What an erasure answers, and the entries held after it. -/
inductive Erased (p : Policy κ E) (key : κ) (es : List E) : Bool → GenericTable E → Prop
  | absent {t : GenericTable E} : (∀ e ∈ es, p.eqFn key (p.key e) = false) → Holding p t es →
      Erased p key es false t
  | erased {t : GenericTable E} {e : E} {es' : List E} : es.Perm (e :: es') →
      p.eqFn key (p.key e) = true → Holding p t es' → Erased p key es true t

section erasure

variable {t : GenericTable E} {buckets : List (Content E)} {free : List (Nat × E)}
  {i fuel : Nat} {head : E} {done remaining : List (Nat × E)}

theorem eraseFrom_spec (h : Threaded t buckets free []) (key : κ)
    (hc : buckets[i]? = some (.full head (done ++ remaining))) (hfuel : remaining.length < fuel) :
    ((∀ e ∈ remaining.map Prod.snd, p.eqFn key (p.key e) = false) ∧
      eraseFrom p key fuel (placeOf i done) t = some (false, t)) ∨
    ∃ front k e back t', remaining = front ++ (k, e) :: back ∧ p.eqFn key (p.key e) = true ∧
      eraseFrom p key fuel (placeOf i done) t = some (true, t') ∧
      Threaded t' (buckets.set i (.full head (done ++ front ++ back))) ((k, e) :: free) [] ∧
      Rearranged { t with tableSize := t.tableSize - 1 } t' := by
  induction fuel generalizing done remaining with
  | zero => omega
  | succ fuel ih =>
    have hnode := h.node hc
    rw [eraseFrom]
    simp only [hnode, Option.bind_eq_bind, Option.bind_some]
    cases remaining with
    | nil => exact Or.inl ⟨nofun, by simp⟩
    | cons s remaining =>
      obtain ⟨k, e⟩ := s
      have hne := h.nextOf_ne hc
      have hc' : buckets[i]? = some (.full head ((done ++ [(k, e)]) ++ remaining)) := by
        rwa [List.append_assoc]
      have hnode' := h.node hc'
      rw [placeOf_concat, lastOf_concat] at hnode'
      cases heq : p.eqFn key (p.key e) with
      | true =>
        obtain ⟨t₁, t₂, hw₁, hw₂, hthreaded, hframe⟩ := h.unlink hc
        refine Or.inr ⟨[], k, e, remaining,
          { t₂ with chainFreeList := k, tableSize := t₂.tableSize - 1 }, rfl, heq, ?_, ?_, ?_⟩
        · simp [hne, hnode', heq, hw₁, hw₂]
        · rw [List.append_nil]
          exact hthreaded.congr rfl rfl rfl rfl rfl rfl
        · rw [hframe]
          exact ⟨rfl, rfl, rfl, rfl, rfl, rfl⟩
      | false =>
        have hstep := ih hc' (by simpa using hfuel)
        rw [placeOf_concat] at hstep
        rcases hstep with ⟨hall, hrun⟩ | ⟨front, l, x, back, t', rfl, hx, hrun, hthreaded, hframe⟩
        · refine Or.inl ⟨List.forall_mem_cons.2 ⟨heq, hall⟩, ?_⟩
          simpa [hne, hnode', heq] using hrun
        · refine Or.inr ⟨(k, e) :: front, l, x, back, t', rfl, hx, ?_, ?_, hframe⟩
          · simpa [hne, hnode', heq] using hrun
          · rw [List.append_assoc] at hthreaded
            simpa using hthreaded

/-- **`GenericTable_erase`** erases the entry of the key, if there is one. -/
theorem erase_spec (h : Wf p t buckets free) (hp : p.Lawful) (key : κ) :
    ∃ ok t', erase p t key = some (ok, t') ∧
      Erased p key (buckets.flatMap Content.entries) ok t' ∧ Later t t' ∧
      t'.allocations = t.allocations := by
  have hwf := h
  unfold erase
  by_cases hnil : t.table = []
  · rw [if_pos hnil]
    have hb := h.table_eq_nil_iff.1 hnil
    subst hb
    exact ⟨false, t, rfl, .absent nofun ⟨[], free, h, List.Perm.refl _⟩, Later.refl t, rfl⟩
  · have hpos := h.buckets_pos hnil
    obtain ⟨c, hc, hall⟩ := h.bucketOf hp hpos key
    have habsent : (∀ e ∈ c.entries, p.eqFn key (p.key e) = false) →
        Erased p key (buckets.flatMap Content.entries) false t := by
      intro hbucket
      refine .absent (fun e he => ?_) ⟨buckets, free, hwf, List.Perm.refl _⟩
      cases heq : p.eqFn key (p.key e) with
      | false => rfl
      | true => rw [hbucket e (hall e he heq)] at heq; cases heq
    rw [if_neg hnil]
    generalize getTableBucket p t key = i at hc
    cases c with
    | empty =>
      obtain ⟨b, hb, hnext⟩ := h.threaded.bucketAt_empty hc
      exact ⟨false, t, by simp [hb, hnext], habsent nofun, Later.refl t, rfl⟩
    | full head rest =>
      have hnode := h.threaded.node (Content.at_head hc)
      have hne := h.threaded.nextOf_ne_bucketEmpty (Content.at_head hc)
      have hfuel := h.threaded.length_rest_le hc
      simp only [placeOf_nil, lastOf_nil] at hnode
      simp only [hnode, Option.bind_eq_bind, Option.bind_some, if_neg hne]
      cases heq : p.eqFn key (p.key head) with
      | true =>
        cases rest with
        | nil =>
          obtain ⟨t₁, hw, hthreaded, hframe⟩ := h.threaded.clearBucket hc
          obtain ⟨hwf', hperm⟩ := h.remove hp hc
            (hthreaded.congr rfl rfl rfl rfl rfl rfl :
              Threaded { t₁ with tableSize := t₁.tableSize - 1 } _ _ [])
              (List.Perm.refl _) (by rw [hframe])
            (by rw [hframe]) (by rw [hframe]) (by rw [hframe])
          refine ⟨true, { t₁ with tableSize := t₁.tableSize - 1 }, ?_,
            .erased hperm heq ⟨_, _, hwf', List.Perm.refl _⟩, ?_, ?_⟩
          · simp [hw]
          · rw [hframe]
            exact ⟨Nat.le_refl _, Nat.le_refl _, Nat.le_refl _, rfl⟩
          · rw [hframe]
        | cons s rest =>
          obtain ⟨k, e⟩ := s
          have hne := h.threaded.nextOf_ne (Content.at_head hc)
          obtain ⟨t₁, t₂, hget, hw₁, hw₂, hthreaded, hframe₁, hframe⟩ := h.threaded.popHead hc
          have hfree : t₁.chainFreeList = t.chainFreeList := by rw [hframe₁]
          obtain ⟨hwf', hperm⟩ := h.remove hp hc
            (hthreaded.congr rfl rfl rfl rfl rfl rfl :
              Threaded { t₂ with chainFreeList := k, tableSize := t₂.tableSize - 1 } _ _ [])
            (List.Perm.refl _) (by rw [hframe])
            (by rw [hframe]) (by rw [hframe]) (by rw [hframe])
          refine ⟨true, { t₂ with chainFreeList := k, tableSize := t₂.tableSize - 1 }, ?_,
            .erased hperm heq ⟨_, _, hwf', List.Perm.refl _⟩, ?_, ?_⟩
          · simp [hne, hget, hw₁, hfree, hw₂]
          · rw [hframe]
            exact ⟨Nat.le_refl _, Nat.le_refl _, Nat.le_refl _, rfl⟩
          · rw [hframe]
      | false =>
        have hwalk := eraseFrom_spec (p := p) h.threaded key (Content.at_head hc)
          (Nat.lt_succ_of_le hfuel)
        simp only [placeOf_nil, List.nil_append] at hwalk
        rcases hwalk with ⟨hapart, hrun⟩ | ⟨front, k, e, back, t', rfl, hx, hrun, hthreaded, hre⟩
        · exact ⟨false, t, by simpa using hrun,
            habsent (List.forall_mem_cons.2 ⟨heq, hapart⟩), Later.refl t, rfl⟩
        · have hentries : (Content.full head (front ++ (k, e) :: back)).entries.Perm
              (e :: (Content.full head (front ++ back)).entries) := by
            simp only [Content.entries, List.map_append, List.map_cons]
            exact (List.perm_middle.cons head).trans (List.Perm.swap e head _)
          obtain ⟨hwf', hperm⟩ := h.remove hp hc hthreaded hentries hre.tableMask
            hre.tableCapacity hre.maxCapacity hre.tableSize
          exact ⟨true, t', by simpa using hrun, .erased hperm hx ⟨_, _, hwf', List.Perm.refl _⟩,
            ⟨hre.tableCapacity.symm.le, hre.chainCapacity.symm.le, hre.allocations.symm.le,
              hre.maxCapacity⟩, hre.allocations⟩

/-- **`GenericTable_clear`** leaves nothing, and keeps the memory. -/
theorem clear_spec (h : Wf p t buckets free) : Holding p (clear t) [] := by
  have hentries : (buckets.map fun _ => (Content.empty : Content E)).flatMap Content.entries = [] := by
    rw [List.flatMap_map]
    exact List.flatMap_eq_nil_iff.2 fun _ _ => rfl
  have hslots : (buckets.map fun _ => (Content.empty : Content E)).flatMap Content.slots = [] := by
    rw [List.flatMap_map]
    exact List.flatMap_eq_nil_iff.2 fun _ _ => rfl
  refine ⟨buckets.map fun _ => .empty, [], ?_, by rw [hentries]⟩
  refine
    { threaded :=
        { length := ?_
          bucket := ?_
          freeList := rfl
          slots := by rw [hslots]; exact List.Perm.refl _
          chainSize_le := Nat.zero_le _
          chain_length := h.threaded.chain_length
          chainCapacity_le := h.threaded.chainCapacity_le
          maxCapacity_le := h.threaded.maxCapacity_le }
      placed := ?_
      distinct := by rw [hentries]; exact List.Pairwise.nil
      size := by rw [hentries]; rfl
      size_le := Nat.zero_le _
      capacity_le := h.capacity_le
      shape := by rw [List.length_map]; exact h.shape }
  · rw [clear, List.length_mapIdx, List.length_map, h.threaded.length]
  · intro i b c hb hc
    rw [List.getElem?_map, Option.map_eq_some_iff] at hc
    obtain ⟨d, hd, rfl⟩ := hc
    have hlt := (List.getElem?_eq_some_iff.1 hd).1
    rw [clear, List.getElem?_mapIdx, Option.map_eq_some_iff] at hb
    obtain ⟨b', hb', rfl⟩ := hb
    rw [h.shape.getTableSize_eq, if_pos hlt]
    rfl
  · intro i c hc e he
    rw [List.getElem?_map, Option.map_eq_some_iff] at hc
    obtain ⟨d, hd, rfl⟩ := hc
    cases he

end erasure

/-- The iterator has `es` still to yield. -/
def Stands (buckets : List (Content E)) (it : Iter) (es : List E) : Prop :=
  match it.bucket with
  | none => es = []
  | some place => ∃ head done rest, buckets[it.index]? = some (.full head (done ++ rest)) ∧
      place = placeOf it.index done ∧
      es = lastOf head done ::
        (rest.map Prod.snd ++ (buckets.drop (it.index + 1)).flatMap Content.entries)

section iteration

variable {t : GenericTable E} {buckets : List (Content E)} {free : List (Nat × E)} {it : Iter}
  {es : List E}

theorem Shape.last_bucket {n i : Nat} (h : Shape t n) (hi : i < n) :
    i = t.tableMask ↔ i + 1 = n := by
  rcases h with ⟨rfl, -, -⟩ | ⟨-, hmask, -⟩
  · exact absurd hi (Nat.not_lt_zero _)
  · omega

variable (h : Wf p t buckets free)

include h

theorem skipToNonEmptyBucket_spec (fuel i : Nat) (hi : i < buckets.length)
    (hfuel : buckets.length ≤ i + fuel) :
    ∃ it, skipToNonEmptyBucket t fuel i (.inline i) = some it ∧
      Stands buckets it ((buckets.drop i).flatMap Content.entries) := by
  induction fuel generalizing i with
  | zero => omega
  | succ fuel ih =>
    have hc := List.getElem?_eq_getElem hi
    rw [List.drop_eq_getElem_cons hi, List.flatMap_cons]
    generalize buckets[i] = c at hc ⊢
    rw [skipToNonEmptyBucket]
    cases c with
    | empty =>
      obtain ⟨b, hb, hnext⟩ := h.threaded.bucketAt_empty hc
      simp only [hb, Option.bind_eq_bind, Option.bind_some, hnext, ne_eq, not_true_eq_false,
        if_false, Content.entries, List.nil_append, h.shape.last_bucket hi]
      by_cases hlast : i + 1 = buckets.length
      · rw [if_pos hlast, List.drop_eq_nil_of_le (by omega)]
        exact ⟨⟨none, i⟩, rfl, rfl⟩
      · rw [if_neg hlast]
        exact ih (i + 1) (by omega) (by omega)
    | full head rest =>
      have hnode := h.threaded.node (Content.at_head hc)
      have hne := h.threaded.nextOf_ne_bucketEmpty (Content.at_head hc)
      simp only [placeOf_nil, lastOf_nil] at hnode
      simp only [hnode, Option.bind_eq_bind, Option.bind_some, ne_eq, hne, not_false_eq_true,
        if_true]
      exact ⟨⟨some (.inline i), i⟩, rfl, head, [], rest, hc, rfl, rfl⟩

theorem iter_spec :
    ∃ it, iter t = some it ∧ Stands buckets it (buckets.flatMap Content.entries) := by
  unfold iter
  by_cases hnil : t.table = []
  · rw [if_pos hnil]
    have hb := h.table_eq_nil_iff.1 hnil
    subst hb
    exact ⟨⟨none, 0⟩, rfl, rfl⟩
  · rw [if_neg hnil, h.threaded.length]
    have hpos := h.buckets_pos hnil
    exact skipToNonEmptyBucket_spec h buckets.length 0 hpos (Nat.le_add_left _ _)

/-- **An iterator yields the next entry, and nothing after the last.** -/
theorem iterNext_spec (hit : Stands buckets it es) :
    ∃ it', iterNext t it = some (es.head?, it') ∧ Stands buckets it' es.tail := by
  obtain ⟨bucket, index⟩ := it
  cases bucket with
  | none =>
    have hnil : es = [] := hit
    subst hnil
    exact ⟨⟨none, index⟩, rfl, rfl⟩
  | some place =>
    obtain ⟨head, done, rest, hc, hplace, hes⟩ := hit
    dsimp only at hc hplace hes
    subst hplace hes
    have hnode := h.threaded.node hc
    have hi : index < buckets.length := (List.getElem?_eq_some_iff.1 hc).1
    unfold iterNext
    simp only [hnode, Option.bind_eq_bind, Option.bind_some]
    cases rest with
    | nil =>
      simp only [nextOf_nil, ne_eq, not_true_eq_false, if_false, h.shape.last_bucket hi]
      by_cases hlast : index + 1 = buckets.length
      · rw [if_pos hlast, List.drop_eq_nil_of_le (by omega)]
        exact ⟨⟨none, index⟩, rfl, rfl⟩
      · rw [if_neg hlast]
        obtain ⟨it', hrun, hstands⟩ := skipToNonEmptyBucket_spec h t.table.length (index + 1)
          (by omega) (by rw [h.threaded.length]; omega)
        refine ⟨it', ?_, hstands⟩
        rw [hrun]
        rfl
    | cons s rest =>
      obtain ⟨k, e⟩ := s
      have hne := h.threaded.nextOf_ne hc
      simp only [nextOf_cons, ne_eq, hne, not_false_eq_true, if_true]
      refine ⟨_, rfl, head, done ++ [(k, e)], rest, ?_, ?_, ?_⟩
      · rwa [List.append_assoc]
      · rw [placeOf_concat]
      · rw [lastOf_concat]
        rfl

theorem iterateFrom_spec (hit : Stands buckets it es) {fuel : Nat} (hfuel : es.length < fuel) :
    iterateFrom t fuel it = some es := by
  induction fuel generalizing it es with
  | zero => omega
  | succ fuel ih =>
    obtain ⟨it', hrun, hit'⟩ := iterNext_spec h hit
    rw [iterateFrom, hrun]
    cases es with
    | nil => rfl
    | cons e es =>
      have hrest := ih hit' (by simpa using hfuel)
      simp only [List.tail_cons] at hrest
      simp [hrest]

theorem iterate_spec : iterate t = some (buckets.flatMap Content.entries) := by
  obtain ⟨it, hrun, hit⟩ := iter_spec h
  unfold iterate
  simp only [hrun, Option.bind_eq_bind, Option.bind_some]
  exact iterateFrom_spec h hit (by rw [h.size]; exact Nat.lt_succ_self _)

end iteration

end OpenZL.Common.Table
