import OpenZL.Codecs.MergeSortedQueue

/-!
# The merge of increasing runs

The queue holds the first value of each run that is left.

Principal results: `scanSrcs_eq`, `merge_merged`.
-/

namespace OpenZL.Codecs.MergeSorted

open OpenZL.Common

variable {src : List Nat}

/-- The first values of some runs. -/
def headSet (srcs : List (List Nat)) : Finset Nat := (srcs.filterMap List.head?).toFinset

/-- A run after the round of the value `min`. -/
def advance (min : Nat) : List Nat → List Nat
  | [] => []
  | val :: src => if val = min then src else val :: src

theorem mem_headSet {srcs : List (List Nat)} {v : Nat} :
    v ∈ headSet srcs ↔ ∃ src, v :: src ∈ srcs := by
  rw [headSet, List.mem_toFinset, List.mem_filterMap]
  constructor
  · rintro ⟨src, hsrc, hv⟩
    obtain ⟨tail, rfl⟩ := List.head?_eq_some_iff.1 hv
    exact ⟨tail, hsrc⟩
  · rintro ⟨src, hsrc⟩
    exact ⟨v :: src, hsrc, rfl⟩

theorem card_headSet_le (srcs : List (List Nat)) : (headSet srcs).card ≤ srcs.length :=
  Nat.le_trans (List.toFinset_card_le _) (List.length_filterMap_le _ _)

theorem headSet_cons (val : Nat) (src : List Nat) (srcs : List (List Nat)) :
    headSet ((val :: src) :: srcs) = insert val (headSet srcs) := by
  rw [headSet, List.filterMap_cons_some (show List.head? (val :: src) = some val from rfl),
    List.toFinset_cons]
  rfl

theorem mem_advance {min v : Nat} (hsorted : src.Pairwise (· < ·)) (hle : ∀ w ∈ src, min ≤ w) :
    v ∈ advance min src ↔ v ∈ src ∧ v ≠ min := by
  cases src with
  | nil => exact ⟨nofun, fun h => absurd h.1 List.not_mem_nil⟩
  | cons val src =>
    rw [List.pairwise_cons] at hsorted
    have hmin := hle val List.mem_cons_self
    rw [advance]
    split
    · rename_i heq
      rw [List.mem_cons]
      constructor
      · intro hv
        have := hsorted.1 v hv
        exact ⟨Or.inr hv, by omega⟩
      · exact fun hv => hv.1.resolve_left fun h => hv.2 (h.trans heq)
    · refine ⟨fun hv => ⟨hv, fun h => ?_⟩, fun hv => hv.1⟩
      rcases List.mem_cons.1 hv with rfl | hv
      · exact absurd h (by assumption)
      · have := hsorted.1 v hv
        omega

theorem pairwise_advance {min : Nat} (hsorted : src.Pairwise (· < ·)) :
    (advance min src).Pairwise (· < ·) := by
  cases src with
  | nil => exact hsorted
  | cons val src =>
    rw [advance]
    split
    · exact (List.pairwise_cons.1 hsorted).2
    · exact hsorted

theorem length_advance_le (min : Nat) (src : List Nat) : (advance min src).length ≤ src.length := by
  cases src with
  | nil => exact Nat.le_refl _
  | cons val src =>
    rw [advance]
    split
    · exact Nat.le_succ _
    · exact Nat.le_refl _

theorem length_flatten_advance_le (min : Nat) (srcs : List (List Nat)) :
    (srcs.map (advance min)).flatten.length ≤ srcs.flatten.length := by
  induction srcs with
  | nil => exact Nat.le_refl _
  | cons src srcs ih =>
    have hle := length_advance_le min src
    rw [List.map_cons, List.flatten_cons, List.length_append, List.flatten_cons,
      List.length_append]
    omega

theorem le_of_headSet {min : Nat} (hsorted : src.Pairwise (· < ·))
    (hhead : ∀ w tail, src = w :: tail → min ≤ w) : ∀ v ∈ src, min ≤ v := by
  cases src with
  | nil => exact nofun
  | cons w tail =>
    have hw := hhead w tail rfl
    rw [List.forall_mem_cons]
    refine ⟨hw, fun v hv => ?_⟩
    have := (List.pairwise_cons.1 hsorted).1 v hv
    omega

theorem eq_cons_of_mem {min : Nat} (hsorted : src.Pairwise (· < ·)) (hle : ∀ v ∈ src, min ≤ v)
    (hmem : min ∈ src) : ∃ tail, src = min :: tail := by
  cases src with
  | nil => exact absurd hmem List.not_mem_nil
  | cons w tail =>
    rcases List.mem_cons.1 hmem with rfl | hmem
    · exact ⟨tail, rfl⟩
    · have hlt := (List.pairwise_cons.1 hsorted).1 min hmem
      have hge := hle w List.mem_cons_self
      omega

section

variable {hashFn : Nat → UInt64} {a : Table.Allocator Nat} {nbSrcs : Nat} {srcs : List (List Nat)}

theorem insertHeads_holds (hle : nbSrcs ≤ HEAP_SIZE) : ∀ (srcs : List (List Nat))
    {pq : PriorityQueue} {s : Finset Nat}, Holds hashFn nbSrcs pq s →
    s.card + srcs.length ≤ nbSrcs →
    ∃ pq', insertHeads hashFn a srcs pq = some pq' ∧ Holds hashFn nbSrcs pq' (s ∪ headSet srcs)
  | [], pq, s, h, _ => ⟨pq, rfl, by rwa [show headSet [] = ∅ from rfl, Finset.union_empty]⟩
  | [] :: srcs, pq, s, h, hroom => by
      rw [List.length_cons] at hroom
      obtain ⟨pq', hrun, hholds⟩ := insertHeads_holds hle srcs h (by omega)
      exact ⟨pq', hrun, hholds⟩
  | (val :: src) :: srcs, pq, s, h, hroom => by
      rw [List.length_cons] at hroom
      obtain ⟨pq₁, hinsert, h₁⟩ := pqInsert_holds (a := a) h hle (by omega) val
      have hcard := Finset.card_insert_le val s
      obtain ⟨pq', hrun, hholds⟩ := insertHeads_holds hle srcs h₁ (by omega)
      refine ⟨pq', ?_, ?_⟩
      · rw [insertHeads, hinsert]
        exact hrun
      · rw [headSet_cons, Finset.union_insert, ← Finset.insert_union]
        exact hholds

theorem startsAt_cons {min i j : Nat} :
    (∃ k tail, (src :: srcs)[k]? = some (min :: tail) ∧ j = i + k) ↔
      ((∃ tail, src = min :: tail) ∧ j = i) ∨
        ∃ k tail, srcs[k]? = some (min :: tail) ∧ j = i + 1 + k := by
  constructor
  · rintro ⟨k, tail, hk, rfl⟩
    cases k with
    | zero => exact Or.inl ⟨⟨tail, Option.some.inj hk⟩, rfl⟩
    | succ k => exact Or.inr ⟨k, tail, hk, by omega⟩
  · rintro (⟨⟨tail, rfl⟩, rfl⟩ | ⟨k, tail, hk, rfl⟩)
    · exact ⟨0, tail, rfl, rfl⟩
    · exact ⟨k + 1, tail, hk, by omega⟩

/-- **One round**: the bitset says which runs start with the value, and these move on. The queue
holds `done`, from the runs before, besides the first values of `srcs`. -/
theorem scanSrcs_eq (hle : nbSrcs ≤ HEAP_SIZE) {min : Nat} : ∀ (srcs : List (List Nat))
    (i bitset : Nat) (pq : PriorityQueue) (done : Finset Nat),
    (∀ src ∈ srcs, src.Pairwise (· < ·)) → (∀ src ∈ srcs, ∀ v ∈ src, min ≤ v) →
    min ∉ done → done.card ≤ i → i + srcs.length = nbSrcs →
    Holds hashFn nbSrcs pq (done ∪ (headSet srcs).erase min) →
    ∃ bitset' pq',
      scanSrcs hashFn a min srcs i bitset pq = some (bitset', srcs.map (advance min), pq') ∧
      Holds hashFn nbSrcs pq' (done ∪ headSet (srcs.map (advance min))) ∧
      ∀ j, bitset'.testBit j = true ↔
        bitset.testBit j = true ∨ ∃ k tail, srcs[k]? = some (min :: tail) ∧ j = i + k
  | [], i, bitset, pq, done, _, _, _, _, _, h => by
      refine ⟨bitset, pq, rfl, ?_, fun j => ⟨Or.inl, fun hj => hj.resolve_right ?_⟩⟩
      · rw [show headSet [] = ∅ from rfl, Finset.erase_empty] at h
        exact h
      · rintro ⟨k, src, hk, -⟩
        exact absurd hk (by rw [List.getElem?_nil]; exact nofun)
  | src :: srcs, i, bitset, pq, done, hsorted, hmin, hdone, hcard, hlen, h => by
      rw [List.length_cons] at hlen
      rw [List.forall_mem_cons] at hsorted hmin
      match src, hsorted, hmin with
      | [], hsorted, hmin =>
          obtain ⟨bitset', pq', hrun, hholds, hbits⟩ := scanSrcs_eq hle srcs (i + 1) bitset pq done
            hsorted.2 hmin.2 hdone (by omega) (by omega) h
          refine ⟨bitset', pq', ?_, hholds, fun j => ?_⟩
          · rw [scanSrcs, hrun]
            rfl
          · rw [hbits, startsAt_cons]
            refine or_congr Iff.rfl (or_iff_right ?_).symm
            rintro ⟨⟨tail, htail⟩, -⟩
            exact absurd htail nofun
      | val :: src, hsorted, hmin =>
          have hval := hmin.1 val List.mem_cons_self
          rw [headSet_cons] at h
          by_cases heq : val = min
          · subst heq
            rw [Finset.erase_insert_eq_erase] at h
            have hbit : ∀ j, (bitset ||| 1 <<< i).testBit j = true ↔
                bitset.testBit j = true ∨ j = i := fun j => by
              rw [Nat.testBit_or, Bool.or_eq_true, Nat.one_shiftLeft, Nat.testBit_two_pow,
                decide_eq_true_iff, @eq_comm _ i]
            match src, hsorted with
            | [], hsorted =>
                obtain ⟨bitset', pq', hrun, hholds, hbits⟩ := scanSrcs_eq hle srcs (i + 1)
                  (bitset ||| 1 <<< i) pq done hsorted.2 hmin.2 hdone (by omega) (by omega) h
                refine ⟨bitset', pq', ?_, ?_, fun j => ?_⟩
                · rw [scanSrcs, if_neg (Nat.lt_irrefl _), if_pos rfl]
                  rw [hrun, List.map_cons, advance, if_pos rfl]
                  rfl
                · rw [List.map_cons, advance, if_pos rfl]
                  exact hholds
                · rw [hbits, hbit, startsAt_cons, or_assoc]
                  exact or_congr Iff.rfl (or_congr
                    ⟨fun hj => ⟨⟨_, rfl⟩, hj⟩, fun hj => hj.2⟩ Iff.rfl)
            | next :: src, hsorted =>
                have hnext : val < next :=
                  (List.pairwise_cons.1 hsorted.1).1 next List.mem_cons_self
                have hheads := Finset.card_erase_le (s := headSet srcs) (a := val)
                have hsrcs := card_headSet_le srcs
                have hunion := Finset.card_union_le done ((headSet srcs).erase val)
                have hdone' := Finset.card_insert_le next done
                obtain ⟨pq₁, hinsert, h₁⟩ := pqInsert_holds (a := a) h hle (by omega) next
                rw [← Finset.insert_union] at h₁
                obtain ⟨bitset', pq', hrun, hholds, hbits⟩ := scanSrcs_eq hle srcs (i + 1)
                  (bitset ||| 1 <<< i) pq₁ (insert next done) hsorted.2 hmin.2
                  (fun hmem => (Finset.mem_insert.1 hmem).elim (Nat.ne_of_lt hnext) hdone)
                  (by omega) (by omega) h₁
                refine ⟨bitset', pq', ?_, ?_, fun j => ?_⟩
                · rw [scanSrcs, if_neg (Nat.lt_irrefl _), if_pos rfl]
                  rw [if_pos hnext, hinsert]
                  simp only [Option.bind_eq_bind, Option.bind_some]
                  rw [hrun, List.map_cons, advance, if_pos rfl]
                  rfl
                · rw [List.map_cons, advance, if_pos rfl, headSet_cons, Finset.union_insert,
                    ← Finset.insert_union]
                  exact hholds
                · rw [hbits, hbit, startsAt_cons, or_assoc]
                  exact or_congr Iff.rfl (or_congr
                    ⟨fun hj => ⟨⟨_, rfl⟩, hj⟩, fun hj => hj.2⟩ Iff.rfl)
          · have hdone' := Finset.card_insert_le val done
            rw [Finset.erase_insert_of_ne heq, Finset.union_insert, ← Finset.insert_union] at h
            obtain ⟨bitset', pq', hrun, hholds, hbits⟩ := scanSrcs_eq hle srcs (i + 1) bitset pq
              (insert val done) hsorted.2 hmin.2
              (fun hmem => (Finset.mem_insert.1 hmem).elim (fun h => heq h.symm) hdone)
              (by omega) (by omega) h
            refine ⟨bitset', pq', ?_, ?_, fun j => ?_⟩
            · rw [scanSrcs.eq_def]
              dsimp only
              rw [if_neg (Nat.not_lt.2 hval), if_neg heq, hrun, List.map_cons, advance, if_neg heq]
              rfl
            · rw [List.map_cons, advance, if_neg heq, headSet_cons, Finset.union_insert,
                ← Finset.insert_union]
              exact hholds
            · rw [hbits, startsAt_cons]
              refine or_congr Iff.rfl (or_iff_right ?_).symm
              rintro ⟨⟨tail, htail⟩, -⟩
              exact heq (List.cons.inj htail).1

/-- What the merge of some runs is. -/
structure Merged (srcs : List (List Nat)) (rows : List (Nat × Nat)) : Prop where
  sorted : (rows.map Prod.snd).Pairwise (· < ·)
  mem : ∀ v, v ∈ rows.map Prod.snd ↔ ∃ src ∈ srcs, v ∈ src
  bits : ∀ row ∈ rows, ∀ i, row.1.testBit i = true ↔ ∃ src, srcs[i]? = some src ∧ row.2 ∈ src

theorem Merged.nil (h : ∀ src ∈ srcs, src = []) : Merged srcs [] where
  sorted := List.Pairwise.nil
  mem := fun _ => ⟨nofun, fun ⟨src, hsrc, hv⟩ => absurd (h src hsrc ▸ hv) List.not_mem_nil⟩
  bits := nofun

theorem Merged.cons {rows : List (Nat × Nat)} {min bitset : Nat}
    (hsorted : ∀ src ∈ srcs, src.Pairwise (· < ·)) (hle : ∀ src ∈ srcs, ∀ v ∈ src, min ≤ v)
    (hmin : min ∈ headSet srcs)
    (hbits : ∀ i, bitset.testBit i = true ↔ ∃ src, srcs[i]? = some src ∧ min ∈ src)
    (h : Merged (srcs.map (advance min)) rows) : Merged srcs ((bitset, min) :: rows) := by
  have hmem : ∀ v, v ∈ rows.map Prod.snd ↔ (∃ src ∈ srcs, v ∈ src) ∧ v ≠ min := fun v => by
    rw [h.mem]
    constructor
    · rintro ⟨src', hsrc', hv⟩
      obtain ⟨src, hsrc, rfl⟩ := List.mem_map.1 hsrc'
      have hv' := (mem_advance (hsorted src hsrc) (hle src hsrc)).1 hv
      exact ⟨⟨src, hsrc, hv'.1⟩, hv'.2⟩
    · rintro ⟨⟨src, hsrc, hv⟩, hne⟩
      exact ⟨_, List.mem_map_of_mem hsrc,
        (mem_advance (hsorted src hsrc) (hle src hsrc)).2 ⟨hv, hne⟩⟩
  refine ⟨?_, fun v => ?_, ?_⟩
  · rw [List.map_cons, List.pairwise_cons]
    refine ⟨fun v hv => ?_, h.sorted⟩
    obtain ⟨⟨src, hsrc, hv'⟩, hne⟩ := (hmem v).1 hv
    exact Nat.lt_of_le_of_ne (hle src hsrc v hv') (Ne.symm hne)
  · rw [List.map_cons, List.mem_cons, hmem]
    by_cases hv : v = min
    · obtain ⟨src, hsrc⟩ := mem_headSet.1 hmin
      exact ⟨fun _ => ⟨_, hsrc, hv ▸ List.mem_cons_self⟩, fun _ => Or.inl hv⟩
    · exact ⟨fun h => (h.resolve_left hv).1, fun h => Or.inr ⟨h, hv⟩⟩
  · rw [List.forall_mem_cons]
    refine ⟨hbits, fun row hrow i => (h.bits row hrow i).trans ?_⟩
    have hne : row.2 ≠ min := ((hmem row.2).1 (List.mem_map_of_mem hrow)).2
    rw [List.getElem?_map]
    constructor
    · rintro ⟨src', hsrc', hv⟩
      obtain ⟨src, hsrc, rfl⟩ := Option.map_eq_some_iff.1 hsrc'
      have hmem' := List.mem_of_getElem? hsrc
      exact ⟨src, hsrc, ((mem_advance (hsorted src hmem') (hle src hmem')).1 hv).1⟩
    · rintro ⟨src, hsrc, hv⟩
      have hmem' := List.mem_of_getElem? hsrc
      exact ⟨advance min src, by rw [hsrc]; rfl,
        (mem_advance (hsorted src hmem') (hle src hmem')).2 ⟨hv, hne⟩⟩

theorem length_flatten_advance {min : Nat} : ∀ {srcs : List (List Nat)}, min ∈ headSet srcs →
    (srcs.map (advance min)).flatten.length < srcs.flatten.length
  | [], h => absurd h (Finset.notMem_empty min)
  | src :: srcs, h => by
      have hle := length_advance_le min src
      rw [List.map_cons, List.flatten_cons, List.length_append, List.flatten_cons,
        List.length_append]
      by_cases hrest : min ∈ headSet srcs
      · have := length_flatten_advance hrest
        omega
      · have hrestle : (srcs.map (advance min)).flatten.length ≤ srcs.flatten.length :=
          length_flatten_advance_le min srcs
        obtain ⟨tail, htail⟩ := mem_headSet.1 h
        rcases List.mem_cons.1 htail with rfl | htail
        · rw [advance, if_pos rfl, List.length_cons]
          omega
        · exact absurd (mem_headSet.2 ⟨tail, htail⟩) hrest

theorem mergeLoop_merged (hle : nbSrcs ≤ HEAP_SIZE) {kBitsetWidth : Nat}
    (hwidth : nbSrcs ≤ kBitsetWidth * 8) :
    ∀ (room : Nat) (last : Option Nat) (srcs : List (List Nat)) (pq : PriorityQueue),
      srcs.length = nbSrcs → (∀ src ∈ srcs, src.Pairwise (· < ·)) →
      (∀ src ∈ srcs, ∀ v ∈ src, last.all (· < v) = true) → srcs.flatten.length ≤ room →
      Holds hashFn nbSrcs pq (headSet srcs) →
      ∃ rows, mergeLoop hashFn a kBitsetWidth room last srcs pq = some rows ∧ Merged srcs rows := by
  intro room
  induction room with
  | zero =>
    intro last srcs pq _ _ _ hroom h
    have hempty : ∀ src ∈ srcs, src = [] :=
      List.flatten_eq_nil_iff.1 (List.length_eq_zero_iff.1 (Nat.le_zero.1 hroom))
    have hzero : pq.heap.length = 0 := by
      rw [h.length_eq, Finset.card_eq_zero, Finset.eq_empty_iff_forall_notMem]
      intro v hv
      obtain ⟨tail, htail⟩ := mem_headSet.1 hv
      exact absurd (hempty _ htail) (List.cons_ne_nil v tail)
    exact ⟨[], by rw [mergeLoop, if_pos hzero], Merged.nil hempty⟩
  | succ room ih =>
    intro last srcs pq hlen hsorted hlast hroom h
    by_cases hzero : pq.heap.length = 0
    · have hempty : ∀ src ∈ srcs, src = [] := by
        rw [h.length_eq, Finset.card_eq_zero, Finset.eq_empty_iff_forall_notMem] at hzero
        intro src hsrc
        cases src with
        | nil => rfl
        | cons v tail => exact absurd (mem_headSet.2 ⟨tail, hsrc⟩) (hzero v)
      exact ⟨[], by rw [mergeLoop, if_pos hzero], Merged.nil hempty⟩
    · obtain ⟨min, pq₁, hpop, hmin, hleast, h₁⟩ := pqPopMin_holds h hzero
      have hbelow : ∀ src ∈ srcs, ∀ v ∈ src, min ≤ v := fun src hsrc v hv =>
        le_of_headSet (hsorted src hsrc) (fun w tail heq =>
          hleast w (mem_headSet.2 ⟨tail, heq ▸ hsrc⟩)) v hv
      obtain ⟨bitset, pq₂, hscan, h₂, hbits⟩ := scanSrcs_eq (a := a) hle srcs 0 0 pq₁ ∅ hsorted
        hbelow (Finset.notMem_empty min) (Nat.le_refl 0) ((Nat.zero_add _).trans hlen)
        (by rwa [Finset.empty_union])
      rw [Finset.empty_union] at h₂
      have hshorter := length_flatten_advance hmin
      obtain ⟨rows, hrun, hmerged⟩ := ih (some min) (srcs.map (advance min)) pq₂
        (by rw [List.length_map, hlen])
        (fun src' hsrc' => by
          obtain ⟨src, hsrc, rfl⟩ := List.mem_map.1 hsrc'
          exact pairwise_advance (hsorted src hsrc))
        (fun src' hsrc' v hv => by
          obtain ⟨src, hsrc, rfl⟩ := List.mem_map.1 hsrc'
          have hv' := (mem_advance (hsorted src hsrc) (hbelow src hsrc)).1 hv
          exact decide_eq_true (Nat.lt_of_le_of_ne (hbelow src hsrc v hv'.1) (Ne.symm hv'.2)))
        (by omega) h₂
      obtain ⟨tail, htail⟩ := mem_headSet.1 hmin
      refine ⟨(bitset % 2 ^ (8 * kBitsetWidth), min) :: rows, ?_,
        Merged.cons hsorted hbelow hmin (fun i => ?_) hmerged⟩
      · rw [mergeLoop, if_neg hzero]
        simp only [hpop, hscan, Option.bind_eq_bind, Option.bind_some]
        rw [if_pos (hlast _ htail min List.mem_cons_self), hrun]
        rfl
      · rw [Nat.testBit_mod_two_pow, Bool.and_eq_true, decide_eq_true_iff, hbits,
          Nat.zero_testBit]
        constructor
        · rintro ⟨-, hbit⟩
          obtain ⟨k, tail, hk, rfl⟩ := hbit.resolve_left nofun
          exact ⟨min :: tail, by rw [Nat.zero_add, hk], List.mem_cons_self⟩
        · rintro ⟨src, hsrc, hv⟩
          have hi := (List.getElem?_eq_some_iff.1 hsrc).1
          have hmem := List.mem_of_getElem? hsrc
          obtain ⟨tail, rfl⟩ := eq_cons_of_mem (hsorted src hmem) (hbelow src hmem) hv
          exact ⟨by omega, Or.inr ⟨i, tail, hsrc, (Nat.zero_add i).symm⟩⟩

/-- **The merge** of increasing runs, or there was no memory for it. -/
theorem merge_merged {nbElts kBitsetWidth : Nat} (hpos : 0 < srcs.length)
    (hle : srcs.length ≤ HEAP_SIZE) (hwidth : srcs.length ≤ kBitsetWidth * 8)
    (hwidth' : kBitsetWidth ≤ 8) (hsorted : ∀ src ∈ srcs, src.Pairwise (· < ·))
    (hroom : srcs.flatten.length ≤ nbElts) :
    (merge hashFn a nbElts srcs kBitsetWidth = some (.error .allocation) ∧
        ∃ i, a.grants i = false) ∨
      ∃ rows, merge hashFn a nbElts srcs kBitsetWidth = some (.ok rows) ∧ Merged srcs rows := by
  obtain ⟨ok, pq, hinit, hok, hbad⟩ := @pqInit_holds hashFn a _ hpos hle
  rw [merge, if_pos ⟨hwidth', hwidth⟩]
  simp only [hinit, Option.bind_eq_bind, Option.bind_some]
  cases ok with
  | false => exact Or.inl ⟨rfl, hbad rfl⟩
  | true =>
    obtain ⟨pq₁, hheads, h₁⟩ := insertHeads_holds (a := a) hle srcs (hok rfl)
      (by rw [Finset.card_empty, Nat.zero_add])
    rw [Finset.empty_union] at h₁
    obtain ⟨rows, hrun, hmerged⟩ := mergeLoop_merged (a := a) hle hwidth nbElts none srcs pq₁ rfl
      hsorted (fun _ _ _ _ => rfl) hroom h₁
    refine Or.inr ⟨rows, ?_, hmerged⟩
    rw [if_pos rfl, hheads]
    simp only [Option.bind_some]
    rw [hrun]
    rfl

end

end OpenZL.Codecs.MergeSorted
