import OpenZL.Common.TableLayout

/-!
# Linking and unlinking buckets

The ways an operation of the hash table moves one entry: into an empty bucket or out of one that
becomes empty, to the end of a chain or right behind its head, and out of the middle of a chain or
of its head.

Principal result: `Threaded.node`.
-/

namespace OpenZL.Common.Table

open OpenZL.Lib

variable {E : Type}

/-- The place of the last entry of a bucket whose chain is `done`. -/
def placeOf (i : Nat) (done : List (Nat × E)) : Place :=
  match done.getLast? with
  | none => .inline i
  | some (k, _) => .chained k

/-- The last entry of a bucket. -/
def lastOf (head : E) (done : List (Nat × E)) : E :=
  match done.getLast? with
  | none => head
  | some (_, e) => e

/-- The index of a list of chain slots. -/
def nextOf : List (Nat × E) → Nat
  | [] => NEXT_CHAIN_EMPTY
  | (k, _) :: _ => k

@[simp] theorem nextOf_nil : nextOf ([] : List (Nat × E)) = NEXT_CHAIN_EMPTY := rfl

@[simp] theorem nextOf_cons (k : Nat) (e : E) (rest : List (Nat × E)) :
    nextOf ((k, e) :: rest) = k := rfl

@[simp] theorem placeOf_nil (i : Nat) : placeOf i ([] : List (Nat × E)) = .inline i := rfl

@[simp] theorem placeOf_concat (i k : Nat) (e : E) (done : List (Nat × E)) :
    placeOf i (done ++ [(k, e)]) = .chained k := by
  simp [placeOf]

@[simp] theorem lastOf_nil (head : E) : lastOf head [] = head := rfl

@[simp] theorem lastOf_concat (head : E) (k : Nat) (e : E) (done : List (Nat × E)) :
    lastOf head (done ++ [(k, e)]) = e := by
  simp [lastOf]

theorem Seg.start_eq {cells : List (Bucket E)} {i : Nat} {slots : List (Nat × E)}
    (h : Seg cells i slots NEXT_CHAIN_EMPTY) : i = nextOf slots := by
  cases slots with
  | nil => exact h
  | cons s slots => exact h.1

theorem set_of_getElem? {α : Type} {l : List α} {i : Nat} {a : α} (h : l[i]? = some a) :
    l.set i a = l := by
  obtain ⟨hlt, rfl⟩ := List.getElem?_eq_some_iff.1 h
  exact List.set_getElem_self hlt

namespace Threaded

variable {t : GenericTable E} {buckets : List (Content E)} {free : List (Nat × E)}
  {pending : List Nat} {i k : Nat} {head e : E} {rest done remaining : List (Nat × E)}

section

variable (h : Threaded t buckets free pending)

include h

/-- **What the loops read**: the bucket before `remaining` names the first slot of it. -/
theorem node (hc : buckets[i]? = some (.full head (done ++ remaining))) :
    t.bucketAt (placeOf i done) = some ⟨lastOf head done, nextOf remaining⟩ := by
  obtain ⟨b, hb, hentry, hseg⟩ := h.getElem?_table hc
  rcases List.eq_nil_or_concat done with rfl | ⟨done, ⟨k, x⟩, rfl⟩
  · have hnext := Seg.start_eq hseg
    rw [placeOf_nil, lastOf_nil]
    change t.table[i]? = _
    rw [hb, ← hentry]
    exact congrArg (fun n => some (Cell.mk b.entry n)) hnext
  · rw [List.concat_eq_append] at hseg ⊢
    rw [List.append_assoc] at hseg
    obtain ⟨m, -, -, next, hget, hseg⟩ := seg_append.1 hseg
    rw [placeOf_concat, lastOf_concat]
    change t.chain[k]? = _
    rw [hget, Seg.start_eq hseg]
    rfl

theorem nextOf_ne (hc : buckets[i]? = some (.full head (done ++ (k, e) :: remaining))) :
    k ≠ NEXT_CHAIN_EMPTY := by
  have hmem : k ∈ buckets.flatMap Content.slots :=
    mem_flatMap_of_getElem? hc (by simp [Content.slots])
  have := h.lt_of_mem (List.mem_append_left _ hmem)
  have := h.chainSize_le
  have := h.chain_lt
  omega

theorem nextOf_ne_bucketEmpty (hc : buckets[i]? = some (.full head (done ++ remaining))) :
    nextOf remaining ≠ NEXT_BUCKET_EMPTY := by
  cases remaining with
  | nil => simp [nextOf, NEXT_CHAIN_EMPTY, NEXT_BUCKET_EMPTY]
  | cons s remaining =>
    obtain ⟨k, e⟩ := s
    have hmem : k ∈ buckets.flatMap Content.slots :=
      mem_flatMap_of_getElem? hc (by simp [Content.slots])
    have hlt := h.lt_of_mem (List.mem_append_left _ hmem)
    have hle := h.chainSize_le
    have hchain := h.chain_lt
    change k ≠ 2 ^ 32 - 1
    change t.chain.length < 2 ^ 32 - 2 at hchain
    omega

theorem length_rest_le (hc : buckets[i]? = some (.full head rest)) : rest.length ≤ t.chainSize := by
  obtain ⟨others, hl, -⟩ := flatMap_set_perm (f := Content.slots) hc
  have hslots := h.slots.length_eq
  have hparts := hl.length_eq
  simp only [Content.slots, List.length_append, List.length_map, List.length_range] at hslots hparts
  omega

theorem fill (hc : buckets[i]? = some .empty) (e : E) :
    ∃ t', t.write (.inline i) ⟨e, NEXT_CHAIN_EMPTY⟩ = some t' ∧
      Threaded t' (buckets.set i (.full e [])) free pending ∧
      t' = { t with table := t'.table } := by
  have hlt : i < t.table.length := h.length ▸ (List.getElem?_eq_some_iff.1 hc).1
  refine ⟨{ t with table := t.table.set i ⟨e, NEXT_CHAIN_EMPTY⟩ }, ?_, ?_, rfl⟩
  · simp [GenericTable.write, hlt]
  · exact h.update hc rfl rfl rfl rfl rfl (fun _ _ _ _ => rfl) ⟨rfl, rfl⟩ h.freeList
      (List.Perm.refl _)

theorem clearBucket (hc : buckets[i]? = some (.full head [])) :
    ∃ t', t.write (.inline i) ⟨head, NEXT_BUCKET_EMPTY⟩ = some t' ∧
      Threaded t' (buckets.set i .empty) free pending ∧ t' = { t with table := t'.table } := by
  have hlt : i < t.table.length := h.length ▸ (List.getElem?_eq_some_iff.1 hc).1
  refine ⟨{ t with table := t.table.set i ⟨head, NEXT_BUCKET_EMPTY⟩ }, ?_, ?_, rfl⟩
  · simp [GenericTable.write, hlt]
  · exact h.update hc rfl rfl rfl rfl rfl (fun _ _ _ _ => rfl) rfl h.freeList
      (List.Perm.refl _)

end

theorem linkLast (h : Threaded t buckets free [k]) (hc : buckets[i]? = some (.full head rest))
    (hk : k < t.chain.length) (e : E) :
    ∃ t₁ t₂, t.write (placeOf i rest) ⟨lastOf head rest, k⟩ = some t₁ ∧
      t₁.write (.chained k) ⟨e, NEXT_CHAIN_EMPTY⟩ = some t₂ ∧
      Threaded t₂ (buckets.set i (.full head (rest ++ [(k, e)]))) free [] ∧
      t₂.chain[k]? = some ⟨e, NEXT_CHAIN_EMPTY⟩ ∧
      t₂ = { t with table := t₂.table, chain := t₂.chain } := by
  obtain ⟨b, hb, hentry, hseg⟩ := h.getElem?_table hc
  have hnodup := h.nodup_of hc
  simp only [Content.slots, List.nodup_append, List.mem_append, List.mem_singleton] at hnodup
  obtain ⟨hrest, ⟨-, -, hfreek⟩, hapart⟩ := hnodup
  have hkrest : k ∉ rest.map Prod.fst := fun hm => hapart k hm k (Or.inr rfl) rfl
  have hkfree : k ∉ free.map Prod.fst := fun hm => hfreek k hm k rfl rfl
  have hlt : i < t.table.length := (List.getElem?_eq_some_iff.1 hb).1
  have hperm : ((Content.full head (rest ++ [(k, e)])).slots ++ (free.map Prod.fst ++ [])).Perm
      ((Content.full head rest).slots ++ (free.map Prod.fst ++ [k])) := by
    rw [List.perm_iff_count]
    intro x
    simp only [Content.slots, List.map_append, List.map_cons, List.map_nil, List.count_append,
      List.count_nil]
    omega
  rcases List.eq_nil_or_concat rest with rfl | ⟨done, ⟨l, x⟩, rfl⟩
  · refine ⟨{ t with table := t.table.set i ⟨head, k⟩ },
      { t with table := t.table.set i ⟨head, k⟩, chain := t.chain.set k ⟨e, NEXT_CHAIN_EMPTY⟩ },
      ?_, ?_, ?_, ?_, rfl⟩
    · simp [GenericTable.write, hlt]
    · simp [GenericTable.write, hk]
    · refine h.update hc rfl (by simp) rfl rfl rfl (fun j _ _ hj => ?_) ⟨rfl, rfl, ?_⟩
        (h.freeList.set hkfree) hperm
      · exact List.getElem?_set_ne (fun e => hj (by simp [e]))
      · exact ⟨NEXT_CHAIN_EMPTY, by simp [hk], rfl⟩
    · simp [hk]
  · rw [List.concat_eq_append] at *
    have hl : l < t.chain.length := hseg.lt_length (s := (l, x)) (by simp)
    have hldone : l ∉ done.map Prod.fst := by
      rw [List.map_append, List.nodup_append] at hrest
      exact fun hm => hrest.2.2 l hm l (by simp) rfl
    have hlfree : l ∉ free.map Prod.fst := fun hm => hapart l (by simp) l (Or.inl hm) rfl
    refine ⟨{ t with chain := t.chain.set l ⟨x, k⟩ },
      { t with chain := (t.chain.set l ⟨x, k⟩).set k ⟨e, NEXT_CHAIN_EMPTY⟩ }, ?_, ?_, ?_, ?_, rfl⟩
    · simp [GenericTable.write, hl]
    · simp [GenericTable.write, hk]
    · refine h.update hc ?_ (by simp) rfl rfl rfl (fun j hj _ hjk => ?_)
        ⟨hentry, ?_⟩ ((h.freeList.set hlfree).set hkfree) hperm
      · exact (set_of_getElem? hb).symm
      · rw [List.getElem?_set_ne (fun e => hjk (by simp [e])),
          List.getElem?_set_ne (fun e => hj (by simp [Content.slots, e]))]
      · refine seg_append.2 ⟨k, (hseg.redirect hldone k).set hkrest, rfl, NEXT_CHAIN_EMPTY, ?_, rfl⟩
        simp [hk]
    · simp [hk]

theorem unlink (h : Threaded t buckets free [])
    (hc : buckets[i]? = some (.full head (done ++ (k, e) :: remaining))) :
    ∃ t₁ t₂, t.write (.chained k) ⟨e, t.chainFreeList⟩ = some t₁ ∧
      t₁.write (placeOf i done) ⟨lastOf head done, nextOf remaining⟩ = some t₂ ∧
      Threaded { t₂ with chainFreeList := k } (buckets.set i (.full head (done ++ remaining)))
        ((k, e) :: free) [] ∧
      t₂ = { t with table := t₂.table, chain := t₂.chain } := by
  obtain ⟨b, hb, hentry, hseg⟩ := h.getElem?_table hc
  have hnodup := h.nodup_of hc
  simp only [Content.slots, List.append_nil, List.map_append, List.map_cons, List.nodup_append,
    List.nodup_cons, List.mem_append, List.mem_cons] at hnodup
  obtain ⟨⟨hdone, ⟨hkrem, -⟩, hkdone⟩, -, hapart⟩ := hnodup
  have hkfree : k ∉ free.map Prod.fst := fun hm => hapart k (Or.inr (Or.inl rfl)) k hm rfl
  have hkdone : k ∉ done.map Prod.fst := fun hm => hkdone k hm k (Or.inl rfl) rfl
  have hlt : i < t.table.length := (List.getElem?_eq_some_iff.1 hb).1
  obtain ⟨m, hsegdone, rfl, next, hget, hsegrem⟩ := seg_append.1 hseg
  obtain rfl := Seg.start_eq hsegrem
  have hk : m < t.chain.length := (List.getElem?_eq_some_iff.1 hget).1
  have hperm : ((Content.full head (done ++ remaining)).slots ++
      (((m, e) :: free).map Prod.fst ++ [])).Perm
      ((Content.full head (done ++ (m, e) :: remaining)).slots ++ (free.map Prod.fst ++ [])) := by
    rw [List.perm_iff_count]
    intro x
    simp only [Content.slots, List.map_append, List.map_cons, List.count_append, List.count_cons]
    omega
  rcases List.eq_nil_or_concat done with rfl | ⟨done, ⟨l, x⟩, rfl⟩
  · refine ⟨{ t with chain := t.chain.set m ⟨e, t.chainFreeList⟩ },
      { t with chain := t.chain.set m ⟨e, t.chainFreeList⟩,
               table := t.table.set i ⟨head, nextOf remaining⟩ }, ?_, ?_, ?_, rfl⟩
    · simp [GenericTable.write, hk]
    · simp [GenericTable.write, hlt]
    · refine h.update hc rfl (by simp) rfl rfl rfl (fun j hj _ _ => ?_)
        ⟨rfl, hsegrem.set hkrem⟩ (h.freeList.cons_set hkfree hk) hperm
      exact List.getElem?_set_ne (fun e => hj (by simp [Content.slots, e]))
  · rw [List.concat_eq_append] at *
    have hl : l < t.chain.length := hsegdone.lt_length (s := (l, x)) (by simp)
    have hlk : m ≠ l := fun e => hkdone (by simp [e])
    have hldone : l ∉ done.map Prod.fst := by
      rw [List.map_append, List.nodup_append] at hdone
      exact fun hm => hdone.2.2 l hm l (by simp) rfl
    have hlfree : l ∉ ((m, e) :: free).map Prod.fst := by
      rw [List.map_cons, List.mem_cons]
      rintro (rfl | hm)
      · exact hlk rfl
      · exact hapart l (Or.inl (by simp)) l hm rfl
    have hlrem : l ∉ remaining.map Prod.fst := by
      have := (h.nodup_of hc).of_append_left
      simp only [Content.slots, List.map_append, List.map_cons, List.nodup_append] at this
      exact fun hm => this.2.2 l (by simp) l (by simp [hm]) rfl
    refine ⟨{ t with chain := t.chain.set m ⟨e, t.chainFreeList⟩ },
      { t with chain := (t.chain.set m ⟨e, t.chainFreeList⟩).set l ⟨x, nextOf remaining⟩ },
      ?_, ?_, ?_, rfl⟩
    · simp [GenericTable.write, hk]
    · simp [GenericTable.write, hl]
    · refine h.update hc (set_of_getElem? hb).symm (by simp) rfl rfl rfl
        (fun j hj _ _ => ?_) ⟨hentry, ?_⟩ ((h.freeList.cons_set hkfree hk).set hlfree) hperm
      · rw [List.getElem?_set_ne (fun e => hj (by simp [Content.slots, e])),
          List.getElem?_set_ne (fun e => hj (by simp [Content.slots, e]))]
      · exact seg_append.2 ⟨_, (hsegdone.set hkdone).redirect hldone _,
          (hsegrem.set hkrem).set hlrem⟩

theorem popHead (h : Threaded t buckets free [])
    (hc : buckets[i]? = some (.full head ((k, e) :: remaining))) :
    ∃ t₁ t₂, t.bucketAt (.chained k) = some ⟨e, nextOf remaining⟩ ∧
      t.write (.inline i) ⟨e, nextOf remaining⟩ = some t₁ ∧
      t₁.write (.chained k) ⟨e, t.chainFreeList⟩ = some t₂ ∧
      Threaded { t₂ with chainFreeList := k } (buckets.set i (.full e remaining))
        ((k, e) :: free) [] ∧
      t₁ = { t with table := t₁.table } ∧
      t₂ = { t with table := t₂.table, chain := t₂.chain } := by
  obtain ⟨b, hb, hentry, rfl, next, hget, hseg⟩ := h.getElem?_table hc
  obtain rfl := Seg.start_eq hseg
  have hnodup := h.nodup_of hc
  simp only [Content.slots, List.append_nil, List.map_cons, List.nodup_append,
    List.nodup_cons, List.mem_cons] at hnodup
  obtain ⟨⟨hkrem, -⟩, -, hapart⟩ := hnodup
  have hkfree : b.next ∉ free.map Prod.fst := fun hm => hapart _ (Or.inl rfl) _ hm rfl
  have hlt : i < t.table.length := (List.getElem?_eq_some_iff.1 hb).1
  have hk : b.next < t.chain.length := (List.getElem?_eq_some_iff.1 hget).1
  refine ⟨{ t with table := t.table.set i ⟨e, nextOf remaining⟩ },
    { t with table := t.table.set i ⟨e, nextOf remaining⟩,
             chain := t.chain.set b.next ⟨e, t.chainFreeList⟩ }, hget, ?_, ?_, ?_, rfl, rfl⟩
  · simp [GenericTable.write, hlt]
  · simp [GenericTable.write, hk]
  · refine h.update hc rfl (by simp) rfl rfl rfl (fun j hj _ _ => ?_) ⟨rfl, hseg.set hkrem⟩
      (h.freeList.cons_set hkfree hk) ?_
    · exact List.getElem?_set_ne (fun e => hj (by simp [Content.slots, e]))
    · rw [List.perm_iff_count]
      intro x
      simp only [Content.slots, List.map_cons, List.count_append, List.count_cons]
      omega

theorem detach (h : Threaded t buckets free [k]) (hc : buckets[i]? = some (.full head rest))
    (hk : k < t.chain.length) :
    ∃ t₁ t₂, t.write (.chained k) ⟨head, nextOf rest⟩ = some t₁ ∧
      t₁.write (.inline i) ⟨head, NEXT_BUCKET_EMPTY⟩ = some t₂ ∧
      Threaded t₂ (buckets.set i .empty) free (k :: rest.map Prod.fst) ∧
      Seg t₂.chain k ((k, head) :: rest) NEXT_CHAIN_EMPTY ∧
      t₂ = { t with table := t₂.table, chain := t₂.chain } := by
  obtain ⟨b, hb, hentry, hseg⟩ := h.getElem?_table hc
  have hlt : i < t.table.length := (List.getElem?_eq_some_iff.1 hb).1
  have hnodup := h.nodup_of hc
  simp only [Content.slots, List.nodup_append, List.mem_append, List.mem_singleton] at hnodup
  obtain ⟨-, ⟨-, -, hfreek⟩, hapart⟩ := hnodup
  have hkrest : k ∉ rest.map Prod.fst := fun hm => hapart k hm k (Or.inr rfl) rfl
  have hkfree : k ∉ free.map Prod.fst := fun hm => hfreek k hm k rfl rfl
  refine ⟨{ t with chain := t.chain.set k ⟨head, nextOf rest⟩ },
    { t with chain := t.chain.set k ⟨head, nextOf rest⟩,
             table := t.table.set i ⟨head, NEXT_BUCKET_EMPTY⟩ }, ?_, ?_, ?_, ?_, rfl⟩
  · simp [GenericTable.write, hk]
  · simp [GenericTable.write, hlt]
  · refine h.update hc rfl (by simp) rfl rfl rfl (fun j _ _ hj => ?_) rfl
      (h.freeList.set hkfree) ?_
    · exact List.getElem?_set_ne (fun e => hj (by simp [e]))
    · rw [List.perm_iff_count]
      intro x
      simp only [Content.slots, List.count_append, List.count_cons, List.count_nil]
      omega
  · rw [← Seg.start_eq hseg]
    exact hseg.cons_set hkrest hk

theorem placePending (h : Threaded t buckets free (k :: pending)) (hc : buckets[i]? = some .empty)
    (hk : k < t.chain.length) (e : E) :
    ∃ t₁ t₂, t.write (.inline i) ⟨e, NEXT_CHAIN_EMPTY⟩ = some t₁ ∧
      t₁.write (.chained k) ⟨e, t₁.chainFreeList⟩ = some t₂ ∧
      Threaded { t₂ with chainFreeList := k } (buckets.set i (.full e [])) ((k, e) :: free)
        pending ∧
      t₂ = { t with table := t₂.table, chain := t.chain.set k ⟨e, t.chainFreeList⟩ } := by
  have hlt : i < t.table.length := h.length ▸ (List.getElem?_eq_some_iff.1 hc).1
  have hkfree : k ∉ free.map Prod.fst := by
    intro hm
    exact List.disjoint_of_nodup_append h.nodup.of_append_right hm List.mem_cons_self
  refine ⟨{ t with table := t.table.set i ⟨e, NEXT_CHAIN_EMPTY⟩ },
    { t with table := t.table.set i ⟨e, NEXT_CHAIN_EMPTY⟩,
             chain := t.chain.set k ⟨e, t.chainFreeList⟩ }, ?_, ?_, ?_, rfl⟩
  · simp [GenericTable.write, hlt]
  · simp [GenericTable.write, hk]
  · refine h.update hc rfl (by simp) rfl rfl rfl (fun j _ _ hj => ?_) ⟨rfl, rfl⟩
      (h.freeList.cons_set hkfree hk) ?_
    · exact List.getElem?_set_ne (fun e => hj (by simp [e]))
    · rw [List.perm_iff_count]
      intro x
      simp only [Content.slots, List.map_cons, List.map_nil, List.count_append, List.count_cons,
        List.count_nil]
      omega

theorem linkPending (h : Threaded t buckets free (k :: pending))
    (hc : buckets[i]? = some (.full head rest)) (hk : k < t.chain.length) (e : E) :
    ∃ t₁ t₂, t.write (.chained k) ⟨e, nextOf rest⟩ = some t₁ ∧
      t₁.write (.inline i) ⟨head, k⟩ = some t₂ ∧
      Threaded t₂ (buckets.set i (.full head ((k, e) :: rest))) free pending ∧
      t₂ = { t with table := t₂.table, chain := t.chain.set k ⟨e, nextOf rest⟩ } := by
  obtain ⟨b, hb, hentry, hseg⟩ := h.getElem?_table hc
  obtain ⟨entry, next⟩ := b
  obtain rfl := Seg.start_eq hseg
  have hlt : i < t.table.length := (List.getElem?_eq_some_iff.1 hb).1
  have hkfree : k ∉ free.map Prod.fst := by
    intro hm
    exact List.disjoint_of_nodup_append h.nodup.of_append_right hm List.mem_cons_self
  have hkrest : k ∉ rest.map Prod.fst := by
    intro hm
    exact List.disjoint_of_nodup_append h.nodup
      (mem_flatMap_of_getElem? (f := Content.slots) hc hm) (by simp)
  refine ⟨{ t with chain := t.chain.set k ⟨e, nextOf rest⟩ },
    { t with table := t.table.set i ⟨head, k⟩, chain := t.chain.set k ⟨e, nextOf rest⟩ },
    ?_, ?_, ?_, rfl⟩
  · simp [GenericTable.write, hk]
  · simp [GenericTable.write, hlt]
  · refine h.update hc rfl (by simp) rfl rfl rfl (fun j _ _ hj => ?_)
      ⟨rfl, hseg.cons_set hkrest hk⟩ (h.freeList.set hkfree) ?_
    · exact List.getElem?_set_ne (fun e => hj (by simp [e]))
    · rw [List.perm_iff_count]
      intro x
      simp only [Content.slots, List.map_cons, List.count_append, List.count_cons]
      omega

end Threaded

end OpenZL.Common.Table
