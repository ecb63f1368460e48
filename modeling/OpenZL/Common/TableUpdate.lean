import OpenZL.Common.TableErasure

/-!
# Values changed in place

A map hands out pointers to its entries, whose values may be changed through them.

Principal results: `findAt_spec`, `setEntry_spec`.
-/

namespace OpenZL.Common.Table

open OpenZL.Lib

variable {κ E : Type} {p : Policy κ E}

/-- An assignment to the entry that a pointer points to. -/
def setEntry (t : GenericTable E) (place : Place) (entry : E) : Option (GenericTable E) := do
  let b ← t.bucketAt place
  t.write place { b with entry := entry }

/-- The entry `e` is at `place`: at the head of a bucket, or in its chain. -/
inductive StandsAt (buckets : List (Content E)) (e : E) : Place → Prop
  | head {i : Nat} {rest : List (Nat × E)} :
      buckets[i]? = some (.full e rest) → StandsAt buckets e (.inline i)
  | chained {i k : Nat} {head : E} {done remaining : List (Nat × E)} :
      buckets[i]? = some (.full head (done ++ (k, e) :: remaining)) →
      StandsAt buckets e (.chained k)

theorem StandsAt.placeOf {buckets : List (Content E)} {i : Nat} {head : E}
    {done remaining : List (Nat × E)} (hc : buckets[i]? = some (.full head (done ++ remaining))) :
    StandsAt buckets (lastOf head done) (placeOf i done) := by
  rcases List.eq_nil_or_concat' done with rfl | ⟨done, ⟨k, x⟩, rfl⟩
  · exact .head hc
  · rw [List.append_assoc] at hc
    rw [lastOf_concat, placeOf_concat]
    exact .chained hc

theorem StandsAt.mem {buckets : List (Content E)} {e : E} {place : Place}
    (h : StandsAt buckets e place) : e ∈ buckets.flatMap Content.entries := by
  cases h with
  | head hc => exact mem_flatMap_of_getElem? hc List.mem_cons_self
  | @chained i k head done remaining hc =>
    refine mem_flatMap_of_getElem? hc (List.mem_cons_of_mem _ ?_)
    exact List.mem_map.2 ⟨(k, e), List.mem_append_right _ List.mem_cons_self, rfl⟩

section Lookup

variable {t : GenericTable E} {buckets : List (Content E)} {free : List (Nat × E)}
  {pending : List Nat} {i fuel : Nat} {head : E} {done remaining : List (Nat × E)}

theorem findFrom_stands (h : Threaded t buckets free pending) (key : κ)
    (hc : buckets[i]? = some (.full head (done ++ remaining))) {place : Place}
    (hrun : findFrom p t key fuel (placeOf i done) = some (some place)) :
    ∃ e, StandsAt buckets e place ∧ p.eqFn key (p.key e) = true := by
  induction fuel generalizing done remaining with
  | zero => cases hrun
  | succ fuel ih =>
    have hnode := h.node hc
    rw [findFrom] at hrun
    simp only [hnode, Option.bind_eq_bind, Option.bind_some] at hrun
    cases heq : p.eqFn key (p.key (lastOf head done)) with
    | true =>
      rw [if_pos heq] at hrun
      obtain rfl := Option.some.inj (Option.some.inj hrun)
      exact ⟨_, .placeOf hc, heq⟩
    | false =>
      rw [heq, if_neg Bool.false_ne_true] at hrun
      cases remaining with
      | nil =>
        rw [nextOf_nil, if_pos rfl] at hrun
        cases Option.some.inj hrun
      | cons s remaining =>
        obtain ⟨k, e⟩ := s
        rw [nextOf_cons, if_neg (h.nextOf_ne hc)] at hrun
        refine @ih (done ++ [(k, e)]) remaining (by rwa [List.append_assoc]) ?_
        rwa [placeOf_concat]

/-- **Where a lookup finds its entry.** -/
theorem findAt_spec (h : Wf p t buckets free) (hp : p.Lawful) {key : κ} {place : Place}
    (hrun : find p t key = some (some place)) :
    ∃ e, StandsAt buckets e place ∧ p.eqFn key (p.key e) = true := by
  unfold find at hrun
  by_cases hnil : t.table = []
  · rw [if_pos hnil] at hrun
    cases Option.some.inj hrun
  · have hpos := h.buckets_pos hnil
    obtain ⟨c, hc, -⟩ := h.bucketOf hp hpos key
    rw [if_neg hnil] at hrun
    dsimp only at hrun
    cases c with
    | empty =>
      obtain ⟨b, hb, hnext⟩ := h.threaded.bucketAt_empty hc
      simp only [hb, Option.bind_eq_bind, Option.bind_some, if_pos hnext] at hrun
      cases Option.some.inj hrun
    | full head rest =>
      have hnode := h.threaded.node (Content.at_head hc)
      have hne := h.threaded.nextOf_ne_bucketEmpty (Content.at_head hc)
      rw [placeOf_nil] at hnode
      simp only [hnode, Option.bind_eq_bind, Option.bind_some, if_neg hne] at hrun
      exact findFrom_stands h.threaded key (Content.at_head hc) hrun

end Lookup

section Assignment

variable {t : GenericTable E} {buckets : List (Content E)} {free : List (Nat × E)} {i k : Nat}
  {head e : E} {rest done remaining : List (Nat × E)}

theorem setEntry_head (h : Threaded t buckets free [])
    (hc : buckets[i]? = some (.full e rest)) (e' : E) :
    ∃ t', setEntry t (.inline i) e' = some t' ∧
      Threaded t' (buckets.set i (.full e' rest)) free [] ∧
      t' = { t with table := t'.table } := by
  obtain ⟨b, hb, hentry, hseg⟩ := h.getElem?_table hc
  have hlt : i < t.table.length := (List.getElem?_eq_some_iff.1 hb).1
  have hat : t.bucketAt (.inline i) = some b := hb
  refine ⟨{ t with table := t.table.set i { b with entry := e' } }, ?_, ?_, rfl⟩
  · rw [setEntry, hat, Option.bind_eq_bind, Option.bind_some, GenericTable.write]
    rw [if_pos hlt]
  · exact h.update hc rfl rfl rfl rfl rfl (fun _ _ _ _ => rfl) ⟨rfl, hseg⟩ h.freeList
      (List.Perm.refl _)

theorem setEntry_chained (h : Threaded t buckets free [])
    (hc : buckets[i]? = some (.full head (done ++ (k, e) :: remaining))) (e' : E) :
    ∃ t', setEntry t (.chained k) e' = some t' ∧
      Threaded t' (buckets.set i (.full head (done ++ (k, e') :: remaining))) free [] ∧
      t' = { t with chain := t'.chain } := by
  obtain ⟨b, hb, hentry, hseg⟩ := h.getElem?_table hc
  have hnodup := h.nodup_of hc
  simp only [Content.slots, List.map_append, List.map_cons, List.append_nil] at hnodup
  have hslots := hnodup.of_append_left
  have hbefore : k ∉ done.map Prod.fst := fun hk =>
    List.disjoint_of_nodup_append hslots hk List.mem_cons_self
  have hbehind : k ∉ remaining.map Prod.fst :=
    (List.nodup_cons.1 hslots.of_append_right).1
  have hfree : k ∉ free.map Prod.fst := fun hk =>
    List.disjoint_of_nodup_append hnodup
      (List.mem_append_right _ List.mem_cons_self) hk
  obtain ⟨m, hdone, hm, next, hget, hremaining⟩ := seg_append.1 hseg
  have hlt : k < t.chain.length := (List.getElem?_eq_some_iff.1 hget).1
  have hat : t.bucketAt (.chained k) = some ⟨e, next⟩ := hget
  refine ⟨{ t with chain := t.chain.set k ⟨e', next⟩ }, ?_, ?_, rfl⟩
  · rw [setEntry, hat, Option.bind_eq_bind, Option.bind_some, GenericTable.write]
    rw [if_pos hlt]
  · refine h.update hc (set_of_getElem? hb).symm (List.length_set ..) rfl rfl rfl
      (fun k' hk' _ _ => ?_) ⟨hentry, ?_⟩ (h.freeList.set hfree) ?_
    · refine List.getElem?_set_ne fun heq => hk' ?_
      rw [← heq]
      simp [Content.slots]
    · exact seg_append.2 ⟨m, hdone.set hbefore, hm, next, List.getElem?_set_self hlt,
        hremaining.set hbehind⟩
    · simp [Content.slots]

theorem Wf.replace {t' : GenericTable E} {c c' : Content E} {others : List E} {e' : E}
    (h : Wf p t buckets free) (hc : buckets[i]? = some c)
    (ht : Threaded t' (buckets.set i c') free []) (hperm : c.entries.Perm (e :: others))
    (hperm' : c'.entries.Perm (e' :: others)) (hkey : p.key e' = p.key e)
    (hmask : t'.tableMask = t.tableMask) (hcap : t'.tableCapacity = t.tableCapacity)
    (hmax : t'.maxCapacity = t.maxCapacity) (hsize : t'.tableSize = t.tableSize)
    (hp : p.Lawful) {es : List E} (hes : (buckets.flatMap Content.entries).Perm (e :: es)) :
    Wf p t' (buckets.set i c') free ∧
      ((buckets.set i c').flatMap Content.entries).Perm (e' :: es) := by
  obtain ⟨rest, hl, hset⟩ := flatMap_set_perm (f := Content.entries) hc
  have hrest : (others ++ rest).Perm es :=
    (((hl.trans (hperm.append_right rest)).symm.trans hes)).cons_inv
  have hentries : ((buckets.set i c').flatMap Content.entries).Perm (e' :: es) :=
    ((hset c').trans (hperm'.append_right rest)).trans (hrest.cons e')
  have hapart : ∀ d, p.Apart e' d ↔ p.Apart e d := fun d => by
    rw [Policy.Apart, Policy.Apart, hkey]
  refine ⟨⟨ht, ?_, ?_, ?_, ?_, ?_, ?_⟩, hentries⟩
  · refine h.placed_set hc fun x hx => ?_
    rcases List.mem_cons.1 (hperm'.mem_iff.1 hx) with rfl | hx
    · have hold := h.placed i c hc e (hperm.mem_iff.2 List.mem_cons_self)
      rwa [Policy.hashOf, hkey]
    · exact h.placed i c hc x (hperm.mem_iff.2 (List.mem_cons_of_mem _ hx))
  · have hold := (hes.pairwise_iff fun {d e} hde => (hp.comm _ _).trans hde).1 h.distinct
    rw [List.pairwise_cons] at hold
    refine (hentries.pairwise_iff fun {d e} hde => (hp.comm _ _).trans hde).2
      (List.pairwise_cons.2 ⟨fun d hd => (hapart d).2 (hold.1 d hd), hold.2⟩)
  · rw [hsize, hentries.length_eq, h.size, hes.length_eq, List.length_cons, List.length_cons]
  · rw [hsize, hcap]
    exact h.size_le
  · rw [hcap, hmax]
    exact h.capacity_le
  · rw [List.length_set, Shape, hmask, hcap]
    exact h.shape

/-- **An assignment through a pointer** puts the new entry in the place of the old one. -/
theorem setEntry_spec (h : Wf p t buckets free) (hp : p.Lawful) {place : Place}
    (hplace : StandsAt buckets e place) {es : List E}
    (hes : (buckets.flatMap Content.entries).Perm (e :: es)) {e' : E} (hkey : p.key e' = p.key e) :
    ∃ t', setEntry t place e' = some t' ∧ Holding p t' (e' :: es) := by
  cases hplace with
  | @head i rest hc =>
    obtain ⟨t', hrun, hthreaded, heq⟩ := setEntry_head h.threaded hc e'
    have hentries : ∀ x, (Content.full x rest).entries.Perm (x :: rest.map Prod.snd) :=
      fun x => List.Perm.refl _
    obtain ⟨hwf, hperm⟩ := h.replace hc hthreaded (hentries e) (hentries e') hkey (by rw [heq])
      (by rw [heq]) (by rw [heq]) (by rw [heq]) hp hes
    exact ⟨t', hrun, _, _, hwf, hperm⟩
  | @chained i k head done remaining hc =>
    have hmiddle : ∀ x, (Content.full head (done ++ (k, x) :: remaining)).entries.Perm
        (x :: (head :: (done.map Prod.snd ++ remaining.map Prod.snd))) := fun x => by
      simp only [Content.entries, List.map_append, List.map_cons]
      exact @List.perm_middle E x (head :: done.map Prod.snd) (remaining.map Prod.snd)
    obtain ⟨t', hrun, hthreaded, heq⟩ := setEntry_chained h.threaded hc e'
    obtain ⟨hwf, hperm⟩ := h.replace hc hthreaded (hmiddle e) (hmiddle e') hkey (by rw [heq])
      (by rw [heq]) (by rw [heq]) (by rw [heq]) hp hes
    exact ⟨t', hrun, _, _, hwf, hperm⟩

end Assignment

end OpenZL.Common.Table
