import OpenZL.Common.TableLinks

/-!
# Rehashing

`GenericTable_rehash` goes through the old buckets.

Principal results: `relink_spec`, `Rehashing.step`, `rehash_spec`.
-/

namespace OpenZL.Common.Table

open OpenZL.Lib

variable {κ E : Type} {p : Policy κ E}

/-- The hash of an entry. -/
def Policy.hashOf (p : Policy κ E) (e : E) : Nat := (p.hashFn (p.key e)).toNat

/-- `t'` is `t` but for its buckets and the use of its chain. -/
structure Rearranged (t t' : GenericTable E) : Prop where
  tableMask : t'.tableMask = t.tableMask
  tableSize : t'.tableSize = t.tableSize
  tableCapacity : t'.tableCapacity = t.tableCapacity
  chainCapacity : t'.chainCapacity = t.chainCapacity
  maxCapacity : t'.maxCapacity = t.maxCapacity
  allocations : t'.allocations = t.allocations

theorem Rearranged.refl (t : GenericTable E) : Rearranged t t := ⟨rfl, rfl, rfl, rfl, rfl, rfl⟩

theorem Rearranged.trans {t t' t'' : GenericTable E} (h : Rearranged t t')
    (h' : Rearranged t' t'') : Rearranged t t'' :=
  ⟨h'.tableMask.trans h.tableMask, h'.tableSize.trans h.tableSize,
    h'.tableCapacity.trans h.tableCapacity, h'.chainCapacity.trans h.chainCapacity,
    h'.maxCapacity.trans h.maxCapacity, h'.allocations.trans h.allocations⟩

theorem moveBucket_spec {newTableMask k i : Nat} {e : E} {next : Nat} {pending : List Nat}
    {t : GenericTable E} {buckets : List (Content E)} {free : List (Nat × E)} {c : Content E}
    (h : Threaded t buckets free (k :: pending)) (hget : t.chain[k]? = some ⟨e, next⟩)
    (hmask : p.hashOf e &&& newTableMask = i) (hc : buckets[i]? = some c) :
    ∃ t' c' free', moveBucket p newTableMask k t = some t' ∧
      Threaded t' (buckets.set i c') free' pending ∧ c'.entries.Perm (c.entries ++ [e]) ∧
      free.length ≤ free'.length ∧ (c = .empty → free' ≠ []) ∧
      (∃ b, t'.chain = t.chain.set k b) ∧ Rearranged t t' ∧ t'.chainSize = t.chainSize := by
  have hk : k < t.chain.length := (List.getElem?_eq_some_iff.1 hget).1
  have hchain : t.bucketAt (.chained k) = some ⟨e, next⟩ := hget
  have hmask : (p.hashFn (p.key e)).toNat &&& newTableMask = i := hmask
  unfold moveBucket
  simp only [hchain, Option.bind_eq_bind, Option.bind_some, hmask]
  cases c with
  | empty =>
    obtain ⟨b, hb, hnext⟩ := h.bucketAt_empty hc
    obtain ⟨t₁, t₂, hw₁, hw₂, hthreaded, heq⟩ := h.placePending hc hk e
    refine ⟨{ t₂ with chainFreeList := k }, .full e [], (k, e) :: free, ?_, hthreaded,
      List.Perm.refl _, Nat.le_succ _, fun _ => List.cons_ne_nil _ _, ?_, ?_, ?_⟩
    · simp only [hb, Option.bind_some, hnext, if_true, hw₁, hw₂]
      rfl
    · exact ⟨⟨e, t.chainFreeList⟩, by rw [heq]⟩
    · rw [heq]
      exact ⟨rfl, rfl, rfl, rfl, rfl, rfl⟩
    · rw [heq]
  | full head rest =>
    have hb := h.node (Content.at_head hc)
    have hne := h.nextOf_ne_bucketEmpty (Content.at_head hc)
    simp only [placeOf_nil, lastOf_nil] at hb
    obtain ⟨t₁, t₂, hw₁, hw₂, hthreaded, heq⟩ := h.linkPending hc hk e
    refine ⟨t₂, .full head ((k, e) :: rest), free, ?_, hthreaded, ?_, Nat.le_refl _, nofun,
      ?_, ?_, ?_⟩
    · simp only [hb, Option.bind_some, if_neg hne, hw₁, hw₂]
    · exact (List.perm_append_singleton e (rest.map Prod.snd)).symm.cons head
    · exact ⟨⟨e, nextOf rest⟩, by rw [heq]⟩
    · rw [heq]
      exact ⟨rfl, rfl, rfl, rfl, rfl, rfl⟩
    · rw [heq]

theorem relink_spec {newTableMask : Nat} {fuel : Nat} {k : Nat} {e : E} {rest : List (Nat × E)}
    {t : GenericTable E} {buckets : List (Content E)} {free : List (Nat × E)}
    (h : Threaded t buckets free (k :: rest.map Prod.fst))
    (hseg : Seg t.chain k ((k, e) :: rest) NEXT_CHAIN_EMPTY)
    (hmask : ∀ x, x &&& newTableMask = x % buckets.length) (hpos : 0 < buckets.length)
    (hfuel : rest.length < fuel) :
    ∃ t' buckets' free', relink p newTableMask fuel k (nextOf rest) t = some t' ∧
      Threaded t' buckets' free' [] ∧ buckets'.length = buckets.length ∧
      (buckets'.flatMap Content.entries).Perm
        (buckets.flatMap Content.entries ++ e :: rest.map Prod.snd) ∧
      (∀ (i : Nat) c', buckets'[i]? = some c' → ∃ c, buckets[i]? = some c ∧ ∀ x ∈ c'.entries,
        x ∈ c.entries ∨ (x ∈ e :: rest.map Prod.snd ∧ p.hashOf x % buckets.length = i)) ∧
      free.length ≤ free'.length ∧
      (buckets[p.hashOf e % buckets.length]? = some .empty → free' ≠ []) ∧
      Rearranged t t' ∧ t'.chainSize = t.chainSize := by
  induction fuel generalizing k e rest t buckets free with
  | zero => omega
  | succ fuel ih =>
    obtain ⟨-, next, hget, hrest⟩ := hseg
    obtain rfl := Seg.start_eq hrest
    have hi : p.hashOf e % buckets.length < buckets.length := Nat.mod_lt _ hpos
    generalize hidx : p.hashOf e % buckets.length = i at hi
    obtain ⟨c, hc⟩ := h.getElem?_buckets (h.length ▸ hi)
    have hkrest : k ∉ rest.map Prod.fst :=
      (List.nodup_cons.1 h.nodup.of_append_right.of_append_right).1
    -- The entry is moved; the slots behind it stay pending.
    obtain ⟨t₁, c₁, free₁, hmove, hthreaded, hentries, hfree, hempty, ⟨b, hset⟩, hre, hsize⟩ :=
      moveBucket_spec h hget ((hmask _).trans hidx) hc
    have hplaced : ∀ (j : Nat) d, (buckets.set i c₁)[j]? = some d → ∃ c, buckets[j]? = some c ∧
        ∀ x ∈ d.entries, x ∈ c.entries ∨ (x = e ∧ p.hashOf x % buckets.length = j) := by
      intro j d hd
      by_cases hij : i = j
      · subst hij
        rw [List.getElem?_set_self hi, Option.some.injEq] at hd
        subst hd
        refine ⟨c, hc, fun x hx => ?_⟩
        rcases List.mem_append.1 (hentries.mem_iff.1 hx) with hx | hx
        · exact Or.inl hx
        · obtain rfl := List.mem_singleton.1 hx
          exact Or.inr ⟨rfl, hidx⟩
      · rw [List.getElem?_set_ne hij] at hd
        exact ⟨d, hd, fun x hx => Or.inl hx⟩
    have hperm : ((buckets.set i c₁).flatMap Content.entries).Perm
        (buckets.flatMap Content.entries ++ [e]) := by
      obtain ⟨others, hl, hset⟩ := flatMap_set_perm (f := Content.entries) hc
      refine (hset c₁).trans ((hentries.append_right others).trans ?_)
      refine List.Perm.trans ?_ (hl.symm.append_right [e])
      rw [List.append_assoc, List.append_assoc]
      exact List.Perm.append_left c.entries (List.perm_append_comm : ([e] ++ others).Perm _)
    rw [relink]
    simp only [hmove, Option.bind_eq_bind, Option.bind_some]
    cases rest with
    | nil =>
      refine ⟨t₁, buckets.set i c₁, free₁, rfl, hthreaded, List.length_set, hperm, ?_, hfree,
        fun hc' => hempty (Option.some.inj (hc.symm.trans hc')), hre, hsize⟩
      intro j d hd
      obtain ⟨c, hc, hx⟩ := hplaced j d hd
      exact ⟨c, hc, fun x hx' => by simpa using hx x hx'⟩
    | cons s rest =>
      obtain ⟨k', e'⟩ := s
      have hne : k' ≠ NEXT_CHAIN_EMPTY := by
        have hlt := hrest.lt_length (s := (k', e')) List.mem_cons_self
        have := h.chain_lt
        change k' < t.chain.length at hlt
        omega
      have hseg' : Seg t₁.chain k' ((k', e') :: rest) NEXT_CHAIN_EMPTY := by
        rw [hset]
        exact Seg.set hrest hkrest
      have hget' : t₁.bucketAt (.chained k') = some ⟨e', nextOf rest⟩ := by
        obtain ⟨-, next, hget', hnext⟩ := hseg'
        rw [← Seg.start_eq hnext]
        exact hget'
      have hlen : (buckets.set i c₁).length = buckets.length := List.length_set
      obtain ⟨t', buckets', free', hrun, hthreaded', hlen', hperm', hplaced', hfree', -, hre',
        hsize'⟩ := ih hthreaded hseg' (by rw [hlen]; exact hmask) (hlen ▸ hpos)
          (by simpa using hfuel)
      refine ⟨t', buckets', free', ?_, hthreaded', hlen'.trans hlen, ?_, ?_, hfree.trans hfree',
        ?_, hre.trans hre', hsize'.trans hsize⟩
      · change (if k' = NEXT_CHAIN_EMPTY then _ else (t₁.bucketAt (.chained k')).bind fun bucket =>
          relink p newTableMask fuel k' bucket.next t₁) = _
        rw [if_neg hne, hget']
        exact hrun
      · refine hperm'.trans ((hperm.append_right _).trans ?_)
        rw [List.append_assoc]
        rfl
      · intro j d hd
        obtain ⟨d', hd', hx'⟩ := hplaced' j d hd
        obtain ⟨c, hc, hx⟩ := hplaced j d' hd'
        refine ⟨c, hc, fun x hxd => ?_⟩
        rcases hx' x hxd with hxd' | ⟨hmem, hj⟩
        · rcases hx x hxd' with hxc | ⟨rfl, hj⟩
          · exact Or.inl hxc
          · exact Or.inr ⟨List.mem_cons_self, hj⟩
        · exact Or.inr ⟨List.mem_cons_of_mem _ hmem, hlen ▸ hj⟩
      · intro hc'
        have hne := hempty (Option.some.inj (hc.symm.trans hc'))
        have := List.length_pos_of_ne_nil hne
        exact List.ne_nil_of_length_pos (by omega)

/-- A slot can be taken from the chain without asking for memory. -/
def Room (t : GenericTable E) (free : List (Nat × E)) : Prop :=
  free ≠ [] ∨ t.chainSize < t.chainCapacity

/-- The state of the outer loop after `done` of the `old` buckets: buckets whose index is below
`done` modulo `old` hold entries of their new hash, the others what they held. -/
structure Rehashing (p : Policy κ E) (old new done : Nat) (t : GenericTable E)
    (buckets : List (Content E)) (free : List (Nat × E)) : Prop where
  threaded : Threaded t buckets free []
  length : buckets.length = new
  room : Room t free
  placed : ∀ (i : Nat) c, buckets[i]? = some c → ∀ e ∈ c.entries,
    if i % old < done then p.hashOf e % new = i else i < old ∧ p.hashOf e % old = i

variable {a : Allocator E} {old new done newTableMask : Nat} {t : GenericTable E}
  {buckets : List (Content E)} {free : List (Nat × E)}

theorem Content.eq_empty_of_entries {c : Content E} (h : ∀ e ∈ c.entries, False) :
    c = .empty := by
  cases c with
  | empty => rfl
  | full head rest => exact (h head List.mem_cons_self).elim

theorem Rehashing.target_empty (h : Rehashing p old new done t buckets free)
    (hpos : 0 < new) (hdvd : old ∣ new) {e : E} (he : p.hashOf e % old = done) :
    (buckets.set done .empty)[p.hashOf e % new]? = some .empty := by
  have hlt : p.hashOf e % new < buckets.length := by
    rw [h.length]
    exact Nat.mod_lt _ hpos
  have hmod : p.hashOf e % new % old = done := by rw [Nat.mod_mod_of_dvd _ hdvd, he]
  by_cases heq : done = p.hashOf e % new
  · rw [← heq, List.getElem?_set_self (heq ▸ hlt)]
  · obtain ⟨c, hc⟩ := h.threaded.getElem?_buckets (h.threaded.length ▸ hlt)
    rw [List.getElem?_set_ne heq, hc]
    have hempty : c = .empty := by
      refine Content.eq_empty_of_entries fun x hx => ?_
      have hplaced := h.placed _ c hc x hx
      rw [if_neg (by omega)] at hplaced
      rw [Nat.mod_eq_of_lt hplaced.1] at hmod
      exact heq hmod.symm
    rw [hempty]

/-- **One old bucket is rehashed**, with the memory there is. -/
theorem Rehashing.step (h : Rehashing p old new done t buckets free) (hdone : done < old)
    (hpos : 0 < new) (hdvd : old ∣ new) (hmask : ∀ x, x &&& newTableMask = x % new)
    (hle : old ≤ new) :
    ∃ t' buckets' free', rehashBucket p a newTableMask done t = some t' ∧
      Rehashing p old new (done + 1) t' buckets' free' ∧
      (buckets'.flatMap Content.entries).Perm (buckets.flatMap Content.entries) ∧
      Rearranged t t' := by
  have hlt : done < t.table.length := by
    rw [h.threaded.length, h.length]
    omega
  obtain ⟨c, hc⟩ := h.threaded.getElem?_buckets hlt
  unfold rehashBucket
  cases c with
  | empty =>
    obtain ⟨b, hb, hnext⟩ := h.threaded.bucketAt_empty hc
    refine ⟨t, buckets, free, ?_, ⟨h.threaded, h.length, h.room, ?_⟩, List.Perm.refl _,
      Rearranged.refl t⟩
    · simp only [hb, Option.bind_eq_bind, Option.bind_some, hnext, if_true]
      rfl
    · intro i c hci e he
      have hplaced := h.placed i c hci e he
      by_cases hi : i % old < done
      · rw [if_pos hi] at hplaced
        rwa [if_pos (by omega)]
      · rw [if_neg hi] at hplaced
        rw [Nat.mod_eq_of_lt hplaced.1] at hi ⊢
        have hne : i ≠ done := by
          rintro rfl
          rw [hc, Option.some.injEq] at hci
          subst hci
          cases he
        rwa [if_neg (by omega)]
  | full head rest =>
    have hb := h.threaded.node (Content.at_head hc)
    have hne := h.threaded.nextOf_ne_bucketEmpty (Content.at_head hc)
    simp only [placeOf_nil, lastOf_nil] at hb
    simp only [hb, Option.bind_eq_bind, Option.bind_some, if_neg hne]
    -- The slot for the head is there.
    have hroom : free = [] → t.chainSize < t.maxCapacity := by
      intro hfree
      have := h.threaded.chainCapacity_le
      rcases h.room with hne | hlt
      · exact absurd hfree hne
      · omega
    obtain ⟨k, t₁, hreserve, -, hmask₁, hsize₁, hcapacity₁, hmax₁, -, -, -, hsame, hcases⟩ :=
      reserveChainIndex_spec p a h.threaded hroom
    obtain ⟨halloc, hchain₁, hkne⟩ := hsame h.room
    obtain ⟨hk, free₁, hthreaded₁⟩ := hcases.resolve_left fun hbad => hkne hbad.1
    obtain ⟨t₂, t₃, hw₂, hw₃, hthreaded₃, hseg₃, heq⟩ := hthreaded₁.detach hc hk
    -- The chain is relinked; its first entry finds an empty bucket.
    have hlen : (buckets.set done .empty).length = new := List.length_set.trans h.length
    have hold : ∀ e ∈ (Content.full head rest).entries, p.hashOf e % old = done := by
      intro e he
      have hplaced := h.placed done _ hc e he
      rw [Nat.mod_eq_of_lt hdone, if_neg (Nat.lt_irrefl _)] at hplaced
      exact hplaced.2
    have hrest : rest.length < t₃.chainSize + 1 := by
      have hslots := hthreaded₃.slots.length_eq
      simp only [List.length_append, List.length_cons, List.length_map, List.length_range]
        at hslots
      omega
    obtain ⟨t', buckets', free', hrun, hthreaded', hlen', hperm, hplaced', -, hfree', hre,
      -⟩ := relink_spec hthreaded₃ hseg₃ (by rw [hlen]; exact hmask) (by rw [hlen]; exact hpos) hrest
    have hre' : Rearranged t t' := by
      refine Rearranged.trans ⟨?_, ?_, ?_, ?_, ?_, ?_⟩ hre <;> rw [heq] <;> assumption
    refine ⟨t', buckets', free', ?_, ⟨hthreaded', hlen'.trans hlen, Or.inl ?_, ?_⟩, ?_, hre'⟩
    · simp only [hreserve, Option.bind_some, hw₂, hw₃]
      exact hrun
    · refine hfree' ?_
      rw [hlen]
      exact h.target_empty hpos hdvd (hold head List.mem_cons_self)
    · intro i c' hc' x hx
      obtain ⟨c, hci, hsplit⟩ := hplaced' i c' hc'
      rw [hlen] at hsplit
      rcases hsplit x hx with hxc | ⟨hmem, hi⟩
      · by_cases hid : done = i
        · subst hid
          rw [List.getElem?_set_self (h.threaded.length ▸ hlt), Option.some.injEq] at hci
          subst hci
          cases hxc
        · rw [List.getElem?_set_ne hid] at hci
          have hplaced := h.placed i c hci x hxc
          by_cases himod : i % old < done
          · rw [if_pos himod] at hplaced
            rwa [if_pos (by omega)]
          · rw [if_neg himod] at hplaced
            rw [Nat.mod_eq_of_lt hplaced.1] at himod ⊢
            rwa [if_neg (by omega)]
      · have himod : i % old = done := by
          rw [← hi, Nat.mod_mod_of_dvd _ hdvd]
          exact hold x hmem
        rwa [if_pos (by omega)]
    · refine hperm.trans ?_
      obtain ⟨others, hl, hset⟩ := flatMap_set_perm (f := Content.entries) hc
      exact ((hset .empty).append_right _).trans (List.perm_append_comm.trans hl.symm)

theorem Rehashing.run (h : Rehashing p old new 0 t buckets free) (hpos : 0 < new)
    (hdvd : 0 < old → old ∣ new) (hmask : ∀ x, x &&& newTableMask = x % new) :
    ∀ done, done ≤ old → ∃ t' buckets' free',
      (List.range done).foldlM (fun t i => rehashBucket p a newTableMask i t) t = some t' ∧
      Rehashing p old new done t' buckets' free' ∧
      (buckets'.flatMap Content.entries).Perm (buckets.flatMap Content.entries) ∧
      Rearranged t t' := by
  intro done
  induction done with
  | zero => exact fun _ => ⟨t, buckets, free, rfl, h, List.Perm.refl _, Rearranged.refl t⟩
  | succ done ih =>
    intro hdone
    have hdvd := hdvd (by omega)
    obtain ⟨t₁, buckets₁, free₁, hrun, h₁, hperm, hre⟩ := ih (by omega)
    obtain ⟨t₂, buckets₂, free₂, hstep, h₂, hperm₂, hre₂⟩ :=
      h₁.step (a := a) (by omega) hpos hdvd hmask (Nat.le_of_dvd hpos hdvd)
    refine ⟨t₂, buckets₂, free₂, ?_, h₂, hperm₂.trans hperm, hre.trans hre₂⟩
    rw [List.range_succ, List.foldlM_append, hrun]
    simp only [Option.bind_eq_bind, Option.bind_some, List.foldlM_cons, List.foldlM_nil, hstep]
    rfl

/-- **The new table has the same entries, each in the bucket of its hash.** -/
theorem rehash_spec {newTable : List (Bucket E)} (h : Threaded t buckets free [])
    (hsize : getTableSize t = buckets.length)
    (hplaced : ∀ (i : Nat) c, buckets[i]? = some c → ∀ e ∈ c.entries,
      p.hashOf e % buckets.length = i)
    (hroom : Room t free) (hnew : newTable.length = new)
    (hcopy : ∀ i : Nat, i < buckets.length → newTable[i]? = t.table[i]?)
    (hle : buckets.length ≤ new) (hpos : 0 < new)
    (hdvd : 0 < buckets.length → buckets.length ∣ new)
    (hmask : ∀ x, x &&& newTableMask = x % new) :
    ∃ t' buckets' free', rehash p a newTableMask { t with table := newTable } = some t' ∧
      Threaded t' buckets' free' [] ∧ buckets'.length = new ∧
      (buckets'.flatMap Content.entries).Perm (buckets.flatMap Content.entries) ∧
      (∀ (i : Nat) c, buckets'[i]? = some c → ∀ e ∈ c.entries, p.hashOf e % new = i) ∧
      Rearranged t t' := by
  -- The new buckets are empty, the old ones still hold what they held.
  let start : GenericTable E :=
    { t with
      table := newTable.mapIdx fun i b =>
        if buckets.length ≤ i then { b with next := NEXT_BUCKET_EMPTY } else b }
  let extended := buckets ++ List.replicate (new - buckets.length) Content.empty
  have hempty : (List.replicate (new - buckets.length) (Content.empty (E := E))).flatMap
      Content.slots = [] := by
    rw [List.flatMap_eq_nil_iff]
    intro c hc
    rw [(List.mem_replicate.1 hc).2]
    rfl
  have hentries : (List.replicate (new - buckets.length) (Content.empty (E := E))).flatMap
      Content.entries = [] := by
    rw [List.flatMap_eq_nil_iff]
    intro c hc
    rw [(List.mem_replicate.1 hc).2]
    rfl
  have hstart : Rehashing p buckets.length new 0 start extended free := by
    refine ⟨⟨?_, ?_, h.freeList, ?_, h.chainSize_le, h.chain_length, h.chainCapacity_le,
      h.maxCapacity_le⟩, ?_, hroom, ?_⟩
    · simp only [start, extended, List.length_mapIdx, List.length_append, List.length_replicate]
      omega
    · intro i b c hb hc
      simp only [start, List.getElem?_mapIdx, Option.map_eq_some_iff] at hb
      obtain ⟨b', hb', rfl⟩ := hb
      rcases Nat.lt_or_ge i buckets.length with hlt | hge
      · rw [if_neg (by omega)]
        rw [hcopy i hlt] at hb'
        simp only [extended, List.getElem?_append_left hlt] at hc
        exact h.bucket i b' c hb' hc
      · rw [if_pos hge]
        simp only [extended, List.getElem?_append_right hge, List.getElem?_replicate] at hc
        split at hc
        · obtain rfl := Option.some.inj hc
          exact rfl
        · cases hc
    · rw [List.flatMap_append, hempty, List.append_nil]
      exact h.slots
    · simp only [extended, List.length_append, List.length_replicate]
      omega
    · intro i c hc e he
      rw [if_neg (Nat.not_lt_zero _)]
      rcases Nat.lt_or_ge i buckets.length with hlt | hge
      · simp only [extended, List.getElem?_append_left hlt] at hc
        exact ⟨hlt, hplaced i c hc e he⟩
      · simp only [extended, List.getElem?_append_right hge, List.getElem?_replicate] at hc
        split at hc
        · obtain rfl := Option.some.inj hc
          cases he
        · cases hc
  obtain ⟨t', buckets', free', hrun, hdone, hperm, hre⟩ :=
    hstart.run (a := a) hpos hdvd hmask buckets.length (Nat.le_refl _)
  refine ⟨t', buckets', free', ?_, hdone.threaded, hdone.length, ?_, ?_, ?_⟩
  · unfold rehash
    rw [show getTableSize { t with table := newTable } = buckets.length from hsize]
    exact hrun
  · simp only [extended, List.flatMap_append, hentries, List.append_nil] at hperm
    exact hperm
  · intro i c hc e he
    have hpl := hdone.placed i c hc e he
    rcases Nat.eq_zero_or_pos buckets.length with hzero | hold
    · rw [hzero, if_neg (Nat.not_lt_zero _)] at hpl
      exact absurd hpl.1 (Nat.not_lt_zero _)
    · rwa [if_pos (Nat.mod_lt _ hold)] at hpl
  · exact ⟨hre.tableMask, hre.tableSize, hre.tableCapacity, hre.chainCapacity, hre.maxCapacity,
      hre.allocations⟩

end OpenZL.Common.Table
