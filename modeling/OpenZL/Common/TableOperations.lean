import OpenZL.Common.TableRehash

/-!
# The operations of the hash table

The invariant of a table between operations, and what each operation does to the entries it holds.

* `find_spec`, `reserve_spec`, `insert_spec` — the operations on the entries; erasure, clearing and
  iteration are in `TableErasure`.
-/

namespace OpenZL.Common.Table

open OpenZL.Lib

variable {κ E : Type} {p : Policy κ E} {a : Allocator E} {t : GenericTable E}
  {buckets : List (Content E)} {free : List (Nat × E)}

/-- The equality is an equivalence, and equal keys have one hash. -/
structure Policy.Lawful (p : Policy κ E) : Prop where
  refl : ∀ k, p.eqFn k k = true
  symm : ∀ j k, p.eqFn j k = true → p.eqFn k j = true
  trans : ∀ i j k, p.eqFn i j = true → p.eqFn j k = true → p.eqFn i k = true
  hash : ∀ j k, p.eqFn j k = true → p.hashFn j = p.hashFn k

theorem Policy.Lawful.comm (hp : p.Lawful) (j k : κ) : p.eqFn j k = p.eqFn k j := by
  cases h : p.eqFn j k with
  | true => exact (hp.symm j k h).symm
  | false =>
    cases h' : p.eqFn k j with
    | true => exact absurd (hp.symm k j h') (by simp [h])
    | false => rfl

/-- The keys of two entries differ. -/
def Policy.Apart (p : Policy κ E) (d e : E) : Prop := p.eqFn (p.key d) (p.key e) = false

/-- The number of buckets of a table, and its mask and capacity. -/
def Shape (t : GenericTable E) (n : Nat) : Prop :=
  (n = 0 ∧ t.tableMask = 0 ∧ t.tableCapacity = 0) ∨
    (0 < t.tableCapacity ∧ t.tableMask + 1 = n ∧ n = 2 * 2 ^ nextPow2 t.tableCapacity)

/-! ## Well-formed tables -/

/-- The invariant between operations. -/
structure Wf (p : Policy κ E) (t : GenericTable E) (buckets : List (Content E))
    (free : List (Nat × E)) : Prop where
  threaded : Threaded t buckets free []
  placed : ∀ (i : Nat) c, buckets[i]? = some c → ∀ e ∈ c.entries,
    p.hashOf e % buckets.length = i
  distinct : (buckets.flatMap Content.entries).Pairwise p.Apart
  size : t.tableSize = (buckets.flatMap Content.entries).length
  size_le : t.tableSize ≤ t.tableCapacity
  capacity_le : t.tableCapacity ≤ t.maxCapacity
  shape : Shape t buckets.length

theorem create_wf (maxCapacity : Nat) : Wf p (create maxCapacity) [] [] where
  threaded :=
    { length := rfl
      bucket := fun _ _ _ _ h => nomatch h
      freeList := rfl
      slots := List.Perm.refl _
      chainSize_le := Nat.le_refl _
      chain_length := rfl
      chainCapacity_le := Nat.zero_le _
      maxCapacity_le := Nat.min_le_right _ _ }
  placed := fun _ _ h => nomatch h
  distinct := List.Pairwise.nil
  size := rfl
  size_le := Nat.le_refl _
  capacity_le := Nat.zero_le _
  shape := Or.inl ⟨rfl, rfl, rfl⟩

theorem Shape.and_mask {n : Nat} (h : Shape t n) (hn : 0 < n) (x : Nat) :
    x &&& t.tableMask = x % n := by
  rcases h with ⟨rfl, -, -⟩ | ⟨-, hmask, hpow⟩
  · exact absurd hn (Nat.lt_irrefl 0)
  · have hpow : n = 2 ^ (nextPow2 t.tableCapacity + 1) := by rw [hpow, Nat.pow_succ, Nat.mul_comm]
    have hmask : t.tableMask = 2 ^ (nextPow2 t.tableCapacity + 1) - 1 := by omega
    rw [hmask, hpow, Nat.and_two_pow_sub_one_eq_mod]

theorem Shape.getTableSize_eq {n : Nat} (h : Shape t n) :
    getTableSize t = n := by
  unfold getTableSize
  rcases h with ⟨rfl, hmask, -⟩ | ⟨-, hmask, hpow⟩
  · rw [if_pos hmask]
  · have := Nat.two_pow_pos (nextPow2 t.tableCapacity)
    rw [if_neg (by omega), hmask]

namespace Wf

variable {t : GenericTable E} {buckets : List (Content E)} {free : List (Nat × E)} {i : Nat}
  {c : Content E}

theorem table_eq_nil_iff (h : Wf p t buckets free) : t.table = [] ↔ buckets = [] := by
  rw [← List.length_eq_zero_iff, ← List.length_eq_zero_iff, h.threaded.length]

theorem buckets_pos (h : Wf p t buckets free) (hnil : t.table ≠ []) : 0 < buckets.length :=
  List.length_pos_of_ne_nil fun hb => hnil (h.table_eq_nil_iff.2 hb)

theorem length_pos (h : Wf p t buckets free) (hcap : 0 < t.tableCapacity) :
    0 < buckets.length := by
  rcases h.shape with ⟨-, -, hzero⟩ | ⟨-, hmask, -⟩
  · omega
  · omega

theorem bucketOf (h : Wf p t buckets free) (hp : p.Lawful) (hpos : 0 < buckets.length) (key : κ) :
    ∃ c, buckets[getTableBucket p t key]? = some c ∧
      ∀ e ∈ buckets.flatMap Content.entries, p.eqFn key (p.key e) = true → e ∈ c.entries := by
  have hindex : getTableBucket p t key = (p.hashFn key).toNat % buckets.length :=
    h.shape.and_mask hpos _
  have hlt : getTableBucket p t key < buckets.length := by
    rw [hindex]
    exact Nat.mod_lt _ hpos
  refine ⟨buckets[getTableBucket p t key], List.getElem?_eq_getElem hlt, fun e he heq => ?_⟩
  obtain ⟨d, hd, hed⟩ := List.mem_flatMap.1 he
  obtain ⟨j, hj⟩ := List.mem_iff_getElem?.1 hd
  have hplaced := h.placed j d hj e hed
  rw [Policy.hashOf, ← hp.hash _ _ heq, ← hindex] at hplaced
  rw [← hplaced] at hj
  have hd := List.getElem?_eq_getElem hlt
  rw [hj, Option.some.injEq] at hd
  exact hd ▸ hed

theorem mem_entries (hc : buckets[i]? = some c) {e : E} (he : e ∈ c.entries) :
    e ∈ buckets.flatMap Content.entries := mem_flatMap_of_getElem? hc he

theorem length_slots_le (l : List (Content E)) :
    (l.flatMap Content.slots).length ≤ (l.flatMap Content.entries).length := by
  induction l with
  | nil => exact Nat.le_refl _
  | cons d l ih =>
    have := d.length_slots_le
    simp only [List.flatMap_cons, List.length_append]
    omega

theorem slots_lt (hc : buckets[i]? = some c) (hne : c ≠ .empty) :
    (buckets.flatMap Content.slots).length < (buckets.flatMap Content.entries).length := by
  induction buckets generalizing i with
  | nil => cases hc
  | cons d l ih =>
    simp only [List.flatMap_cons, List.length_append]
    cases i with
    | zero =>
      obtain rfl := Option.some.inj hc
      have := length_slots_le l
      cases d with
      | empty => exact absurd rfl hne
      | full head rest =>
        simp only [Content.slots, Content.entries, List.length_cons, List.length_map]
        omega
    | succ i =>
      have := ih (i := i) hc
      have := d.length_slots_le
      omega

variable (h : Wf p t buckets free)

include h

theorem chainSize_eq (hfree : free = []) :
    t.chainSize = (buckets.flatMap Content.slots).length := by
  have hslots := h.threaded.slots.length_eq
  simp only [hfree, List.length_append, List.length_range, List.map_nil, List.length_nil] at hslots
  omega

theorem chainSize_le (hfree : free = []) :
    t.chainSize ≤ t.tableSize := by
  rw [h.chainSize_eq hfree, h.size]
  exact length_slots_le buckets

theorem chainSize_lt (hc : buckets[i]? = some c) (hne : c ≠ .empty) (hfree : free = []) :
    t.chainSize < t.tableSize := by
  rw [h.chainSize_eq hfree, h.size]
  exact slots_lt hc hne

theorem placed_set {c' : Content E} (hc : buckets[i]? = some c)
    (hc' : ∀ e ∈ c'.entries, p.hashOf e % buckets.length = i) (j : Nat) (d : Content E)
    (hd : (buckets.set i c')[j]? = some d) :
    ∀ e ∈ d.entries, p.hashOf e % (buckets.set i c').length = j := by
  rw [List.length_set]
  by_cases hij : i = j
  · subst hij
    rw [List.getElem?_set_self (List.getElem?_eq_some_iff.1 hc).1, Option.some.injEq] at hd
    subst hd
    exact hc'
  · rw [List.getElem?_set_ne hij] at hd
    exact h.placed j d hd

variable {t' : GenericTable E} {c' : Content E} {free' : List (Nat × E)} (hp : p.Lawful)
  (hc : buckets[i]? = some c) (ht : Threaded t' (buckets.set i c') free' [])

include hp hc ht

theorem add {entry : E} (hperm : c'.entries.Perm (entry :: c.entries))
    (hi : p.hashOf entry % buckets.length = i)
    (hnew : ∀ e ∈ buckets.flatMap Content.entries, p.Apart entry e)
    (hmask : t'.tableMask = t.tableMask) (hcap : t'.tableCapacity = t.tableCapacity)
    (hmax : t'.maxCapacity = t.maxCapacity) (hsize : t'.tableSize = t.tableSize + 1)
    (hlt : t.tableSize < t.tableCapacity) :
    Wf p t' (buckets.set i c') free' ∧ ((buckets.set i c').flatMap Content.entries).Perm
        (entry :: buckets.flatMap Content.entries) := by
  obtain ⟨others, hl, hset⟩ := flatMap_set_perm (f := Content.entries) hc
  have hentries : ((buckets.set i c').flatMap Content.entries).Perm
      (entry :: buckets.flatMap Content.entries) :=
    ((hset c').trans (hperm.append_right others)).trans (hl.symm.cons entry)
  refine ⟨⟨ht, ?_, ?_, ?_, ?_, ?_, ?_⟩, hentries⟩
  · refine h.placed_set hc fun e he => ?_
    rcases List.mem_cons.1 (hperm.mem_iff.1 he) with rfl | he
    · exact hi
    · exact h.placed i c hc e he
  · refine (hentries.pairwise_iff fun {d e} hde => ?_).2 (List.pairwise_cons.2 ⟨hnew, h.distinct⟩)
    exact (hp.comm _ _).trans hde
  · rw [hsize, hentries.length_eq, List.length_cons, h.size]
  · omega
  · rw [hcap, hmax]
    exact h.capacity_le
  · rw [List.length_set, Shape, hmask, hcap]
    exact h.shape

theorem remove {entry : E} (hperm : c.entries.Perm (entry :: c'.entries))
    (hmask : t'.tableMask = t.tableMask) (hcap : t'.tableCapacity = t.tableCapacity)
    (hmax : t'.maxCapacity = t.maxCapacity) (hsize : t'.tableSize = t.tableSize - 1) :
    Wf p t' (buckets.set i c') free' ∧ (buckets.flatMap Content.entries).Perm
        (entry :: (buckets.set i c').flatMap Content.entries) := by
  obtain ⟨others, hl, hset⟩ := flatMap_set_perm (f := Content.entries) hc
  have hentries : (buckets.flatMap Content.entries).Perm
      (entry :: (buckets.set i c').flatMap Content.entries) :=
    hl.trans ((hperm.append_right others).trans ((hset c').symm.cons entry))
  refine ⟨⟨ht, ?_, ?_, ?_, ?_, ?_, ?_⟩, hentries⟩
  · exact h.placed_set hc fun e he => h.placed i c hc e (hperm.mem_iff.2 (List.mem_cons_of_mem _ he))
  · have hpair := (hentries.pairwise_iff (R := p.Apart)
      fun {d e} hde => (hp.comm _ _).trans hde).1 h.distinct
    exact (List.pairwise_cons.1 hpair).2
  · have := hentries.length_eq
    rw [List.length_cons] at this
    have := h.size
    omega
  · have := h.size_le
    omega
  · rw [hcap, hmax]
    exact h.capacity_le
  · rw [List.length_set, Shape, hmask, hcap]
    exact h.shape

end Wf

/-- The entry a pointer points to. -/
def GenericTable.entryAt (t : GenericTable E) (place : Place) : Option E :=
  (t.bucketAt place).map Cell.entry

/-! ## Finding -/

/-- `r` points to an entry of `es` with the key, or is null and there is none. -/
def Found (p : Policy κ E) (t : GenericTable E) (key : κ) (es : List E) : Option Place → Prop
  | none => ∀ e ∈ es, p.eqFn key (p.key e) = false
  | some place => ∃ e ∈ es, t.entryAt place = some e ∧ p.eqFn key (p.key e) = true

theorem Found.cons {key : κ} {es : List E} {e : E} {r : Option Place} (h : Found p t key es r)
    (he : p.eqFn key (p.key e) = false) : Found p t key (e :: es) r := by
  cases r with
  | none => exact List.forall_mem_cons.2 ⟨he, h⟩
  | some place =>
    obtain ⟨d, hd, hplace, heq⟩ := h
    exact ⟨d, List.mem_cons_of_mem _ hd, hplace, heq⟩

section walks

variable {t : GenericTable E} {buckets : List (Content E)} {free : List (Nat × E)}
  {pending : List Nat} {i fuel : Nat} {head : E} {done remaining : List (Nat × E)}

theorem findFrom_spec (h : Threaded t buckets free pending) (key : κ)
    (hc : buckets[i]? = some (.full head (done ++ remaining))) (hfuel : remaining.length < fuel) :
    ∃ r, findFrom p t key fuel (placeOf i done) = some r ∧
      Found p t key (lastOf head done :: remaining.map Prod.snd) r := by
  induction fuel generalizing done remaining with
  | zero => omega
  | succ fuel ih =>
    have hnode := h.node hc
    rw [findFrom]
    simp only [hnode, Option.bind_eq_bind, Option.bind_some]
    cases heq : p.eqFn key (p.key (lastOf head done)) with
    | true => exact ⟨_, rfl, _, List.mem_cons_self, by simp [GenericTable.entryAt, hnode], heq⟩
    | false =>
      cases remaining with
      | nil => exact ⟨none, rfl, by simpa [Found] using heq⟩
      | cons s remaining =>
        obtain ⟨k, e⟩ := s
        have hne := h.nextOf_ne hc
        obtain ⟨r, hr, hfound⟩ := @ih (done ++ [(k, e)]) remaining
          (by rwa [List.append_assoc]) (by simpa using hfuel)
        rw [placeOf_concat] at hr
        rw [lastOf_concat] at hfound
        exact ⟨r, by simpa [hne] using hr, hfound.cons heq⟩

end walks

theorem find_spec (h : Wf p t buckets free) (hp : p.Lawful) (key : κ) :
    ∃ r, find p t key = some r ∧ Found p t key (buckets.flatMap Content.entries) r := by
  unfold find
  by_cases hnil : t.table = []
  · rw [if_pos hnil, h.table_eq_nil_iff.1 hnil]
    exact ⟨none, rfl, nofun⟩
  · have hpos := h.buckets_pos hnil
    obtain ⟨c, hc, hall⟩ := h.bucketOf hp hpos key
    rw [if_neg hnil]
    cases c with
    | empty =>
      obtain ⟨b, hb, hnext⟩ := h.threaded.bucketAt_empty hc
      refine ⟨none, by simp [hb, hnext], fun e he => ?_⟩
      cases heq : p.eqFn key (p.key e) with
      | false => rfl
      | true => cases hall e he heq
    | full head rest =>
      have hnode := h.threaded.node (Content.at_head hc)
      have hne := h.threaded.nextOf_ne_bucketEmpty (Content.at_head hc)
      have hfuel := h.threaded.length_rest_le hc
      obtain ⟨r, hr, hfound⟩ := findFrom_spec (p := p) h.threaded key (Content.at_head hc)
        (Nat.lt_succ_of_le hfuel)
      simp only [placeOf_nil, lastOf_nil] at hnode hr hfound
      refine ⟨r, by simpa [hnode, hne] using hr, ?_⟩
      cases r with
      | none =>
        intro e he
        cases heq : p.eqFn key (p.key e) with
        | false => rfl
        | true => rw [hfound e (hall e he heq)] at heq; cases heq
      | some place =>
        obtain ⟨e, he, hplace, heq⟩ := hfound
        exact ⟨e, Wf.mem_entries hc he, hplace, heq⟩

/-! ## Growing -/

/-- The table holds the entries `es`. -/
def Holding (p : Policy κ E) (t : GenericTable E) (es : List E) : Prop :=
  ∃ buckets free, Wf p t buckets free ∧ (buckets.flatMap Content.entries).Perm es

/-- What never shrinks between `t` and a later `t'`. -/
structure Later (t t' : GenericTable E) : Prop where
  tableCapacity : t.tableCapacity ≤ t'.tableCapacity
  chainCapacity : t.chainCapacity ≤ t'.chainCapacity
  allocations : t.allocations ≤ t'.allocations
  maxCapacity : t'.maxCapacity = t.maxCapacity

theorem Later.refl (t : GenericTable E) : Later t t :=
  ⟨Nat.le_refl _, Nat.le_refl _, Nat.le_refl _, rfl⟩

theorem Later.trans {t t' t'' : GenericTable E} (h : Later t t') (h' : Later t' t'') :
    Later t t'' :=
  ⟨h.tableCapacity.trans h'.tableCapacity, h.chainCapacity.trans h'.chainCapacity,
    h.allocations.trans h'.allocations, h'.maxCapacity.trans h.maxCapacity⟩

theorem Grown.chainCapacity_mono {t t' : GenericTable E} (hg : Grown t t')
    (hlen : t.chain.length = t.chainCapacity) : t.chainCapacity ≤ t'.chainCapacity := by
  rw [← hlen, ← hg.chain_length]
  exact hg.length_le

theorem Grown.later {t t' : GenericTable E} (hg : Grown t t')
    (hlen : t.chain.length = t.chainCapacity) : Later t t' :=
  ⟨hg.tableCapacity.symm.le, hg.chainCapacity_mono hlen, hg.allocations_le, hg.maxCapacity⟩

theorem Grown.wf {t t' : GenericTable E} (hg : Grown t t') (h : Wf p t buckets free) :
    Wf p t' buckets free where
  threaded := hg.threaded h.threaded
  placed := h.placed
  distinct := h.distinct
  size := hg.tableSize.trans h.size
  size_le := by rw [hg.tableSize, hg.tableCapacity]; exact h.size_le
  capacity_le := by rw [hg.tableCapacity, hg.maxCapacity]; exact h.capacity_le
  shape := by rw [Shape, hg.tableMask, hg.tableCapacity]; exact h.shape

theorem nextPow2_mono {m n : Nat} (h : m ≤ n) : nextPow2 m ≤ nextPow2 n :=
  nextPow2_le (h.trans (le_two_pow_nextPow2 n))

theorem Wf.counted (h : Wf p t buckets free) (n : Nat) :
    Wf p { t with allocations := n } buckets free where
  threaded := h.threaded.congr rfl rfl rfl rfl rfl rfl
  placed := h.placed
  distinct := h.distinct
  size := h.size
  size_le := h.size_le
  capacity_le := h.capacity_le
  shape := h.shape

theorem Shape.dvd {n newCapacity : Nat} (h : Shape t n) (hle : t.tableCapacity ≤ newCapacity) :
    n ≤ 2 * 2 ^ nextPow2 newCapacity ∧ (0 < n → n ∣ 2 * 2 ^ nextPow2 newCapacity) := by
  rcases h with ⟨rfl, -, -⟩ | ⟨-, -, rfl⟩
  · exact ⟨Nat.zero_le _, fun h => absurd h (Nat.lt_irrefl 0)⟩
  · have hdvd := Nat.mul_dvd_mul_left 2 (Nat.pow_dvd_pow 2 (nextPow2_mono hle))
    have hpos := Nat.two_pow_pos (nextPow2 newCapacity)
    exact ⟨Nat.le_of_dvd (by omega) hdvd, fun _ => hdvd⟩

theorem growTable_spec {capacity : Nat} (h : Wf p t buckets free) (hp : p.Lawful)
    (hroom : Room t free) (hlt : t.tableCapacity < capacity) (hle : capacity ≤ t.maxCapacity)
    (guarantee : Bool) :
    ∃ ok t', growTable p a t capacity guarantee = some (ok, t') ∧
      Holding p t' (buckets.flatMap Content.entries) ∧ Later t t' ∧ t'.tableSize = t.tableSize ∧
      (ok = true → capacity ≤ t'.tableCapacity) ∧
      (ok = true → guarantee = true → capacity ≤ t'.chainCapacity) ∧ (ok = false → Refused p a t t')
    := by
  have hmax : t.maxCapacity ≤ 2 ^ 30 - 1 := h.threaded.maxCapacity_le
  have hnext := nextCapacity_le t.tableCapacity t.maxCapacity true
  unfold growTable
  dsimp only
  generalize hcap : max capacity (nextCapacity t.tableCapacity t.maxCapacity true) = newCapacity
  have hpow : nextPow2 newCapacity ≤ 30 := nextPow2_le (by omega)
  have hbound : 2 * 2 ^ nextPow2 newCapacity ≤ 2 ^ 31 := by
    have := Nat.pow_le_pow_right (n := 2) (by omega) hpow
    omega
  rw [Nat.mod_eq_of_lt (by omega : 2 * 2 ^ nextPow2 newCapacity < 2 ^ 32)]
  generalize hsize : 2 * 2 ^ nextPow2 newCapacity = newTableSize at hbound
  have hpos : 0 < newTableSize := by
    have := Nat.two_pow_pos (nextPow2 newCapacity)
    omega
  by_cases hfits : fitsMemory p newTableSize
  · rw [if_neg (not_not.2 hfits)]
    unfold reallocMem
    cases hg : a.grants t.allocations with
    | false =>
      simp only [Bool.false_eq_true, if_false]
      exact ⟨false, _, rfl, ⟨buckets, free, h.counted _, List.Perm.refl _⟩,
        ⟨Nat.le_refl _, Nat.le_refl _, Nat.le_succ _, rfl⟩, rfl, nofun, nofun,
        fun _ => Or.inl ⟨t.allocations, Nat.le_refl _, Nat.lt_succ_self _, hg⟩⟩
    | true =>
      simp only [if_true]
      have hgrow : t.tableCapacity ≤ newCapacity := by omega
      obtain ⟨hbuckets, hdvd⟩ := h.shape.dvd hgrow
      rw [hsize] at hbuckets hdvd
      have hmask : ∀ x, x &&& (newTableSize - 1) = x % newTableSize := by
        intro x
        rw [← hsize, ← Nat.pow_succ', Nat.and_two_pow_sub_one_eq_mod]
      have hcopy : ∀ i : Nat, i < buckets.length →
          ((List.range newTableSize).map fun i =>
            t.table[i]?.getD (a.residue t.allocations i))[i]? = t.table[i]? := by
        intro i hi
        have hnew : i < newTableSize := by omega
        have htable : i < t.table.length := h.threaded.length ▸ hi
        simp [hnew, htable]
      obtain ⟨t₁, buckets₁, free₁, hrun, hthreaded, hlen, hperm, hplaced, hre⟩ :=
        rehash_spec (a := a)
          (h.counted (t.allocations + 1)).threaded h.shape.getTableSize_eq h.placed hroom
          (by rw [List.length_map, List.length_range]) hcopy hbuckets hpos hdvd hmask
      have hwf : Wf p { t₁ with tableMask := newTableSize - 1, tableCapacity := newCapacity }
          buckets₁ free₁ :=
        { threaded := hthreaded.congr rfl rfl rfl rfl rfl rfl
          placed := hlen ▸ hplaced
          distinct := (hperm.pairwise_iff
            fun {d e} hde => (hp.comm _ _).trans hde).2 h.distinct
          size := hre.tableSize.trans (h.size.trans hperm.length_eq.symm)
          size_le := by
            change t₁.tableSize ≤ newCapacity
            rw [hre.tableSize]
            exact h.size_le.trans hgrow
          capacity_le := by
            change newCapacity ≤ t₁.maxCapacity
            rw [hre.maxCapacity]
            change newCapacity ≤ t.maxCapacity
            omega
          shape := Or.inr ⟨by change 0 < newCapacity; omega,
            by change newTableSize - 1 + 1 = _; omega, by rw [hlen, ← hsize]⟩ }
      have hlater : Later t
          { t₁ with tableMask := newTableSize - 1, tableCapacity := newCapacity } :=
        ⟨hgrow, hre.chainCapacity.symm.le, hre.allocations.symm.le.trans' (Nat.le_succ _),
          hre.maxCapacity⟩
      simp only [hrun, Option.bind_eq_bind, Option.bind_some]
      cases guarantee with
      | false =>
        exact ⟨true, _, rfl, ⟨buckets₁, free₁, hwf, hperm⟩, hlater, hre.tableSize,
          fun _ => by change capacity ≤ newCapacity; omega, nofun, nofun⟩
      | true =>
        obtain ⟨hg, hok, hbad⟩ := growChain_spec p a (rfl : growChain p a _ capacity = _)
          hwf.threaded.chain_length hwf.threaded.chainCapacity_le hwf.threaded.maxCapacity_le
          (hre.maxCapacity.symm ▸ hle)
        refine ⟨_, _, rfl, ⟨buckets₁, free₁, hg.wf hwf, hperm⟩,
          hlater.trans (hg.later hwf.threaded.chain_length), hg.tableSize.trans hre.tableSize,
          fun _ => ?_, fun ok _ => (hok ok).1, fun bad => ?_⟩
        · rw [hg.tableCapacity]
          change capacity ≤ newCapacity
          omega
        · exact (hbad bad).mono hlater.allocations (Nat.le_refl _)
  · rw [if_pos hfits]
    exact ⟨false, t, rfl, ⟨buckets, free, h, List.Perm.refl _⟩, Later.refl t, rfl, nofun, nofun,
      fun _ => refused_of_not_fits hfits hbound⟩

/-- **`GenericTable_reserve` keeps the entries**, and grows the table when it succeeds. -/
theorem reserve_spec (h : Wf p t buckets free) (hp : p.Lawful) (capacity : Nat) (guarantee : Bool) :
    ∃ ok t', reserve p a t capacity guarantee = some (ok, t') ∧
      Holding p t' (buckets.flatMap Content.entries) ∧ Later t t' ∧ t'.tableSize = t.tableSize ∧
      (ok = true → capacity ≤ t'.tableCapacity) ∧
      (ok = true → guarantee = true → t.tableCapacity < capacity → capacity ≤ t'.chainCapacity) ∧
      (ok = false → t.maxCapacity < capacity ∨ Refused p a t t') := by
  unfold reserve
  by_cases hcap : capacity ≤ t.tableCapacity
  · rw [if_pos hcap]
    exact ⟨true, t, rfl, ⟨buckets, free, h, List.Perm.refl _⟩, Later.refl t, rfl, fun _ => hcap,
      fun _ _ hlt => absurd hcap (by omega), nofun⟩
  · rw [if_neg hcap]
    by_cases hmax : t.maxCapacity < capacity
    · rw [if_pos hmax]
      exact ⟨false, t, rfl, ⟨buckets, free, h, List.Perm.refl _⟩, Later.refl t, rfl, nofun,
        nofun, fun _ => Or.inl hmax⟩
    · rw [if_neg hmax]
      -- The chain has room for one more bucket, or memory for it was refused.
      obtain ⟨room, t₁, hgrow, hg, hok, hbad⟩ : ∃ room t₁,
          (if t.chainFreeList = NEXT_CHAIN_EMPTY ∧ t.chainCapacity ≤ t.chainSize then
            growChain p a t 0 else (true, t)) = (room, t₁) ∧ Grown t t₁ ∧
          (room = true → Room t₁ free) ∧ (room = false → Refused p a t t₁) := by
        by_cases hfull : t.chainFreeList = NEXT_CHAIN_EMPTY ∧ t.chainCapacity ≤ t.chainSize
        · rw [if_pos hfull]
          obtain ⟨hg, hok, hbad⟩ := growChain_spec p a (rfl : growChain p a t 0 = _)
            h.threaded.chain_length h.threaded.chainCapacity_le h.threaded.maxCapacity_le
            (Nat.zero_le _)
          refine ⟨_, _, rfl, hg, fun grown => Or.inr ?_, hbad⟩
          have hfree := h.threaded.freeList.nil_of_start h.threaded.chain_lt.le hfull.1
          have hsize := h.chainSize_le hfree
          have hle := h.size_le
          have hchain := h.threaded.chainSize_le
          rw [h.threaded.chain_length] at hchain
          have := (hok grown).2 (by omega)
          rw [hg.chainSize]
          omega
        · rw [if_neg hfull]
          refine ⟨true, t, rfl, Grown.refl h.threaded.chain_length h.threaded.chainCapacity_le,
            fun _ => ?_, nofun⟩
          by_cases hnil : t.chainFreeList = NEXT_CHAIN_EMPTY
          · exact Or.inr (Nat.lt_of_not_le fun hle => hfull ⟨hnil, hle⟩)
          · obtain ⟨e, next, rest, rfl, -, -⟩ := h.threaded.freeList.cons_of_start hnil
            exact Or.inl (List.cons_ne_nil _ _)
      rw [hgrow]
      have hlater := hg.later h.threaded.chain_length
      cases room with
      | false =>
        exact ⟨false, t₁, rfl, ⟨buckets, free, hg.wf h, List.Perm.refl _⟩, hlater, hg.tableSize,
          nofun, nofun, fun _ => Or.inr (hbad rfl)⟩
      | true =>
        obtain ⟨ok, t', hrun, hholding, hlater', hsize, hcapacity, hchain, hrefused⟩ :=
          growTable_spec (a := a) (hg.wf h) hp (hok rfl)
            (hg.tableCapacity.trans_lt (Nat.lt_of_not_le hcap))
            (by rw [hg.maxCapacity]; omega) guarantee
        exact ⟨ok, t', hrun, hholding, hlater.trans hlater', hsize.trans hg.tableSize, hcapacity,
          fun ok guarantee _ => hchain ok guarantee,
          fun bad => Or.inr ((hrefused bad).mono hlater.allocations (Nat.le_refl _))⟩

/-! ## Inserting -/

/-- What an insertion answers, and the entries held after it. -/
inductive Inserted (p : Policy κ E) (entry : E) (es : List E) : Insert → GenericTable E → Prop
  | present {place : Place} {e : E} {t : GenericTable E} : e ∈ es →
      p.eqFn (p.key entry) (p.key e) = true → t.entryAt place = some e → Holding p t es →
      Inserted p entry es ⟨some place, false, false⟩ t
  | added {place : Place} {t : GenericTable E} : (∀ e ∈ es, p.Apart entry e) →
      t.entryAt place = some entry → Holding p t (entry :: es) →
      Inserted p entry es ⟨some place, true, false⟩ t
  | badAlloc {t : GenericTable E} : Holding p t es → Inserted p entry es ⟨none, false, true⟩ t

theorem Holding.perm {es es' : List E} (h : Holding p t es) (hperm : es.Perm es') :
    Holding p t es' := by
  obtain ⟨buckets, free, hwf, hes⟩ := h
  exact ⟨buckets, free, hwf, hes.trans hperm⟩

theorem Inserted.perm {entry : E} {es es' : List E} {res : Insert} (h : Inserted p entry es res t)
    (hperm : es.Perm es') : Inserted p entry es' res t := by
  cases h with
  | present he heq hplace hholding =>
    exact .present (hperm.mem_iff.1 he) heq hplace (hholding.perm hperm)
  | added hnew hplace hholding =>
    exact .added (fun e he => hnew e (hperm.mem_iff.2 he)) hplace (hholding.perm (hperm.cons entry))
  | badAlloc hholding => exact .badAlloc (hholding.perm hperm)

section insertion

variable {t : GenericTable E} {buckets : List (Content E)} {free : List (Nat × E)}
  {pending : List Nat} {i fuel : Nat} {head : E} {rest done remaining : List (Nat × E)}

theorem insertFrom_spec (h : Threaded t buckets free pending) (entry : E)
    (hc : buckets[i]? = some (.full head (done ++ remaining))) (hfuel : remaining.length < fuel) :
    (∃ place, ∃ e ∈ lastOf head done :: remaining.map Prod.snd,
      insertFrom p a entry fuel (placeOf i done) t = some (⟨some place, false, false⟩, t) ∧
      p.eqFn (p.key entry) (p.key e) = true ∧ t.entryAt place = some e) ∨
    ((∀ e ∈ lastOf head done :: remaining.map Prod.snd, p.Apart entry e) ∧
      insertFrom p a entry fuel (placeOf i done) t =
        appendBucket p a entry (placeOf i (done ++ remaining))
          ⟨lastOf head (done ++ remaining), NEXT_CHAIN_EMPTY⟩ t) := by
  induction fuel generalizing done remaining with
  | zero => omega
  | succ fuel ih =>
    have hnode := h.node hc
    rw [insertFrom]
    simp only [hnode, Option.bind_eq_bind, Option.bind_some]
    cases heq : p.eqFn (p.key entry) (p.key (lastOf head done)) with
    | true =>
      exact Or.inl ⟨_, _, List.mem_cons_self, rfl, heq, by simp [GenericTable.entryAt, hnode]⟩
    | false =>
      cases remaining with
      | nil =>
        refine Or.inr ⟨by simpa [Policy.Apart] using heq, ?_⟩
        simp
      | cons s remaining =>
        obtain ⟨k, e⟩ := s
        have hne := h.nextOf_ne hc
        have hstep := @ih (done ++ [(k, e)]) remaining
          (by rwa [List.append_assoc]) (by simpa using hfuel)
        rw [placeOf_concat, lastOf_concat, List.append_assoc] at hstep
        rcases hstep with ⟨place, d, hd, hrun, heqd, hplace⟩ | ⟨hall, hrun⟩
        · exact Or.inl ⟨place, d, List.mem_cons_of_mem _ hd, by simpa [hne] using hrun,
            heqd, hplace⟩
        · refine Or.inr ⟨List.forall_mem_cons.2 ⟨heq, hall⟩, ?_⟩
          simpa [hne] using hrun

/-- What an insertion into a table that is not full does. -/
structure InsertedInto (p : Policy κ E) (a : Allocator E) (entry : E) (es : List E)
    (t : GenericTable E) (res : Insert) (t' : GenericTable E) : Prop where
  inserted : Inserted p entry es res t'
  later : Later t t'
  refused : res.badAlloc = true → (∀ e ∈ es, p.Apart entry e) ∧ Refused p a t t'
  quiet : t.tableSize ≤ t.chainCapacity → t'.allocations = t.allocations ∧ res.badAlloc = false

variable (h : Wf p t buckets free) (hp : p.Lawful)

include h hp

theorem appendBucket_spec {entry : E} (hc : buckets[i]? = some (.full head rest))
    (hi : p.hashOf entry % buckets.length = i)
    (hnew : ∀ e ∈ buckets.flatMap Content.entries, p.Apart entry e)
    (hlt : t.tableSize < t.tableCapacity) :
    ∃ res t', appendBucket p a entry (placeOf i rest) ⟨lastOf head rest, NEXT_CHAIN_EMPTY⟩ t =
        some (res, t') ∧
      InsertedInto p a entry (buckets.flatMap Content.entries) t res t' := by
  have hsize : free = [] → t.chainSize < t.tableSize := h.chainSize_lt hc nofun
  have hcap := h.capacity_le
  obtain ⟨k, t₁, hreserve, -, hmask₁, hsize₁, hcapacity₁, hmax₁, hchain₁, halloc₁, -, hsame,
    hcases⟩ := reserveChainIndex_spec p a h.threaded fun hfree => by
      have := hsize hfree
      omega
  have hlater : Later t t₁ := ⟨hcapacity₁.symm.le, hchain₁, halloc₁, hmax₁⟩
  have hroom : t.tableSize ≤ t.chainCapacity → free ≠ [] ∨ t.chainSize < t.chainCapacity := by
    intro hle
    by_cases hfree : free = []
    · have := hsize hfree
      exact Or.inr (by omega)
    · exact Or.inl hfree
  unfold appendBucket
  simp only [hreserve, Option.bind_eq_bind, Option.bind_some]
  rcases hcases with ⟨rfl, hthreaded, hrefused⟩ | ⟨hk, free', hthreaded⟩
  · refine ⟨⟨none, false, true⟩, t₁, by simp, .badAlloc ⟨buckets, free, ?_, List.Perm.refl _⟩, hlater,
      fun _ => ⟨hnew, hrefused⟩, fun hle => absurd rfl (hsame (hroom hle)).2.2⟩
    exact
      { threaded := hthreaded
        placed := h.placed
        distinct := h.distinct
        size := hsize₁.trans h.size
        size_le := by rw [hsize₁, hcapacity₁]; exact h.size_le
        capacity_le := by rw [hcapacity₁, hmax₁]; exact h.capacity_le
        shape := by rw [Shape, hmask₁, hcapacity₁]; exact h.shape }
  · have hne : k ≠ NEXT_CHAIN_EMPTY := by
      have := hthreaded.chain_lt
      omega
    obtain ⟨t₂, t₃, hw₂, hw₃, hthreaded₃, hget, heq⟩ := hthreaded.linkLast hc hk entry
    have hentries : (Content.full head (rest ++ [(k, entry)])).entries.Perm
        (entry :: (Content.full head rest).entries) := by
      simp only [Content.entries, List.map_append, List.map_cons, List.map_nil]
      exact List.perm_append_singleton entry (head :: rest.map Prod.snd)
    obtain ⟨hwf, hperm⟩ := h.add hp hc (hthreaded₃.congr rfl rfl rfl rfl rfl rfl :
        Threaded { t₃ with tableSize := t₃.tableSize + 1 } _ _ [])
      hentries hi hnew (by rw [heq]; exact hmask₁) (by rw [heq]; exact hcapacity₁)
      (by rw [heq]; exact hmax₁) (by rw [heq]; exact congrArg (· + 1) hsize₁) hlt
    refine ⟨⟨some (.chained k), true, false⟩, { t₃ with tableSize := t₃.tableSize + 1 }, ?_,
      .added hnew ?_ ⟨_, _, hwf, hperm⟩, ?_, fun h => absurd h Bool.false_ne_true,
      fun hle => ⟨?_, rfl⟩⟩
    · simp [hne, hw₂, hw₃]
    · change (t₃.chain[k]?).map Cell.entry = some entry
      rw [hget]
      rfl
    · rw [heq]
      exact ⟨hlater.tableCapacity, hlater.chainCapacity, hlater.allocations, hlater.maxCapacity⟩
    · rw [heq]
      exact (hsame (hroom hle)).1

theorem insertHashed_spec (entry : E) (hlt : t.tableSize < t.tableCapacity) :
    ∃ res t', insertHashed p a t entry = some (res, t') ∧
      InsertedInto p a entry (buckets.flatMap Content.entries) t res t' := by
  have hpos := h.length_pos (by omega)
  obtain ⟨c, hc, hall⟩ := h.bucketOf hp hpos (p.key entry)
  have hi : p.hashOf entry % buckets.length = getTableBucket p t (p.key entry) :=
    (h.shape.and_mask hpos _).symm
  -- The bucket decides about every entry.
  have hnew : (∀ e ∈ c.entries, p.Apart entry e) →
      ∀ e ∈ buckets.flatMap Content.entries, p.Apart entry e := by
    intro hbucket e he
    cases heq : p.eqFn (p.key entry) (p.key e) with
    | false => exact heq
    | true => exact hbucket e (hall e he heq)
  generalize hindex : getTableBucket p t (p.key entry) = i at hc hi
  unfold insertHashed
  simp only [hindex]
  cases c with
  | empty =>
    obtain ⟨b, hb, hnext⟩ := h.threaded.bucketAt_empty hc
    obtain ⟨t₁, hw, hthreaded, heq⟩ := h.threaded.fill hc entry
    have hnew := hnew nofun
    obtain ⟨hwf, hperm⟩ := h.add hp hc (hthreaded.congr rfl rfl rfl rfl rfl rfl :
        Threaded { t₁ with tableSize := t₁.tableSize + 1 } _ _ [])
      (List.Perm.refl _) hi hnew (by rw [heq]) (by rw [heq]) (by rw [heq]) (by rw [heq]) hlt
    refine ⟨⟨some (.inline i), true, false⟩, { t₁ with tableSize := t₁.tableSize + 1 }, ?_,
      .added hnew ?_ ⟨_, _, hwf, hperm⟩, ?_, nofun, fun _ => ⟨?_, rfl⟩⟩
    · simp [hb, hnext, hw]
    · have hlt : i < buckets.length := (List.getElem?_eq_some_iff.1 hc).1
      obtain ⟨b', hb', hentry, -⟩ := hthreaded.getElem?_table (List.getElem?_set_self hlt)
      change (t₁.table[i]?).map Cell.entry = some entry
      rw [hb', ← hentry]
      rfl
    · rw [heq]
      exact ⟨Nat.le_refl _, Nat.le_refl _, Nat.le_refl _, rfl⟩
    · rw [heq]
  | full head rest =>
    have hnode := h.threaded.node (Content.at_head hc)
    have hne := h.threaded.nextOf_ne_bucketEmpty (Content.at_head hc)
    have hfuel := h.threaded.length_rest_le hc
    have hwalk := insertFrom_spec (p := p) (a := a) h.threaded entry (Content.at_head hc)
      (Nat.lt_succ_of_le hfuel)
    simp only [placeOf_nil, lastOf_nil, List.nil_append] at hnode hwalk
    simp only [hnode, Option.bind_eq_bind, Option.bind_some, if_neg hne]
    rcases hwalk with ⟨place, e, he, hrun, heq, hplace⟩ | ⟨hapart, hrun⟩
    · exact ⟨_, t, hrun, .present (Wf.mem_entries hc he) heq hplace
        ⟨buckets, free, h, List.Perm.refl _⟩, Later.refl t, nofun, fun _ => ⟨rfl, rfl⟩⟩
    · rw [Nat.succ_eq_add_one] at hrun
      rw [hrun]
      exact appendBucket_spec h hp hc hi (hnew hapart) hlt

/-- **`GenericTable_insert`** adds the entry, finds its key present, or has no memory for it.  A full
table is grown before the key is looked for. -/
theorem insert_spec (entry : E) :
    ∃ res t', insert p a t entry = some (res, t') ∧
      Inserted p entry (buckets.flatMap Content.entries) res t' ∧ Later t t' ∧
      (res.badAlloc = true →
        ((∀ e ∈ buckets.flatMap Content.entries, p.Apart entry e) ∨
          t.tableSize = t.tableCapacity) ∧
        (t.tableSize = t.maxCapacity ∨ Refused p a t t')) ∧
      (t.tableSize < t.tableCapacity → t.tableSize ≤ t.chainCapacity →
        t'.allocations = t.allocations ∧ res.badAlloc = false) := by
  have hle := h.size_le
  have hcap := h.capacity_le
  unfold insert
  by_cases hfull : t.tableSize = t.tableCapacity
  · rw [if_pos hfull]
    obtain ⟨ok, t₁, hreserve, ⟨buckets₁, free₁, hwf₁, hperm₁⟩, hlater₁, hsize₁, hcapacity₁, -,
      hbad₁⟩ := reserve_spec (a := a) h hp (t.tableSize + 1) false
    simp only [hreserve, Option.bind_eq_bind, Option.bind_some]
    cases ok with
    | false =>
      refine ⟨_, _, rfl, .badAlloc ⟨buckets₁, free₁, hwf₁, hperm₁⟩, hlater₁,
        fun _ => ⟨Or.inr hfull, ?_⟩, fun hlt => absurd hfull (by omega)⟩
      rcases hbad₁ rfl with hmax | hrefused
      · exact Or.inl (by omega)
      · exact Or.inr hrefused
    | true =>
      have hroom := hcapacity₁ rfl
      obtain ⟨res, t', hrun, hinto⟩ := insertHashed_spec (a := a) hwf₁ hp entry (by omega)
      refine ⟨res, t', hrun, hinto.inserted.perm hperm₁, hlater₁.trans hinto.later, fun hbad => ?_,
        fun hlt => absurd hfull (by omega)⟩
      exact ⟨Or.inr hfull,
        Or.inr ((hinto.refused hbad).2.mono hlater₁.allocations (Nat.le_refl _))⟩
  · rw [if_neg hfull]
    obtain ⟨res, t', hrun, hinto⟩ := insertHashed_spec (a := a) h hp entry (by omega)
    exact ⟨res, t', hrun, hinto.inserted, hinto.later,
      fun hbad => ⟨Or.inl (hinto.refused hbad).1, Or.inr (hinto.refused hbad).2⟩,
      fun _ => hinto.quiet⟩

end insertion

end OpenZL.Common.Table
