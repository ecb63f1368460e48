import OpenZL.Common.Table
import Mathlib.Data.List.Flatten
import Mathlib.Data.List.Nodup
import Mathlib.Data.List.Perm.Basic

/-!
# The layout of the hash table

What the memory of a table stands for.

Principal results: `Threaded.update`, `growChain_spec`, `reserveChainIndex_spec`.
-/

namespace OpenZL.Common.Table

open OpenZL.Lib

variable {κ E : Type}

section flatMap

variable {α β : Type} {l : List α} {f : α → List β} {i j : Nat} {a b : α}

theorem flatMap_set_perm (h : l[i]? = some a) : ∃ rest,
    (l.flatMap f).Perm (f a ++ rest) ∧ ∀ b, ((l.set i b).flatMap f).Perm (f b ++ rest) := by
  induction l generalizing i with
  | nil => cases h
  | cons x l ih =>
    cases i with
    | zero =>
      obtain rfl := Option.some.inj h
      exact ⟨l.flatMap f, List.Perm.refl _, fun b => List.Perm.refl _⟩
    | succ i =>
      obtain ⟨rest, hl, hset⟩ := ih (i := i) h
      refine ⟨f x ++ rest, ?_, fun b => ?_⟩
      · exact (hl.append_left (f x)).trans (List.perm_append_comm_assoc ..)
      · exact ((hset b).append_left (f x)).trans (List.perm_append_comm_assoc ..)

theorem mem_flatMap_of_getElem? (h : l[i]? = some a) {x : β} (hx : x ∈ f a) : x ∈ l.flatMap f :=
  List.mem_flatMap.2 ⟨a, List.mem_of_getElem? h, hx⟩

theorem disjoint_of_nodup_flatMap (h : (l.flatMap f).Nodup) (hi : l[i]? = some a)
    (hj : l[j]? = some b) (hne : i ≠ j) {x : β} (hx : x ∈ f a) : x ∉ f b := by
  obtain ⟨hilt, rfl⟩ := List.getElem?_eq_some_iff.1 hi
  obtain ⟨hjlt, rfl⟩ := List.getElem?_eq_some_iff.1 hj
  have hpair := List.pairwise_iff_getElem.1 (List.nodup_flatMap.1 h).2
  rcases Nat.lt_or_gt_of_ne hne with hlt | hlt
  · exact fun hxb => hpair i j hilt hjlt hlt hx hxb
  · exact fun hxb => hpair j i hjlt hilt hlt hxb hx

end flatMap

/-- What a bucket holds: nothing, or an entry in the table and others in slots of the chain. -/
inductive Content (E : Type) where
  | empty
  | full (head : E) (rest : List (Nat × E))

namespace Content

def slots : Content E → List Nat
  | .empty => []
  | .full _ rest => rest.map Prod.fst

def entries : Content E → List E
  | .empty => []
  | .full head rest => head :: rest.map Prod.snd

theorem at_head {buckets : List (Content E)} {i : Nat} {head : E} {rest : List (Nat × E)}
    (h : buckets[i]? = some (.full head rest)) : buckets[i]? = some (.full head ([] ++ rest)) := h

theorem length_slots_le (c : Content E) : c.slots.length ≤ c.entries.length := by
  cases c <;> simp [slots, entries]

end Content

/-- The memory of a bucket stands for its content. -/
def Holds (chain : List (Bucket E)) (b : Bucket E) : Content E → Prop
  | .empty => b.next = NEXT_BUCKET_EMPTY
  | .full head rest => b.entry = head ∧ Seg chain b.next rest NEXT_CHAIN_EMPTY

theorem Holds.congr {chain chain' : List (Bucket E)} {b : Bucket E} {c : Content E}
    (h : Holds chain b c) (heq : ∀ k ∈ c.slots, chain'[k]? = chain[k]?) : Holds chain' b c := by
  cases c with
  | empty => exact h
  | full head rest => exact ⟨h.1, h.2.congr fun s hs => heq _ (List.mem_map_of_mem hs)⟩

/-- The table and the chain hold `buckets`, and the slots of the chain outside of them are those
of the free list and the pending ones. -/
structure Threaded (t : GenericTable E) (buckets : List (Content E)) (free : List (Nat × E))
    (pending : List Nat) : Prop where
  length : t.table.length = buckets.length
  bucket : ∀ (i : Nat) b c, t.table[i]? = some b → buckets[i]? = some c → Holds t.chain b c
  freeList : Seg t.chain t.chainFreeList free NEXT_CHAIN_EMPTY
  slots : (buckets.flatMap Content.slots ++ (free.map Prod.fst ++ pending)).Perm
    (List.range t.chainSize)
  chainSize_le : t.chainSize ≤ t.chain.length
  chain_length : t.chain.length = t.chainCapacity
  chainCapacity_le : t.chainCapacity ≤ t.maxCapacity
  maxCapacity_le : t.maxCapacity ≤ MAX_CAPACITY

namespace Threaded

variable {t t' : GenericTable E} {buckets : List (Content E)} {free : List (Nat × E)}
  {pending : List Nat} {i k : Nat} {c : Content E}

variable (h : Threaded t buckets free pending)

include h

theorem chain_lt : t.chain.length < NEXT_CHAIN_EMPTY := by
  have := h.chain_length
  have := h.chainCapacity_le
  have hmax : t.maxCapacity ≤ 2 ^ 30 - 1 := h.maxCapacity_le
  change _ < 2 ^ 32 - 2
  omega

theorem nodup : (buckets.flatMap Content.slots ++ (free.map Prod.fst ++ pending)).Nodup :=
  h.slots.nodup_iff.2 List.nodup_range

theorem nodup_buckets :
    (buckets.flatMap Content.slots).Nodup := h.nodup.of_append_left

theorem nodup_of (hc : buckets[i]? = some c) :
    (c.slots ++ (free.map Prod.fst ++ pending)).Nodup := by
  obtain ⟨rest, hl, -⟩ := flatMap_set_perm (f := Content.slots) hc
  have hnodup := (hl.append_right (free.map Prod.fst ++ pending)).nodup_iff.1 h.nodup
  rw [List.append_assoc] at hnodup
  exact hnodup.sublist (List.Sublist.append_left (List.sublist_append_right ..) _)

theorem lt_of_mem (hk : k ∈ buckets.flatMap Content.slots ++ (free.map Prod.fst ++ pending)) :
    k < t.chainSize := List.mem_range.1 (h.slots.mem_iff.1 hk)

theorem getElem?_table (hc : buckets[i]? = some c) :
    ∃ b, t.table[i]? = some b ∧ Holds t.chain b c := by
  have hlt : i < t.table.length := h.length ▸ (List.getElem?_eq_some_iff.1 hc).1
  exact ⟨t.table[i], List.getElem?_eq_getElem hlt,
    h.bucket i _ c (List.getElem?_eq_getElem hlt) hc⟩

theorem bucketAt_empty (hc : buckets[i]? = some .empty) :
    ∃ b, t.bucketAt (.inline i) = some b ∧ b.next = NEXT_BUCKET_EMPTY :=
  h.getElem?_table hc

theorem getElem?_buckets (hi : i < t.table.length) :
    ∃ c, buckets[i]? = some c :=
  ⟨buckets.get ⟨i, h.length ▸ hi⟩, List.getElem?_eq_getElem _⟩

theorem congr (htable : t'.table = t.table) (hchain : t'.chain = t.chain)
    (hfree : t'.chainFreeList = t.chainFreeList) (hsize : t'.chainSize = t.chainSize)
    (hcap : t'.chainCapacity = t.chainCapacity) (hmax : t'.maxCapacity = t.maxCapacity) :
    Threaded t' buckets free pending where
  length := htable ▸ h.length
  bucket := by rw [htable, hchain]; exact h.bucket
  freeList := by rw [hchain, hfree]; exact h.freeList
  slots := by rw [hsize]; exact h.slots
  chainSize_le := by rw [hsize, hchain]; exact h.chainSize_le
  chain_length := by rw [hchain, hcap]; exact h.chain_length
  chainCapacity_le := by rw [hcap, hmax]; exact h.chainCapacity_le
  maxCapacity_le := by rw [hmax]; exact h.maxCapacity_le

/-- **One bucket, the free list and the pending slots exchange slots.** -/
theorem update {b' : Bucket E} {c' : Content E} {free' : List (Nat × E)} {pending' : List Nat}
    (hc : buckets[i]? = some c) (htable : t'.table = t.table.set i b')
    (hlen : t'.chain.length = t.chain.length) (hsize : t'.chainSize = t.chainSize)
    (hcap : t'.chainCapacity = t.chainCapacity) (hmax : t'.maxCapacity = t.maxCapacity)
    (hoff : ∀ k, k ∉ c.slots → k ∉ free.map Prod.fst → k ∉ pending → t'.chain[k]? = t.chain[k]?)
    (hholds : Holds t'.chain b' c') (hfree : Seg t'.chain t'.chainFreeList free' NEXT_CHAIN_EMPTY)
    (hperm : (c'.slots ++ (free'.map Prod.fst ++ pending')).Perm
      (c.slots ++ (free.map Prod.fst ++ pending))) :
    Threaded t' (buckets.set i c') free' pending' where
  length := by rw [htable, List.length_set, List.length_set, h.length]
  bucket := by
    intro j b d hb hd
    rw [htable] at hb
    by_cases hij : i = j
    · subst hij
      have hlt : i < buckets.length := (List.getElem?_eq_some_iff.1 hc).1
      rw [List.getElem?_set_self (h.length ▸ hlt), Option.some.injEq] at hb
      rw [List.getElem?_set_self hlt, Option.some.injEq] at hd
      subst hb hd
      exact hholds
    · rw [List.getElem?_set_ne hij] at hb hd
      refine (h.bucket j b d hb hd).congr fun k hk => hoff k ?_ ?_ ?_
      · exact disjoint_of_nodup_flatMap h.nodup_buckets hd hc (fun e => hij e.symm) hk
      · intro hkf
        exact List.disjoint_of_nodup_append h.nodup (mem_flatMap_of_getElem? hd hk)
          (List.mem_append_left _ hkf)
      · intro hkp
        exact List.disjoint_of_nodup_append h.nodup (mem_flatMap_of_getElem? hd hk)
          (List.mem_append_right _ hkp)
  freeList := hfree
  slots := by
    obtain ⟨rest, hl, hset⟩ := flatMap_set_perm (f := Content.slots) hc
    have hold := (hl.append_right (free.map Prod.fst ++ pending)).symm.trans h.slots
    have hnew := (hset c').append_right (free'.map Prod.fst ++ pending')
    rw [hsize]
    refine hnew.trans (List.Perm.trans ?_ hold)
    rw [List.perm_iff_count] at hperm ⊢
    intro k
    have := hperm k
    simp only [List.count_append] at this ⊢
    omega
  chainSize_le := by rw [hsize, hlen]; exact h.chainSize_le
  chain_length := by rw [hlen, hcap]; exact h.chain_length
  chainCapacity_le := by rw [hcap, hmax]; exact h.chainCapacity_le
  maxCapacity_le := by rw [hmax]; exact h.maxCapacity_le

end Threaded

theorem nextCapacity_le (capacity maxCapacity : Nat) (pow2 : Bool) :
    nextCapacity capacity maxCapacity pow2 ≤ maxCapacity := by
  unfold nextCapacity
  dsimp only
  repeat' split
  all_goals omega

theorem lt_nextCapacity {capacity maxCapacity : Nat} (pow2 : Bool) (h : capacity < maxCapacity)
    (hmax : maxCapacity ≤ MAX_CAPACITY) :
    capacity < nextCapacity capacity maxCapacity pow2 := by
  have hmax : maxCapacity ≤ 2 ^ 30 - 1 := hmax
  have hwrap : capacity * 5 % 2 ^ 32 = capacity * 5 ∨
      capacity * 5 % 2 ^ 32 + 2 ^ 32 = capacity * 5 := by
    rcases Nat.lt_or_ge (capacity * 5) (2 ^ 32) with hlt | hge
    · exact Or.inl (Nat.mod_eq_of_lt hlt)
    · have hlt : capacity * 5 - 2 ^ 32 < 2 ^ 32 := by omega
      rw [Nat.mod_eq_sub_mod hge, Nat.mod_eq_of_lt hlt]
      exact Or.inr (Nat.sub_add_cancel hge)
  unfold nextCapacity
  generalize capacity * 5 % 2 ^ 32 = product at hwrap ⊢
  dsimp only
  repeat' split
  all_goals omega

/-- A call for memory between `t` and `t'` was refused, or buckets are too large for the memory of
a table to be asked for at all. -/
def Refused (p : Policy κ E) (a : Allocator E) (t t' : GenericTable E) : Prop :=
  (∃ i, t.allocations ≤ i ∧ i < t'.allocations ∧ a.grants i = false) ∨
    2 ^ 64 ≤ p.kBucketSize * 2 ^ 31

theorem refused_of_not_fits {p : Policy κ E} {a : Allocator E} {t t' : GenericTable E} {size : Nat}
    (h : ¬ fitsMemory p size) (hsize : size ≤ 2 ^ 31) : Refused p a t t' :=
  Or.inr ((Nat.not_lt.1 h).trans (Nat.mul_le_mul_left _ hsize))

theorem Refused.mono {p : Policy κ E} {a : Allocator E} {t t' u u' : GenericTable E}
    (h : Refused p a t t') (hle : u.allocations ≤ t.allocations)
    (hle' : t'.allocations ≤ u'.allocations) : Refused p a u u' := by
  rcases h with ⟨i, hi, hi', hg⟩ | h
  · exact Or.inl ⟨i, by omega, by omega, hg⟩
  · exact Or.inr h

/-- `t'` is `t` with a chain that may be longer. -/
structure Grown (t t' : GenericTable E) : Prop where
  table : t'.table = t.table
  tableMask : t'.tableMask = t.tableMask
  tableSize : t'.tableSize = t.tableSize
  tableCapacity : t'.tableCapacity = t.tableCapacity
  chainSize : t'.chainSize = t.chainSize
  chainFreeList : t'.chainFreeList = t.chainFreeList
  maxCapacity : t'.maxCapacity = t.maxCapacity
  chain : ∀ k : Nat, k < t.chain.length → t'.chain[k]? = t.chain[k]?
  length_le : t.chain.length ≤ t'.chain.length
  chain_length : t'.chain.length = t'.chainCapacity
  chainCapacity_le : t'.chainCapacity ≤ t'.maxCapacity
  allocations_le : t.allocations ≤ t'.allocations

namespace Grown

variable {t t' : GenericTable E}

theorem refl (hlen : t.chain.length = t.chainCapacity) (hcap : t.chainCapacity ≤ t.maxCapacity) :
    Grown t t where
  table := rfl
  tableMask := rfl
  tableSize := rfl
  tableCapacity := rfl
  chainSize := rfl
  chainFreeList := rfl
  maxCapacity := rfl
  chain _ _ := rfl
  length_le := Nat.le_refl _
  chain_length := hlen
  chainCapacity_le := hcap
  allocations_le := Nat.le_refl _

theorem threaded {buckets : List (Content E)} {free : List (Nat × E)} {pending : List Nat}
    (hg : Grown t t') (h : Threaded t buckets free pending) :
    Threaded t' buckets free pending where
  length := by rw [hg.table, h.length]
  bucket i b c hb hc := by
    rw [hg.table] at hb
    refine (h.bucket i b c hb hc).congr fun k hk => hg.chain k ?_
    have := h.lt_of_mem (List.mem_append_left _ (mem_flatMap_of_getElem? hc hk))
    have := h.chainSize_le
    omega
  freeList := by
    rw [hg.chainFreeList]
    exact h.freeList.mono hg.chain
  slots := by rw [hg.chainSize]; exact h.slots
  chainSize_le := by rw [hg.chainSize]; exact h.chainSize_le.trans hg.length_le
  chain_length := hg.chain_length
  chainCapacity_le := hg.chainCapacity_le
  maxCapacity_le := by rw [hg.maxCapacity]; exact h.maxCapacity_le

end Grown

theorem growChain_spec (p : Policy κ E) (a : Allocator E) {t t' : GenericTable E} {grown : Bool}
    {minCapacity : Nat} (h : growChain p a t minCapacity = (grown, t'))
    (hlen : t.chain.length = t.chainCapacity) (hcap : t.chainCapacity ≤ t.maxCapacity)
    (hmax : t.maxCapacity ≤ MAX_CAPACITY) (hmin : minCapacity ≤ t.maxCapacity) :
    Grown t t' ∧
      (grown = true → minCapacity ≤ t'.chainCapacity ∧
        (t.chainCapacity < t.maxCapacity → t.chainCapacity < t'.chainCapacity)) ∧
      (grown = false → Refused p a t t') := by
  have hnext := nextCapacity_le t.chainCapacity t.maxCapacity false
  have hlt := fun hc : t.chainCapacity < t.maxCapacity => lt_nextCapacity false hc hmax
  unfold growChain at h
  dsimp only at h
  generalize hnew : max (nextCapacity t.chainCapacity t.maxCapacity false) minCapacity = new at h
  split at h
  · obtain ⟨rfl, rfl⟩ := Prod.mk.inj h
    exact ⟨Grown.refl hlen hcap, fun _ => ⟨by omega, fun hc => by have := hlt hc; omega⟩, nofun⟩
  · split at h
    · rename_i hfits
      obtain ⟨rfl, rfl⟩ := Prod.mk.inj h
      refine ⟨Grown.refl hlen hcap, nofun, fun _ => refused_of_not_fits hfits ?_⟩
      have : t.maxCapacity ≤ 2 ^ 30 - 1 := hmax
      omega
    · unfold reallocMem at h
      cases hg : a.grants t.allocations with
      | false =>
        simp only [hg, Bool.false_eq_true, if_false] at h
        obtain ⟨rfl, rfl⟩ := Prod.mk.inj h
        refine ⟨⟨rfl, rfl, rfl, rfl, rfl, rfl, rfl, fun _ _ => rfl, Nat.le_refl _, hlen, hcap,
          Nat.le_succ _⟩, nofun, fun _ => ?_⟩
        exact Or.inl ⟨t.allocations, Nat.le_refl _, Nat.lt_succ_self _, hg⟩
      | true =>
        simp only [hg, if_true] at h
        obtain ⟨rfl, rfl⟩ := Prod.mk.inj h
        refine ⟨⟨rfl, rfl, rfl, rfl, rfl, rfl, rfl, fun k hk => ?_, ?_, ?_, ?_, Nat.le_succ _⟩,
          fun _ => ⟨?_, fun hc => ?_⟩, nofun⟩
        · have hknew : k < new := by omega
          simp [hknew, hk]
        · simp only [List.length_map, List.length_range]
          omega
        · simp
        · change new ≤ t.maxCapacity
          omega
        · change minCapacity ≤ new
          omega
        · have := hlt hc
          change t.chainCapacity < new
          omega

theorem reserveChainIndex_spec (p : Policy κ E) (a : Allocator E) {t : GenericTable E}
    {buckets : List (Content E)} {free : List (Nat × E)} {pending : List Nat}
    (h : Threaded t buckets free pending) (hroom : free = [] → t.chainSize < t.maxCapacity) :
    ∃ k t', reserveChainIndex p a t = some (k, t') ∧
      t'.table = t.table ∧ t'.tableMask = t.tableMask ∧ t'.tableSize = t.tableSize ∧
      t'.tableCapacity = t.tableCapacity ∧ t'.maxCapacity = t.maxCapacity ∧
      t.chainCapacity ≤ t'.chainCapacity ∧ t.allocations ≤ t'.allocations ∧
      (∀ k, k < t.chain.length → t'.chain[k]? = t.chain[k]?) ∧
      (free ≠ [] ∨ t.chainSize < t.chainCapacity →
        t'.allocations = t.allocations ∧ t'.chainCapacity = t.chainCapacity ∧
          k ≠ NEXT_CHAIN_EMPTY) ∧
      ((k = NEXT_CHAIN_EMPTY ∧ Threaded t' buckets free pending ∧ Refused p a t t') ∨
        (k < t'.chain.length ∧ ∃ free', Threaded t' buckets free' (k :: pending))) := by
  have hchain := h.chain_lt
  unfold reserveChainIndex
  by_cases hfree : t.chainFreeList = NEXT_CHAIN_EMPTY
  · obtain rfl := h.freeList.nil_of_start hchain.le hfree
    rw [if_neg (not_not.2 hfree)]
    -- The chain grows when it is full; there is then room for another slot.
    obtain ⟨grown, u, hu, hg, hok, hbad, hsame⟩ : ∃ grown u,
        (if t.chainCapacity ≤ t.chainSize then growChain p a t 0 else (true, t)) = (grown, u) ∧
        Grown t u ∧ (grown = true → t.chainSize < u.chainCapacity) ∧
        (grown = false → Refused p a t u) ∧
        (t.chainSize < t.chainCapacity → u = t ∧ grown = true) := by
      have hle := h.chainSize_le
      have hlen := h.chain_length
      have hlt := hroom rfl
      split
      · rename_i hfull
        obtain ⟨hg, hok, hbad⟩ := growChain_spec p a (rfl : growChain p a t 0 = _) hlen
          h.chainCapacity_le h.maxCapacity_le (Nat.zero_le _)
        refine ⟨_, _, rfl, hg, fun hgrown => ?_, hbad, fun hc => absurd hc (by omega)⟩
        have := (hok hgrown).2 (by omega)
        omega
      · exact ⟨true, t, rfl, Grown.refl hlen h.chainCapacity_le, fun _ => by omega, nofun,
          fun _ => ⟨rfl, rfl⟩⟩
    have hcapacity : t.chainCapacity ≤ u.chainCapacity := by
      rw [← h.chain_length, ← hg.chain_length]
      exact hg.length_le
    have hu' := hg.threaded h
    rw [hu]
    cases grown with
    | false =>
      refine ⟨NEXT_CHAIN_EMPTY, u, rfl, hg.table, hg.tableMask, hg.tableSize, hg.tableCapacity,
        hg.maxCapacity, hcapacity, hg.allocations_le, hg.chain, ?_,
        Or.inl ⟨rfl, hu', hbad rfl⟩⟩
      rintro (hne | hlt)
      · exact absurd rfl hne
      · exact absurd (hsame hlt).2 (by simp)
    | true =>
      have hlt : u.chainSize < u.chain.length := by
        rw [hg.chainSize, hg.chain_length]
        exact hok rfl
      refine ⟨u.chainSize, { u with chainSize := u.chainSize + 1 }, rfl, hg.table, hg.tableMask,
        hg.tableSize, hg.tableCapacity, hg.maxCapacity, hcapacity, hg.allocations_le, hg.chain,
        ?_, Or.inr ⟨hlt, [], ?_⟩⟩
      · intro hor
        have hne : u.chainSize ≠ NEXT_CHAIN_EMPTY := by
          have := hu'.chain_lt
          omega
        rcases hor with hnil | hlt'
        · exact absurd rfl hnil
        · obtain ⟨rfl, -⟩ := hsame hlt'
          exact ⟨rfl, rfl, hne⟩
      · refine ⟨hu'.length, hu'.bucket, hu'.freeList, ?_, hlt, hu'.chain_length,
          hu'.chainCapacity_le, hu'.maxCapacity_le⟩
        have hslots := hu'.slots
        change List.Perm _ (List.range (u.chainSize + 1))
        rw [List.range_succ]
        rw [List.perm_iff_count] at hslots ⊢
        intro x
        have := hslots x
        simp only [List.count_append, List.count_cons, List.map_nil, List.count_nil] at this ⊢
        omega
  · rw [if_pos hfree]
    obtain ⟨e, next, rest, rfl, hget, hseg⟩ := h.freeList.cons_of_start hfree
    have hlt := (List.getElem?_eq_some_iff.1 hget).1
    refine ⟨t.chainFreeList, { t with chainFreeList := next }, ?_, rfl, rfl, rfl, rfl, rfl,
      Nat.le_refl _, Nat.le_refl _, fun _ _ => rfl, fun _ => ⟨rfl, rfl, hfree⟩,
      Or.inr ⟨hlt, rest, ?_⟩⟩
    · simp [GenericTable.bucketAt, hget]
    · refine ⟨h.length, h.bucket, hseg, ?_, h.chainSize_le, h.chain_length, h.chainCapacity_le,
        h.maxCapacity_le⟩
      refine List.Perm.trans ?_ h.slots
      rw [List.perm_iff_count]
      intro x
      simp only [List.map_cons, List.count_append, List.count_cons]
      omega

end OpenZL.Common.Table
