import OpenZL.Common.TableErasure

/-!
# The hash table is a finite map

A run is a sequence of operations on a table, from its creation, with the answers they gave.

Principal results: `step_spec`, `table_finite_map`.
-/

namespace OpenZL.Common.Table

open OpenZL.Lib

variable {κ E : Type}

inductive Op (κ E : Type) where
  | insert (entry : E)
  | insertVal (entry : E)
  | find (key : κ)
  | erase (key : κ)
  | eraseVal (key : κ)
  | reserve (capacity : Nat) (guaranteeNoAllocations : Bool)
  | clear
  | iterate

/-- What an operation returns, pointers read. -/
inductive Answer (E : Type) where
  | inserted (entry : Option E) (inserted badAlloc : Bool)
  | found (entry : Option E)
  | erased (erased : Bool)
  | reserved (reserved : Bool)
  | cleared
  | entries (entries : List E)
  deriving DecidableEq

/-- The answer of an insertion. -/
def Answer.ofInsert (res : Insert) (t : GenericTable E) : Answer E :=
  .inserted (res.ptr.bind t.entryAt) res.inserted res.badAlloc

/-- One operation. -/
def step (p : Policy κ E) (a : Allocator E) (op : Op κ E) (t : GenericTable E) :
    Option (Answer E × GenericTable E) :=
  match op with
  | .insert entry => (insert p a t entry).map fun (res, t') => (.ofInsert res t', t')
  | .insertVal entry => (insertVal p a t entry).map fun (res, t') => (.ofInsert res t', t')
  | .find key => (find p t key).map fun ptr => (.found (ptr.bind t.entryAt), t)
  | .erase key => (erase p t key).map fun (ok, t') => (.erased ok, t')
  | .eraseVal key => (eraseVal p t key).map fun (ok, t') => (.erased ok, t')
  | .reserve capacity guarantee =>
    (reserve p a t capacity guarantee).map fun (ok, t') => (.reserved ok, t')
  | .clear => some (.cleared, clear t)
  | .iterate => (iterate t).map fun es => (.entries es, t)

/-- `hist` lists the operations from `t` to `t'` and their answers. -/
inductive Run (p : Policy κ E) (a : Allocator E) (t : GenericTable E) :
    List (Op κ E × Answer E) → GenericTable E → Prop
  | refl : Run p a t [] t
  | step {hist : List (Op κ E × Answer E)} {t' t'' : GenericTable E} {op : Op κ E}
      {ans : Answer E} : Run p a t hist t' → Table.step p a op t' = some (ans, t'') →
      Run p a t (hist ++ [(op, ans)]) t''

/-- What one operation with its answer makes of a map. -/
def after (p : Policy κ E) (m : κ → Option E) : Op κ E × Answer E → κ → Option E
  | (.insert entry, .inserted _ true _) =>
    fun k => if p.eqFn k (p.key entry) then some entry else m k
  | (.insertVal entry, .inserted _ true _) =>
    fun k => if p.eqFn k (p.key entry) then some entry else m k
  | (.erase key, _) => fun k => if p.eqFn k key then none else m k
  | (.eraseVal key, _) => fun k => if p.eqFn k key then none else m k
  | (.clear, _) => fun _ => none
  | _ => m

/-- The entry inserted for a key and not erased since. -/
def live (p : Policy κ E) (hist : List (Op κ E × Answer E)) : κ → Option E :=
  hist.foldl (after p) fun _ => none

/-- `l` has the entries of `m`, one for each key. -/
def Lists (p : Policy κ E) (m : κ → Option E) (l : List E) : Prop :=
  l.Pairwise p.Apart ∧ ∀ k e, m k = some e ↔ e ∈ l ∧ p.eqFn k (p.key e) = true

/-- What an insertion into a table of content `m` may answer. -/
def Insertion (p : Policy κ E) (a : Allocator E) (m : κ → Option E) (entry : E)
    (t : GenericTable E) (ans : Answer E) (t' : GenericTable E) : Prop :=
  (∃ e, m (p.key entry) = some e ∧ ans = .inserted (some e) false false) ∨
  (m (p.key entry) = none ∧ ans = .inserted (some entry) true false) ∨
  (ans = .inserted none false true ∧
    (m (p.key entry) = none ∨ t.tableSize = t.tableCapacity) ∧
    (t.tableSize = t.maxCapacity ∨ Refused p a t t'))

/-- What an operation on a table of content `m` may answer. -/
def Answers (p : Policy κ E) (a : Allocator E) (m : κ → Option E) (t : GenericTable E) :
    Op κ E → Answer E → GenericTable E → Prop
  | .insert entry, ans, t' => Insertion p a m entry t ans t'
  | .insertVal entry, ans, t' => Insertion p a m entry t ans t'
  | .find key, ans, t' => ans = .found (m key) ∧ t' = t
  | .erase key, ans, _ => ans = .erased (m key).isSome
  | .eraseVal key, ans, _ => ans = .erased (m key).isSome
  | .reserve capacity _, ans, t' => ∃ ok, ans = .reserved ok ∧
      (ok = true → capacity ≤ t'.tableCapacity) ∧
      (ok = false → t.maxCapacity < capacity ∨ Refused p a t t')
  | .clear, ans, _ => ans = .cleared
  | .iterate, ans, t' => (∃ es, ans = .entries es ∧ Lists p m es) ∧ t' = t

/-- Every slot of the chain is in the chain of one bucket or in the free list, once. -/
def SlotsOwned (t : GenericTable E) : Prop :=
  ∃ buckets free, Threaded t buckets free []

namespace Lists

variable {p : Policy κ E} {m : κ → Option E} {l l' : List E} {key : κ} {e : E}

theorem nil (p : Policy κ E) : Lists p (fun _ => none) [] :=
  ⟨List.Pairwise.nil, fun k e => by simp⟩

theorem perm (hp : p.Lawful) (h : Lists p m l) (hperm : l.Perm l') : Lists p m l' := by
  refine ⟨(hperm.pairwise_iff fun {d e} hde => (hp.comm _ _).trans hde).1 h.1, fun k e => ?_⟩
  rw [h.2 k e, hperm.mem_iff]

theorem eq_none (h : Lists p m l) (hall : ∀ e ∈ l, p.eqFn key (p.key e) = false) :
    m key = none := by
  cases hm : m key with
  | none => rfl
  | some e =>
    obtain ⟨he, heq⟩ := (h.2 key e).1 hm
    rw [hall e he] at heq
    cases heq

theorem eq_some (h : Lists p m l) (he : e ∈ l) (heq : p.eqFn key (p.key e) = true) :
    m key = some e := (h.2 key e).2 ⟨he, heq⟩

theorem cons (hp : p.Lawful) (h : Lists p m l) (hnew : ∀ d ∈ l, p.Apart e d) :
    Lists p (fun k => if p.eqFn k (p.key e) then some e else m k) (e :: l) := by
  refine ⟨List.pairwise_cons.2 ⟨hnew, h.1⟩, fun k d => ?_⟩
  dsimp only
  cases hk : p.eqFn k (p.key e) with
  | true =>
    simp only [if_true, Option.some.injEq, List.mem_cons]
    constructor
    · rintro rfl
      exact ⟨Or.inl rfl, hk⟩
    · rintro ⟨rfl | hd, heq⟩
      · rfl
      · have hed := hp.trans _ _ _ (hp.symm _ _ hk) heq
        exact absurd (hnew d hd) (by simp [Policy.Apart, hed])
  | false =>
    simp only [Bool.false_eq_true, if_false, List.mem_cons, h.2 k d]
    constructor
    · rintro ⟨hd, heq⟩
      exact ⟨Or.inr hd, heq⟩
    · rintro ⟨rfl | hd, heq⟩
      · rw [hk] at heq
        cases heq
      · exact ⟨hd, heq⟩

theorem remove (hp : p.Lawful) (h : Lists p m l) (hperm : l.Perm (e :: l'))
    (heq : p.eqFn key (p.key e) = true) :
    Lists p (fun k => if p.eqFn k key then none else m k) l' := by
  obtain ⟨hpair, hmem⟩ := h.perm hp hperm
  obtain ⟨hapart, hpair⟩ := List.pairwise_cons.1 hpair
  refine ⟨hpair, fun k d => ?_⟩
  dsimp only
  cases hk : p.eqFn k key with
  | true =>
    simp only [if_true, reduceCtorEq, false_iff, not_and]
    intro hd hkd
    have hed := hp.trans _ _ _ (hp.symm _ _ (hp.trans _ _ _ hk heq)) hkd
    exact absurd (hapart d hd) (by simp [Policy.Apart, hed])
  | false =>
    simp only [Bool.false_eq_true, if_false, hmem k d, List.mem_cons]
    constructor
    · rintro ⟨rfl | hd, hkd⟩
      · have := hp.trans _ _ _ hkd (hp.symm _ _ heq)
        rw [hk] at this
        cases this
      · exact ⟨hd, hkd⟩
    · rintro ⟨hd, hkd⟩
      exact ⟨Or.inr hd, hkd⟩

theorem absent (hp : p.Lawful) (h : Lists p m l)
    (hall : ∀ e ∈ l, p.eqFn key (p.key e) = false) :
    Lists p (fun k => if p.eqFn k key then none else m k) l := by
  refine ⟨h.1, fun k d => ?_⟩
  dsimp only
  cases hk : p.eqFn k key with
  | true =>
    simp only [if_true, reduceCtorEq, false_iff, not_and]
    intro hd hkd
    have := hp.trans _ _ _ (hp.symm _ _ hk) hkd
    rw [hall d hd] at this
    cases this
  | false => simpa using h.2 k d

end Lists

section steps

variable {p : Policy κ E} {a : Allocator E} {m : κ → Option E} {t : GenericTable E}
  {buckets : List (Content E)} {free : List (Nat × E)}

/-- A table that holds what `m` says. -/
def MapsTo (p : Policy κ E) (m : κ → Option E) (t : GenericTable E) : Prop :=
  ∃ es, Holding p t es ∧ Lists p m es

theorem MapsTo.of (hwf : Wf p t buckets free)
    (h : Lists p m (buckets.flatMap Content.entries)) : MapsTo p m t :=
  ⟨_, ⟨buckets, free, hwf, List.Perm.refl _⟩, h⟩

theorem insert_step (hp : p.Lawful) (hwf : Wf p t buckets free)
    (hlists : Lists p m (buckets.flatMap Content.entries)) (entry : E) :
    ∃ res t', insert p a t entry = some (res, t') ∧
      Insertion p a m entry t (.ofInsert res t') t' ∧ Later t t' ∧
      MapsTo p (if res.inserted = true then
        fun k => if p.eqFn k (p.key entry) then some entry else m k else m) t' := by
  obtain ⟨res, t', hrun, hins, hlater, hbad, -⟩ := insert_spec (a := a) hwf hp entry
  refine ⟨res, t', hrun, ?_, hlater, ?_⟩
  · cases hins with
    | present he heq hplace hholding =>
      exact Or.inl ⟨_, hlists.eq_some he heq, by simp [Answer.ofInsert, hplace]⟩
    | added hnew hplace hholding =>
      exact Or.inr (Or.inl ⟨hlists.eq_none hnew, by simp [Answer.ofInsert, hplace]⟩)
    | badAlloc hholding =>
      obtain ⟨habsent, hreason⟩ := hbad rfl
      exact Or.inr (Or.inr ⟨rfl, habsent.imp_left hlists.eq_none, hreason⟩)
  · cases hins with
    | present he heq hplace hholding => exact ⟨_, hholding, hlists⟩
    | added hnew hplace hholding => exact ⟨_, hholding, hlists.cons hp hnew⟩
    | badAlloc hholding => exact ⟨_, hholding, hlists⟩

theorem erase_step (hp : p.Lawful) (hwf : Wf p t buckets free)
    (hlists : Lists p m (buckets.flatMap Content.entries)) (key : κ) :
    ∃ t', erase p t key = some ((m key).isSome, t') ∧ Later t t' ∧
      MapsTo p (fun k => if p.eqFn k key then none else m k) t' := by
  obtain ⟨ok, t', hrun, her, hlater, -⟩ := erase_spec hwf hp key
  cases her with
  | absent hall hholding =>
    refine ⟨t', ?_, hlater, _, hholding, hlists.absent hp hall⟩
    rw [hrun, hlists.eq_none hall]
    rfl
  | erased hperm heq hholding =>
    refine ⟨t', ?_, hlater, _, hholding, hlists.remove hp hperm heq⟩
    rw [hrun, hlists.eq_some (hperm.mem_iff.2 List.mem_cons_self) heq]
    rfl

/-- **One operation** is defined, answers as the map says, and leaves the map that follows. -/
theorem step_spec (hp : p.Lawful) (h : MapsTo p m t) (op : Op κ E) :
    ∃ ans t', step p a op t = some (ans, t') ∧ Answers p a m t op ans t' ∧
      MapsTo p (after p m (op, ans)) t' ∧ Later t t' := by
  obtain ⟨es, ⟨buckets, free, hwf, hperm⟩, hes⟩ := h
  have hlists := hes.perm hp hperm.symm
  cases op with
  | insert entry =>
    obtain ⟨res, t', hrun, hins, hlater, hmaps⟩ := insert_step (a := a) hp hwf hlists entry
    refine ⟨.ofInsert res t', t', by simp [step, hrun], hins, ?_, hlater⟩
    obtain ⟨ptr, inserted, bad⟩ := res
    cases inserted <;> exact hmaps
  | insertVal entry =>
    obtain ⟨res, t', hrun, hins, hlater, hmaps⟩ := insert_step (a := a) hp hwf hlists entry
    refine ⟨.ofInsert res t', t', by simp [step, insertVal, hrun], hins, ?_, hlater⟩
    obtain ⟨ptr, inserted, bad⟩ := res
    cases inserted <;> exact hmaps
  | find key =>
    obtain ⟨r, hrun, hfound⟩ := find_spec hwf hp key
    refine ⟨.found (r.bind t.entryAt), t, by simp [step, hrun], ⟨?_, rfl⟩, .of hwf hlists,
      Later.refl t⟩
    cases r with
    | none =>
      rw [hlists.eq_none hfound]
      rfl
    | some place =>
      obtain ⟨e, he, hplace, heq⟩ := hfound
      rw [hlists.eq_some he heq]
      exact congrArg Answer.found hplace
  | erase key =>
    obtain ⟨t', hrun, hlater, hmaps⟩ := erase_step hp hwf hlists key
    exact ⟨_, t', by simp [step, hrun], rfl, hmaps, hlater⟩
  | eraseVal key =>
    obtain ⟨t', hrun, hlater, hmaps⟩ := erase_step hp hwf hlists key
    exact ⟨_, t', by simp [step, eraseVal, hrun], rfl, hmaps, hlater⟩
  | reserve capacity guarantee =>
    obtain ⟨ok, t', hrun, hholding, hlater, -, hok, -, hbad⟩ :=
      reserve_spec (a := a) hwf hp capacity guarantee
    exact ⟨_, t', by simp [step, hrun], ⟨ok, rfl, hok, hbad⟩, ⟨_, hholding, hlists⟩, hlater⟩
  | clear =>
    refine ⟨.cleared, clear t, rfl, rfl, ⟨[], clear_spec hwf, Lists.nil p⟩, ?_⟩
    exact ⟨Nat.le_refl _, Nat.le_refl _, Nat.le_refl _, rfl⟩
  | iterate =>
    exact ⟨_, t, by simp [step, iterate_spec hwf], ⟨⟨_, rfl, hlists⟩, rfl⟩, .of hwf hlists,
      Later.refl t⟩

end steps

section runs

variable {p : Policy κ E} {a : Allocator E}

theorem live_concat (hist : List (Op κ E × Answer E)) (step : Op κ E × Answer E) :
    live p (hist ++ [step]) = after p (live p hist) step := by
  rw [live, List.foldl_append]
  rfl

theorem Run.mapsTo (hp : p.Lawful) {maxCapacity : Nat} {hist : List (Op κ E × Answer E)}
    {t : GenericTable E} (h : Run p a (create maxCapacity) hist t) : MapsTo p (live p hist) t := by
  induction h with
  | refl => exact MapsTo.of (create_wf maxCapacity) (Lists.nil p)
  | step _ hstep ih =>
    obtain ⟨ans, t', hrun, -, hmaps, -⟩ := step_spec (a := a) hp ih _
    rw [hstep, Option.some.injEq, Prod.mk.injEq] at hrun
    obtain ⟨rfl, rfl⟩ := hrun
    rw [live_concat]
    exact hmaps

theorem Run.later (hp : p.Lawful) {t t' : GenericTable E} {hist : List (Op κ E × Answer E)}
    (h : Run p a t hist t') {m : κ → Option E} (hm : MapsTo p m t) :
    Later t t' ∧ ∃ m', MapsTo p m' t' := by
  induction h with
  | refl => exact ⟨Later.refl t, m, hm⟩
  | step _ hstep ih =>
    obtain ⟨hlater, m', hm'⟩ := ih
    obtain ⟨ans, t'', hrun, -, hmaps, hlater'⟩ := step_spec (a := a) hp hm' _
    rw [hstep, Option.some.injEq, Prod.mk.injEq] at hrun
    obtain ⟨rfl, rfl⟩ := hrun
    exact ⟨hlater.trans hlater', _, hmaps⟩

theorem insert_quiet (hp : p.Lawful) {t : GenericTable E} {m : κ → Option E} (hm : MapsTo p m t)
    {n : Nat} (hsize : t.tableSize < n) (htable : n ≤ t.tableCapacity)
    (hchain : n ≤ t.chainCapacity) (entry : E) :
    ∃ ptr inserted t', step p a (.insert entry) t = some (.inserted ptr inserted false, t') ∧
      t'.allocations = t.allocations := by
  obtain ⟨es, ⟨buckets, free, hwf, -⟩, -⟩ := hm
  obtain ⟨res, t', hrun, -, -, -, hquiet⟩ := insert_spec (a := a) hwf hp entry
  obtain ⟨halloc, hbad⟩ := hquiet (by omega) (by omega)
  refine ⟨res.ptr.bind t'.entryAt, res.inserted, t', ?_, halloc⟩
  simp [step, hrun, Answer.ofInsert, hbad]

/-- **The hash table is a finite map**, for every hash function and every way calls for memory may
fail.  After any run it holds one entry for each live key; each slot of the chain has one owner;
every operation is defined and answers as the map says; and once a guaranteed reservation has
grown the table, insertions below it ask for no memory. -/
theorem table_finite_map (hp : p.Lawful) {maxCapacity : Nat} {hist : List (Op κ E × Answer E)}
    {t : GenericTable E} (hrun : Run p a (create maxCapacity) hist t) :
    (∃ es, Lists p (live p hist) es ∧ t.tableSize = es.length) ∧ SlotsOwned t ∧
    (∀ op, ∃ ans t', step p a op t = some (ans, t') ∧ Answers p a (live p hist) t op ans t') ∧
    (∀ n t₁ hist' t₂ entry, t.tableCapacity < n →
      step p a (.reserve n true) t = some (.reserved true, t₁) → Run p a t₁ hist' t₂ →
      t₂.tableSize < n → ∃ ptr inserted t₃,
        step p a (.insert entry) t₂ = some (.inserted ptr inserted false, t₃) ∧
        t₃.allocations = t₂.allocations) := by
  have hmaps := hrun.mapsTo hp
  obtain ⟨es, ⟨buckets, free, hwf, hperm⟩, hlists⟩ := hmaps
  refine ⟨⟨es, hlists, hwf.size.trans hperm.length_eq⟩, ⟨buckets, free, hwf.threaded⟩,
    fun op => ?_, fun n t₁ hist' t₂ entry hn hreserve hrun' hsize => ?_⟩
  · obtain ⟨ans, t', hstep, hans, -, -⟩ := step_spec (a := a) hp (hrun.mapsTo hp) op
    exact ⟨ans, t', hstep, hans⟩
  · obtain ⟨ok, t', hres, hholding, -, -, htable, hchain, -⟩ :=
      reserve_spec (a := a) hwf hp n true
    simp only [step, hres, Option.map_some, Option.some.injEq, Prod.mk.injEq,
      Answer.reserved.injEq] at hreserve
    obtain ⟨rfl, rfl⟩ := hreserve
    obtain ⟨hlater, m', hm'⟩ :=
      hrun'.later hp ⟨_, hholding, hlists.perm hp hperm.symm⟩
    exact insert_quiet hp hm' hsize ((htable rfl).trans hlater.tableCapacity)
      ((hchain rfl rfl hn).trans hlater.chainCapacity) entry

/-- Small keys under a hash that collides on every key. -/
def collidingPolicy : Policy Nat (Nat × Nat) where
  key := Prod.fst
  hashFn _ := 0
  eqFn j k := j == k
  kBucketSize := 12

/-- Memory is always there, and holds zeros. -/
def generousAllocator : Allocator (Nat × Nat) where
  grants _ := true
  residue _ _ := ⟨(0, 0), 0⟩

theorem collidingPolicy_lawful : collidingPolicy.Lawful where
  refl k := beq_self_eq_true k
  symm j k h := by
    simp only [collidingPolicy, beq_iff_eq] at h ⊢
    exact h.symm
  trans i j k h h' := by
    simp only [collidingPolicy, beq_iff_eq] at h h' ⊢
    exact h.trans h'
  hash _ _ _ := rfl

/-- Two keys of one hash, of which the first is erased and takes the slot it left. -/
def collidingRun : List (Op Nat (Nat × Nat) × Answer (Nat × Nat)) :=
  [(.insert (1, 10), .inserted (some (1, 10)) true false),
    (.insert (2, 20), .inserted (some (2, 20)) true false),
    (.erase 1, .erased true), (.insertVal (1, 11), .inserted (some (1, 11)) true false),
    (.insert (1, 12), .inserted (some (1, 11)) false false)]

/-- After the run a guaranteed reservation grows the table, and the next insertion asks for no
memory. -/
theorem table_finite_map_colliding : ∃ t t₁,
    Run collidingPolicy generousAllocator (create 8) collidingRun t ∧
    (∃ es, Lists collidingPolicy (live collidingPolicy collidingRun) es ∧
      t.tableSize = es.length) ∧
    SlotsOwned t ∧
    step collidingPolicy generousAllocator (.reserve 8 true) t = some (.reserved true, t₁) ∧
    ∃ ptr inserted t₂, step collidingPolicy generousAllocator (.insert (3, 30)) t₁ =
        some (.inserted ptr inserted false, t₂) ∧
      t₂.allocations = t₁.allocations := by
  obtain ⟨t, t₁, hrun, hcapacity, hreserve, hsize⟩ : ∃ t t₁,
      Run collidingPolicy generousAllocator (create 8) collidingRun t ∧ t.tableCapacity < 8 ∧
      step collidingPolicy generousAllocator (.reserve 8 true) t = some (.reserved true, t₁) ∧
      t₁.tableSize < 8 := by
    unfold collidingRun
    exact ⟨_, _, (((((Run.refl.step rfl).step rfl).step rfl).step rfl).step rfl), by decide, rfl,
      by decide⟩
  obtain ⟨hlists, hslots, -, hquiet⟩ := table_finite_map collidingPolicy_lawful hrun
  exact ⟨t, t₁, hrun, hlists, hslots, hreserve, hquiet 8 t₁ [] t₁ (3, 30) hcapacity hreserve
    Run.refl hsize⟩

/-- A full table is grown before the key is looked for: at its largest size a present key is
refused.  And a guaranteed reservation that finds the table large enough already leaves the chain
as it is: an insertion below it asks for memory. -/
theorem table_not_finite_map :
    (∃ t t', Run collidingPolicy generousAllocator (create 1)
        [(.insert (1, 10), .inserted (some (1, 10)) true false)] t ∧
      step collidingPolicy generousAllocator (.find 1) t = some (.found (some (1, 10)), t) ∧
      step collidingPolicy generousAllocator (.insert (1, 10)) t =
        some (.inserted none false true, t')) ∧
    ∃ t t', Run collidingPolicy generousAllocator (create 8)
        [(.reserve 8 false, .reserved true), (.reserve 8 true, .reserved true),
          (.insert (1, 0), .inserted (some (1, 0)) true false),
          (.insert (2, 0), .inserted (some (2, 0)) true false),
          (.insert (3, 0), .inserted (some (3, 0)) true false),
          (.insert (4, 0), .inserted (some (4, 0)) true false),
          (.insert (5, 0), .inserted (some (5, 0)) true false)] t ∧
      step collidingPolicy generousAllocator (.insert (6, 0)) t =
        some (.inserted (some (6, 0)) true false, t') ∧
      t'.tableSize = 6 ∧ t.allocations = 2 ∧ t'.allocations = 3 := by
  constructor
  · exact ⟨_, _, Run.step Run.refl rfl, rfl, rfl⟩
  · exact ⟨_, _, Run.step (Run.step (Run.step (Run.step (Run.step (Run.step (Run.step Run.refl
      rfl) rfl) rfl) rfl) rfl) rfl) rfl, rfl, rfl, rfl, rfl⟩

end runs

end OpenZL.Common.Table
