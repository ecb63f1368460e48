import OpenZL.Codecs.Tokenize

/-!
# The maps of the tokenize codec

What the loops over a map from tokens to indices leave: an alphabet in the order of first
occurrence, the same in another order with the indices changed to it, and the indices of tokens.

Principal results: `buildAlphabet_spec`, `keysOf_spec`, `syncKeys_spec`, `writeIndices_spec`.
-/

namespace OpenZL.Codecs.Tokenize

open OpenZL.Common OpenZL.Lib

variable {κ : Type} {hashFn : κ → UInt64} {eqFn : κ → κ → Bool} {size : Nat}
  {a : Table.Allocator (κ × Nat)} {t : Table.GenericTable (κ × Nat)}

theorem mapPolicy_lawful (heq : ∀ j k, eqFn j k = true ↔ j = k) :
    (mapPolicy hashFn eqFn size).Lawful where
  refl := fun k => (heq k k).2 rfl
  symm := fun j k h => (heq k j).2 ((heq j k).1 h).symm
  trans := fun i j k h h' => (heq i k).2 (((heq i j).1 h).trans ((heq j k).1 h'))
  hash := fun j k h => congrArg hashFn ((heq j k).1 h)

/-- The map holds the elements of a list, each with its index. -/
def Numbers (hashFn : κ → UInt64) (eqFn : κ → κ → Bool) (size : Nat)
    (t : Table.GenericTable (κ × Nat)) (keys : List κ) : Prop :=
  Table.Holding (mapPolicy hashFn eqFn size) t keys.zipIdx

section Lookups

variable {t : Table.GenericTable (κ × Nat)} {es : List (κ × Nat)} {k : κ} {v : Nat}

variable (heq : ∀ j k, eqFn j k = true ↔ j = k)

include heq

theorem nodup_keys (h : Table.Holding (mapPolicy hashFn eqFn size) t es) :
    (es.map Prod.fst).Nodup := by
  obtain ⟨buckets, free, hwf, hperm⟩ := h
  refine (hperm.map Prod.fst).nodup_iff.1 (List.pairwise_map.2 (hwf.distinct.imp ?_))
  intro d e hde hkey
  have hfalse : eqFn d.1 e.1 = false := hde
  rw [(heq d.1 e.1).2 hkey] at hfalse
  cases hfalse

theorem findVal_spec (h : Table.Holding (mapPolicy hashFn eqFn size) t es) (hk : (k, v) ∈ es) :
    findVal (mapPolicy hashFn eqFn size) t k = some v := by
  have hnodup := nodup_keys heq h
  obtain ⟨buckets, free, hwf, hperm⟩ := h
  obtain ⟨r, hrun, hfound⟩ := Table.find_spec hwf (mapPolicy_lawful heq) k
  rw [findVal, hrun, Option.bind_eq_bind, Option.bind_some]
  cases r with
  | none =>
    have hfalse : eqFn k k = false := hfound (k, v) (hperm.mem_iff.2 hk)
    rw [(heq k k).2 rfl] at hfalse
    cases hfalse
  | some place =>
    obtain ⟨e, he, hplace, hkey⟩ := hfound
    have hkey : k = e.1 := (heq k e.1).1 hkey
    have hsame : e = (k, v) :=
      List.inj_on_of_nodup_map hnodup (hperm.mem_iff.1 he) hk hkey.symm
    simp only [Option.bind_eq_bind, Option.bind_some, hplace, hsame]

theorem setVal_spec (h : Table.Holding (mapPolicy hashFn eqFn size) t ((k, v) :: es)) (i : Nat) :
    ∃ t', setVal (mapPolicy hashFn eqFn size) t k i = some t' ∧
      Table.Holding (mapPolicy hashFn eqFn size) t' ((k, i) :: es) := by
  have hnodup := nodup_keys heq h
  obtain ⟨buckets, free, hwf, hperm⟩ := h
  obtain ⟨r, hrun, hfound⟩ := Table.find_spec hwf (mapPolicy_lawful heq) k
  have hmem : (k, v) ∈ (k, v) :: es := List.mem_cons_self
  cases r with
  | none =>
    have hfalse : eqFn k k = false := hfound (k, v) (hperm.mem_iff.2 hmem)
    rw [(heq k k).2 rfl] at hfalse
    cases hfalse
  | some place =>
    obtain ⟨e, he, hplace, hkey⟩ := hfound
    obtain ⟨e', hstands, hkey'⟩ := Table.findAt_spec hwf (mapPolicy_lawful heq) hrun
    have hsame : e = (k, v) :=
      List.inj_on_of_nodup_map hnodup (hperm.mem_iff.1 he) hmem ((heq k e.1).1 hkey).symm
    have hsame' : e' = (k, v) :=
      List.inj_on_of_nodup_map hnodup (hperm.mem_iff.1 hstands.mem) hmem
        ((heq k e'.1).1 hkey').symm
    rw [hsame'] at hstands
    obtain ⟨t', hset, hholding⟩ := Table.setEntry_spec hwf (mapPolicy_lawful heq) hstands hperm
      (show (mapPolicy hashFn eqFn size).key (k, i) = k from rfl)
    refine ⟨t', ?_, hholding⟩
    simp only [setVal, hrun, Option.bind_eq_bind, Option.bind_some, hplace, hsame, hset]

theorem containsVal_spec [DecidableEq κ] (h : Table.Holding (mapPolicy hashFn eqFn size) t es)
    (k : κ) :
    containsVal (mapPolicy hashFn eqFn size) t k = some (decide (k ∈ es.map Prod.fst)) := by
  obtain ⟨buckets, free, hwf, hperm⟩ := h
  obtain ⟨r, hrun, hfound⟩ := Table.find_spec hwf (mapPolicy_lawful heq) k
  rw [containsVal, hrun, Option.bind_eq_bind, Option.bind_some]
  cases r with
  | none =>
    refine congrArg some (decide_eq_false fun hk => ?_).symm
    obtain ⟨e, he, rfl⟩ := List.mem_map.1 hk
    have hfalse : eqFn e.1 e.1 = false := hfound e (hperm.mem_iff.2 he)
    rw [(heq e.1 e.1).2 rfl] at hfalse
    cases hfalse
  | some place =>
    obtain ⟨e, he, -, hkey⟩ := hfound
    have hkey : k = e.1 := (heq k e.1).1 hkey
    exact congrArg some (decide_eq_true (hkey ▸ List.mem_map_of_mem (hperm.mem_iff.1 he))).symm

end Lookups

theorem writeKeys_spec (es : List (κ × Nat)) : ∀ {keys : List (Option κ)},
    (∀ e ∈ es, e.2 < keys.length) → (es.map Prod.snd).Nodup →
      ∃ keys', writeKeys es keys = some keys' ∧ keys'.length = keys.length ∧
        (∀ e ∈ es, keys'[e.2]? = some (some e.1)) ∧
        ∀ j, j ∉ es.map Prod.snd → keys'[j]? = keys[j]? := by
  induction es with
  | nil =>
    intro keys _ _
    exact ⟨keys, rfl, rfl, nofun, fun _ _ => rfl⟩
  | cons e es ih =>
    intro keys hlt hnodup
    rw [List.map_cons, List.nodup_cons] at hnodup
    have he := hlt e List.mem_cons_self
    obtain ⟨keys', hrun, hlen, hin, hout⟩ := @ih (keys.set e.2 (some e.1))
      (fun d hd => by
        rw [List.length_set]
        exact hlt d (List.mem_cons_of_mem _ hd)) hnodup.2
    refine ⟨keys', ?_, hlen.trans (List.length_set ..), fun d hd => ?_, fun j hj => ?_⟩
    · rw [writeKeys, List.foldlM_cons, if_pos he]
      exact hrun
    · rcases List.mem_cons.1 hd with rfl | hd
      · rw [hout _ hnodup.1, List.getElem?_set_self he]
      · exact hin d hd
    · rw [List.map_cons, List.mem_cons, not_or] at hj
      rw [hout j hj.2, List.getElem?_set_ne (Ne.symm hj.1)]

theorem filled_map_some (keys : List κ) : filled (keys.map some) = some keys := by
  induction keys with
  | nil => rfl
  | cons k keys ih =>
    rw [filled] at ih ⊢
    rw [List.map_cons, List.mapM_cons, ih]
    rfl

/-- **The keys of a map**, in the order of their indices. -/
theorem keysOf_spec {keys : List κ} (h : Numbers hashFn eqFn size t keys) :
    t.tableSize = keys.length ∧ keysOf t = some keys := by
  obtain ⟨buckets, free, hwf, hperm⟩ := h
  have hsize : t.tableSize = keys.length := by
    rw [hwf.size, hperm.length_eq, List.length_zipIdx]
  have hmem : ∀ e : κ × Nat, e ∈ buckets.flatMap Table.Content.entries ↔
      keys[e.2]? = some e.1 := fun e => by
    rw [hperm.mem_iff, List.mem_zipIdx_iff_getElem?]
  have hnodup : ((buckets.flatMap Table.Content.entries).map Prod.snd).Nodup := by
    refine (hperm.map Prod.snd).nodup_iff.2 ?_
    rw [List.zipIdx_map_snd]
    exact List.nodup_range'
  obtain ⟨keys', hrun, hlen, hin, -⟩ :=
    @writeKeys_spec κ (buckets.flatMap Table.Content.entries) (List.replicate t.tableSize none)
      (fun e he => by
        rw [List.length_replicate, hsize]
        exact (List.getElem?_eq_some_iff.1 ((hmem e).1 he)).1) hnodup
  have hkeys : keys' = keys.map some := by
    rw [List.length_replicate, hsize] at hlen
    refine List.ext_getElem? fun j => ?_
    rcases Nat.lt_or_ge j keys.length with hj | hj
    · rw [hin (keys[j], j) ((hmem _).2 (List.getElem?_eq_getElem hj)), List.getElem?_map,
        List.getElem?_eq_getElem hj]
      rfl
    · rw [List.getElem?_eq_none (by omega), List.getElem?_eq_none (by rwa [List.length_map])]
  refine ⟨hsize, ?_⟩
  rw [keysOf, Table.iterate_spec hwf]
  simp only [Option.bind_eq_bind, Option.bind_some, hrun]
  rw [hkeys, filled_map_some]

/-- **The indices of the keys are changed** to those in another list of them. -/
theorem syncKeys_spec (heq : ∀ j k, eqFn j k = true ↔ j = k) (keys : List κ) :
    ∀ {t : Table.GenericTable (κ × Nat)} {done es : List (κ × Nat)} {i : Nat},
      Table.Holding (mapPolicy hashFn eqFn size) t (done ++ es) → (es.map Prod.fst).Perm keys →
        ∃ t', syncKeys (mapPolicy hashFn eqFn size) keys i t = some t' ∧
          Table.Holding (mapPolicy hashFn eqFn size) t' (done ++ keys.zipIdx i) := by
  induction keys with
  | nil =>
    intro t done es i h hperm
    rw [List.map_eq_nil_iff.1 (List.perm_nil.1 hperm)] at h
    exact ⟨t, rfl, h⟩
  | cons k keys ih =>
    intro t done es i h hperm
    obtain ⟨⟨k', v⟩, he, hk⟩ := List.mem_map.1 (hperm.mem_iff.2 List.mem_cons_self)
    obtain rfl : k' = k := hk
    obtain ⟨before, behind, rfl⟩ := List.append_of_mem he
    have hmiddle : (done ++ (before ++ (k', v) :: behind)).Perm
        ((k', v) :: (done ++ (before ++ behind))) := by
      rw [← List.append_assoc, ← List.append_assoc]
      exact List.perm_middle
    have hrest : ((before ++ behind).map Prod.fst).Perm keys := by
      refine List.Perm.cons_inv (a := k') (List.Perm.trans ?_ hperm)
      rw [List.map_append, List.map_append, List.map_cons]
      exact List.perm_middle.symm
    obtain ⟨t₁, hset, h₁⟩ := setVal_spec heq (h.perm hmiddle) i
    have hdone : ((k', i) :: (done ++ (before ++ behind))).Perm
        (done ++ [(k', i)] ++ (before ++ behind)) := by
      rw [List.append_assoc, List.singleton_append]
      exact List.perm_middle.symm
    obtain ⟨t₂, hrun, h₂⟩ := @ih t₁ (done ++ [(k', i)]) (before ++ behind) (i + 1)
      (h₁.perm hdone) hrest
    refine ⟨t₂, ?_, ?_⟩
    · rw [syncKeys, hset]
      exact hrun
    · rwa [List.append_assoc, List.singleton_append] at h₂

theorem Numbers.sync (heq : ∀ j k, eqFn j k = true ↔ j = k) {keys keys' : List κ}
    (h : Numbers hashFn eqFn size t keys) (hperm : keys'.Perm keys) :
    ∃ t', syncKeys (mapPolicy hashFn eqFn size) keys' 0 t = some t' ∧
      Numbers hashFn eqFn size t' keys' := by
  have hkeys : (keys.zipIdx.map Prod.fst).Perm keys' := by
    rw [List.zipIdx_map_fst]
    exact hperm.symm
  exact @syncKeys_spec κ hashFn eqFn size heq keys' t [] keys.zipIdx 0 h hkeys

/-- **The indices of tokens.** -/
theorem writeIndices_spec [DecidableEq κ] (heq : ∀ j k, eqFn j k = true ↔ j = k) {keys : List κ}
    (h : Numbers hashFn eqFn size t keys) (idxWidth : Nat) {tokens : List κ}
    (htokens : ∀ x ∈ tokens, x ∈ keys) :
    writeIndices (mapPolicy hashFn eqFn size) t idxWidth tokens =
      some (tokens.map fun x => stored idxWidth (keys.idxOf x)) := by
  induction tokens with
  | nil => rfl
  | cons x tokens ih =>
    have hx : (x, keys.idxOf x) ∈ keys.zipIdx :=
      List.mem_zipIdx_iff_getElem?.2 (List.getElem?_idxOf (htokens x List.mem_cons_self))
    have hrest := ih fun y hy => htokens y (List.mem_cons_of_mem _ hy)
    rw [writeIndices] at hrest ⊢
    rw [List.mapM_cons, hrest, findVal_spec heq h hx]
    rfl

/-- Why a map of at most `m` entries is full or does not grow. -/
def Exhausted (a : Table.Allocator (κ × Nat)) (kBucketSize m tokens : Nat) : Prop :=
  (∃ i, a.grants i = false) ∨ 2 ^ 64 ≤ kBucketSize * 2 ^ 31 ∨ m ≤ tokens

theorem Exhausted.mono {m tokens tokens' : Nat} (h : Exhausted a size m tokens)
    (hle : tokens ≤ tokens') : Exhausted a size m tokens' :=
  h.imp_right (Or.imp_right hle.trans')

/-- After the tokens of `done`, with a map of at most `m` entries: unless it was exhausted, the map
numbers the distinct tokens in the order of their first occurrence. -/
structure Building [DecidableEq κ] (hashFn : κ → UInt64) (eqFn : κ → κ → Bool) (kBucketSize : Nat)
    (a : Table.Allocator (κ × Nat)) (len : κ → Nat) (m : Nat) (done : List κ) (b : Build κ) :
    Prop where
  holding : ∃ es, Table.Holding (mapPolicy hashFn eqFn kBucketSize) b.map es ∧
    es.length ≤ done.length ∧ (b.badAlloc = false → es = (distinct done).zipIdx)
  nextIdx : b.badAlloc = false → b.nextIdx = (distinct done).length
  fieldSizesSum : b.badAlloc = false → b.fieldSizesSum = ((distinct done).map len).sum
  maxCapacity : b.map.maxCapacity = m
  exhausted : b.badAlloc = true → Exhausted a kBucketSize m done.length

section Alphabet

variable [DecidableEq κ] {len : κ → Nat} {m : Nat} {done : List κ} {b : Build κ}

theorem Building.numbers (h : Building hashFn eqFn size a len m done b)
    (hgood : b.badAlloc = false) : Numbers hashFn eqFn size b.map (distinct done) := by
  obtain ⟨es, hes, -, hsame⟩ := h.holding
  rwa [hsame hgood] at hes

theorem Building.step (heq : ∀ j k, eqFn j k = true ↔ j = k)
    (h : Building hashFn eqFn size a len m done b) (x : κ) :
    ∃ b', buildStep (mapPolicy hashFn eqFn size) a len b x = some b' ∧
      Building hashFn eqFn size a len m (done ++ [x]) b' := by
  obtain ⟨es, hes, hle, hsame⟩ := h.holding
  have hcontains := containsVal_spec heq hes x
  have hlen : (done ++ [x]).length = done.length + 1 := by
    rw [List.length_append, List.length_singleton]
  have hseen : b.badAlloc = false → (x ∈ es.map Prod.fst ↔ x ∈ distinct done) := fun hgood => by
    rw [hsame hgood, List.zipIdx_map_fst]
  by_cases hx : x ∈ es.map Prod.fst
  · have hold : b.badAlloc = false → distinct (done ++ [x]) = distinct done := fun hgood => by
      rw [distinct_append_singleton, addNew, if_pos ((hseen hgood).1 hx)]
    refine ⟨b, ?_, ⟨es, hes, by omega, fun hgood => ?_⟩, fun hgood => ?_, fun hgood => ?_,
      h.maxCapacity, fun hbad => (h.exhausted hbad).mono (by omega)⟩
    · simp only [buildStep, hcontains, decide_eq_true hx, Option.bind_eq_bind, Option.bind_some,
        if_true]
    · rw [hold hgood, hsame hgood]
    · rw [hold hgood, h.nextIdx hgood]
    · rw [hold hgood, h.fieldSizesSum hgood]
  · have hnew : b.badAlloc = false → distinct (done ++ [x]) = distinct done ++ [x] :=
      fun hgood => by
        rw [distinct_append_singleton, addNew, if_neg fun hmem => hx ((hseen hgood).2 hmem)]
    obtain ⟨buckets, free, hwf, hperm⟩ := id hes
    obtain ⟨res, t', hrun, hins, hlater, hbad, -⟩ :=
      Table.insert_spec (a := a) hwf (mapPolicy_lawful heq) (x, b.nextIdx)
    have hsize : b.map.tableSize = es.length := hwf.size.trans hperm.length_eq
    have hbuild (hok : res.badAlloc = true ∨ res.inserted = true) :
        buildStep (mapPolicy hashFn eqFn size) a len b x = some
          ⟨t', b.nextIdx + 1, b.badAlloc || res.badAlloc, b.fieldSizesSum + len x⟩ := by
      simp only [buildStep, hcontains, decide_eq_false hx, Option.bind_eq_bind, Option.bind_some,
        Bool.false_eq_true, if_false, Table.insertVal, hrun, if_pos hok]
    cases hins.perm hperm with
    | @present _ e _ he hkey _ _ =>
      have hkey : x = e.1 := (heq x e.1).1 hkey
      exact absurd (hkey ▸ List.mem_map_of_mem he) hx
    | added hapart hplace hheld =>
      refine ⟨_, hbuild (Or.inr rfl), ⟨es ++ [(x, b.nextIdx)], ?_, ?_, fun hgood => ?_⟩,
        fun hgood => ?_, fun hgood => ?_, hlater.maxCapacity.trans h.maxCapacity, fun hb => ?_⟩
      · exact hheld.perm (List.perm_append_singleton _ _).symm
      · rw [List.length_append, List.length_singleton]
        omega
      · have hgood := (Bool.or_eq_false_iff.1 hgood).1
        rw [hnew hgood, List.zipIdx_append, hsame hgood, h.nextIdx hgood, Nat.zero_add]
        rfl
      · have hgood := (Bool.or_eq_false_iff.1 hgood).1
        rw [hnew hgood, List.length_append, List.length_singleton, h.nextIdx hgood]
      · have hgood := (Bool.or_eq_false_iff.1 hgood).1
        rw [hnew hgood, List.map_append, List.map_singleton, List.sum_append, List.sum_singleton,
          h.fieldSizesSum hgood]
      · rw [Bool.or_false] at hb
        exact (h.exhausted hb).mono (by omega)
    | badAlloc hheld =>
      refine ⟨_, hbuild (Or.inl rfl), ⟨es, hheld, by omega, fun hgood => ?_⟩, fun hgood => ?_,
        fun hgood => ?_, hlater.maxCapacity.trans h.maxCapacity, fun _ => ?_⟩
      · cases (Bool.or_eq_false_iff.1 hgood).2
      · cases (Bool.or_eq_false_iff.1 hgood).2
      · cases (Bool.or_eq_false_iff.1 hgood).2
      · rcases (hbad rfl).2 with hfull | ⟨i, -, -, hi⟩ | hmem
        · rw [h.maxCapacity] at hfull
          exact Or.inr (Or.inr (by omega))
        · exact Or.inl ⟨i, hi⟩
        · exact Or.inr (Or.inl hmem)

/-- **The loop that builds an alphabet.** -/
theorem buildAlphabet_spec (heq : ∀ j k, eqFn j k = true ↔ j = k) (len : κ → Nat)
    (h : Table.Holding (mapPolicy hashFn eqFn size) t []) (tokens : List κ) :
    ∃ b, buildAlphabet (mapPolicy hashFn eqFn size) a len t tokens = some b ∧
      Building hashFn eqFn size a len t.maxCapacity tokens b := by
  induction tokens using List.reverseRecOn with
  | nil =>
    exact ⟨_, rfl, ⟨[], h, Nat.le_refl _, fun _ => rfl⟩, fun _ => rfl, fun _ => rfl, rfl, nofun⟩
  | append_singleton tokens x ih =>
    obtain ⟨b, hrun, hb⟩ := ih
    obtain ⟨b', hstep, hb'⟩ := hb.step heq x
    refine ⟨b', ?_, hb'⟩
    rw [buildAlphabet] at hrun ⊢
    rw [List.foldlM_append, hrun]
    simp only [Option.bind_eq_bind, Option.bind_some, List.foldlM_cons, List.foldlM_nil, hstep]
    rfl

end Alphabet

/-- What refuses a list of `n` tokens: memory, or its length. -/
def TooLarge (a : Table.Allocator (κ × Nat)) (n : Nat) : Prop :=
  (∃ i, a.grants i = false) ∨ Table.MAX_CAPACITY ≤ n

theorem Exhausted.tooLarge {n : Nat} (hsize : size * 2 ^ 31 < 2 ^ 64)
    (h : Exhausted a size (Table.create (E := κ × Nat) ((n % 2 ^ 32 + 1) % 2 ^ 32)).maxCapacity n) :
    TooLarge a n := by
  rcases h with hmem | hmem | hcap
  · exact Or.inl hmem
  · exact absurd hmem (Nat.not_le.2 hsize)
  · have hmax : Table.MAX_CAPACITY = 2 ^ 30 - 1 := rfl
    simp only [Table.create] at hcap
    refine Or.inr ?_
    rw [Nat.min_def] at hcap
    split at hcap <;> omega

theorem reserve_create (heq : ∀ j k, eqFn j k = true ↔ j = k) {n capacity : Nat}
    (hcap : capacity ≤ n) :
    ∃ ok t, Table.reserve (mapPolicy hashFn eqFn size) a
        (Table.create ((n % 2 ^ 32 + 1) % 2 ^ 32)) capacity false = some (ok, t) ∧
      Table.Holding (mapPolicy hashFn eqFn size) t [] ∧
      t.maxCapacity = (Table.create (E := κ × Nat) ((n % 2 ^ 32 + 1) % 2 ^ 32)).maxCapacity ∧
      (ok = false → Exhausted a size t.maxCapacity n) := by
  obtain ⟨ok, t, hrun, hholding, hlater, -, -, -, hrefused⟩ :=
    Table.reserve_spec (a := a) (Table.create_wf ((n % 2 ^ 32 + 1) % 2 ^ 32))
      (mapPolicy_lawful heq) capacity false
  refine ⟨ok, t, hrun, hholding, hlater.maxCapacity, fun hok => ?_⟩
  rcases hrefused hok with hlt | ⟨i, -, -, hi⟩ | hmem
  · rw [← hlater.maxCapacity] at hlt
    exact Or.inr (Or.inr (by omega))
  · exact Or.inl ⟨i, hi⟩
  · exact Or.inr (Or.inl hmem)

theorem Numbers.length_le {keys : List κ} (h : Numbers hashFn eqFn size t keys) :
    keys.length ≤ Table.MAX_CAPACITY := by
  have hsize := (keysOf_spec h).1
  obtain ⟨buckets, free, hwf, -⟩ := h
  have h₁ := hwf.size_le
  have h₂ := hwf.capacity_le
  have h₃ := hwf.threaded.maxCapacity_le
  omega

end OpenZL.Codecs.Tokenize
