import Mathlib.Algebra.GroupWithZero.Nat
import Mathlib.Logic.Function.Basic
import Mathlib.Logic.Relation
import Mathlib.Algebra.BigOperators.Group.List.Basic
import Mathlib.Algebra.Order.Group.Nat
import Mathlib.Data.List.Nodup
import OpenZL.Lib.Result

/-!
# Resolving descriptions in dependency order

Descriptions refer to one another by key.

* `Visit.settled` — a visit resolves a description, or stacks it under what it waits for.
* `Sound.visit_good`, `Stacked.pop` — what a visit keeps.
* `acyclic_of_acc` — descriptions that are all accessible are on no cycle.
-/

namespace OpenZL.Lib

/-- What each key resolved to; `some none` while its description waits for others. -/
abbrev NameMap (κ : Type) := κ → Option (Option κ)

/-- Descriptions `items` under keys, and how one is built in an environment. -/
structure Resolver (κ ι γ σ ε : Type) where
  items : List ι
  key : ι → κ
  deps : ι → List κ
  /-- the component of that name in the environment -/
  existing : σ → κ → Option γ
  /-- builds a description whose references are resolved; returns the name it was given -/
  build : ι → NameMap κ → σ → Except ε (σ × κ)
  cycle : ε
  dangling : ε
  missing : ε
  revisited : ε

namespace Resolver

variable {κ ι γ σ ε : Type} [DecidableEq κ] (R : Resolver κ ι γ σ ε)

/-- The first description under a key. -/
def lookup (k : κ) : Option ι := R.items.find? fun x => decide (R.key x = k)

/-- What a reference stands for: a description still to build, or an existing component. -/
def resolve (s : σ) (names : NameMap κ) (d : κ) : Except ε (NameMap κ × (ι ⊕ γ)) :=
  match names d with
  | some none => .error R.cycle
  | some (some new) =>
    match R.existing s new with
    | none => .error R.dangling
    | some c => .ok (names, .inr c)
  | none =>
    match R.lookup d with
    | some x => .ok (names, .inl x)
    | none =>
      match R.existing s d with
      | none => .error R.missing
      | some c => .ok (Function.update names d (some (some d)), .inr c)

/-- The descriptions still to build among the references. -/
def waiting (s : σ) : NameMap κ → List κ → Except ε (NameMap κ × List ι)
  | names, [] => .ok (names, [])
  | names, d :: ds => do
    let (names, r) ← R.resolve s names d
    let (names, rest) ← waiting s names ds
    match r with
    | .inl x => .ok (names, x :: rest)
    | .inr _ => .ok (names, rest)

/-- Visits a description; returns what goes on top of the stack. -/
def visit (x : ι) (names : NameMap κ) (s : σ) : Except ε (NameMap κ × σ × List ι) :=
  match names (R.key x) with
  | some (some _) => .ok (names, s, [])
  | mark => do
    let (names, unbuilt) ← R.waiting s (Function.update names (R.key x) (some none)) (R.deps x)
    if unbuilt = [] then do
      let (s, new) ← R.build x names s
      .ok (Function.update names (R.key x) (some (some new)), s, [])
    else if mark = none then .ok (names, s, unbuilt.reverse ++ [x])
    else .error R.revisited

/-- What a visit that waits can put on the stack. -/
def weight (x : ι) : Nat := 1 + (R.deps x).length

/-- The visits still to come: those scheduled, and those the unvisited descriptions may add. -/
def pendingWork (names : NameMap κ) (rest pending : List ι) : Nat :=
  rest.length + pending.length +
    ((R.items.filter fun x => (names (R.key x)).isNone).map R.weight).sum

/-- The description of `k` refers to the description of `d`. -/
def Needs (k d : κ) : Prop :=
  ∃ x ∈ R.items, R.key x = k ∧ d ∈ R.deps x ∧ (R.lookup d).isSome

/-- From `names` to `names'`, only existing components that have no description were noted. -/
structure Grows (s : σ) (names names' : NameMap κ) : Prop where
  kept : ∀ k, names k ≠ none → names' k = names k
  noted : ∀ k, names k = none → names' k = none ∨
    R.lookup k = none ∧ names' k = some (some k) ∧ (R.existing s k).isSome

/-- A reference that has been resolved. -/
def Resolved (names : NameMap κ) (d : κ) : Prop := ∃ new, names d = some (some new)

variable {R} {s : σ} {names names' : NameMap κ}

/-! ## Lookups -/

theorem lookup_key {d : κ} {x : ι} (h : R.lookup d = some x) : R.key x = d := by
  simpa using List.find?_some h

theorem lookup_mem {d : κ} {x : ι} (h : R.lookup d = some x) : x ∈ R.items :=
  List.mem_of_find?_eq_some h

theorem lookup_isSome_of_mem {x : ι} (h : x ∈ R.items) : (R.lookup (R.key x)).isSome := by
  rw [lookup, List.find?_isSome]
  exact ⟨x, h, by simp⟩

theorem Grows.refl : R.Grows s names names := ⟨fun _ _ => rfl, fun _ h => .inl h⟩

theorem Grows.trans {names'' : NameMap κ} (h : R.Grows s names names')
    (h' : R.Grows s names' names'') : R.Grows s names names'' := by
  constructor
  · intro k hk
    rw [h'.kept k (by rwa [h.kept k hk]), h.kept k hk]
  · intro k hk
    rcases h.noted k hk with hnone | ⟨hl, hn, he⟩
    · exact h'.noted k hnone
    · refine .inr ⟨hl, ?_, he⟩
      rw [h'.kept k (by simp [hn]), hn]

theorem Grows.note {d : κ} (hn : names d = none) (hl : R.lookup d = none)
    (he : (R.existing s d).isSome) :
    R.Grows s names (Function.update names d (some (some d))) := by
  constructor
  · intro k hk
    rw [Function.update_of_ne]
    rintro rfl
    exact hk hn
  · intro k hk
    by_cases hkd : k = d
    · subst hkd
      exact .inr ⟨hl, by simp, he⟩
    · exact .inl (by rwa [Function.update_of_ne hkd])

theorem Grows.eq_none (h : R.Grows s names names') {k : κ} (hk : names' k = none) :
    names k = none := by
  by_contra hne
  exact hne (by rw [← h.kept k hne, hk])

theorem Grows.resolved (h : R.Grows s names names') {k : κ} (hk : Resolved names k) :
    Resolved names' k := by
  obtain ⟨new, hnew⟩ := hk
  exact ⟨new, by rw [h.kept k (by simp [hnew]), hnew]⟩

theorem Grows.mark_iff (h : R.Grows s names names') (k : κ) :
    names' k = some none ↔ names k = some none := by
  cases hk : names k with
  | none =>
    rcases h.noted k hk with hn | ⟨-, hn, -⟩ <;> simp [hn]
  | some m => rw [h.kept k (by simp [hk]), hk]

theorem resolve_ok {d : κ} {r : ι ⊕ γ} (h : R.resolve s names d = .ok (names', r)) :
    R.Grows s names names' ∧ names d ≠ some none ∧
      ((∃ x, r = .inl x ∧ R.lookup d = some x ∧ names d = none) ∨
        ∃ c, r = .inr c ∧ Resolved names' d) := by
  unfold resolve at h
  split at h
  · cases h
  · rename_i new hnew
    split at h
    · cases h
    · rename_i c hc
      cases h
      exact ⟨.refl, by simp [hnew], .inr ⟨c, rfl, new, hnew⟩⟩
  · rename_i hnone
    split at h
    · rename_i x hx
      cases h
      exact ⟨.refl, by simp [hnone], .inl ⟨x, rfl, hx, hnone⟩⟩
    · rename_i hx
      split at h
      · cases h
      · rename_i c hc
        cases h
        refine ⟨.note hnone hx (by simp [hc]), by simp [hnone], .inr ⟨c, rfl, d, by simp⟩⟩

theorem waiting_ok {ds : List κ} {xs : List ι} (h : R.waiting s names ds = .ok (names', xs)) :
    R.Grows s names names' ∧ (∀ d ∈ ds, names d ≠ some none) ∧
      (∀ d ∈ ds, Resolved names' d ∨ ∃ x ∈ xs, R.lookup d = some x) ∧
      (∀ x ∈ xs, ∃ d ∈ ds, R.lookup d = some x ∧ names d = none) ∧ xs.length ≤ ds.length := by
  induction ds generalizing names names' xs with
  | nil =>
    cases h
    exact ⟨.refl, by simp, by simp, by simp, by simp⟩
  | cons d ds ih =>
    obtain ⟨⟨names₁, r⟩, hr, h⟩ := bind_eq_ok.1 h
    obtain ⟨⟨names₂, rest⟩, hrest, h⟩ := bind_eq_ok.1 h
    obtain ⟨hg, hmark, hcase⟩ := resolve_ok hr
    obtain ⟨hg', hmarks, hres, hwait, hlen⟩ := ih hrest
    have hnotmark : ∀ d' ∈ d :: ds, names d' ≠ some none := by
      intro d' hd'
      rcases List.mem_cons.1 hd' with rfl | hd'
      · exact hmark
      · exact fun hn => hmarks d' hd' ((hg.mark_iff d').2 hn)
    have hback : ∀ x ∈ rest, ∃ d' ∈ d :: ds, R.lookup d' = some x ∧ names d' = none := by
      intro x hx
      obtain ⟨d', hd', hl, hn⟩ := hwait x hx
      exact ⟨d', by simp [hd'], hl, hg.eq_none hn⟩
    rcases hcase with ⟨x, rfl, hl, hn⟩ | ⟨c, rfl, hd⟩
    · cases h
      refine ⟨hg.trans hg', hnotmark, ?_, ?_, by simpa using hlen⟩
      · intro d' hd'
        rcases List.mem_cons.1 hd' with rfl | hd'
        · exact .inr ⟨x, by simp, hl⟩
        · exact (hres d' hd').imp_right fun ⟨y, hy, hly⟩ => ⟨y, by simp [hy], hly⟩
      · intro y hy
        rcases List.mem_cons.1 hy with rfl | hy
        · exact ⟨d, by simp, hl, hn⟩
        · exact hback y hy
    · cases h
      refine ⟨hg.trans hg', hnotmark, ?_, hback, by simp only [List.length_cons]; omega⟩
      intro d' hd'
      rcases List.mem_cons.1 hd' with rfl | hd'
      · exact .inl (hg'.resolved hd)
      · exact hres d' hd'

variable (R) in

/-! ## Visits -/
/-- What a visit of `x` can do. -/
inductive Visit (x : ι) (names : NameMap κ) (s : σ) : NameMap κ → σ → List ι → Prop where
  | skip : Resolved names (R.key x) → Visit x names s names s []
  | built {names₁ : NameMap κ} {s' : σ} {new : κ} :
      ¬Resolved names (R.key x) →
      R.Grows s (Function.update names (R.key x) (some none)) names₁ →
      (∀ d ∈ R.deps x, Resolved names₁ d) → R.build x names₁ s = .ok (s', new) →
      Visit x names s (Function.update names₁ (R.key x) (some (some new))) s' []
  | waits {names₁ : NameMap κ} {ys : List ι} : names (R.key x) = none →
      R.Grows s (Function.update names (R.key x) (some none)) names₁ →
      (∀ d ∈ R.deps x, Resolved names₁ d ∨ ∃ y ∈ ys, R.lookup d = some y) →
      (∀ y ∈ ys, ∃ d ∈ R.deps x, R.lookup d = some y ∧ d ≠ R.key x ∧ names d = none) →
      ys.length ≤ (R.deps x).length → Visit x names s names₁ s (ys.reverse ++ [x])

omit [DecidableEq κ] in
theorem not_resolved_of_mark {k : κ} (h : names k = some none) : ¬Resolved names k := by
  rintro ⟨new, hnew⟩
  simp [h] at hnew

theorem visit_ok {x : ι} {s' : σ} {pushed : List ι}
    (h : R.visit x names s = .ok (names', s', pushed)) : R.Visit x names s names' s' pushed := by
  unfold visit at h
  split at h
  · rename_i new hnew
    cases h
    exact .skip ⟨new, hnew⟩
  · rename_i hunres
    have hnot : ¬Resolved names (R.key x) := fun ⟨new, hnew⟩ => hunres new hnew
    obtain ⟨⟨names₁, ys⟩, hw, h⟩ := bind_eq_ok.1 h
    obtain ⟨hg, hmark, hres, hwait, hlen⟩ := waiting_ok hw
    dsimp only at h
    split at h
    · rename_i hys
      obtain ⟨⟨s₁, new⟩, hb, h⟩ := bind_eq_ok.1 h
      cases h
      refine .built hnot hg (fun d hd => ?_) hb
      exact (hres d hd).resolve_right (by simp [hys])
    · split at h
      · rename_i hnone
        cases h
        refine .waits hnone hg hres (fun y hy => ?_) hlen
        obtain ⟨d, hd, hl, hn⟩ := hwait y hy
        have hne : d ≠ R.key x := by
          rintro rfl
          simp at hn
        exact ⟨d, hd, hl, hne, by rwa [Function.update_of_ne hne] at hn⟩
      · cases h

/-- The keys that wait are on the stack; the unvisited descriptions are still in the list. -/
structure Scheduled (R : Resolver κ ι γ σ ε) (rest pending : List ι) (names : NameMap κ) :
    Prop where
  rest_mem : ∀ x ∈ rest, x ∈ R.items
  pending_mem : ∀ x ∈ pending, x ∈ R.items
  marked : ∀ k, names k = some none → ∃ x ∈ pending, R.key x = k
  unvisited : ∀ x ∈ R.items, x ∈ rest ∨ names (R.key x) ≠ none

section

variable {x : ι} {s' : σ} {pushed : List ι} (h : R.Visit x names s names' s' pushed)

include h

theorem Visit.visited : names' (R.key x) ≠ none ∧ ∀ k, names k ≠ none → names' k ≠ none := by
  cases h with
  | skip hres =>
    obtain ⟨new, hnew⟩ := hres
    exact ⟨by simp [hnew], fun k hk => hk⟩
  | built hnot hg hres hb =>
    refine ⟨by simp, fun k hk => ?_⟩
    by_cases hkx : k = R.key x
    · simp [hkx]
    · rw [Function.update_of_ne hkx]
      exact fun hn => hk (by simpa [Function.update_of_ne hkx] using hg.eq_none hn)
  | waits hnone hg hres hwait hlen =>
    refine ⟨fun hn => by simpa using hg.eq_none hn, fun k hk hn => ?_⟩
    have hn' := hg.eq_none hn
    by_cases hkx : k = R.key x
    · simp [hkx] at hn'
    · exact hk (by rwa [Function.update_of_ne hkx] at hn')

theorem Visit.mark {k : κ} (hk : names' k = some none) :
    (names k = some none ∧ k ≠ R.key x) ∨ (k = R.key x ∧ x ∈ pushed) := by
  cases h with
  | skip hres =>
    refine .inl ⟨hk, ?_⟩
    rintro rfl
    exact not_resolved_of_mark hk hres
  | built hnot hg hres hb =>
    have hne : k ≠ R.key x := by
      rintro rfl
      simp at hk
    rw [Function.update_of_ne hne, hg.mark_iff, Function.update_of_ne hne] at hk
    exact .inl ⟨hk, hne⟩
  | waits hnone hg hres hwait hlen =>
    by_cases hne : k = R.key x
    · exact .inr ⟨hne, by simp⟩
    · rw [hg.mark_iff, Function.update_of_ne hne] at hk
      exact .inl ⟨hk, hne⟩

theorem Visit.pushed_mem (hx : x ∈ R.items) : ∀ y ∈ pushed, y ∈ R.items := by
  cases h with
  | skip hres => simp
  | built hnot hg hres hb => simp
  | waits hnone hg hres hwait hlen =>
    intro y hy
    rcases List.mem_append.1 hy with hy | hy
    · obtain ⟨d, -, hl, -⟩ := hwait y (List.mem_reverse.1 hy)
      exact lookup_mem hl
    · rwa [List.mem_singleton.1 hy]

end

theorem Scheduled.pop {x : ι} {rest pending pushed : List ι} {s' : σ}
    (h : R.Scheduled rest (x :: pending) names) (hv : R.Visit x names s names' s' pushed) :
    R.Scheduled rest (pushed ++ pending) names' := by
  refine ⟨h.rest_mem, ?_, ?_, ?_⟩
  · intro y hy
    rcases List.mem_append.1 hy with hy | hy
    · exact hv.pushed_mem (h.pending_mem x (by simp)) y hy
    · exact h.pending_mem y (by simp [hy])
  · intro k hk
    rcases hv.mark hk with ⟨hk, hne⟩ | ⟨rfl, hx⟩
    · obtain ⟨y, hy, rfl⟩ := h.marked k hk
      rcases List.mem_cons.1 hy with rfl | hy
      · exact absurd rfl hne
      · exact ⟨y, by simp [hy], rfl⟩
    · exact ⟨x, by simp [hx], rfl⟩
  · intro y hy
    exact (h.unvisited y hy).imp_right fun hn => hv.visited.2 _ hn

omit [DecidableEq κ] in

/-! ## Soundness -/

/-- What resolving preserves: noting a component, marking a description, building one. -/
structure Sound (R : Resolver κ ι γ σ ε) (Good : NameMap κ → σ → Prop) : Prop where
  grows : ∀ names names' s, R.Grows s names names' → Good names s → Good names' s
  mark : ∀ names s x, x ∈ R.items → ¬Resolved names (R.key x) → Good names s →
    Good (Function.update names (R.key x) (some none)) s
  build : ∀ x names s s' new, x ∈ R.items → names (R.key x) = some none →
    (∀ d ∈ R.deps x, Resolved names d) → R.build x names s = .ok (s', new) → Good names s →
    Good (Function.update names (R.key x) (some (some new))) s'

theorem Sound.visit_good {Good : NameMap κ → σ → Prop} (hS : R.Sound Good) {x : ι} {s' : σ}
    {pushed : List ι} (hx : x ∈ R.items) (hv : R.Visit x names s names' s' pushed)
    (hG : Good names s) : Good names' s' := by
  cases hv with
  | skip hres => exact hG
  | built hnot hg hres hb =>
    have hkey := (hg.mark_iff (R.key x)).2 (by simp)
    exact hS.build x _ s s' _ hx hkey hres hb (hS.grows _ _ s hg (hS.mark names s x hx hnot hG))
  | waits hnone hg hres hwait hlen =>
    have hnot : ¬Resolved names (R.key x) := by
      rintro ⟨new, hnew⟩
      simp [hnone] at hnew
    exact hS.grows _ _ s hg (hS.mark names s x hx hnot hG)

theorem sound_acc (hkeys : (R.items.map R.key).Nodup) :
    R.Sound fun names _ => ∀ k, Resolved names k → Acc (Function.swap R.Needs) k := by
  have hleaf : ∀ k, R.lookup k = none → Acc (Function.swap R.Needs) k := by
    intro k hk
    refine ⟨_, fun d hd => ?_⟩
    obtain ⟨x, hx, rfl, -⟩ := hd
    simpa [hk] using lookup_isSome_of_mem hx
  constructor
  · rintro names names' s hg hG k ⟨new, hnew⟩
    cases hk : names k with
    | none =>
      rcases hg.noted k hk with hn | ⟨hl, -, -⟩
      · simp [hn] at hnew
      · exact hleaf k hl
    | some m => exact hG k ⟨new, by rw [← hg.kept k (by simp [hk]), hnew]⟩
  · rintro names s x hx hnot hG k ⟨new, hnew⟩
    by_cases hkx : k = R.key x
    · simp [hkx] at hnew
    · exact hG k ⟨new, by rwa [Function.update_of_ne hkx] at hnew⟩
  · rintro x names s s' new hx hmark hres hb hG k ⟨new', hnew'⟩
    by_cases hkx : k = R.key x
    · refine ⟨_, fun d hd => ?_⟩
      obtain ⟨y, hy, hyk, hd, -⟩ := hd
      have hyx : y = x := List.inj_on_of_nodup_map hkeys hy hx (hyk.trans hkx)
      exact hG d (hres d (hyx ▸ hd))
    · exact hG k ⟨new', by rwa [Function.update_of_ne hkx] at hnew'⟩

theorem acyclic_of_acc (h : ∀ x ∈ R.items, Acc (Function.swap R.Needs) (R.key x)) (k : κ) :
    ¬Relation.TransGen R.Needs k k := by
  intro hcycle
  obtain ⟨d, hkd, -⟩ := Relation.TransGen.head'_iff.1 hcycle
  obtain ⟨x, hx, rfl, -⟩ := hkd
  have hirrefl : ∀ a, Acc (Relation.TransGen (Function.swap R.Needs)) a →
      ¬Relation.TransGen (Function.swap R.Needs) a a := by
    intro a ha
    induction ha with
    | intro a _ ih => exact fun haa => ih a haa haa
  exact hirrefl _ (h x hx).transGen (Relation.transGen_swap.2 hcycle)

theorem sum_filter_le {α : Type} {p q : α → Bool} (w : α → Nat) (l : List α)
    (hqp : ∀ a, q a = true → p a = true) :
    ((l.filter q).map w).sum ≤ ((l.filter p).map w).sum := by
  induction l with
  | nil => simp
  | cons a l ih =>
    cases hq : q a with
    | true => simpa [hq, hqp a hq] using ih
    | false =>
      cases hp : p a with
      | true => simpa [hq, hp] using Nat.le_add_left_of_le ih
      | false => simpa [hq, hp] using ih

theorem sum_filter_drop {α : Type} {p q : α → Bool} (w : α → Nat) {l : List α} {x : α}
    (hqp : ∀ a, q a = true → p a = true) (hx : x ∈ l) (hpx : p x = true) (hqx : q x = false) :
    w x + ((l.filter q).map w).sum ≤ ((l.filter p).map w).sum := by
  induction l with
  | nil => cases hx
  | cons a l ih =>
    rcases List.mem_cons.1 hx with rfl | hx
    · simpa [hpx, hqx] using sum_filter_le w l hqp
    · have hl := ih hx
      cases hq : q a with
      | true =>
        simp only [List.filter_cons, hq, hqp a hq, if_true, List.map_cons, List.sum_cons]
        omega
      | false =>
        cases hp : p a with
        | true =>
          simp only [List.filter_cons, hq, hp, if_true, List.map_cons, List.sum_cons,
            Bool.false_eq_true, if_false]
          omega
        | false => simpa [hq, hp] using hl

theorem Visit.work {x : ι} {s' : σ} {pushed : List ι} (hx : x ∈ R.items)
    (h : R.Visit x names s names' s' pushed) :
    pushed.length + R.pendingWork names' [] [] ≤ R.pendingWork names [] [] := by
  have hmono : ∀ y : ι, (names' (R.key y)).isNone = true → (names (R.key y)).isNone = true := by
    intro y hy
    cases hk : names (R.key y) with
    | none => rfl
    | some m =>
      have hne := h.visited.2 (R.key y) (by simp [hk])
      cases hk' : names' (R.key y) with
      | none => exact absurd hk' hne
      | some m' => simp [hk'] at hy
  simp only [pendingWork, List.length_nil, Nat.zero_add]
  cases h with
  | skip hres => simp
  | built hnot hg hres hb => simpa using sum_filter_le R.weight R.items hmono
  | @waits _ ys hnone hg hres hwait hlen =>
    have hset : (names' (R.key x)).isNone = false := by
      have hk := (hg.mark_iff (R.key x)).2 (by simp)
      simp [hk]
    have hdrop := sum_filter_drop (p := fun y => (names (R.key y)).isNone)
      (q := fun y => (names' (R.key y)).isNone) R.weight hmono hx (by simp [hnone]) hset
    simp only [weight] at hdrop
    simp only [List.length_append, List.length_reverse, List.length_singleton]
    omega

/-! ## What waits -/

/-- What waits at `k` has above it on the stack the descriptions it waits for, and these only
come from its references. -/
def Stacked (R : Resolver κ ι γ σ ε) (pending : List ι) (names : NameMap κ) : Prop :=
  ∀ k, names k = some none → ∃ above x below, pending = above ++ x :: below ∧ R.key x = k ∧
    (∀ a ∈ above, R.key a ≠ k ∧ Relation.TransGen R.Needs k (R.key a)) ∧
    ∀ d ∈ R.deps x, Resolved names d ∨ ∃ a ∈ above, R.key a = d

theorem Visit.resolved_mono {x : ι} {s' : σ} {pushed : List ι}
    (h : R.Visit x names s names' s' pushed) {d : κ} (hd : Resolved names d) :
    Resolved names' d := by
  cases h with
  | skip hres => exact hd
  | built hnot hg hres hb =>
    by_cases hdx : d = R.key x
    · exact ⟨_, by rw [hdx, Function.update_self]⟩
    · obtain ⟨new, hnew⟩ := hd
      have hres' := hg.resolved (k := d) ⟨new, by rwa [Function.update_of_ne hdx]⟩
      obtain ⟨new', hnew'⟩ := hres'
      exact ⟨new', by rwa [Function.update_of_ne hdx]⟩
  | waits hnone hg hres hwait hlen =>
    have hdx : d ≠ R.key x := by
      rintro rfl
      obtain ⟨new, hnew⟩ := hd
      simp [hnone] at hnew
    obtain ⟨new, hnew⟩ := hd
    exact hg.resolved ⟨new, by rwa [Function.update_of_ne hdx]⟩

theorem Visit.settled {x : ι} {s' : σ} {pushed : List ι}
    (h : R.Visit x names s names' s' pushed) :
    (Resolved names' (R.key x) ∧ pushed = []) ∨ ∃ ys : List ι, pushed = ys.reverse ++ [x] ∧
      (∀ d ∈ R.deps x, Resolved names' d ∨ ∃ y ∈ ys, R.key y = d) ∧
      ∀ y ∈ ys, R.key y ≠ R.key x ∧ R.key y ∈ R.deps x ∧ y ∈ R.items ∧
        names (R.key y) = none := by
  cases h with
  | skip hres => exact .inl ⟨hres, rfl⟩
  | built hnot hg hres hb => exact .inl ⟨⟨_, Function.update_self ..⟩, rfl⟩
  | @waits _ ys hnone hg hres hwait hlen =>
    refine .inr ⟨ys, rfl, ?_, ?_⟩
    · intro d hd
      exact (hres d hd).imp_right fun ⟨y, hy, hl⟩ => ⟨y, hy, lookup_key hl⟩
    · intro y hy
      obtain ⟨d, hd, hl, hne, hn⟩ := hwait y hy
      have hk := lookup_key hl
      exact ⟨by rwa [hk], by rwa [hk], lookup_mem hl, by rwa [hk]⟩

/-- A mark that is not that of the top lies below it. -/
theorem Stacked.below {x : ι} {pending : List ι} {k : κ} (h : R.Stacked (x :: pending) names)
    (hk : names k = some none) (hne : k ≠ R.key x) : ∃ above y below,
      pending = above ++ y :: below ∧ R.key y = k ∧
      (∀ b ∈ x :: above, R.key b ≠ k ∧ Relation.TransGen R.Needs k (R.key b)) ∧
      ∀ d ∈ R.deps y, Resolved names d ∨ ∃ b ∈ x :: above, R.key b = d := by
  obtain ⟨above, y, below, hsplit, rfl, habove, hy⟩ := h k hk
  cases above with
  | nil =>
    obtain ⟨rfl, -⟩ := List.cons.inj (hsplit : x :: pending = y :: below)
    exact absurd rfl hne
  | cons a above =>
    obtain ⟨rfl, hsplit⟩ := List.cons.inj (hsplit : x :: pending = a :: (above ++ y :: below))
    exact ⟨above, y, below, by simpa using hsplit, rfl, habove, hy⟩

theorem Stacked.pop {x : ι} {pending pushed : List ι} {s' : σ} (hx : x ∈ R.items)
    (h : R.Stacked (x :: pending) names) (hv : R.Visit x names s names' s' pushed) :
    R.Stacked (pushed ++ pending) names' := by
  intro k hk
  rcases hv.settled with ⟨hres, rfl⟩ | ⟨ys, rfl, hdeps, hys⟩
  · -- what waits for the visited description has one reference less to wait for
    rcases hv.mark hk with ⟨hk', hne⟩ | ⟨-, hmem⟩
    · obtain ⟨above, y, below, hsplit, rfl, habove, hy⟩ := h.below hk' hne
      refine ⟨above, y, below, by simpa using hsplit, rfl,
        fun b hb => habove b (by simp [hb]), fun d hd => ?_⟩
      rcases hy d hd with hd | ⟨b, hb, rfl⟩
      · exact .inl (hv.resolved_mono hd)
      · rcases List.mem_cons.1 hb with rfl | hb
        · exact .inl hres
        · exact .inr ⟨b, hb, rfl⟩
    · cases hmem
  · have hneeds : ∀ y ∈ ys, R.Needs (R.key x) (R.key y) := fun y hy =>
      ⟨x, hx, rfl, (hys y hy).2.1, lookup_isSome_of_mem (hys y hy).2.2.1⟩
    rcases hv.mark hk with ⟨hk', hne⟩ | ⟨rfl, -⟩
    · obtain ⟨above, y, below, hsplit, rfl, habove, hy⟩ := h.below hk' hne
      have hreach := (habove x (by simp)).2
      refine ⟨ys.reverse ++ x :: above, y, below, by simp [hsplit], rfl, ?_, fun d hd => ?_⟩
      · intro b hb
        rcases List.mem_append.1 hb with hb | hb
        · have hb := List.mem_reverse.1 hb
          refine ⟨fun heq => ?_, hreach.tail (hneeds b hb)⟩
          have hn := (hys b hb).2.2.2
          rw [heq, hk'] at hn
          cases hn
        · exact habove b hb
      · rcases hy d hd with hd | ⟨b, hb, rfl⟩
        · exact .inl (hv.resolved_mono hd)
        · exact .inr ⟨b, by simp [List.mem_cons.1 hb], rfl⟩
    · refine ⟨ys.reverse, x, pending, by simp, rfl, ?_, ?_⟩
      · intro b hb
        have hb := List.mem_reverse.1 hb
        exact ⟨(hys b hb).1, .single (hneeds b hb)⟩
      · intro d hd
        exact (hdeps d hd).imp_right fun ⟨y, hy, hyd⟩ => ⟨y, by simpa using hy, hyd⟩

section Names

variable {κ ι σ γ ε : Type} [DecidableEq κ] {R : Resolver κ ι γ σ ε}

/-- The name a key ends up with; a key that was never met keeps its own. -/
def rename (names : NameMap κ) (k : κ) : κ :=
  match names k with
  | some (some new) => new
  | _ => k

omit [DecidableEq κ] in
theorem rename_of_resolved {names : NameMap κ} {k new : κ} (h : names k = some (some new)) :
    rename names k = new := by
  rw [rename, h]

/-- A later stage of a run: what was resolved stays as it was. -/
def Keeps (names names' : NameMap κ) : Prop :=
  ∀ k, Resolved names k → names' k = names k

theorem keeps_update {names : NameMap κ} {k : κ} (h : ¬Resolved names k) (m : Option κ) :
    Keeps names (Function.update names k (some m)) := by
  intro k' hk'
  rw [Function.update_of_ne]
  rintro rfl
  exact h hk'

theorem Grows.resolved_iff {s : σ} {names names' : NameMap κ} (h : R.Grows s names names')
    {x : ι} (hx : x ∈ R.items) : names' (R.key x) = names (R.key x) := by
  cases hk : names (R.key x) with
  | some m => rw [h.kept _ (by simp [hk]), hk]
  | none =>
    rcases h.noted _ hk with hn | ⟨hl, -, -⟩
    · exact hn
    · simpa [hl] using lookup_isSome_of_mem hx

end Names

end Resolver

end OpenZL.Lib
