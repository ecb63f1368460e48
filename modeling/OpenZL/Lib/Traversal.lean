import OpenZL.Lib.Resolver

/-!
# Traversals that defer

A loop over a list whose visits may put items on a stack; what is on the stack comes before the rest
of the list.

* `visit_error` — why a visit fails.
* `BuildsOne.sound` — what is built one by one stays logged, in order.
* `Visits.traverse_spec` — the loop ends, with all resolved or for a reason to stop.
-/

namespace OpenZL.Lib

/-- The loop: the top of the stack, or else the next item of the list. -/
def traverse {ι τ ε : Type} (visit : ι → List ι → τ → Except ε (List ι × τ)) (exhausted : ε) :
    Nat → List ι → List ι → τ → Except ε τ
  | 0, _, _, _ => .error exhausted
  | fuel + 1, rest, pending, t =>
    match pending with
    | x :: pending => do
      let (pending, t) ← visit x pending t
      traverse visit exhausted fuel rest pending t
    | [] =>
      match rest with
      | [] => .ok t
      | x :: rest => do
        let (pending, t) ← visit x [] t
        traverse visit exhausted fuel rest pending t

namespace Resolver

variable {κ ι γ σ ε τ : Type} [DecidableEq κ] {R : Resolver κ ι γ σ ε} {s : σ}
  {names names' : NameMap κ}

theorem resolve_component {key : κ} {id : γ}
    (h : R.resolve s names key = .ok (names', .inr id)) :
    ∃ new, names' key = some (some new) ∧ R.existing s new = some id := by
  unfold resolve at h
  split at h
  · cases h
  · rename_i new hnew
    split at h
    · cases h
    · rename_i c hc
      cases h
      exact ⟨new, hnew, hc⟩
  · split at h
    · cases h
    · split at h
      · cases h
      · rename_i c hc
        cases h
        exact ⟨key, by simp, hc⟩

theorem visit_of_not_resolved {x : ι} (h : ¬Resolved names (R.key x)) :
    R.visit x names s = (do
      let (names₁, unbuilt) ←
        R.waiting s (Function.update names (R.key x) (some none)) (R.deps x)
      if unbuilt = [] then do
        let (s, new) ← R.build x names₁ s
        .ok (Function.update names₁ (R.key x) (some (some new)), s, [])
      else if names (R.key x) = none then .ok (names₁, s, unbuilt.reverse ++ [x])
      else .error R.revisited) := by
  unfold visit
  split
  · rename_i new hnew
    exact absurd ⟨new, hnew⟩ h
  · rfl

theorem resolve_error {d : κ} {e : ε} (h : R.resolve s names d = .error e) :
    (e = R.cycle ∧ names d = some none) ∨
      (∃ new, names d = some (some new) ∧ R.existing s new = none) ∨
      (e = R.missing ∧ R.lookup d = none ∧ R.existing s d = none) := by
  unfold resolve at h
  split at h
  · rename_i hmark
    cases h
    exact .inl ⟨rfl, hmark⟩
  · rename_i new hnew
    split at h
    · rename_i hnone
      exact .inr (.inl ⟨new, hnew, hnone⟩)
    · cases h
  · split at h
    · cases h
    · rename_i hlookup
      split at h
      · rename_i hnone
        cases h
        exact .inr (.inr ⟨rfl, hlookup, hnone⟩)
      · cases h

theorem waiting_error {ds : List κ} {e : ε} (h : R.waiting s names ds = .error e) :
    ∃ d ∈ ds, ∃ names', R.Grows s names names' ∧ R.resolve s names' d = .error e := by
  induction ds generalizing names with
  | nil => cases h
  | cons d ds ih =>
    rw [waiting] at h
    cases hr : R.resolve s names d with
    | error e' =>
      rw [hr] at h
      cases h
      exact ⟨d, by simp, names, .refl, hr⟩
    | ok r =>
      obtain ⟨names₁, r⟩ := r
      have hg := (resolve_ok hr).1
      simp only [hr, ok_bind] at h
      cases hw : R.waiting s names₁ ds with
      | error e' =>
        rw [hw] at h
        cases h
        obtain ⟨d', hd', names', hg', he⟩ := ih hw
        exact ⟨d', by simp [hd'], names', hg.trans hg', he⟩
      | ok w =>
        rw [hw] at h
        cases r <;> cases h

theorem Stacked.reaches {x : ι} (h : R.Stacked (x :: pending) names) {k : κ}
    (hk : names k = some none) : k = R.key x ∨ Relation.TransGen R.Needs k (R.key x) := by
  obtain ⟨above, y, below, hsplit, rfl, habove, -⟩ := h k hk
  cases above with
  | nil =>
    obtain ⟨rfl, -⟩ := List.cons.inj (hsplit : x :: pending = y :: below)
    exact .inl rfl
  | cons a above =>
    obtain ⟨rfl, -⟩ := List.cons.inj (hsplit : x :: pending = a :: (above ++ y :: below))
    exact .inr (habove x (by simp)).2

theorem Stacked.top {x : ι} (h : R.Stacked (x :: pending) names)
    (hmark : names (R.key x) = some none) : ∀ d ∈ R.deps x, Resolved names d := by
  obtain ⟨above, y, below, hsplit, hkey, habove, hy⟩ := h _ hmark
  cases above with
  | nil =>
    obtain ⟨rfl, -⟩ := List.cons.inj (hsplit : x :: pending = y :: below)
    exact fun d hd => (hy d hd).resolve_right (by simp)
  | cons a above =>
    obtain ⟨rfl, -⟩ := List.cons.inj (hsplit : x :: pending = a :: (above ++ y :: below))
    exact absurd rfl (habove x (by simp)).1

theorem Stacked.cyclic {x : ι} (hx : x ∈ R.items) (h : R.Stacked (x :: pending) names) {d : κ}
    (hd : d ∈ R.deps x) (hmark : Function.update names (R.key x) (some none) d = some none) :
    ∃ k, Relation.TransGen R.Needs k k := by
  by_cases hself : d = R.key x
  · subst hself
    exact ⟨_, .single ⟨x, hx, rfl, hd, lookup_isSome_of_mem hx⟩⟩
  · rw [Function.update_of_ne hself] at hmark
    have hreach := (h.reaches hmark).resolve_left hself
    obtain ⟨_, hneeds, -⟩ := Relation.TransGen.head'_iff.1 hreach
    obtain ⟨y, hy, rfl, -⟩ := hneeds
    exact ⟨_, hreach.tail ⟨x, hx, rfl, hd, lookup_isSome_of_mem hy⟩⟩

theorem visit_error {x : ι} {e : ε} (hx : x ∈ R.items) (hst : R.Stacked (x :: pending) names)
    (hknown : ∀ d new, names d = some (some new) → (R.existing s new).isSome)
    (h : R.visit x names s = .error e) :
    (e = R.cycle ∧ ∃ k, Relation.TransGen R.Needs k k) ∨
      (e = R.missing ∧ ∃ d ∈ R.deps x, R.lookup d = none ∧ R.existing s d = none) ∨
      ¬Resolved names (R.key x) ∧ ∃ names₁,
        R.Grows s (Function.update names (R.key x) (some none)) names₁ ∧
        (∀ d ∈ R.deps x, Resolved names₁ d) ∧ R.build x names₁ s = .error e := by
  unfold visit at h
  split at h
  · cases h
  · rename_i hunres
    have hnot : ¬Resolved names (R.key x) := by
      rintro ⟨new, hnew⟩
      exact hunres new hnew
    cases hw : R.waiting s (Function.update names (R.key x) (some none)) (R.deps x) with
    | error e' =>
      rw [hw] at h
      cases h
      obtain ⟨d, hd, names₁, hg, he⟩ := waiting_error hw
      rcases resolve_error he with ⟨rfl, hmark⟩ | ⟨new, hnew, hnone⟩ | ⟨rfl, hl, hnone⟩
      · exact .inl ⟨rfl, hst.cyclic hx hd ((hg.mark_iff d).1 hmark)⟩
      · -- a name that was recorded is that of a component
        exfalso
        cases hk : Function.update names (R.key x) (some none) d with
        | none =>
          rcases hg.noted d hk with hn | ⟨-, hn, hsome⟩
          · simp [hn] at hnew
          · rw [hn] at hnew
            cases hnew
            simp [hnone] at hsome
        | some m =>
          rw [hg.kept d (by simp [hk])] at hnew
          by_cases hself : d = R.key x
          · simp [hself] at hnew
          · rw [Function.update_of_ne hself] at hnew
            simpa [hnone] using hknown d new hnew
      · exact .inr (.inl ⟨rfl, d, hd, hl, hnone⟩)
    | ok w =>
      obtain ⟨names₁, ys⟩ := w
      obtain ⟨hg, hmarks, hres, hwait, -⟩ := waiting_ok hw
      simp only [hw, ok_bind] at h
      split at h
      · rename_i hys
        refine .inr (.inr ⟨hnot, names₁, hg, fun d hd => (hres d hd).resolve_right (by simp [hys]),
          ?_⟩)
        cases hb : R.build x names₁ s with
        | error e' =>
          rw [hb] at h
          cases h
          rfl
        | ok b =>
          rw [hb] at h
          cases h
      · rename_i hys
        split at h
        · cases h
        · rename_i hne
          exfalso
          have hmark : names (R.key x) = some none := by
            cases hk : names (R.key x) with
            | none => exact absurd hk hne
            | some m =>
              cases m with
              | none => rfl
              | some new => exact absurd hk (hunres new)
          obtain ⟨y, hy⟩ := List.exists_mem_of_ne_nil ys hys
          obtain ⟨d, hd, -, hn⟩ := hwait y hy
          obtain ⟨new, hnew⟩ := hst.top hmark d hd
          by_cases hself : d = R.key x
          · simp [hself] at hn
          · rw [Function.update_of_ne hself, hnew] at hn
            cases hn

/-- The descriptions of `order` have been built, in this order, and nothing else: `trace` lists the
names the environment has given. -/
structure Logged (R : Resolver κ ι γ σ ε) (trace : σ → List κ) (s₀ : σ) (order : List κ)
    (names : NameMap κ) (s : σ) : Prop where
  nodup : order.Nodup
  mem : ∀ k, k ∈ order ↔ (R.lookup k).isSome ∧ Resolved names k
  trace : trace s = trace s₀ ++ order.map (rename names)
  after : ∀ x ∈ R.items, ∀ before later, order = before ++ R.key x :: later →
    ∀ d ∈ R.deps x, (R.lookup d).isSome → d ∈ before

theorem Logged.initial (trace : σ → List κ) (s : σ) :
    R.Logged trace s [] (fun _ => none) s := by
  refine ⟨List.nodup_nil, fun k => ?_, by simp, ?_⟩
  · constructor
    · intro hk
      cases hk
    · rintro ⟨-, new, hnew⟩
      cases hnew
  · intro x hx before later h
    exact absurd h (by simp)

theorem Logged.concat (hkeys : (R.items.map R.key).Nodup) {trace : σ → List κ} {s₀ s' : σ}
    {order : List κ} {x : ι} {new : κ} (h : R.Logged trace s₀ order names s) (hx : x ∈ R.items)
    (hmark : names (R.key x) = some none) (hdeps : ∀ d ∈ R.deps x, Resolved names d)
    (htrace : trace s' = trace s ++ [new]) :
    R.Logged trace s₀ (order ++ [R.key x])
      (Function.update names (R.key x) (some (some new))) s' := by
  have hnot : R.key x ∉ order := fun hmem => not_resolved_of_mark hmark ((h.mem _).1 hmem).2
  refine ⟨?_, fun k => ?_, ?_, ?_⟩
  · rw [List.nodup_append]
    refine ⟨h.nodup, List.nodup_singleton _, fun a ha b hb => ?_⟩
    rintro rfl
    exact hnot (List.mem_singleton.1 hb ▸ ha)
  · by_cases hk : k = R.key x
    · subst hk
      simp only [List.mem_append, List.mem_singleton, or_true, true_iff]
      exact ⟨lookup_isSome_of_mem hx, new, Function.update_self ..⟩
    · rw [List.mem_append, h.mem, List.mem_singleton, or_iff_left hk]
      simp only [Resolved, Function.update_of_ne hk]
  · have hsame : order.map (rename (Function.update names (R.key x) (some (some new)))) =
        order.map (rename names) := by
      refine List.map_congr_left fun k hk => ?_
      have hne : k ≠ R.key x := by
        rintro rfl
        exact hnot hk
      rw [rename, rename, Function.update_of_ne hne]
    rw [htrace, h.trace, List.map_append, hsame, List.map_singleton,
      rename_of_resolved (Function.update_self ..), List.append_assoc]
  · intro y hy before later hsplit d hd hl
    by_cases hyx : R.key y = R.key x
    · obtain rfl := List.inj_on_of_nodup_map hkeys hy hx hyx
      have hbefore : order = before := by
        rcases List.append_eq_append_iff.1 hsplit with ⟨as, hb, hr⟩ | ⟨bs, ho, hr⟩
        · cases as with
          | nil => simpa using hb.symm
          | cons a as => simp at hr
        · cases bs with
          | nil => simpa using ho
          | cons b bs =>
            obtain ⟨hb, -⟩ := List.cons.inj hr
            exact absurd (by simp [ho, ← hb]) hnot
      exact hbefore ▸ (h.mem d).2 ⟨hl, hdeps d hd⟩
    · obtain ⟨later', hlater⟩ : ∃ later', order = before ++ R.key y :: later' := by
        rcases List.append_eq_append_iff.1 hsplit with ⟨as, hb, hr⟩ | ⟨bs, ho, hr⟩
        · cases as with
          | nil =>
            obtain ⟨hk, -⟩ := List.cons.inj hr
            exact absurd hk.symm hyx
          | cons a as => simp at hr
        · cases bs with
          | nil =>
            obtain ⟨hk, -⟩ := List.cons.inj hr
            exact absurd hk hyx
          | cons b bs =>
            obtain ⟨hk, -⟩ := List.cons.inj hr
            exact ⟨bs, by rw [ho, hk]⟩
      exact h.after y hy before later' hlater d hd hl

theorem Logged.frame {trace : σ → List κ} {s₀ : σ} {order : List κ}
    (hto : ∀ k, (R.lookup k).isSome → Resolved names k → names' k = names k)
    (hfrom : ∀ k, (R.lookup k).isSome → Resolved names' k → names' k = names k)
    (h : R.Logged trace s₀ order names s) : R.Logged trace s₀ order names' s := by
  refine ⟨h.nodup, fun k => ?_, ?_, h.after⟩
  · rw [h.mem]
    refine and_congr_right fun hl => ⟨?_, ?_⟩
    · rintro ⟨new, hnew⟩
      exact ⟨new, by rw [hto k hl ⟨new, hnew⟩, hnew]⟩
    · rintro ⟨new, hnew⟩
      exact ⟨new, by rw [← hfrom k hl ⟨new, hnew⟩, hnew]⟩
  · rw [h.trace]
    congr 1
    refine List.map_congr_left fun k hk => ?_
    obtain ⟨hl, hres⟩ := (h.mem k).1 hk
    rw [rename, rename, hto k hl hres]

/-- Every name that was recorded is that of a component. -/
def Known (R : Resolver κ ι γ σ ε) (names : NameMap κ) (s : σ) : Prop :=
  ∀ d new, names d = some (some new) → (R.existing s new).isSome

theorem Known.grows (h : R.Known names s) (hg : R.Grows s names names') : R.Known names' s := by
  intro d new hnew
  cases hk : names d with
  | none =>
    rcases hg.noted d hk with hn | ⟨-, hn, hsome⟩
    · simp [hn] at hnew
    · rw [hn] at hnew
      cases hnew
      exact hsome
  | some m =>
    rw [hg.kept d (by simp [hk])] at hnew
    exact h d new hnew

theorem Known.mark (h : R.Known names s) (k : κ) :
    R.Known (Function.update names k (some none)) s := by
  intro d new hnew
  by_cases hd : d = k
  · simp [hd] at hnew
  · exact h d new (by rwa [Function.update_of_ne hd] at hnew)

/-- What a build does to the environment: it keeps `P`, gives a name to one component more, and
loses none. -/
def BuildsOne (R : Resolver κ ι γ σ ε) (P : σ → Prop) (trace : σ → List κ) : Prop :=
  ∀ x names s s' new, x ∈ R.items → (∀ d ∈ R.deps x, Resolved names d) → R.Known names s → P s →
    R.build x names s = .ok (s', new) →
    P s' ∧ trace s' = trace s ++ [new] ∧ (R.existing s' new).isSome ∧
      ∀ k, (R.existing s k).isSome → (R.existing s' k).isSome

/-- What the loop maintains. -/
structure Built (R : Resolver κ ι γ σ ε) (P : σ → Prop) (trace : σ → List κ) (s₀ : σ)
    (names : NameMap κ) (s : σ) : Prop where
  env : P s
  known : R.Known names s
  logged : ∃ order, R.Logged trace s₀ order names s
  founded : ∀ k, Resolved names k → Acc (Function.swap R.Needs) k

theorem BuildsOne.sound {P : σ → Prop} {trace : σ → List κ} (hone : R.BuildsOne P trace)
    (hkeys : (R.items.map R.key).Nodup) (s₀ : σ) : R.Sound (R.Built P trace s₀) := by
  have hacc := sound_acc hkeys
  constructor
  · rintro names names' s hg ⟨henv, hknown, ⟨order, h⟩, hfounded⟩
    have hsame : ∀ k, (R.lookup k).isSome → names' k = names k := by
      intro k hl
      obtain ⟨x, hx⟩ := Option.isSome_iff_exists.1 hl
      exact lookup_key hx ▸ hg.resolved_iff (lookup_mem hx)
    exact ⟨henv, hknown.grows hg,
      ⟨order, h.frame (fun k hl _ => hsame k hl) (fun k hl _ => hsame k hl)⟩,
      hacc.grows _ _ s hg hfounded⟩
  · rintro names s x hx hnot ⟨henv, hknown, ⟨order, h⟩, hfounded⟩
    refine ⟨henv, hknown.mark _, ⟨order, h.frame
      (fun k _ hres => keeps_update hnot none k hres) (fun k _ hres => ?_)⟩,
      hacc.mark _ s x hx hnot hfounded⟩
    rw [Function.update_of_ne]
    rintro rfl
    obtain ⟨new, hnew⟩ := hres
    simp at hnew
  · rintro x names s s' new hx hmark hdeps hb ⟨henv, hknown, ⟨order, h⟩, hfounded⟩
    obtain ⟨henv', htrace, hsome, hkept⟩ := hone x names s s' new hx hdeps hknown henv hb
    refine ⟨henv', fun d new' hnew' => ?_, ⟨_, h.concat hkeys hx hmark hdeps htrace⟩,
      hacc.build x _ s s' new hx hmark hdeps hb hfounded⟩
    by_cases hd : d = R.key x
    · rw [hd, Function.update_self] at hnew'
      cases hnew'
      exact hsome
    · exact hkept _ (hknown d new' (by rwa [Function.update_of_ne hd] at hnew'))

/-- Each visit of a loop over `all` does what a visit of the resolver does and keeps `Inv`, or fails
for a reason of its own, as long as fewer than `room` items wait.  An item under the key of an
earlier one is passed over. -/
structure Visits (R : Resolver κ ι γ σ ε) (visit : ι → List ι → τ → Except ε (List ι × τ))
    (names : τ → NameMap κ) (env : τ → σ) (Inv : τ → Prop) (room : Nat) (fault : ι → ε → Prop)
    (all : List ι) : Prop where
  mem : ∀ x ∈ R.items, x ∈ all
  done : ∀ x pending t pending' t', x ∈ R.items → pending.length + 1 < room → Inv t →
    visit x pending t = .ok (pending', t') → Inv t' ∧ ∃ pushed, pending' = pushed ++ pending ∧
      R.visit x (names t) (env t) = .ok (names t', env t', pushed)
  failed : ∀ x pending t e, x ∈ R.items → pending.length + 1 < room → Inv t →
    visit x pending t = .error e → fault x e ∨ R.visit x (names t) (env t) = .error e
  other : ∀ before x after, all = before ++ x :: after → x ∉ R.items →
    (∀ pending t, ∃ e, visit x pending t = .error e ∧ fault x e) ∨
      (∃ y ∈ before, R.key y = R.key x) ∧ ∀ pending t, Inv t → Resolved (names t) (R.key x) →
        visit x pending t = .ok (pending, t) ∨ ∃ e, visit x pending t = .error e ∧ fault x e

/-- Why a loop stops early. -/
inductive Stops (R : Resolver κ ι γ σ ε) (fault : ι → ε → Prop) (all : List ι)
    (Good : NameMap κ → σ → Prop) : ε → Prop
  | cycle (k : κ) : Relation.TransGen R.Needs k k → Stops R fault all Good R.cycle
  | missing (x : ι) (d : κ) (names : NameMap κ) (s : σ) : x ∈ R.items → d ∈ R.deps x →
      R.lookup d = none → R.existing s d = none → Good names s → Stops R fault all Good R.missing
  | fault (x : ι) (e : ε) : x ∈ all → fault x e → Stops R fault all Good e
  | build (x : ι) (names : NameMap κ) (s : σ) (e : ε) : x ∈ R.items →
      (∀ d ∈ R.deps x, Resolved names d) → Good names s → R.build x names s = .error e →
      Stops R fault all Good e

variable {visit : ι → List ι → τ → Except ε (List ι × τ)} {nm : τ → NameMap κ} {env : τ → σ}
  {Inv : τ → Prop} {room : Nat} {fault : ι → ε → Prop} {all : List ι}
  {Good : NameMap κ → σ → Prop} {exhausted : ε} {pending : List ι}

/-- What holds of the stack between two visits. -/
structure Pending (R : Resolver κ ι γ σ ε) (Good : NameMap κ → σ → Prop) (pending : List ι)
    (names : NameMap κ) (s : σ) : Prop where
  scheduled : R.Scheduled R.items pending names
  stacked : R.Stacked pending names
  good : Good names s

variable (hV : R.Visits visit nm env Inv room fault all) (hS : R.Sound Good)
  (hknown : ∀ names s, Good names s → R.Known names s)

include hV hS hknown

theorem Visits.visit_spec {x : ι} {t : τ} (hx : x ∈ R.items)
    (hroom : pending.length + 1 < room) (hinv : Inv t)
    (hp : R.Pending Good (x :: pending) (nm t) (env t)) :
    (∃ pushed t', visit x pending t = .ok (pushed ++ pending, t') ∧ Inv t' ∧
      R.Pending Good (pushed ++ pending) (nm t') (env t') ∧ nm t' (R.key x) ≠ none ∧
      (∀ k, nm t k ≠ none → nm t' k ≠ none) ∧
      pushed.length + R.pendingWork (nm t') [] [] ≤ R.pendingWork (nm t) [] []) ∨
    ∃ e, visit x pending t = .error e ∧ R.Stops fault all Good e := by
  cases hv : visit x pending t with
  | ok r =>
    obtain ⟨pending', t'⟩ := r
    obtain ⟨hinv', pushed, rfl, hvisit⟩ := hV.done x pending t pending' t' hx hroom hinv hv
    have hvisit := visit_ok hvisit
    exact .inl ⟨pushed, t', rfl, hinv', ⟨hp.scheduled.pop hvisit, hp.stacked.pop hx hvisit,
      hS.visit_good hx hvisit hp.good⟩, hvisit.visited.1, hvisit.visited.2, hvisit.work hx⟩
  | error e =>
    refine .inr ⟨e, rfl, ?_⟩
    rcases hV.failed x pending t e hx hroom hinv hv with hfault | he
    · exact .fault x e (hV.mem x hx) hfault
    · rcases visit_error hx hp.stacked (hknown _ _ hp.good) he with
        ⟨rfl, k, hk⟩ | ⟨rfl, d, hd, hl, hnone⟩ | ⟨hnot, names₁, hg, hres, hb⟩
      · exact .cycle k hk
      · exact .missing x d _ _ hx hd hl hnone hp.good
      · exact .build x names₁ _ e hx hres
          (hS.grows _ _ _ hg (hS.mark _ _ x hx hnot hp.good)) hb

/-- **The loop ends**, with every description resolved or for one of the reasons to stop. -/
theorem Visits.traverse_spec {fuel : Nat} {before rest pending : List ι} {t : τ}
    (hall : all = before ++ rest) (hwork : R.pendingWork (nm t) rest pending < fuel)
    (hroom : fuel ≤ room) (hinv : Inv t) (hp : R.Pending Good pending (nm t) (env t))
    (hbefore : ∀ x ∈ before, nm t (R.key x) ≠ none) :
    (∃ t', traverse visit exhausted fuel rest pending t = .ok t' ∧ Inv t' ∧ Good (nm t') (env t') ∧
      (∀ k, nm t' k ≠ some none) ∧ ∀ x ∈ R.items, Resolved (nm t') (R.key x)) ∨
    ∃ e, traverse visit exhausted fuel rest pending t = .error e ∧ R.Stops fault all Good e := by
  induction fuel generalizing before rest pending t with
  | zero => omega
  | succ fuel ih =>
    cases pending with
    | cons x pending =>
      have hx := hp.scheduled.pending_mem x (by simp)
      have hlen : pending.length + 1 < room := by
        simp only [pendingWork, List.length_cons] at hwork
        omega
      rcases hV.visit_spec hS hknown hx hlen hinv hp with
        ⟨pushed, t', hv, hinv', hp', -, hkept, hpaid⟩ | ⟨e, hv, he⟩
      · simp only [traverse, hv, ok_bind]
        refine ih hall ?_ (by omega) hinv' hp' fun y hy => hkept _ (hbefore y hy)
        simp only [pendingWork, List.length_append, List.length_cons, List.length_nil] at *
        omega
      · exact .inr ⟨e, by simp only [traverse, hv, error_bind], he⟩
    | nil =>
      -- nothing waits: what has been visited is resolved
      have hresolved : ∀ k, nm t k ≠ none → Resolved (nm t) k := by
        intro k hk
        cases hm : nm t k with
        | none => exact absurd hm hk
        | some m =>
          cases m with
          | none =>
            obtain ⟨y, hy, -⟩ := hp.scheduled.marked k hm
            cases hy
          | some new => exact ⟨new, hm⟩
      cases rest with
      | nil =>
        refine .inl ⟨t, rfl, hinv, hp.good, fun k hk => ?_, fun x hx => hresolved _ (hbefore x ?_)⟩
        · obtain ⟨new, hnew⟩ := hresolved k (by simp [hk])
          rw [hk] at hnew
          cases hnew
        · simpa [hall] using hV.mem x hx
      | cons x rest =>
        have hall' : all = (before ++ [x]) ++ rest := by simp [hall]
        by_cases hx : x ∈ R.items
        · have hp' : R.Pending Good [x] (nm t) (env t) := by
            refine ⟨⟨fun _ h => h, ?_, ?_, fun _ h => .inl h⟩, ?_, hp.good⟩
            · intro y hy
              exact List.mem_singleton.1 hy ▸ hx
            · intro k hk
              obtain ⟨y, hy, -⟩ := hp.scheduled.marked k hk
              cases hy
            · intro k hk
              obtain ⟨y, hy, -⟩ := hp.scheduled.marked k hk
              cases hy
          have hlen : ([] : List ι).length + 1 < room := by
            simp only [pendingWork, List.length_cons, List.length_nil] at hwork ⊢
            omega
          rcases hV.visit_spec hS hknown hx hlen hinv hp' with
            ⟨pushed, t', hv, hinv', hp', hset, hkept, hpaid⟩ | ⟨e, hv, he⟩
          · simp only [traverse, hv, ok_bind]
            refine ih hall' ?_ (by omega) hinv' hp' fun y hy => ?_
            · simp only [pendingWork, List.length_append, List.length_cons, List.length_nil] at *
              omega
            · rcases List.mem_append.1 hy with hy | hy
              · exact hkept _ (hbefore y hy)
              · exact List.mem_singleton.1 hy ▸ hset
          · exact .inr ⟨e, by simp only [traverse, hv, error_bind], he⟩
        · rcases hV.other before x rest hall hx with hfail | ⟨⟨y, hy, hkey⟩, hpass⟩
          · obtain ⟨e, hv, he⟩ := hfail [] t
            exact .inr ⟨e, by simp only [traverse, hv, error_bind],
              .fault x e (by simp [hall]) he⟩
          · have hset : nm t (R.key x) ≠ none := hkey ▸ hbefore y hy
            rcases hpass [] t hinv (hresolved _ hset) with hv | ⟨e, hv, he⟩
            · simp only [traverse, hv, ok_bind]
              refine ih hall' ?_ (by omega) hinv hp fun z hz => ?_
              · simp only [pendingWork, List.length_cons, List.length_nil] at *
                omega
              · rcases List.mem_append.1 hz with hz | hz
                · exact hbefore z hz
                · exact List.mem_singleton.1 hz ▸ hset
            · exact .inr ⟨e, by simp only [traverse, hv, error_bind],
                .fault x e (by simp [hall]) he⟩

end Resolver

end OpenZL.Lib
