import Mathlib.Init

/-!
# Commands over a state

A command reads and changes a state and returns a value or an error.  The state is kept when a
command fails, so that a caller that handles the error sees what was done before it.  A command
may also have no result at all: it is undefined there, or has run out of fuel.

Principal results: `run_bind_ok`, `run_bind_error`, `Preserves.bind`, `ensures_bind`, `yields_bind`.
-/

namespace OpenZL.Lib

/-- A command over `σ`: no result, or a value or an error with the state left behind. -/
def Cmd (ε σ α : Type) : Type := σ → Option (Except ε α × σ)

namespace Cmd

variable {ε σ α β : Type}

protected def pure (a : α) : Cmd ε σ α := fun s => some (.ok a, s)

protected def bind (m : Cmd ε σ α) (f : α → Cmd ε σ β) : Cmd ε σ β := fun s =>
  match m s with
  | none => none
  | some (.ok a, s') => f a s'
  | some (.error e, s') => some (.error e, s')

instance : Monad (Cmd ε σ) where
  pure := Cmd.pure
  bind := Cmd.bind

/-- Fail with `e`, keeping the state. -/
def fail (e : ε) : Cmd ε σ α := fun s => some (.error e, s)

/-- Read the state. -/
def get : Cmd ε σ σ := fun s => some (.ok s, s)

/-- Change the state. -/
def modify (f : σ → σ) : Cmd ε σ Unit := fun s => some (.ok (), f s)

/-- Fail with `e` when `c` holds. -/
def failWhen (c : Prop) [Decidable c] (e : ε) : Cmd ε σ Unit := if c then fail e else Cmd.pure ()

/-- The value of an option that must be there; undefined otherwise. -/
def expect (a : Option α) : Cmd ε σ α := fun s => a.map fun a => (.ok a, s)

/-- Go on when `c` holds; undefined otherwise. -/
def require (c : Prop) [Decidable c] : Cmd ε σ Unit := expect (if c then some () else none)

/-- Run a command and hand its result, value or error, to the caller. -/
def attempt (m : Cmd ε σ α) : Cmd ε σ (Except ε α) := fun s =>
  (m s).map fun (r, s') => (.ok r, s')

/-- The result of a computation that does not touch the state. -/
def ofExcept (r : Except ε α) : Cmd ε σ α := fun s => some (r, s)

/-- Run a command for each element, in order. -/
def forEach (f : α → Cmd ε σ Unit) : List α → Cmd ε σ Unit
  | [] => Cmd.pure ()
  | a :: as => Cmd.bind (f a) fun _ => forEach f as

theorem run_pure (a : α) (s : σ) : (pure a : Cmd ε σ α) s = some (.ok a, s) := rfl

theorem run_pure_iff {a : α} {r : Except ε α} :
    (pure a : Cmd ε σ α) s = some (r, s') ↔ r = .ok a ∧ s' = s := by
  rw [run_pure, Option.some.injEq, Prod.mk.injEq, eq_comm, @eq_comm _ s]

theorem run_bind_ok {m : Cmd ε σ α} {f : α → Cmd ε σ β} {s s' : σ} {b : β} :
    (m >>= f) s = some (.ok b, s') ↔
      ∃ a t, m s = some (.ok a, t) ∧ f a t = some (.ok b, s') := by
  change Cmd.bind m f s = _ ↔ _
  unfold Cmd.bind
  cases h : m s with
  | none => simp
  | some res =>
    obtain ⟨r, t⟩ := res
    cases r with
    | error e => simp
    | ok a =>
      constructor
      · exact fun h => ⟨a, t, rfl, h⟩
      · rintro ⟨a', t', heq, h⟩
        cases heq
        exact h

theorem run_bind_error {m : Cmd ε σ α} {f : α → Cmd ε σ β} {s s' : σ} {e : ε} :
    (m >>= f) s = some (.error e, s') ↔
      m s = some (.error e, s') ∨
        ∃ a t, m s = some (.ok a, t) ∧ f a t = some (.error e, s') := by
  change Cmd.bind m f s = _ ↔ _
  unfold Cmd.bind
  cases h : m s with
  | none => simp
  | some res =>
    obtain ⟨r, t⟩ := res
    cases r with
    | error e => simp
    | ok a =>
      constructor
      · exact fun h => Or.inr ⟨a, t, rfl, h⟩
      · rintro (heq | ⟨a', t', heq, h⟩)
        · cases heq
        · cases heq
          exact h

theorem run_bind_some {m : Cmd ε σ α} {f : α → Cmd ε σ β} {s s' : σ} {r : Except ε β}
    (h : (m >>= f) s = some (r, s')) :
    (∃ e, m s = some (.error e, s') ∧ r = .error e) ∨
      ∃ a t, m s = some (.ok a, t) ∧ f a t = some (r, s') := by
  cases r with
  | error e =>
    rcases run_bind_error.1 h with h | h
    · exact Or.inl ⟨e, h, rfl⟩
    · exact Or.inr h
  | ok b => exact Or.inr (run_bind_ok.1 h)

theorem run_bind_of_ok {m : Cmd ε σ α} {f : α → Cmd ε σ β} {s t : σ} {a : α}
    (h : m s = some (.ok a, t)) : (m >>= f) s = f a t := by
  change Cmd.bind m f s = _
  rw [Cmd.bind, h]

theorem run_bind_of_error {m : Cmd ε σ α} {f : α → Cmd ε σ β} {s t : σ} {e : ε}
    (h : m s = some (.error e, t)) : (m >>= f) s = some (.error e, t) := by
  change Cmd.bind m f s = _
  rw [Cmd.bind, h]

@[simp] theorem run_fail (e : ε) (s : σ) : (fail e : Cmd ε σ α) s = some (.error e, s) := rfl

@[simp] theorem run_get (s : σ) : (get : Cmd ε σ σ) s = some (.ok s, s) := rfl

@[simp] theorem run_modify (f : σ → σ) (s : σ) :
    (modify f : Cmd ε σ Unit) s = some (.ok (), f s) := rfl

theorem run_get_bind {f : σ → Cmd ε σ β} {s : σ} : ((get : Cmd ε σ σ) >>= f) s = f s s := rfl

theorem run_modify_bind {g : σ → σ} {f : Unit → Cmd ε σ β} {s : σ} :
    ((modify g : Cmd ε σ Unit) >>= f) s = f () (g s) := rfl

theorem run_failWhen {c : Prop} [Decidable c] {e : ε} {r : Except ε Unit}
    (h : (failWhen c e : Cmd ε σ Unit) s = some (r, s')) :
    s' = s ∧ (¬ c ∧ r = .ok () ∨ c ∧ r = .error e) := by
  unfold failWhen at h
  split at h
  · obtain ⟨rfl, rfl⟩ := Prod.mk.inj (Option.some.inj h)
    exact ⟨rfl, Or.inr ⟨‹c›, rfl⟩⟩
  · obtain ⟨rfl, rfl⟩ := Prod.mk.inj (Option.some.inj h)
    exact ⟨rfl, Or.inl ⟨‹¬ c›, rfl⟩⟩

theorem run_failWhen_ok {c : Prop} [Decidable c] {e : ε} {u : Unit} :
    (failWhen c e : Cmd ε σ Unit) s = some (.ok u, s') ↔ ¬ c ∧ s' = s := by
  unfold failWhen
  split
  · rename_i hc
    simp [hc]
  · rename_i hc
    simp only [hc, not_false_eq_true, true_and]
    change some (Except.ok (), s) = some (Except.ok u, s') ↔ _
    rw [Option.some.injEq, Prod.mk.injEq, @eq_comm _ s]
    simp

theorem run_failWhen_bind_ok {c : Prop} [Decidable c] {e : ε} {f : Unit → Cmd ε σ β} {s s' : σ}
    {b : β} : ((failWhen c e : Cmd ε σ Unit) >>= f) s = some (.ok b, s') ↔
      ¬ c ∧ f () s = some (.ok b, s') := by
  constructor
  · intro h
    obtain ⟨_, t, hcheck, hf⟩ := run_bind_ok.1 h
    obtain ⟨hc, rfl⟩ := run_failWhen_ok.1 hcheck
    exact ⟨hc, hf⟩
  · rintro ⟨hc, h⟩
    exact run_bind_ok.2 ⟨(), s, run_failWhen_ok.2 ⟨hc, rfl⟩, h⟩

theorem run_failWhen_bind_of {c : Prop} [Decidable c] {e : ε} {f : Unit → Cmd ε σ β} (hc : c) :
    ((failWhen c e : Cmd ε σ Unit) >>= f) s = some (.error e, s) := by
  refine run_bind_of_error ?_
  unfold failWhen
  rw [if_pos hc]
  rfl

theorem run_failWhen_bind_some {c : Prop} [Decidable c] {e : ε} {f : Unit → Cmd ε σ β} {s s' : σ}
    {r : Except ε β} (h : ((failWhen c e : Cmd ε σ Unit) >>= f) s = some (r, s')) :
    (c ∧ r = .error e ∧ s' = s) ∨ (¬ c ∧ f () s = some (r, s')) := by
  by_cases hc : c
  · rw [run_failWhen_bind_of hc] at h
    obtain ⟨rfl, rfl⟩ := Prod.mk.inj (Option.some.inj h)
    exact Or.inl ⟨hc, rfl, rfl⟩
  · rw [run_bind_of_ok (run_failWhen_ok.2 ⟨hc, rfl⟩)] at h
    exact Or.inr ⟨hc, h⟩

theorem run_expect {a : Option α} {r : Except ε α} (h : (expect a : Cmd ε σ α) s = some (r, s')) :
    ∃ x, a = some x ∧ r = .ok x ∧ s' = s := by
  cases a with
  | none => cases h
  | some x =>
    obtain ⟨rfl, rfl⟩ := Prod.mk.inj (Option.some.inj h)
    exact ⟨x, rfl, rfl, rfl⟩

theorem run_expect_bind {a : Option α} {f : α → Cmd ε σ β} {r : Except ε β} :
    ((expect a : Cmd ε σ α) >>= f) s = some (r, s') ↔ ∃ x, a = some x ∧ f x s = some (r, s') := by
  cases a with
  | none =>
    change none = _ ↔ _
    simp
  | some x =>
    change f x s = _ ↔ _
    simp

theorem run_require_bind {c : Prop} [Decidable c] {f : Unit → Cmd ε σ β} {r : Except ε β} :
    ((require c : Cmd ε σ Unit) >>= f) s = some (r, s') ↔ c ∧ f () s = some (r, s') := by
  rw [require, run_expect_bind]
  by_cases hc : c
  · rw [if_pos hc]
    exact ⟨fun ⟨_, _, h⟩ => ⟨hc, h⟩, fun h => ⟨(), rfl, h.2⟩⟩
  · simp [hc]

theorem run_ofExcept_bind_ok {x : Except ε α} {f : α → Cmd ε σ β} {s s' : σ} {b : β} :
    (ofExcept x >>= f) s = some (.ok b, s') ↔ ∃ a, x = .ok a ∧ f a s = some (.ok b, s') := by
  cases x with
  | error e =>
    rw [run_bind_of_error rfl]
    simp
  | ok a =>
    rw [run_bind_of_ok rfl]
    simp

theorem run_attempt_bind {m : Cmd ε σ α} {f : Except ε α → Cmd ε σ β} {r : Except ε β} :
    (attempt m >>= f) s = some (r, s') ↔ ∃ q t, m s = some (q, t) ∧ f q t = some (r, s') := by
  change Cmd.bind (attempt m) f s = _ ↔ _
  unfold Cmd.bind attempt
  cases h : m s with
  | none => simp
  | some res =>
    obtain ⟨q, t⟩ := res
    constructor
    · exact fun h => ⟨q, t, rfl, h⟩
    · rintro ⟨q', t', heq, h⟩
      cases heq
      exact h

/-- Every run of `m` from a state of `I` ends in `I`, whether it succeeds or fails. -/
def Preserves (I : σ → Prop) (m : Cmd ε σ α) : Prop :=
  ∀ s r s', I s → m s = some (r, s') → I s'

variable {I : σ → Prop} {s s' : σ}

theorem Preserves.pure (a : α) : Preserves I (pure a : Cmd ε σ α) := by
  intro s r s' hs h
  obtain ⟨-, rfl⟩ := run_pure_iff.1 h
  exact hs

theorem Preserves.bind {m : Cmd ε σ α} {f : α → Cmd ε σ β} (hm : Preserves I m)
    (hf : ∀ a, Preserves I (f a)) : Preserves I (m >>= f) := by
  intro s r s' hs h
  rcases run_bind_some h with ⟨e, h, -⟩ | ⟨a, t, hat, h⟩
  · exact hm s _ s' hs h
  · exact hf a t r s' (hm s _ t hs hat) h

theorem Preserves.bind_of {m : Cmd ε σ α} {f : α → Cmd ε σ β} {Q : α → Prop}
    (hm : Preserves I m) (hq : ∀ s a s', I s → m s = some (.ok a, s') → Q a)
    (hf : ∀ a, Q a → Preserves I (f a)) : Preserves I (m >>= f) := by
  intro s r s' hs h
  rcases run_bind_some h with ⟨e, h, -⟩ | ⟨a, t, hat, h⟩
  · exact hm s _ s' hs h
  · exact hf a (hq s a t hs hat) t r s' (hm s _ t hs hat) h

theorem Preserves.fail (e : ε) : Preserves I (fail e : Cmd ε σ α) := by
  intro s r s' hs h
  obtain ⟨-, rfl⟩ := Prod.mk.inj (Option.some.inj h)
  exact hs

theorem Preserves.get : Preserves I (get : Cmd ε σ σ) := by
  intro s r s' hs h
  obtain ⟨-, rfl⟩ := Prod.mk.inj (Option.some.inj h)
  exact hs

theorem Preserves.modify {f : σ → σ} (hf : ∀ s, I s → I (f s)) :
    Preserves I (modify f : Cmd ε σ Unit) := by
  intro s r s' hs h
  obtain ⟨-, rfl⟩ := Prod.mk.inj (Option.some.inj h)
  exact hf s hs

theorem Preserves.failWhen {c : Prop} [Decidable c] (e : ε) :
    Preserves I (failWhen c e : Cmd ε σ Unit) := by
  intro s r s' hs h
  obtain ⟨rfl, -⟩ := run_failWhen h
  exact hs

theorem Preserves.expect (a : Option α) : Preserves I (expect a : Cmd ε σ α) := by
  intro s r s' hs h
  obtain ⟨x, -, -, rfl⟩ := run_expect h
  exact hs

theorem Preserves.attempt {m : Cmd ε σ α} (hm : Preserves I m) : Preserves I (attempt m) := by
  intro s r s' hs h
  unfold Cmd.attempt at h
  cases hms : m s with
  | none =>
    rw [hms] at h
    cases h
  | some res =>
    rw [hms] at h
    obtain ⟨-, rfl⟩ := Prod.mk.inj (Option.some.inj h)
    exact hm s _ _ hs hms

theorem Preserves.forEach {f : α → Cmd ε σ Unit} : ∀ {as : List α},
    (∀ a ∈ as, Preserves I (f a)) → Preserves I (forEach f as)
  | [], _ => Preserves.pure ()
  | a :: as, h => by
    refine Preserves.bind (h a (by simp)) fun _ => ?_
    exact Preserves.forEach fun b hb => h b (List.mem_cons_of_mem _ hb)

/-- `m` has an outcome in every state. -/
def Total (m : Cmd ε σ α) : Prop := ∀ s, m s ≠ none

theorem Total.pure (a : α) : Total (pure a : Cmd ε σ α) := fun _ h => nomatch h

theorem Total.fail (e : ε) : Total (fail e : Cmd ε σ α) := fun _ h => nomatch h

theorem Total.get : Total (get : Cmd ε σ σ) := fun _ h => nomatch h

theorem Total.modify (f : σ → σ) : Total (modify f : Cmd ε σ Unit) := fun _ h => nomatch h

theorem Total.failWhen {c : Prop} [Decidable c] (e : ε) :
    Total (failWhen c e : Cmd ε σ Unit) := by
  unfold Cmd.failWhen
  split
  · exact Total.fail e
  · exact Total.pure ()

theorem Total.bind {m : Cmd ε σ α} {f : α → Cmd ε σ β} (hm : Total m) (hf : ∀ a, Total (f a)) :
    Total (m >>= f) := by
  intro s h
  cases hms : m s with
  | none => exact hm s hms
  | some res =>
    obtain ⟨r, t⟩ := res
    cases r with
    | error e =>
      rw [run_bind_of_error hms] at h
      cases h
    | ok a =>
      rw [run_bind_of_ok hms] at h
      exact hf a t h

/-- Every outcome of `m` from `s` meets `Q`. -/
def Ensures (m : Cmd ε σ α) (s : σ) (Q : Except ε α → σ → Prop) : Prop :=
  ∀ r s', m s = some (r, s') → Q r s'

section ensures

variable {m : Cmd ε σ α} {f : α → Cmd ε σ β} {s : σ} {Q : Except ε β → σ → Prop}

theorem Ensures.mono {Q Q' : Except ε α → σ → Prop} (h : Ensures m s Q)
    (hQ : ∀ r s', Q r s' → Q' r s') : Ensures m s Q' :=
  fun r s' hm => hQ r s' (h r s' hm)

theorem ensures_bind {Q : Except ε β → σ → Prop} :
    Ensures (m >>= f) s Q ↔ Ensures m s fun r t =>
      (∀ e, r = .error e → Q (.error e) t) ∧ ∀ a, r = .ok a → Ensures (f a) t Q := by
  constructor
  · intro h r t hm
    constructor
    · rintro e rfl
      exact h _ t (run_bind_of_error hm)
    · rintro a rfl r' s' hf
      exact h r' s' ((run_bind_of_ok hm).trans hf)
  · intro h r s' hmf
    rcases run_bind_some hmf with ⟨e, hm, rfl⟩ | ⟨a, t, hm, hf⟩
    · exact (h _ _ hm).1 e rfl
    · exact (h _ _ hm).2 a rfl r s' hf

theorem ensures_pure {a : α} {Q : Except ε α → σ → Prop} :
    Ensures (pure a : Cmd ε σ α) s Q ↔ Q (.ok a) s := by
  constructor
  · exact fun h => h _ _ rfl
  · intro h r s' hr
    obtain ⟨rfl, rfl⟩ := run_pure_iff.1 hr
    exact h

theorem ensures_fail {e : ε} {Q : Except ε α → σ → Prop} :
    Ensures (fail e : Cmd ε σ α) s Q ↔ Q (.error e) s := by
  constructor
  · exact fun h => h _ _ rfl
  · intro h r s' hr
    obtain ⟨rfl, rfl⟩ := Prod.mk.inj (Option.some.inj hr)
    exact h

theorem ensures_modify {g : σ → σ} {Q : Except ε Unit → σ → Prop} :
    Ensures (modify g : Cmd ε σ Unit) s Q ↔ Q (.ok ()) (g s) := by
  constructor
  · exact fun h => h _ _ rfl
  · intro h r s' hr
    obtain ⟨rfl, rfl⟩ := Prod.mk.inj (Option.some.inj hr)
    exact h

theorem ensures_failWhen {c : Prop} [Decidable c] {e : ε} {Q : Except ε Unit → σ → Prop} :
    Ensures (failWhen c e : Cmd ε σ Unit) s Q ↔ (c → Q (.error e) s) ∧ (¬ c → Q (.ok ()) s) := by
  unfold failWhen
  split
  · rename_i hc
    rw [ensures_fail]
    exact ⟨fun h => ⟨fun _ => h, fun hn => absurd hc hn⟩, fun h => h.1 hc⟩
  · rename_i hc
    exact ⟨fun h => ⟨fun hn => absurd hn hc, fun _ => ensures_pure.1 h⟩,
      fun h => ensures_pure.2 (h.2 hc)⟩

theorem ensures_get_bind {f : σ → Cmd ε σ β} :
    Ensures (get >>= f) s Q ↔ Ensures (f s) s Q := Iff.rfl

theorem ensures_modify_bind {g : σ → σ} {f : Unit → Cmd ε σ β} :
    Ensures (modify g >>= f) s Q ↔ Ensures (f ()) (g s) Q := Iff.rfl

theorem ensures_failWhen_bind {c : Prop} [Decidable c] {e : ε} {f : Unit → Cmd ε σ β} :
    Ensures (failWhen c e >>= f) s Q ↔ (c → Q (.error e) s) ∧ (¬ c → Ensures (f ()) s Q) := by
  rw [ensures_bind, ensures_failWhen]
  constructor
  · exact fun h => ⟨fun hc => (h.1 hc).1 e rfl, fun hc => (h.2 hc).2 () rfl⟩
  · rintro ⟨herror, hok⟩
    constructor
    · intro hc
      exact ⟨fun e' he => by cases he; exact herror hc, fun a ha => nomatch ha⟩
    · intro hc
      exact ⟨fun e' he => (nomatch he), fun a _ => hok hc⟩

theorem ensures_require_bind {c : Prop} [Decidable c] {f : Unit → Cmd ε σ β} :
    Ensures (require c >>= f) s Q ↔ (c → Ensures (f ()) s Q) := by
  constructor
  · exact fun h hc r s' hf => h r s' (run_require_bind.2 ⟨hc, hf⟩)
  · intro h r s' hf
    obtain ⟨hc, hf⟩ := run_require_bind.1 hf
    exact h hc r s' hf

theorem ensures_expect_bind {a : Option α} :
    Ensures (expect a >>= f) s Q ↔ ∀ x, a = some x → Ensures (f x) s Q := by
  constructor
  · exact fun h x hx r s' hf => h r s' (run_expect_bind.2 ⟨x, hx, hf⟩)
  · intro h r s' hf
    obtain ⟨x, hx, hf⟩ := run_expect_bind.1 hf
    exact h x hx r s' hf

theorem ensures_ite {c : Prop} [Decidable c] {m' : Cmd ε σ α} {Q : Except ε α → σ → Prop} :
    Ensures (if c then m else m') s Q ↔ (c → Ensures m s Q) ∧ (¬ c → Ensures m' s Q) := by
  split
  · rename_i hc
    exact ⟨fun h => ⟨fun _ => h, fun hn => absurd hc hn⟩, fun h => h.1 hc⟩
  · rename_i hc
    exact ⟨fun h => ⟨fun hn => absurd hn hc, fun _ => h⟩, fun h => h.2 hc⟩

end ensures

/-- `m` has an outcome from `s`, and it meets `Q`. -/
def Yields (m : Cmd ε σ α) (s : σ) (Q : Except ε α → σ → Prop) : Prop :=
  ∃ r s', m s = some (r, s') ∧ Q r s'

section yields

variable {m : Cmd ε σ α} {f : α → Cmd ε σ β} {s : σ} {Q : Except ε β → σ → Prop}

theorem Yields.mono {Q Q' : Except ε α → σ → Prop} (h : Yields m s Q)
    (hQ : ∀ r s', Q r s' → Q' r s') : Yields m s Q' := by
  obtain ⟨r, s', hm, hr⟩ := h
  exact ⟨r, s', hm, hQ r s' hr⟩

theorem yields_bind {Q : Except ε β → σ → Prop}
    (h : Yields m s fun r t =>
      (∀ e, r = .error e → Q (.error e) t) ∧ ∀ a, r = .ok a → Yields (f a) t Q) :
    Yields (m >>= f) s Q := by
  obtain ⟨r, t, hm, herror, hok⟩ := h
  cases r with
  | error e => exact ⟨.error e, t, run_bind_of_error hm, herror e rfl⟩
  | ok a =>
    obtain ⟨r, s', hf, hr⟩ := hok a rfl
    exact ⟨r, s', (run_bind_of_ok hm).trans hf, hr⟩

theorem yields_pure {a : α} {Q : Except ε α → σ → Prop} (h : Q (.ok a) s) :
    Yields (pure a : Cmd ε σ α) s Q := ⟨_, _, rfl, h⟩

theorem yields_fail {e : ε} {Q : Except ε α → σ → Prop} (h : Q (.error e) s) :
    Yields (fail e : Cmd ε σ α) s Q := ⟨_, _, rfl, h⟩

theorem yields_modify {g : σ → σ} {Q : Except ε Unit → σ → Prop} (h : Q (.ok ()) (g s)) :
    Yields (modify g : Cmd ε σ Unit) s Q := ⟨_, _, rfl, h⟩

theorem yields_get_bind {f : σ → Cmd ε σ β} (h : Yields (f s) s Q) : Yields (get >>= f) s Q := h

theorem yields_modify_bind {g : σ → σ} {f : Unit → Cmd ε σ β}
    (h : Yields (f ()) (g s) Q) : Yields (modify g >>= f) s Q := h

theorem yields_failWhen_bind {c : Prop} [Decidable c] {e : ε} {f : Unit → Cmd ε σ β}
    {Q : Except ε β → σ → Prop} (hc : ¬ c) (h : Yields (f ()) s Q) :
    Yields (failWhen c e >>= f) s Q := by
  obtain ⟨r, s', hf, hr⟩ := h
  exact ⟨r, s', (run_bind_of_ok (run_failWhen_ok.2 ⟨hc, rfl⟩)).trans hf, hr⟩

theorem yields_failWhen_bind_error {c : Prop} [Decidable c] {e : ε} {f : Unit → Cmd ε σ β}
    {Q : Except ε β → σ → Prop} (hc : c) (h : Q (.error e) s) : Yields (failWhen c e >>= f) s Q :=
  ⟨_, _, run_failWhen_bind_of hc, h⟩

theorem yields_expect_bind {x : Option α} {a : α} (hx : x = some a) (h : Yields (f a) s Q) :
    Yields (expect x >>= f) s Q := by
  subst hx
  exact h

theorem yields_ofExcept_bind {x : Except ε α} (herror : ∀ e, x = .error e → Q (.error e) s)
    (hok : ∀ a, x = .ok a → Yields (f a) s Q) :
    Yields (ofExcept x >>= f) s Q :=
  yields_bind ⟨x, s, rfl, herror, hok⟩

end yields

section decidable

variable {x : Option (Except ε α × σ)} {r : Except ε α}

instance decidableRun {P : Except ε α → σ → Prop} [∀ r s, Decidable (P r s)] :
    Decidable (∀ r s, x = some (r, s) → P r s) :=
  match x with
  | none => .isTrue fun _ _ h => by cases h
  | some (r, s) => decidable_of_iff (P r s)
    ⟨fun h _ _ heq => by cases heq; exact h, fun h => h r s rfl⟩

instance decidableRunOk {P : α → σ → Prop} [∀ a s, Decidable (P a s)] :
    Decidable (∀ a s, x = some (.ok a, s) → P a s) :=
  match x with
  | none => .isTrue fun _ _ h => by cases h
  | some (.error _, _) => .isTrue fun _ _ h => by cases h
  | some (.ok a, s) => decidable_of_iff (P a s)
    ⟨fun h _ _ heq => by cases heq; exact h, fun h => h a s rfl⟩

instance decidableFails {p : Prop} [Decidable p] : Decidable (∀ e, r = .error e → p) :=
  match r with
  | .ok _ => .isTrue fun _ h => by cases h
  | .error e => decidable_of_iff p ⟨fun h _ _ => h, fun h => h e rfl⟩

instance decidableSucceeds : Decidable (∃ a, r = .ok a) :=
  match r with
  | .ok a => .isTrue ⟨a, rfl⟩
  | .error _ => .isFalse fun h => by obtain ⟨_, h⟩ := h; cases h

end decidable

end Cmd

end OpenZL.Lib
