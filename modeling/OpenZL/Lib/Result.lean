import Mathlib.Init

/-!
# Fallible computations

Inversion of `do` blocks over `Except`: a block that succeeds ran every one of its steps
successfully. A computation may also stop in a state that the language leaves undefined.

Principal results: `bind_eq_ok`, `failWhen_eq_ok`, `FailsOnly`.
-/

namespace OpenZL.Lib

variable {ε α β : Type}

/-- Fail with `e` when `c` holds. -/
def failWhen (c : Prop) [Decidable c] (e : ε) : Except ε Unit := if c then .error e else .ok ()

theorem bind_eq_ok {step : Except ε α} {next : α → Except ε β} {b : β} :
    (step >>= next) = .ok b ↔ ∃ a, step = .ok a ∧ next a = .ok b := by
  constructor
  · intro h
    cases step with
    | error e => cases h
    | ok a => exact ⟨a, rfl, h⟩
  · rintro ⟨a, rfl, h⟩
    exact h

@[simp] theorem ok_bind (a : α) (f : α → Except ε β) : (Except.ok a >>= f) = f a := rfl

@[simp] theorem error_bind (e : ε) (f : α → Except ε β) :
    ((Except.error e : Except ε α) >>= f) = .error e := rfl

theorem pure_eq_ok {a b : α} : (pure a : Except ε α) = .ok b ↔ a = b := by
  simp [pure, Except.pure]

theorem failWhen_eq_ok {c : Prop} [Decidable c] {e : ε} {u : Unit} :
    failWhen c e = .ok u ↔ ¬c := by
  unfold failWhen
  split <;> simp_all

theorem failWhen_of_not {c : Prop} [Decidable c] (e : ε) (h : ¬c) :
    failWhen c e = .ok () := by
  rw [failWhen, if_neg h]

theorem failWhen_of {c : Prop} [Decidable c] (e : ε) (h : c) : failWhen c e = .error e := by
  rw [failWhen, if_pos h]

/-- How a computation may stop: with an error, or in a state that the language leaves undefined. -/
inductive Stop (ε : Type)
  | error (e : ε)
  | undefined
  deriving DecidableEq, Repr

/-- A computation that is undefined or gives a value. -/
def defined : Option α → Except (Stop ε) α
  | none => .error .undefined
  | some a => .ok a

/-- The errors `x` can end with are all in `P`. -/
def FailsOnly (P : ε → Prop) (x : Except ε α) : Prop := ∀ e, x = .error e → P e

namespace FailsOnly

variable {P : ε → Prop} {x : Except ε α} {f : α → Except ε β}

theorem ok (a : α) : FailsOnly P (.ok a : Except ε α) := by
  intro e h
  cases h

theorem error {e : ε} (h : P e) : FailsOnly P (.error e : Except ε α) := by
  intro e' h'
  cases h'
  exact h

theorem bind (hx : FailsOnly P x) (hf : ∀ a, x = .ok a → FailsOnly P (f a)) :
    FailsOnly P (x >>= f) := by
  intro e h
  cases x with
  | error e' =>
    cases h
    exact hx e rfl
  | ok a => exact hf a rfl e h

theorem failWhen {c : Prop} [Decidable c] {e : ε} (h : P e) : FailsOnly P (failWhen c e) := by
  unfold Lib.failWhen
  split
  · exact error h
  · exact ok ()

end FailsOnly

end OpenZL.Lib
