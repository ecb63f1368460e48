import Mathlib.Data.List.Basic

/-!
# Byte parsers

A parser consumes a prefix of its input and hands back the rest, or fails.  Two properties
compose through `bind` and through loops:

Principal results: `Reads.bind`, `Reads.mapM`, `Reads.many`, `Local.bind`, `Local.mapM`,
`Local.many`, `Local.extend`, `Local.suffix`.
-/

namespace OpenZL.Lib

/-- Parsers over a list of bytes, failing with `ε`. -/
abbrev Parser (ε : Type) : Type → Type := StateT (List UInt8) (Except ε)

variable {ε α β ι κ : Type} {p : Parser ε α} {f : α → Parser ε β} {s s' : List UInt8}

namespace Parser

/-- Number of bytes not consumed yet. -/
def avail : Parser ε Nat := do return (← get).length

/-- Fail with `e` when `c` holds. -/
def failIf (c : Prop) [Decidable c] (e : ε) : Parser ε Unit := if c then throw e else pure ()

/-- The next byte, or `e` at the end of input. -/
def popByte (e : ε) : Parser ε UInt8 := fun
  | [] => .error e
  | b :: bs => .ok (b, bs)

/-- The next `n` bytes, or `e` when fewer are left. -/
def popBytes (e : ε) (n : Nat) : Parser ε (List UInt8) := fun bs =>
  if bs.length < n then .error e else .ok (bs.take n, bs.drop n)

/-- `p`, `n` times. -/
def many : Nat → Parser ε α → Parser ε (List α)
  | 0, _ => pure []
  | n + 1, p => do
    let a ← p
    let as ← many n p
    return a :: as

end Parser

theorem run_bind_eq_ok {b : β} :
    (p >>= f) s = .ok (b, s') ↔ ∃ a s₁, p s = .ok (a, s₁) ∧ f a s₁ = .ok (b, s') := by
  change (p s >>= fun x => f x.1 x.2) = .ok (b, s') ↔ _
  cases h : p s with
  | error e => simp [bind, Except.bind]
  | ok x =>
    obtain ⟨a, s₁⟩ := x
    simp [bind, Except.bind]

theorem run_bind_of_ok {s s₁ : List UInt8} {a : α} (h : p s = .ok (a, s₁)) :
    (p >>= f) s = f a s₁ := by
  change (p s >>= fun x => f x.1 x.2) = _
  rw [h]
  rfl

theorem run_bind_of_error {s : List UInt8} {e : ε} (h : p s = .error e) :
    (p >>= f) s = .error e := by
  change (p s >>= fun x => f x.1 x.2) = _
  rw [h]
  rfl

theorem run_pure (a : α) (s : List UInt8) : (pure a : Parser ε α) s = .ok (a, s) := rfl

theorem run_pure_eq_ok {a b : α} :
    (pure a : Parser ε α) s = .ok (b, s') ↔ a = b ∧ s = s' := by
  simp [run_pure]

theorem run_throw (e : ε) (s : List UInt8) : (throw e : Parser ε α) s = .error e := rfl

theorem run_avail (s : List UInt8) : (Parser.avail : Parser ε Nat) s = .ok (s.length, s) := rfl

theorem run_popByte_cons (e : ε) (b : UInt8) (s : List UInt8) :
    Parser.popByte e (b :: s) = .ok (b, s) := rfl

theorem popByte_ok {e : ε} {s t : List UInt8} {b : UInt8}
    (h : Parser.popByte e s = .ok (b, t)) : s = b :: t := by
  cases s with
  | nil => cases h
  | cons c cs =>
    obtain ⟨rfl, rfl⟩ : c = b ∧ cs = t := by simpa [Parser.popByte] using h
    rfl

theorem run_failIf_eq_ok {c : Prop} [Decidable c] {e : ε} {u : Unit} :
    Parser.failIf c e s = .ok (u, s') ↔ ¬c ∧ s = s' := by
  unfold Parser.failIf
  split
  · rename_i h
    simp [run_throw, h]
  · rename_i h
    simp [run_pure, h]

theorem run_failIf_of {c : Prop} [Decidable c] {e : ε} (h : c) (s : List UInt8) :
    Parser.failIf c e s = .error e := by
  rw [Parser.failIf, if_pos h]
  rfl

theorem run_failIf_of_not {c : Prop} [Decidable c] {e : ε} (h : ¬c) (s : List UInt8) :
    Parser.failIf c e s = .ok ((), s) := by
  simp [Parser.failIf, h, run_pure]

theorem forall_of_mapM {f : κ → Parser ε α} {P : α → Prop}
    (hf : ∀ k s a s', f k s = .ok (a, s') → P a) : ∀ {ks : List κ} {s s' : List UInt8} {as : List α},
    ks.mapM f s = .ok (as, s') → ∀ a ∈ as, P a
  | [], s, s', as, h => by
    obtain ⟨rfl, -⟩ := run_pure_eq_ok.1 h
    simp
  | k :: ks, s, s', as, h => by
    rw [List.mapM_cons] at h
    obtain ⟨a, s₁, ha, h⟩ := run_bind_eq_ok.1 h
    obtain ⟨as', s₂, has, h⟩ := run_bind_eq_ok.1 h
    obtain ⟨rfl, -⟩ := run_pure_eq_ok.1 h
    exact List.forall_mem_cons.2 ⟨hf k s a s₁ ha, forall_of_mapM hf has⟩

theorem forall_of_many {P : α → Prop} (hp : ∀ s a s', p s = .ok (a, s') → P a) :
    ∀ {n : Nat} {s s' : List UInt8} {as : List α}, Parser.many n p s = .ok (as, s') → ∀ a ∈ as, P a
  | 0, s, s', as, h => by
    obtain ⟨rfl, -⟩ := run_pure_eq_ok.1 h
    simp
  | n + 1, s, s', as, h => by
    obtain ⟨a, s₁, ha, h⟩ := run_bind_eq_ok.1 h
    obtain ⟨as', s₂, has, h⟩ := run_bind_eq_ok.1 h
    obtain ⟨rfl, -⟩ := run_pure_eq_ok.1 h
    exact List.forall_mem_cons.2 ⟨hp s a s₁ ha, forall_of_many hp has⟩

/-- `p` consumes exactly `bs`, whatever follows, and returns `a`. -/
def Reads (p : Parser ε α) (bs : List UInt8) (a : α) : Prop :=
  ∀ rest, p (bs ++ rest) = .ok (a, rest)

theorem Reads.pure (a : α) : Reads (pure a : Parser ε α) [] a := fun _ => rfl

theorem Reads.bind {s t : List UInt8} {a : α} {b : β} (hp : Reads p s a) (hf : Reads (f a) t b) :
    Reads (p >>= f) (s ++ t) b := by
  intro rest
  rw [List.append_assoc, run_bind_of_ok (hp _)]
  exact hf rest

theorem Reads.bind_nil {cs : List UInt8} {a : α} {b : β} (hp : Reads p [] a)
    (hf : Reads (f a) cs b) : Reads (p >>= f) cs b :=
  hp.bind hf

theorem Reads.bind_pure {bs : List UInt8} {a : α} {b : β} (hp : Reads p bs a)
    (hf : Reads (f a) [] b) : Reads (p >>= f) bs b := by
  simpa using hp.bind hf

theorem Reads.failIf {c : Prop} [Decidable c] {e : ε} (h : ¬c) :
    Reads (Parser.failIf c e) [] () :=
  run_failIf_of_not h

theorem Reads.popByte (e : ε) (b : UInt8) : Reads (Parser.popByte e) [b] b := fun _ => rfl

theorem Reads.popBytes (e : ε) (bs : List UInt8) :
    Reads (Parser.popBytes e bs.length) bs bs := by
  intro rest
  simp [Parser.popBytes]

theorem Reads.availCheck {n : Nat} {e : ε} {bs : List UInt8} {a : α} (hp : Reads p bs a)
    (hn : n ≤ bs.length) :
    Reads (do let m ← Parser.avail; Parser.failIf (m < n) e; p) bs a := by
  intro rest
  rw [run_bind_of_ok (run_avail _), run_bind_of_ok (run_failIf_of_not (by simp; omega) _)]
  exact hp rest

theorem Reads.mapM {f : κ → Parser ε α} {g : ι → κ} {w : ι → List UInt8} {a : ι → α}
    {xs : List ι} (h : ∀ i ∈ xs, Reads (f (g i)) (w i) (a i)) :
    Reads ((xs.map g).mapM f) (xs.flatMap w) (xs.map a) := by
  induction xs with
  | nil => simpa using Reads.pure ([] : List α)
  | cons i xs ih =>
    have ih := ih fun j hj => h j (List.mem_cons_of_mem _ hj)
    rw [List.map_cons, List.mapM_cons, List.flatMap_cons, List.map_cons]
    exact (h i (by simp)).bind (ih.bind_pure (Reads.pure _))

theorem Reads.many {w : ι → List UInt8} {a : ι → α} {xs : List ι}
    (h : ∀ i ∈ xs, Reads p (w i) (a i)) :
    Reads (Parser.many xs.length p) (xs.flatMap w) (xs.map a) := by
  induction xs with
  | nil => exact Reads.pure []
  | cons i xs ih =>
    have ih := ih fun j hj => h j (List.mem_cons_of_mem _ hj)
    rw [List.length_cons, Parser.many, List.flatMap_cons, List.map_cons]
    exact (h i (by simp)).bind (ih.bind_pure (Reads.pure _))

/-- A successful run consumes a prefix and does not change when bytes are appended. -/
def Local (p : Parser ε α) : Prop :=
  ∀ s a s', p s = .ok (a, s') → s' <:+ s ∧ ∀ more, p (s ++ more) = .ok (a, s' ++ more)

theorem Local.suffix (hp : Local p) {a : α} (h : p s = .ok (a, s')) : s' <:+ s :=
  (hp s a s' h).1

theorem Local.extend (hp : Local p) {a : α} (h : p s = .ok (a, s')) (more : List UInt8) :
    p (s ++ more) = .ok (a, s' ++ more) :=
  (hp s a s' h).2 more

theorem Local.pure (a : α) : Local (pure a : Parser ε α) := by
  intro s b s' h
  obtain ⟨rfl, rfl⟩ := run_pure_eq_ok.1 h
  exact ⟨List.suffix_rfl, fun _ => rfl⟩

theorem Local.throw (e : ε) : Local (throw e : Parser ε α) := by
  intro s b s' h
  cases h

theorem Local.bind (hp : Local p) (hf : ∀ a, Local (f a)) : Local (p >>= f) := by
  intro s b s' h
  obtain ⟨a, s₁, h₁, h₂⟩ := run_bind_eq_ok.1 h
  refine ⟨((hf a).suffix h₂).trans (hp.suffix h₁), fun more => ?_⟩
  rw [run_bind_of_ok (hp.extend h₁ more)]
  exact (hf a).extend h₂ more

theorem Local.failIf (c : Prop) [Decidable c] (e : ε) : Local (Parser.failIf c e) := by
  unfold Parser.failIf
  split
  · exact Local.throw e
  · exact Local.pure ()

theorem Local.ite {c : Prop} [Decidable c] {p q : Parser ε α} (hp : Local p) (hq : Local q) :
    Local (if c then p else q) := by
  split
  · exact hp
  · exact hq

theorem Local.popByte (e : ε) : Local (Parser.popByte e) := by
  intro s b s' h
  rw [popByte_ok h]
  exact ⟨List.suffix_cons _ _, fun _ => rfl⟩

theorem Local.popBytes (e : ε) (n : Nat) : Local (Parser.popBytes e n) := by
  intro s b s' h
  unfold Parser.popBytes at h
  split at h
  · cases h
  · rename_i hlen
    obtain ⟨rfl, rfl⟩ : s.take n = b ∧ s.drop n = s' := by simpa using h
    refine ⟨List.drop_suffix _ _, fun more => ?_⟩
    have hle : n ≤ s.length := by omega
    simp only [Parser.popBytes, List.length_append, if_neg (show ¬ s.length + more.length < n by omega),
      List.take_append_of_le_length hle, List.drop_append_of_le_length hle]

theorem Local.availCheck (n : Nat) (e : ε) (hp : Local p) :
    Local (do let m ← Parser.avail; Parser.failIf (m < n) e; p) := by
  intro s b s' h
  obtain ⟨m, s₁, h₁, h⟩ := run_bind_eq_ok.1 h
  obtain ⟨u, s₂, h₂, h⟩ := run_bind_eq_ok.1 h
  cases h₁
  obtain ⟨hle, rfl⟩ := run_failIf_eq_ok.1 h₂
  refine ⟨hp.suffix h, fun more => ?_⟩
  rw [run_bind_of_ok (run_avail _), run_bind_of_ok (run_failIf_of_not (by simp; omega) _)]
  exact hp.extend h more

theorem Local.mapM {f : κ → Parser ε α} (hf : ∀ k, Local (f k)) :
    ∀ ks : List κ, Local (ks.mapM f)
  | [] => Local.pure []
  | k :: ks => by
    rw [List.mapM_cons]
    exact (hf k).bind fun a => (Local.mapM hf ks).bind fun as => Local.pure _

theorem Local.many (hp : Local p) : ∀ n, Local (Parser.many n p)
  | 0 => Local.pure []
  | n + 1 => by
    rw [Parser.many]
    exact hp.bind fun a => (Local.many hp n).bind fun as => Local.pure _

end OpenZL.Lib
