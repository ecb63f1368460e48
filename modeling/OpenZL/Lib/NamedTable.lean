import Mathlib.Data.List.Basic

/-!
# Append-only tables of named entries

A table gives each entry an id (its position; some ids stand for nothing) and finds entries by name.

Principal results: `idOf_eq_some`, `idOf_eq_none`.
-/

namespace OpenZL.Lib.NamedTable

variable {α κ : Type}

/-- The entry of an id. -/
def entry (t : List (Option α)) (id : Nat) : Option α := t[id]?.join

/-- The id of a name. -/
def idOf [DecidableEq κ] (name : α → κ) (t : List (Option α)) (k : κ) : Option Nat :=
  t.findIdx? fun e => e.any fun a => decide (name a = k)

variable {t : List (Option α)} {a b : α} {i j : Nat}

theorem entry_eq_some : entry t i = some a ↔ t[i]? = some (some a) := by
  unfold entry
  cases t[i]? with
  | none => simp
  | some e => cases e <;> simp

theorem lt_length (h : entry t i = some a) : i < t.length := by
  rw [entry_eq_some] at h
  exact (List.getElem?_eq_some_iff.1 h).1

theorem mem_of_entry (h : entry t i = some a) : some a ∈ t :=
  List.mem_of_getElem? (entry_eq_some.1 h)

theorem entry_of_mem (h : some a ∈ t) : ∃ i, entry t i = some a := by
  obtain ⟨i, hi⟩ := List.mem_iff_getElem?.1 h
  exact ⟨i, entry_eq_some.2 hi⟩

theorem entry_append (h : entry t i = some a) (u : List (Option α)) :
    entry (t ++ u) i = some a := by
  have hlt := lt_length h
  rw [entry_eq_some] at h ⊢
  rwa [List.getElem?_append_left hlt]

theorem entry_append_right {u : List (Option α)} (h : t.length ≤ i) :
    entry (t ++ u) i = entry u (i - t.length) := by
  rw [entry, entry, List.getElem?_append_right h]

theorem entry_concat (a : α) : entry (t ++ [some a]) t.length = some a := by
  rw [entry_append_right (Nat.le_refl _), Nat.sub_self]
  rfl

variable [DecidableEq κ] {name : α → κ} {k : κ}

theorem idOf_eq_some (h : idOf name t k = some i) : ∃ a, entry t i = some a ∧ name a = k := by
  obtain ⟨hlt, hp, -⟩ := List.findIdx?_eq_some_iff_getElem.1 h
  cases he : t[i] with
  | none => simp [he] at hp
  | some a =>
    refine ⟨a, entry_eq_some.2 (by rw [List.getElem?_eq_getElem hlt, he]), ?_⟩
    simpa [he] using hp

theorem idOf_eq_none : idOf name t k = none ↔ ∀ i a, entry t i = some a → name a ≠ k := by
  constructor
  · intro h i a ha hk
    have hno := List.findIdx?_eq_none_iff.1 h (some a) (mem_of_entry ha)
    simp [hk] at hno
  · intro h
    rw [idOf, List.findIdx?_eq_none_iff]
    intro e he
    cases e with
    | none => rfl
    | some a =>
      obtain ⟨i, hi⟩ := entry_of_mem he
      simpa using h i a hi

theorem idOf_isSome_append {t : List (Option α)} (h : (idOf name t k).isSome)
    (u : List (Option α)) : (idOf name (t ++ u) k).isSome := by
  obtain ⟨i, hi⟩ := Option.isSome_iff_exists.1 h
  obtain ⟨a, ha, hname⟩ := idOf_eq_some hi
  rw [Option.isSome_iff_ne_none]
  exact fun hnone => idOf_eq_none.1 hnone i a (entry_append ha u) hname

theorem idOf_concat_isSome (t : List (Option α)) (a : α) :
    (idOf name (t ++ [some a]) (name a)).isSome := by
  rw [Option.isSome_iff_ne_none]
  exact fun hnone => idOf_eq_none.1 hnone t.length a (entry_concat a) rfl

end OpenZL.Lib.NamedTable
