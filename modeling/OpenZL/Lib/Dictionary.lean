import Mathlib.Data.List.Induction
import Mathlib.Data.List.Nodup
import Mathlib.Data.List.Sort

/-!
# Dictionaries of a list

The distinct elements of a list, in the order of their first occurrence or in an order of their
own, and the list as their indices.

Principal results: `dictionary_distinct`, `Dictionary.sort`, `mapM_idxOf`.
-/

namespace OpenZL.Lib

variable {α : Type} [DecidableEq α]

/-- An element joins those that were seen. -/
def addNew (seen : List α) (x : α) : List α := if x ∈ seen then seen else seen ++ [x]

/-- The elements of a list in the order of their first occurrence. -/
def distinct (xs : List α) : List α := xs.foldl addNew []

/-- The elements of `input` without repetition: in an order of their own, or in that of their first
occurrence. -/
structure Dictionary (lt : α → α → Prop) (sorted : Bool) (input alphabet : List α) : Prop where
  nodup : alphabet.Nodup
  mem_iff : ∀ x, x ∈ alphabet ↔ x ∈ input
  order : if sorted then alphabet.Pairwise lt
    else alphabet.Pairwise fun x y => input.idxOf x < input.idxOf y

theorem distinct_append_singleton (xs : List α) (x : α) :
    distinct (xs ++ [x]) = addNew (distinct xs) x := by
  rw [distinct, List.foldl_append, List.foldl_cons, List.foldl_nil, distinct]

theorem mem_addNew (seen : List α) (x y : α) : y ∈ addNew seen x ↔ y ∈ seen ∨ y = x := by
  rw [addNew]
  split
  case isTrue h => exact ⟨Or.inl, fun h' => h'.elim id fun e => e ▸ h⟩
  case isFalse h => rw [List.mem_append, List.mem_singleton]

/-- **The distinct elements** form a dictionary. -/
theorem dictionary_distinct (lt : α → α → Prop) (xs : List α) :
    Dictionary lt false xs (distinct xs) := by
  induction xs using List.reverseRecOn with
  | nil => exact ⟨List.nodup_nil, fun _ => Iff.rfl, List.Pairwise.nil⟩
  | append_singleton xs x ih =>
    have hmem : ∀ y, y ∈ distinct (xs ++ [x]) ↔ y ∈ xs ++ [x] := fun y => by
      rw [distinct_append_singleton, mem_addNew, ih.mem_iff, List.mem_append, List.mem_singleton]
    have hidx : ∀ y ∈ distinct xs, (xs ++ [x]).idxOf y = xs.idxOf y := fun y hy =>
      List.idxOf_append_of_mem ((ih.mem_iff y).1 hy)
    have hold : (distinct xs).Pairwise fun y z => (xs ++ [x]).idxOf y < (xs ++ [x]).idxOf z := by
      refine List.Pairwise.imp_of_mem (fun {y z} hy hz hlt => ?_) ih.order
      rwa [hidx y hy, hidx z hz]
    by_cases hx : x ∈ distinct xs
    · have hsame : distinct (xs ++ [x]) = distinct xs := by
        rw [distinct_append_singleton, addNew, if_pos hx]
      exact ⟨hsame ▸ ih.nodup, hmem, by rw [hsame]; exact hold⟩
    · have hnew : distinct (xs ++ [x]) = distinct xs ++ [x] := by
        rw [distinct_append_singleton, addNew, if_neg hx]
      refine ⟨?_, hmem, ?_⟩
      · rw [hnew, List.nodup_append]
        refine ⟨ih.nodup, List.nodup_singleton x, fun y hy z hz heq => hx ?_⟩
        rw [List.mem_singleton] at hz
        rwa [← hz, ← heq]
      · rw [if_neg nofun, hnew, List.pairwise_append]
        refine ⟨hold, List.pairwise_singleton _ _, fun y hy z hz => ?_⟩
        rw [List.mem_singleton] at hz
        have hxs : x ∉ xs := fun h => hx ((ih.mem_iff x).2 h)
        rw [hz, hidx y hy, List.idxOf_append_of_notMem hxs, List.idxOf_cons_self, Nat.add_zero]
        exact List.idxOf_lt_length_of_mem ((ih.mem_iff y).1 hy)

theorem dictionary_of_pairwise {lt : α → α → Prop} (hirrefl : ∀ x, ¬lt x x)
    {input alphabet : List α} (hmem : ∀ x, x ∈ alphabet ↔ x ∈ input) (h : alphabet.Pairwise lt) :
    Dictionary lt true input alphabet :=
  ⟨h.imp fun {x y} (hlt : lt x y) (heq : x = y) =>
    hirrefl y (heq ▸ hlt), hmem, h⟩

/-- **A sorted dictionary** is one in its own order. -/
theorem Dictionary.sort {lt le : α → α → Prop} (hirrefl : ∀ x, ¬lt x x)
    (hlt : ∀ x y, le x y → x ≠ y → lt x y) {sorted : Bool} {input alphabet alphabet' : List α}
    (h : Dictionary lt sorted input alphabet) (hperm : alphabet'.Perm alphabet)
    (hle : alphabet'.Pairwise le) : Dictionary lt true input alphabet' := by
  refine dictionary_of_pairwise hirrefl (fun x => (hperm.mem_iff).trans (h.mem_iff x)) ?_
  have hnodup : alphabet'.Nodup := hperm.nodup_iff.2 h.nodup
  exact hle.imp₂ (fun x y hxy hne => hlt x y hxy hne) hnodup

theorem mapM_map_inverse {β γ : Type} {decode : γ → Option β} {encode : β → γ} {xs : List β}
    (h : ∀ x ∈ xs, decode (encode x) = some x) : (xs.map encode).mapM decode = some xs := by
  induction xs with
  | nil => rfl
  | cons x xs ih =>
    rw [List.map_cons, List.mapM_cons, h x List.mem_cons_self,
      ih fun y hy => h y (List.mem_cons_of_mem _ hy)]
    rfl

/-- **The indices of the elements** give the list back. -/
theorem mapM_idxOf {input alphabet : List α} (h : ∀ x ∈ input, x ∈ alphabet) :
    (input.map alphabet.idxOf).mapM (fun i => alphabet[i]?) = some input :=
  mapM_map_inverse fun x hx => List.getElem?_idxOf (h x hx)

end OpenZL.Lib
