import Mathlib.Order.Lattice
import Mathlib.Logic.Equiv.Basic
import Mathlib.Order.Basic

/-!
# Binary heaps in an array

The cells `h 0, …, h (n - 1)` hold a tree: the parent of cell `i` is cell `(i - 1) / 2`.

Principal results: `OrderedUpTo.swap`, `OrderedUpTo.ordered`, `OrderedDownFrom.swap`,
`OrderedDownFrom.ordered`, `Ordered.root_le`.
-/

namespace OpenZL.Lib.BinaryHeap

variable {α : Type} [LinearOrder α] {h g : Nat → α} {n k m : Nat}

/-- The parent of a cell; the root is its own. -/
def parent (i : Nat) : Nat := (i - 1) / 2

theorem parent_lt {i : Nat} (hi : i ≠ 0) : parent i < i := by
  rw [parent]
  omega

theorem parent_le (i : Nat) : parent i ≤ i := by
  rw [parent]
  omega

theorem parent_eq_iff {i j : Nat} (hi : i ≠ 0) :
    parent i = j ↔ i = 2 * j + 1 ∨ i = 2 * j + 2 := by
  rw [parent]
  omega

/-- No cell is below its parent. -/
def Ordered (n : Nat) (h : Nat → α) : Prop := ∀ i < n, h (parent i) ≤ h i

/-- Only cell `k` may be below its parent. -/
structure OrderedUpTo (n : Nat) (h : Nat → α) (k : Nat) : Prop where
  others : ∀ i < n, i ≠ k → h (parent i) ≤ h i
  children : ∀ i < n, parent i = k → h (parent k) ≤ h i

/-- Only the children of cell `k` may be below it. -/
structure OrderedDownFrom (n : Nat) (h : Nat → α) (k : Nat) : Prop where
  others : ∀ i < n, parent i ≠ k → h (parent i) ≤ h i
  children : k ≠ 0 → ∀ i < n, parent i = k → h (parent k) ≤ h i

theorem Ordered.congr (ho : Ordered n h) (heq : ∀ i < n, g i = h i) : Ordered n g := by
  intro i hi
  rw [heq i hi, heq _ (Nat.lt_of_le_of_lt (parent_le i) hi)]
  exact ho i hi

/-- **The root is the least.** -/
theorem Ordered.root_le (ho : Ordered n h) : ∀ i < n, h 0 ≤ h i := by
  intro i
  induction i using Nat.strongRecOn with
  | _ i ih =>
    intro hi
    by_cases hzero : i = 0
    · exact le_of_eq (by rw [hzero])
    · have hlt := parent_lt hzero
      exact le_trans (ih _ hlt (Nat.lt_trans hlt hi)) (ho i hi)

theorem Ordered.push (ho : Ordered n h) (heq : ∀ i < n, g i = h i) : OrderedUpTo (n + 1) g n where
  others := fun i hi hne => (ho.congr heq) i (by omega)
  children := fun i hi hparent => by
    have hle := parent_le i
    have hin : i = n := by omega
    subst hin
    rw [hparent]

theorem OrderedUpTo.ordered (ho : OrderedUpTo n h k) (hk : h (parent k) ≤ h k) :
    Ordered n h := by
  intro i hi
  by_cases hik : i = k
  · rw [hik]
    exact hk
  · exact ho.others i hi hik

/-- **A step up** swaps the cell with its parent. -/
theorem OrderedUpTo.swap (ho : OrderedUpTo n h k) (hk : k < n) (hlt : h k < h (parent k)) :
    OrderedUpTo n (h ∘ Equiv.swap (parent k) k) (parent k) := by
  have hne : k ≠ 0 := fun hzero => by
    subst hzero
    exact lt_irrefl _ hlt
  have hparent := parent_lt hne
  have hp : (h ∘ Equiv.swap (parent k) k) (parent k) = h k := by
    rw [Function.comp_apply, Equiv.swap_apply_left]
  have hk' : (h ∘ Equiv.swap (parent k) k) k = h (parent k) := by
    rw [Function.comp_apply, Equiv.swap_apply_right]
  have hother : ∀ i, i ≠ parent k → i ≠ k → (h ∘ Equiv.swap (parent k) k) i = h i := by
    intro i hi hi'
    rw [Function.comp_apply, Equiv.swap_apply_of_ne_of_ne hi hi']
  have hsmall : ∀ i < n, parent i = parent k → i ≠ parent k → h k ≤ h i := by
    intro i hi hsame hip
    by_cases hik : i = k
    · rw [hik]
    · exact le_trans (le_of_lt hlt) (hsame ▸ ho.others i hi hik)
  refine ⟨fun i hi hip => ?_, fun i hi hchild => ?_⟩
  · by_cases hik : i = k
    · rw [hik, hp, hk']
      exact le_of_lt hlt
    · rw [hother i hip hik]
      by_cases hsame : parent i = parent k
      · rw [hsame, hp]
        exact hsmall i hi hsame hip
      · by_cases hchild : parent i = k
        · rw [hchild, hk']
          exact ho.children i hi hchild
        · rw [hother _ hsame hchild]
          exact ho.others i hi hik
  · by_cases hroot : parent k = 0
    · have hself : parent (parent k) = parent k := by rw [hroot]; rfl
      rw [hself, hp]
      by_cases hip : i = parent k
      · rw [hip, hp]
      · by_cases hik : i = k
        · rw [hik, hk']
          exact le_of_lt hlt
        · rw [hother i hip hik]
          exact hsmall i hi hchild hip
    · have hup := parent_lt hroot
      have hgrand := ho.others (parent k) (by omega) (by omega)
      rw [hother (parent (parent k)) (by omega) (by omega)]
      by_cases hik : i = k
      · rw [hik, hk']
        exact hgrand
      · have hip : i ≠ parent k := fun heq => by
          rw [heq] at hchild
          omega
        rw [hother i hip hik]
        exact le_trans hgrand (hchild ▸ ho.others i hi hik)

theorem Ordered.replace (ho : Ordered n h) (heq : ∀ i < n, i ≠ 0 → g i = h i) :
    OrderedDownFrom n g 0 where
  others := fun i hi hne => by
    have hi' : i ≠ 0 := fun hzero => hne (by rw [hzero]; rfl)
    rw [heq i hi hi', heq _ (Nat.lt_of_le_of_lt (parent_le i) hi) hne]
    exact ho i hi
  children := fun hzero => absurd rfl hzero

theorem Ordered.take (ho : Ordered n h) (hm : m ≤ n) : Ordered m h :=
  fun i hi => ho i (Nat.lt_of_lt_of_le hi hm)

theorem OrderedDownFrom.ordered (ho : OrderedDownFrom n h k)
    (hk : ∀ i < n, i ≠ 0 → parent i = k → h k ≤ h i) : Ordered n h := by
  intro i hi
  by_cases hzero : i = 0
  · rw [hzero]
    exact le_refl _
  · by_cases hik : parent i = k
    · rw [hik]
      exact hk i hi hzero hik
    · exact ho.others i hi hik

/-- **A step down** swaps the cell with its least child. -/
theorem OrderedDownFrom.swap (ho : OrderedDownFrom n h k) (hm : m < n) (hne : m ≠ 0)
    (hparent : parent m = k) (hlt : h m < h k)
    (hleast : ∀ i < n, i ≠ 0 → parent i = k → h m ≤ h i) :
    OrderedDownFrom n (h ∘ Equiv.swap m k) m := by
  have hkm : k < m := hparent ▸ parent_lt hne
  have hm' : (h ∘ Equiv.swap m k) m = h k := by
    rw [Function.comp_apply, Equiv.swap_apply_left]
  have hk' : (h ∘ Equiv.swap m k) k = h m := by
    rw [Function.comp_apply, Equiv.swap_apply_right]
  have hother : ∀ i, i ≠ m → i ≠ k → (h ∘ Equiv.swap m k) i = h i := by
    intro i hi hi'
    rw [Function.comp_apply, Equiv.swap_apply_of_ne_of_ne hi hi']
  refine ⟨fun i hi hpm => ?_, fun _ i hi hchild => ?_⟩
  · by_cases him : i = m
    · rw [him, hparent, hm', hk']
      exact le_of_lt hlt
    · by_cases hik : i = k
      · by_cases hzero : k = 0
        · rw [hik, hzero]
          exact le_refl _
        · have hup := parent_lt hzero
          rw [hik, hk', hother _ (by omega) (by omega)]
          exact ho.children hzero m hm hparent
      · rw [hother i him hik]
        by_cases hpk : parent i = k
        · rw [hpk, hk']
          by_cases hzero : i = 0
          · exact absurd (by rw [hzero] at hpk ⊢; exact hpk) hik
          · exact hleast i hi hzero hpk
        · rw [hother _ hpm hpk]
          exact ho.others i hi hpk
  · have hzero : i ≠ 0 := fun hzero => by
      rw [hzero] at hchild
      exact hne hchild.symm
    have hlti := parent_lt hzero
    rw [hparent, hk', hother i (by omega) (by omega)]
    have hle := ho.others i hi (by omega)
    rw [hchild] at hle
    exact hle

end OpenZL.Lib.BinaryHeap
