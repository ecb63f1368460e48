import Mathlib.Logic.Function.Basic

/-!
# Dispatch by tag (`ZS_DispatchByTag_encode`, `ZS_DispatchByTag_decode`)

Elements are distributed over buffers named by a parallel list of tags, and joined again from
those buffers with the same tags.

Principal result: `dispatchByTagDecode_encode`.
-/

namespace OpenZL.Codecs

variable {α : Type}

/-- `ZS_DispatchByTag_encode`: the content of each destination buffer. -/
def dispatchByTagEncode : List α → List Nat → Nat → List α
  | x :: xs, t :: ts, idx =>
    if idx = t then x :: dispatchByTagEncode xs ts idx else dispatchByTagEncode xs ts idx
  | _, _, _ => []

/-- `ZS_DispatchByTag_decode`; `none` when a source is read past its end. -/
def dispatchByTagDecode : (Nat → List α) → List Nat → Option (List α)
  | _, [] => some []
  | srcs, t :: ts =>
    match srcs t with
    | [] => none
    | x :: xs => (dispatchByTagDecode (Function.update srcs t xs) ts).map (x :: ·)

theorem dispatchByTagEncode_cons (x : α) (xs : List α) (t : Nat) (ts : List Nat) :
    Function.update (dispatchByTagEncode (x :: xs) (t :: ts)) t (dispatchByTagEncode xs ts t) =
      dispatchByTagEncode xs ts := by
  funext idx
  by_cases h : idx = t
  · rw [h, Function.update_self]
  · rw [Function.update_of_ne h, dispatchByTagEncode, if_neg h]

/-- **Joining inverts distributing.** -/
theorem dispatchByTagDecode_encode : ∀ {xs : List α} {ts : List Nat}, xs.length = ts.length →
    dispatchByTagDecode (dispatchByTagEncode xs ts) ts = some xs
  | [], [], _ => rfl
  | x :: xs, t :: ts, h => by
    have hlen : xs.length = ts.length := by simpa using h
    have hhead : dispatchByTagEncode (x :: xs) (t :: ts) t = x :: dispatchByTagEncode xs ts t := by
      rw [dispatchByTagEncode, if_pos rfl]
    rw [dispatchByTagDecode, hhead]
    simp only
    rw [dispatchByTagEncode_cons, dispatchByTagDecode_encode hlen]
    rfl

theorem dispatchByTagDecode_congr : ∀ {ts : List Nat} {srcs srcs' : Nat → List α},
    (∀ t ∈ ts, srcs t = srcs' t) → dispatchByTagDecode srcs ts = dispatchByTagDecode srcs' ts
  | [], _, _, _ => rfl
  | t :: ts, srcs, srcs', h => by
    rw [dispatchByTagDecode, dispatchByTagDecode, h t (by simp)]
    split
    · rfl
    · rename_i x xs _
      congr 1
      apply dispatchByTagDecode_congr
      intro u hu
      by_cases hut : u = t
      · rw [hut, Function.update_self, Function.update_self]
      · rw [Function.update_of_ne hut, Function.update_of_ne hut, h u (by simp [hu])]

theorem length_dispatchByTagEncode : ∀ {xs : List α} {ts : List Nat} (idx : Nat),
    xs.length = ts.length → (dispatchByTagEncode xs ts idx).length = ts.count idx
  | [], [], _, _ => rfl
  | x :: xs, t :: ts, idx, h => by
    have hlen : xs.length = ts.length := by simpa using h
    have ih := length_dispatchByTagEncode idx hlen
    rw [dispatchByTagEncode, List.count_cons]
    by_cases ht : idx = t
    · rw [if_pos ht, List.length_cons, ih, if_pos (by simp [ht])]
    · rw [if_neg ht, ih]
      simp [Ne.symm ht]

theorem mem_dispatchByTagEncode : ∀ {xs : List α} {ts : List Nat} {idx : Nat} {y : α},
    y ∈ dispatchByTagEncode xs ts idx → (y, idx) ∈ xs.zip ts
  | [], _, _, _, h => by simp [dispatchByTagEncode] at h
  | _ :: _, [], _, _, h => by simp [dispatchByTagEncode] at h
  | x :: xs, t :: ts, idx, y, h => by
    rw [dispatchByTagEncode] at h
    rw [List.zip_cons_cons, List.mem_cons]
    split at h
    · rename_i ht
      rcases List.mem_cons.1 h with rfl | h
      · exact Or.inl (by rw [ht])
      · exact Or.inr (mem_dispatchByTagEncode h)
    · exact Or.inr (mem_dispatchByTagEncode h)

end OpenZL.Codecs
