import Mathlib.Algebra.GroupWithZero.Nat
import OpenZL.Lib.Buffer

/-!
# Filling a buffer in any order

Which cells of a buffer already hold what they shall hold, through writes that may cover more cells
than they settle, and what a loop makes of it.

Principal results: `Settled.write`, `Settled.eq`, `foldlM_range`, `foldlM_list`, `blockLoop_spec`,
`getElem?_column`, `joinColumns_columns`, `columns_joinColumns`.
-/

namespace OpenZL.Lib

section Cells

variable {α : Type}

/-- The cells of a buffer in a set are those of the goal. -/
structure Settled (goal buf : List α) (cells : Nat → Prop) : Prop where
  length_eq : buf.length = goal.length
  getElem?_eq : ∀ i, cells i → buf[i]? = goal[i]?

variable {goal buf xs : List α} {cells : Nat → Prop} {pos k : Nat}

theorem Settled.start (h : buf.length = goal.length) : Settled goal buf fun _ => False :=
  ⟨h, fun _ hi => hi.elim⟩

theorem Settled.mono {cells' : Nat → Prop} (h : Settled goal buf cells)
    (himp : ∀ i < goal.length, cells' i → cells i) : Settled goal buf cells' := by
  refine ⟨h.length_eq, fun i hi => ?_⟩
  by_cases hlt : i < goal.length
  · exact h.getElem?_eq i (himp i hlt hi)
  · rw [List.getElem?_eq_none (by rw [h.length_eq]; omega), List.getElem?_eq_none (by omega)]

theorem getElem?_write (h : pos + xs.length ≤ buf.length) (i : Nat) :
    (Buffer.write buf pos xs)[i]? =
      if pos ≤ i ∧ i < pos + xs.length then xs[i - pos]? else buf[i]? := by
  have hpos : (buf.take pos).length = pos := List.length_take_of_le (by omega)
  rw [Buffer.write]
  by_cases hlow : i < pos
  · rw [if_neg (by omega), List.append_assoc, List.getElem?_append_left (by omega),
      List.getElem?_take_of_lt hlow]
  · by_cases hmid : i < pos + xs.length
    · rw [if_pos ⟨by omega, hmid⟩, List.append_assoc, List.getElem?_append_right (by omega), hpos,
        List.getElem?_append_left (by omega)]
    · rw [if_neg (by omega), List.getElem?_append_right (by rw [List.length_append]; omega),
        List.getElem?_drop, List.length_append, hpos]
      congr 1
      omega

/-- **A write** settles its first cells, and unsettles the others that it covers. -/
theorem Settled.write {cells' : Nat → Prop} (h : Settled goal buf cells)
    (hfits : pos + xs.length ≤ goal.length)
    (hxs : ∀ j < k, xs[j]? = goal[pos + j]?)
    (hcells : ∀ i, cells' i → pos ≤ i ∧ i < pos + k ∧ k ≤ xs.length ∨
      cells i ∧ (i < pos ∨ pos + xs.length ≤ i)) :
    Settled goal (Buffer.write buf pos xs) cells' := by
  have hbuf : pos + xs.length ≤ buf.length := h.length_eq ▸ hfits
  refine ⟨by rw [Buffer.length_write hbuf, h.length_eq], fun i hi => ?_⟩
  rw [getElem?_write hbuf]
  rcases hcells i hi with ⟨hlow, hhigh, hk⟩ | ⟨hold, hout⟩
  · rw [if_pos ⟨hlow, by omega⟩, hxs (i - pos) (by omega), Nat.add_sub_cancel' hlow]
  · rw [if_neg (by omega), h.getElem?_eq i hold]

theorem Settled.eq (h : Settled goal buf cells) (hall : ∀ i < goal.length, cells i) :
    buf = goal :=
  List.ext_getElem? ((h.mono fun i hi (_ : True) => hall i hi).getElem?_eq · trivial)

end Cells

section Loops

variable {σ : Type}

theorem foldlM_range {f : σ → Nat → Option σ} {P : Nat → σ → Prop} {n : Nat} {s : σ} (h : P 0 s)
    (hstep : ∀ i < n, ∀ s, P i s → ∃ s', f s i = some s' ∧ P (i + 1) s') :
    ∃ s', (List.range n).foldlM f s = some s' ∧ P n s' := by
  induction n with
  | zero => exact ⟨s, rfl, h⟩
  | succ n ih =>
    obtain ⟨s', hs', hP⟩ := ih fun i hi => hstep i (by omega)
    obtain ⟨s'', hs'', hP'⟩ := hstep n (by omega) s' hP
    refine ⟨s'', ?_, hP'⟩
    rw [List.range_succ, List.foldlM_append, hs', Option.bind_eq_bind, Option.bind_some,
      List.foldlM_cons, hs'']
    rfl

theorem foldlM_list {β : Type} {f : σ → β → Option σ} {P : List β → σ → Prop} {all : List β}
    (hstep : ∀ x ∈ all, ∀ done s, P done s → ∃ s', f s x = some s' ∧ P (done ++ [x]) s') :
    ∀ (xs done : List β) (s : σ), (∀ x ∈ xs, x ∈ all) → P done s →
      ∃ s', xs.foldlM f s = some s' ∧ P (done ++ xs) s'
  | [], done, s, _, hP => ⟨s, rfl, by rwa [List.append_nil]⟩
  | x :: xs, done, s, hall, hP => by
      obtain ⟨s', hs', hP'⟩ := hstep x (hall x List.mem_cons_self) done s hP
      obtain ⟨s'', hs'', hP''⟩ := foldlM_list hstep xs (done ++ [x]) s'
        (fun y hy => hall y (List.mem_cons_of_mem x hy)) hP'
      refine ⟨s'', ?_, by rwa [List.append_assoc] at hP''⟩
      rw [List.foldlM_cons, hs', Option.bind_eq_bind, Option.bind_some, hs'']

theorem foldlM_invariant {β : Type} {f : σ → β → Option σ} {P : σ → Prop} {xs : List β} {s : σ}
    (h : P s) (hstep : ∀ x ∈ xs, ∀ s, P s → ∃ s', f s x = some s' ∧ P s') :
    ∃ s', xs.foldlM f s = some s' ∧ P s' :=
  @foldlM_list _ _ f (fun _ => P) xs (fun x hx _ s hs => hstep x hx s hs) xs [] s
    (fun _ hx => hx) h

/-- A loop that advances by `step` until it reaches `stop`. -/
def blockLoop (round : Nat → σ → Option σ) (stop step : Nat) : Nat → Nat → σ → Option σ
  | 0, _, _ => none
  | fuel + 1, pos, s =>
      if pos < stop then do
        let s ← round pos s
        blockLoop round stop step fuel (pos + step) s
      else some s

theorem blockLoop_spec_min {round : Nat → σ → Option σ} {P : Nat → σ → Prop} {stop step : Nat}
    (hpos : 0 < step)
    (hround : ∀ pos s, pos < stop → P pos s →
      ∃ s', round pos s = some s' ∧ P (min (pos + step) stop) s') :
    ∀ (fuel pos : Nat) (s : σ), stop - pos < fuel → P (min pos stop) s →
      ∃ s', blockLoop round stop step fuel pos s = some s' ∧ P stop s'
  | 0, _, _, hfuel, _ => absurd hfuel (Nat.not_lt_zero _)
  | fuel + 1, pos, s, hfuel, hP => by
      rw [blockLoop]
      split
      · rename_i hlt
        rw [Nat.min_eq_left (Nat.le_of_lt hlt)] at hP
        obtain ⟨s', hs', hP'⟩ := hround pos s hlt hP
        rw [hs', Option.bind_eq_bind, Option.bind_some]
        exact blockLoop_spec_min hpos hround fuel (pos + step) s' (by omega) hP'
      · rename_i hge
        rw [Nat.min_eq_right (Nat.le_of_not_lt hge)] at hP
        exact ⟨s, rfl, hP⟩

theorem blockLoop_spec {round : Nat → σ → Option σ} {P : Nat → σ → Prop} {stop step n pos : Nat}
    {s : σ} (hpos : 0 < step)
    (hround : ∀ pos s, pos + step ≤ stop → P pos s →
      ∃ s', round pos s = some s' ∧ P (pos + step) s')
    (fuel : Nat) (hfuel : stop - pos < fuel) (hstop : pos + n * step = stop) (hP : P pos s) :
    ∃ s', blockLoop round stop step fuel pos s = some s' ∧ P stop s' := by
  have hround' : ∀ pos s, pos < stop → P pos s ∧ step ∣ stop - pos →
      ∃ s', round pos s = some s' ∧ P (min (pos + step) stop) s' ∧
        step ∣ stop - min (pos + step) stop := by
    rintro pos s hlt ⟨hP, hdvd⟩
    have hle : step ≤ stop - pos := Nat.le_of_dvd (by omega) hdvd
    obtain ⟨s', hs', hP'⟩ := hround pos s (by omega) hP
    rw [Nat.min_eq_left (by omega)]
    exact ⟨s', hs', hP', by rw [← Nat.sub_sub]; exact Nat.dvd_sub hdvd (Nat.dvd_refl step)⟩
  obtain ⟨s', hs', hP', -⟩ := blockLoop_spec_min
    (P := fun pos s => P pos s ∧ step ∣ stop - pos) hpos hround' fuel pos s hfuel (by
      rw [Nat.min_eq_left (by omega), ← hstop, Nat.add_sub_cancel_left]
      exact ⟨hP, Nat.dvd_mul_left step n⟩)
  exact ⟨s', hs', hP'⟩

end Loops

section Tables

variable {α : Type}

theorem length_flatMap_range {f : Nat → List α} {n k : Nat} (hf : ∀ e < n, (f e).length = k) :
    ((List.range n).flatMap f).length = n * k := by
  induction n with
  | zero => exact (Nat.zero_mul k).symm
  | succ n ih =>
    rw [List.range_succ, List.flatMap_append, List.flatMap_singleton, List.length_append,
      ih fun e he => hf e (by omega), hf n (Nat.lt_succ_self n), Nat.succ_mul]

theorem row_lt {n k e j : Nat} (he : e < n) (hj : j < k) : e * k + j < n * k :=
  calc e * k + j < e * k + k := by omega
    _ = (e + 1) * k := (Nat.succ_mul e k).symm
    _ ≤ n * k := Nat.mul_le_mul_right k he

theorem row_le {n k e j : Nat} (he : e < n) (hj : j ≤ k) : e * k + j ≤ n * k :=
  calc e * k + j ≤ e * k + k := by omega
    _ = (e + 1) * k := (Nat.succ_mul e k).symm
    _ ≤ n * k := Nat.mul_le_mul_right k he

theorem getElem?_flatMap_range {f : Nat → List α} {n k e j : Nat}
    (hf : ∀ e < n, (f e).length = k) (he : e < n) (hj : j < k) :
    ((List.range n).flatMap f)[e * k + j]? = (f e)[j]? := by
  induction n with
  | zero => exact absurd he (Nat.not_lt_zero e)
  | succ n ih =>
    have hf' : ∀ e < n, (f e).length = k := fun e he => hf e (by omega)
    have hlen := length_flatMap_range hf'
    rw [List.range_succ, List.flatMap_append, List.flatMap_singleton]
    rcases Nat.lt_succ_iff_lt_or_eq.1 he with hlt | rfl
    · rw [List.getElem?_append_left (by rw [hlen]; exact row_lt hlt hj), ih hf' hlt]
    · rw [List.getElem?_append_right (by omega), hlen, Nat.add_sub_cancel_left]

theorem getElem?_read (xs : List α) (pos n j : Nat) :
    (Buffer.read xs pos n)[j]? = if j < n then xs[pos + j]? else none := by
  rw [Buffer.read_eq, List.getElem?_take, List.getElem?_drop]

theorem read_flatMap_range {f : Nat → List α} {n k e pos width : Nat}
    (hf : ∀ e < n, (f e).length = k) (he : e < n) (hpos : pos + width ≤ k) :
    Buffer.read ((List.range n).flatMap f) (e * k + pos) width =
      Buffer.read (f e) pos width := by
  refine List.ext_getElem? fun j => ?_
  rw [getElem?_read, getElem?_read]
  split
  · rw [Nat.add_assoc, getElem?_flatMap_range hf he (by omega)]
  · rfl

theorem flatMap_read (xs : List α) {n k : Nat} (h : xs.length = n * k) :
    ((List.range n).flatMap fun e => Buffer.read xs (e * k) k) = xs := by
  have htake : ∀ m ≤ n, ((List.range m).flatMap fun e => Buffer.read xs (e * k) k) =
      xs.take (m * k) := by
    intro m hm
    induction m with
    | zero => rw [Nat.zero_mul, List.take_zero]; rfl
    | succ m ih =>
      rw [List.range_succ, List.flatMap_append, List.flatMap_singleton, ih (by omega),
        Nat.succ_mul, List.take_add]
      rfl
  rw [htake n (Nat.le_refl n), ← h, List.take_length]

/-- The column of the given width at an offset of each of `n` rows of the given size. -/
def column (size n : Nat) (src : List α) (offset width : Nat) : List α :=
  (List.range n).flatMap fun e => Buffer.read src (e * size + offset) width

/-- The columns of some widths, side by side. -/
def columns (size n : Nat) (src : List α) : Nat → List Nat → List (List α)
  | _, [] => []
  | offset, width :: widths =>
      column size n src offset width :: columns size n src (offset + width) widths

/-- A row of some columns. -/
def rowOf (e : Nat) : List Nat → List (List α) → List α
  | width :: widths, src :: srcs => Buffer.read src (e * width) width ++ rowOf e widths srcs
  | _, _ => []

/-- The table of `n` rows of some columns. -/
def joinColumns (n : Nat) (widths : List Nat) (srcs : List (List α)) : List α :=
  (List.range n).flatMap fun e => rowOf e widths srcs

section Column

variable {size n offset width : Nat} {src : List α}

section

variable (hsrc : src.length = n * size) (hfits : offset + width ≤ size)

include hsrc hfits

theorem length_row : ∀ e < n, (Buffer.read src (e * size + offset) width).length = width := by
  intro e he
  refine Buffer.length_read ?_
  rw [hsrc, Nat.add_assoc]
  exact row_le he hfits

theorem length_column : (column size n src offset width).length = n * width :=
  length_flatMap_range (length_row hsrc hfits)

theorem getElem?_column {e j : Nat} (he : e < n) (hj : j < width) :
    (column size n src offset width)[e * width + j]? = src[e * size + offset + j]? := by
  rw [column, getElem?_flatMap_range (length_row hsrc hfits) he hj, getElem?_read, if_pos hj]

theorem read_column {e : Nat} (he : e < n) :
    Buffer.read (column size n src offset width) (e * width) width =
      Buffer.read src (e * size + offset) width := by
  have hread := read_flatMap_range (length_row hsrc hfits) he (by omega : 0 + width ≤ width)
  rw [Nat.add_zero] at hread
  rw [column, hread, Buffer.read_of_start, List.take_of_length_le
    (Nat.le_of_eq (length_row hsrc hfits e he))]

end

theorem getD_columns (size n : Nat) (src : List α) : ∀ {offset : Nat} {widths : List Nat} {r : Nat},
    r < widths.length → (columns size n src offset widths).getD r [] =
      column size n src (offset + (widths.take r).sum) (widths.getD r 0)
  | _, [], _, h => absurd h (Nat.not_lt_zero _)
  | offset, width :: widths, 0, _ => rfl
  | offset, width :: widths, r + 1, h => by
      have hrest := @getD_columns size n src (offset + width) widths r (Nat.lt_of_succ_lt_succ h)
      rw [columns, List.getD_cons_succ, hrest, List.take_succ_cons, List.sum_cons, Nat.add_assoc,
        List.getD_cons_succ]

theorem length_columns (size n : Nat) (src : List α) : ∀ (offset : Nat) (widths : List Nat),
    (columns size n src offset widths).length = widths.length
  | _, [] => rfl
  | offset, width :: widths => congrArg Nat.succ (length_columns size n src (offset + width) widths)

theorem sum_take_add_le : ∀ {widths : List Nat} {r : Nat}, r < widths.length →
    (widths.take r).sum + widths.getD r 0 ≤ widths.sum
  | [], _, h => absurd h (Nat.not_lt_zero _)
  | width :: widths, 0, _ => by
      rw [List.take_zero, List.sum_nil, List.getD_cons_zero, List.sum_cons]
      omega
  | width :: widths, r + 1, h => by
      have hrest := @sum_take_add_le widths r (Nat.lt_of_succ_lt_succ h)
      rw [List.take_succ_cons, List.sum_cons, List.getD_cons_succ, List.sum_cons]
      omega

theorem sum_take_succ : ∀ {widths : List Nat} {r : Nat}, r < widths.length →
    (widths.take (r + 1)).sum = (widths.take r).sum + widths.getD r 0
  | [], _, h => absurd h (Nat.not_lt_zero _)
  | width :: widths, 0, _ => by
      rw [List.take_succ_cons, List.take_zero, List.take_zero, List.sum_cons, List.sum_nil,
        List.getD_cons_zero, Nat.add_comm]
  | width :: widths, r + 1, h => by
      rw [List.take_succ_cons, List.sum_cons, sum_take_succ (Nat.lt_of_succ_lt_succ h),
        List.take_succ_cons, List.sum_cons, List.getD_cons_succ, Nat.add_assoc]

end Column

section Join

variable {n : Nat} {widths : List Nat} {srcs : List (List α)}

/-- The sources hold `n` elements of the given widths. -/
def Sources (n : Nat) : List Nat → List (List α) → Prop
  | [], [] => True
  | width :: widths, src :: srcs => src.length = n * width ∧ Sources n widths srcs
  | _, _ => False

theorem Sources.length_eq : ∀ {widths : List Nat} {srcs : List (List α)},
    Sources n widths srcs → srcs.length = widths.length
  | [], [], _ => rfl
  | _ :: _, _ :: _, h => congrArg Nat.succ (Sources.length_eq h.2)

theorem Sources.length_getD : ∀ {widths : List Nat} {srcs : List (List α)} {r : Nat},
    Sources n widths srcs → r < widths.length →
      (srcs.getD r []).length = n * widths.getD r 0
  | [], [], _, _, h => absurd h (Nat.not_lt_zero _)
  | _ :: _, _ :: _, 0, hs, _ => hs.1
  | width :: widths, src :: srcs, r + 1, hs, h => by
      rw [List.getD_cons_succ, List.getD_cons_succ]
      exact Sources.length_getD hs.2 (Nat.lt_of_succ_lt_succ h)

theorem sources_columns {size : Nat} {src : List α} (hsrc : src.length = n * size) :
    ∀ {offset : Nat} {widths : List Nat}, offset + widths.sum ≤ size →
      Sources n widths (columns size n src offset widths)
  | _, [], _ => trivial
  | offset, width :: widths, h => by
      rw [List.sum_cons] at h
      exact ⟨length_column hsrc (by omega), sources_columns hsrc (by omega)⟩

theorem length_rowOf {e : Nat} (he : e < n) : ∀ {widths : List Nat} {srcs : List (List α)},
    Sources n widths srcs → (rowOf e widths srcs).length = widths.sum
  | [], [], _ => rfl
  | width :: widths, src :: srcs, h => by
      have hle : e * width + width ≤ src.length := h.1 ▸ row_le he (Nat.le_refl width)
      rw [rowOf, List.length_append, Buffer.length_read hle, length_rowOf he h.2, List.sum_cons]

theorem getElem?_rowOf {e j : Nat} (he : e < n) :
    ∀ {widths : List Nat} {srcs : List (List α)} {r : Nat}, Sources n widths srcs →
      r < widths.length → j < widths.getD r 0 →
        (rowOf e widths srcs)[(widths.take r).sum + j]? =
          (srcs.getD r [])[e * widths.getD r 0 + j]?
  | [], [], _, _, h, _ => absurd h (Nat.not_lt_zero _)
  | width :: widths, src :: srcs, 0, hs, _, hj => by
      rw [List.getD_cons_zero] at hj ⊢
      have hle : e * width + width ≤ src.length := hs.1 ▸ row_le he (Nat.le_refl width)
      rw [rowOf, List.take_zero, List.sum_nil, Nat.zero_add, List.getElem?_append_left
        (by rwa [Buffer.length_read hle]), getElem?_read, if_pos hj, List.getD_cons_zero]
  | width :: widths, src :: srcs, r + 1, hs, h, hj => by
      rw [List.getD_cons_succ] at hj ⊢
      have hle : e * width + width ≤ src.length := hs.1 ▸ row_le he (Nat.le_refl width)
      have hlen := Buffer.length_read hle
      rw [rowOf, List.take_succ_cons, List.sum_cons, List.getElem?_append_right (by omega), hlen,
        List.getD_cons_succ, ← getElem?_rowOf he hs.2 (Nat.lt_of_succ_lt_succ h) hj]
      congr 1
      omega

theorem getElem?_joinColumns (h : Sources n widths srcs) {e r j : Nat} (he : e < n)
    (hr : r < widths.length) (hj : j < widths.getD r 0) :
    (joinColumns n widths srcs)[e * widths.sum + (widths.take r).sum + j]? =
      (srcs.getD r [])[e * widths.getD r 0 + j]? := by
  have hle := sum_take_add_le hr
  rw [joinColumns, Nat.add_assoc, getElem?_flatMap_range (fun _ he => length_rowOf he h) he
    (by omega), getElem?_rowOf he h hr hj]

theorem length_joinColumns (h : Sources n widths srcs) :
    (joinColumns n widths srcs).length = n * widths.sum :=
  length_flatMap_range fun _ he => length_rowOf he h

theorem rowOf_columns {size e : Nat} {src : List α} (hsrc : src.length = n * size) (he : e < n) :
    ∀ {offset : Nat} {widths : List Nat}, offset + widths.sum ≤ size →
      rowOf e widths (columns size n src offset widths) =
        Buffer.read src (e * size + offset) widths.sum
  | _, [], _ => (Buffer.read_zero _ _).symm
  | offset, width :: widths, h => by
      rw [List.sum_cons] at h
      rw [columns, rowOf, read_column hsrc (by omega) he, rowOf_columns hsrc he (by omega),
        List.sum_cons, Buffer.read_add, Nat.add_assoc]

/-- **The table** is made of its columns. -/
theorem joinColumns_columns {src : List α} (hsrc : src.length = n * widths.sum) :
    joinColumns n widths (columns widths.sum n src 0 widths) = src := by
  rw [joinColumns, List.flatMap_congr fun e he => rowOf_columns hsrc (List.mem_range.1 he)
    (by omega : 0 + widths.sum ≤ widths.sum)]
  exact flatMap_read src hsrc

theorem columns_of_rows {size : Nat} {f : Nat → List α} (hf : ∀ e < n, (f e).length = size) :
    ∀ {offset : Nat} {widths : List Nat} {srcs : List (List α)}, Sources n widths srcs →
      offset + widths.sum = size →
      (∀ e < n, (f e).drop offset = rowOf e widths srcs) →
        columns size n ((List.range n).flatMap f) offset widths = srcs
  | _, [], [], _, _, _ => rfl
  | offset, width :: widths, src :: srcs, h, hsize, hrow => by
      rw [List.sum_cons] at hsize
      have hle : ∀ e < n, e * width + width ≤ src.length := fun e he =>
        h.1 ▸ row_le he (Nat.le_refl width)
      have hfirst : column size n ((List.range n).flatMap f) offset width = src := by
        conv_rhs => rw [← flatMap_read src h.1]
        rw [column]
        refine List.flatMap_congr fun e he => ?_
        have he := List.mem_range.1 he
        rw [read_flatMap_range hf he (by omega), Buffer.read_eq,
          hrow e he, rowOf, List.take_left' (Buffer.length_read (hle e he))]
      have hrest := columns_of_rows hf h.2 (by omega : offset + width + widths.sum = size)
        fun e he => by
          rw [← List.drop_drop, hrow e he, rowOf,
            List.drop_left' (Buffer.length_read (hle e he))]
      rw [columns, hfirst, hrest]

/-- **The columns** of a table that is made of columns. -/
theorem columns_joinColumns (h : Sources n widths srcs) :
    columns widths.sum n (joinColumns n widths srcs) 0 widths = srcs :=
  columns_of_rows (fun _ he => length_rowOf he h) h (Nat.zero_add _) fun _ _ => List.drop_zero

end Join

end Tables

end OpenZL.Lib
