import OpenZL.Lib.Buffer
import Mathlib.Data.List.GetD
import Mathlib.Data.List.TakeDrop

/-!
# Copies that repeat

A copy from `offset` cells back onto the end of what is there repeats the last `offset` cells when
it is longer than they are.

Principal results: `Extends.read`, `Extends.write`, `extend_append`.
-/

namespace OpenZL.Lib.Periodic

variable {α : Type} [Inhabited α]

/-- The `i`-th cell when the last `offset` cells of `out` repeat. -/
def cell (out : List α) (offset i : Nat) : α :=
  out.getD (out.length - offset + i % offset) default

/-- `k` cells of the repetition, from the `c`-th on. -/
def run (out : List α) (offset c k : Nat) : List α :=
  (List.range k).map fun i => cell out offset (c + i)

/-- `out` with `n` cells of the repetition behind it. -/
def extend (offset n : Nat) (out : List α) : List α := out ++ run out offset 0 n

variable {out buf xs : List α} {offset c k m n : Nat}

@[simp] theorem length_run (out : List α) (offset c k : Nat) : (run out offset c k).length = k := by
  rw [run, List.length_map, List.length_range]

@[simp] theorem length_extend (offset n : Nat) (out : List α) :
    (extend offset n out).length = out.length + n := by
  rw [extend, List.length_append, length_run]

@[simp] theorem extend_zero (offset : Nat) (out : List α) : extend offset 0 out = out := by
  rw [extend, run, List.range_zero, List.map_nil, List.append_nil]

theorem run_add (out : List α) (offset c k m : Nat) :
    run out offset c (k + m) = run out offset c k ++ run out offset (c + k) m := by
  simp only [run, List.range_add, List.map_append, List.map_map, Function.comp_def, Nat.add_assoc]

theorem take_run (h : m ≤ k) : (run out offset c k).take m = run out offset c m := by
  obtain ⟨r, rfl⟩ := Nat.exists_eq_add_of_le h
  rw [run_add, List.take_left' (length_run _ _ _ _)]

theorem extend_append (offset n k : Nat) (out : List α) :
    extend offset n out ++ run out offset n k = extend offset (n + k) out := by
  rw [extend, extend, List.append_assoc, run_add, Nat.zero_add]

theorem take_extend (h : m ≤ n) :
    (extend offset n out).take (out.length + m) = extend offset m out := by
  rw [extend, List.take_length_add_append, take_run h, extend]

theorem cell_congr {i j : Nat} (h : i % offset = j % offset) :
    cell out offset i = cell out offset j := by
  rw [cell, cell, h]

theorem getD_extend (hpos : 0 < offset) (hle : offset ≤ out.length) {p : Nat}
    (hlo : out.length - offset ≤ p) (hhi : p < out.length + c) :
    (extend offset c out).getD p default = cell out offset (p + offset - out.length) := by
  rw [extend, List.getD_eq_getElem?_getD]
  rcases Nat.lt_or_ge p out.length with hp | hp
  · have hmod : (p + offset - out.length) % offset = p + offset - out.length :=
      Nat.mod_eq_of_lt (by omega)
    rw [List.getElem?_append_left hp, cell, hmod,
      show out.length - offset + (p + offset - out.length) = p by omega,
      List.getD_eq_getElem?_getD]
  · have hlt : p - out.length < (List.range c).length := by
      rw [List.length_range]
      omega
    rw [List.getElem?_append_right hp, run, List.getElem?_map, List.getElem?_eq_getElem hlt,
      List.getElem_range, Option.map_some, Option.getD_some, Nat.zero_add]
    refine cell_congr ?_
    rw [show p + offset - out.length = p - out.length + offset by omega, Nat.add_mod_right]

/-- The first cells of a buffer are `out` and `c` cells of its repetition. -/
structure Extends (buf out : List α) (offset c : Nat) : Prop where
  fits : out.length + c ≤ buf.length
  take : buf.take (out.length + c) = extend offset c out

theorem Extends.start {pos : Nat} (h : pos ≤ buf.length) (offset : Nat) :
    Extends buf (buf.take pos) offset 0 := by
  have hlen : (buf.take pos).length = pos := by
    rw [List.length_take]
    omega
  refine ⟨by omega, ?_⟩
  rw [hlen, extend_zero]
  rfl

theorem Extends.mono (h : Extends buf out offset c) (hm : m ≤ c) : Extends buf out offset m := by
  have hfits := h.fits
  refine ⟨by omega, ?_⟩
  have htake := congrArg (List.take (out.length + m)) h.take
  rwa [List.take_take, Nat.min_eq_left (by omega), take_extend hm] at htake

theorem Extends.read (h : Extends buf out offset c) (hpos : 0 < offset) (hle : offset ≤ out.length)
    {q : Nat} (hlo : out.length - offset ≤ q) (hhi : q + k ≤ out.length + c)
    (hdvd : offset ∣ out.length + c - q) : Buffer.read buf q k = run out offset c k := by
  have hfits := h.fits
  refine List.ext_getElem (by rw [Buffer.length_read (by omega), length_run]) fun i hi _ => ?_
  rw [Buffer.length_read (by omega)] at hi
  have hbuf : buf.getD (q + i) default = (extend offset c out).getD (q + i) default := by
    rw [← h.take, List.getD_eq_getElem?_getD, List.getD_eq_getElem?_getD,
      List.getElem?_take_of_lt (by omega)]
  rw [getD_extend hpos hle (by omega) (by omega), List.getD_eq_getElem _ _ (by omega)] at hbuf
  simp only [Buffer.read_eq, List.getElem_take, List.getElem_drop, run, List.getElem_map,
    List.getElem_range]
  rw [hbuf]
  refine cell_congr ?_
  obtain ⟨d, hd⟩ := hdvd
  have hc : c + i + offset = q + i + offset - out.length + offset * d := by omega
  rw [← Nat.add_mod_right (c + i) offset, hc, Nat.add_mul_mod_self_left]

theorem Extends.write (h : Extends buf out offset c) (hxs : xs.take m = run out offset c m)
    (hm : m ≤ xs.length) (hfit : out.length + c + xs.length ≤ buf.length) :
    Extends (Buffer.write buf (out.length + c) xs) out offset (c + m) := by
  refine ⟨?_, ?_⟩
  · rw [Buffer.length_write hfit]
    omega
  · rw [← Nat.add_assoc, Buffer.take_write h.fits hm, h.take, hxs, extend_append]

end OpenZL.Lib.Periodic
