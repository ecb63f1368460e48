import OpenZL.Lib.Slices

/-!
# Reading and writing a buffer

A buffer is a sequence of cells.

Principal results: `read_write_prefix`, `read_write_before`, `read_write_after`, `read_add`.
-/

namespace OpenZL.Lib.Buffer

variable {α : Type} {buf xs : List α}

/-- The `n` cells from `pos` on. -/
def read (buf : List α) (pos n : Nat) : List α := Slice.content buf ⟨pos, n⟩

/-- Replace the cells from `pos` on by `xs`. -/
def write (buf : List α) (pos : Nat) (xs : List α) : List α :=
  buf.take pos ++ xs ++ buf.drop (pos + xs.length)

/-- Read the `n` cells from `pos` on, if there are as many. -/
def load (buf : List α) (pos n : Nat) : Option (List α) :=
  if pos + n ≤ buf.length then some (read buf pos n) else none

/-- Replace the cells from `pos` on by `xs`, if there are as many. -/
def store (buf : List α) (pos : Nat) (xs : List α) : Option (List α) :=
  if pos + xs.length ≤ buf.length then some (write buf pos xs) else none

theorem load_of_le {buf : List α} {pos n : Nat} (h : pos + n ≤ buf.length) :
    load buf pos n = some (read buf pos n) := if_pos h

theorem store_of_le {pos : Nat} (h : pos + xs.length ≤ buf.length) :
    store buf pos xs = some (write buf pos xs) := if_pos h

theorem store_of_lt {pos : Nat} (h : buf.length < pos + xs.length) :
    store buf pos xs = none := if_neg (Nat.not_le.2 h)

theorem read_eq (buf : List α) (pos n : Nat) : read buf pos n = (buf.drop pos).take n := rfl

theorem length_read {buf : List α} {pos n : Nat} (h : pos + n ≤ buf.length) :
    (read buf pos n).length = n := by
  rw [read_eq, List.length_take, List.length_drop]
  omega

@[simp] theorem read_zero (buf : List α) (pos : Nat) : read buf pos 0 = [] := by
  rw [read_eq, List.take_zero]

theorem read_add (buf : List α) (pos m n : Nat) :
    read buf pos (m + n) = read buf pos m ++ read buf (pos + m) n := by
  rw [read_eq, List.take_add, List.drop_drop]
  rfl

theorem drop_eq (buf : List α) (pos n : Nat) :
    buf.drop pos = read buf pos n ++ buf.drop (pos + n) := by
  rw [read_eq, ← List.drop_drop, List.take_append_drop]

theorem read_of_start (buf : List α) (n : Nat) : read buf 0 n = buf.take n := by
  rw [read_eq, List.drop_zero]

theorem length_write {pos : Nat} (h : pos + xs.length ≤ buf.length) :
    (write buf pos xs).length = buf.length := by
  simp only [write, List.length_append, List.length_take, List.length_drop]
  omega

theorem take_write {buf : List α} {pos k : Nat} (h : pos ≤ buf.length) {xs : List α}
    (hk : k ≤ xs.length) : (write buf pos xs).take (pos + k) = buf.take pos ++ xs.take k := by
  have hpos : (buf.take pos).length = pos := by
    rw [List.length_take]
    omega
  rw [write, List.append_assoc, List.take_append, hpos, Nat.add_sub_cancel_left,
    List.take_of_length_le (by omega), List.take_append_of_le_length hk]

@[simp] theorem write_nil (buf : List α) (pos : Nat) : write buf pos [] = buf := by
  simp [write]

theorem read_write_prefix {buf : List α} {pos : Nat} (h : pos ≤ buf.length) (xs ys : List α) :
    read (write buf pos (xs ++ ys)) pos xs.length = xs := by
  have hpos : (buf.take pos).length = pos := by
    rw [List.length_take]
    omega
  rw [read_eq, write, List.append_assoc, List.drop_left' hpos, List.append_assoc]
  exact List.take_left' rfl

theorem read_write_self {buf : List α} {pos : Nat} (h : pos ≤ buf.length) (xs : List α) :
    read (write buf pos xs) pos xs.length = xs := by
  have hread := read_write_prefix h xs []
  rwa [List.append_nil] at hread

theorem read_write_before {buf : List α} {pos start n : Nat} (hbuf : pos ≤ buf.length)
    (h : start + n ≤ pos) (xs : List α) : read (write buf pos xs) start n = read buf start n := by
  have hpos : (buf.take pos).length = pos := by
    rw [List.length_take]
    omega
  rw [read_eq, read_eq, write, List.append_assoc, List.drop_append_of_le_length (by omega),
    List.take_append_of_le_length (by rw [List.length_drop]; omega), List.drop_take, List.take_take]
  congr 1
  omega

theorem read_write_after {pos start n : Nat} (hbuf : pos + xs.length ≤ buf.length)
    (h : pos + xs.length ≤ start) :
    read (write buf pos xs) start n = read buf start n := by
  have hpos : (buf.take pos ++ xs).length = pos + xs.length := by
    rw [List.length_append, List.length_take]
    omega
  rw [read_eq, read_eq, write, List.drop_append, List.drop_eq_nil_of_le (by omega),
    List.nil_append, List.drop_drop, hpos]
  congr 2
  omega

theorem write_append (front mid back : List α) {xs : List α} (h : xs.length = mid.length) :
    write (front ++ (mid ++ back)) front.length xs = front ++ (xs ++ back) := by
  rw [write, List.take_left' rfl, h, ← List.append_assoc front mid, ← List.length_append,
    List.drop_left' rfl, List.append_assoc]

theorem write_write_at {pos n : Nat} (h : pos + xs.length ≤ buf.length) (hn : n ≤ xs.length)
    (ys : List α) :
    write (write buf pos xs) (pos + n) ys = write buf pos (write xs n ys) := by
  have hpos : (buf.take pos).length = pos := by
    rw [List.length_take]
    omega
  have hfront : (buf.take pos ++ xs ++ buf.drop (pos + xs.length)).take (pos + n) =
      buf.take pos ++ xs.take n := by
    rw [List.append_assoc, List.take_append, hpos, Nat.add_sub_cancel_left,
      List.take_of_length_le (by omega), List.take_append_of_le_length hn]
  have hback : (buf.take pos ++ xs ++ buf.drop (pos + xs.length)).drop (pos + n + ys.length) =
      xs.drop (n + ys.length) ++ buf.drop (pos + (write xs n ys).length) := by
    rw [List.append_assoc, List.drop_append, hpos, List.drop_eq_nil_of_le (by omega),
      List.nil_append, List.drop_append, List.drop_drop]
    congr 2
    · omega
    · simp only [write, List.length_append, List.length_take, List.length_drop]
      omega
  rw [write, write, hfront, hback, write, write]
  simp only [List.append_assoc]

theorem write_write {pos : Nat} (h : pos + xs.length ≤ buf.length) (ys : List α) :
    write (write buf pos xs) (pos + xs.length) ys = write buf pos (xs ++ ys) := by
  have hxs : write xs xs.length ys = xs ++ ys := by
    rw [write, List.take_length, List.drop_eq_nil_of_le (Nat.le_add_right _ _), List.append_nil]
  rw [write_write_at h (Nat.le_refl _), hxs]

theorem drop_write {buf : List α} {p pos : Nat} (hp : p ≤ pos) (hpos : pos ≤ buf.length)
    (xs : List α) : (write buf pos xs).drop p = write (buf.drop p) (pos - p) xs := by
  have hlen : (buf.take pos).length = pos := by
    rw [List.length_take]
    omega
  rw [write, write, List.append_assoc, List.drop_append_of_le_length (by omega), List.drop_take,
    List.drop_drop, List.append_assoc]
  congr 3
  omega

end OpenZL.Lib.Buffer
