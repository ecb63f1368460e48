import Mathlib.Init
import OpenZL.Common.Basic
import OpenZL.Lib.Result

/-!
# Component names

Model of `name.c`.

Principal result: `not_bang_unique`.
-/

namespace OpenZL.Compressor

open Lib

/-- A C string; a character stands for a byte. -/
abbrev Name := List Char

def ZL_PREFIX_MAX_LEN : Nat := 100

/-- `ZL_Name`: a prefix, and the id that was appended to it unless it is an anchor. -/
structure ComponentName where
  namePrefix : Name
  uniqueID : Option Nat
  noHash : '#' ∉ namePrefix
  noBang : '!' ∉ namePrefix
  short : namePrefix.length ≤ ZL_PREFIX_MAX_LEN
  deriving DecidableEq

namespace ComponentName

/-- `ZL_Name_unique`. -/
def unique (n : ComponentName) : Name :=
  match n.uniqueID with
  | none => n.namePrefix
  | some id => n.namePrefix ++ '#' :: Nat.toDigits 10 id

end ComponentName

/-- The prefix `ZL_validatePrefix` keeps for the standard library. -/
def standardPrefix : Name := ['!', 'z', 'l', '.']

/-- What `ZL_validatePrefix` looks at: the bytes after the mark of an anchor. -/
def unmarked : Name → Name
  | '!' :: rest => rest
  | p => p

theorem length_unmarked_le (p : Name) : (unmarked p).length ≤ p.length := by
  unfold unmarked
  split <;> simp

/-- `ZL_Name_init`; a missing prefix is the empty one. -/
def ZL_Name_init (namePrefix : Option Name) (uniqueID : Nat) : Except ErrorCode ComponentName :=
  let p := namePrefix.getD []
  if standardPrefix <+: p then .error .invalidName
  else if hBang : '!' ∈ unmarked p then .error .invalidName
  else if hHash : '#' ∈ unmarked p then .error .invalidName
  else if hLen : p.length > ZL_PREFIX_MAX_LEN then .error .invalidName
  else .ok {
    namePrefix := unmarked p
    uniqueID := if p.head? = some '!' then none else some uniqueID
    noHash := hHash
    noBang := hBang
    short := Nat.le_trans (length_unmarked_le p) (Nat.not_lt.1 hLen) }

/-- `mk_sv_strip_name_fragment`: what stands before the first `#`. -/
def stripNameFragment (name : Name) : Name := name.takeWhile (· ≠ '#')

namespace ComponentName

variable {n : ComponentName}

theorem not_bang_unique : n.unique.head? ≠ some '!' := by
  intro h
  have hmem : '!' ∈ n.unique := List.mem_of_mem_head? h
  unfold unique at hmem
  cases hid : n.uniqueID with
  | none => exact n.noBang (by simpa [hid] using hmem)
  | some id =>
    rw [hid] at hmem
    rcases List.mem_append.1 hmem with hmem | hmem
    · exact n.noBang hmem
    · rcases List.mem_cons.1 hmem with hmem | hmem
      · exact absurd hmem (by decide)
      · have hdigit := Nat.isDigit_of_mem_toDigits (by decide) (Nat.le_refl 10) hmem
        exact absurd hdigit (by decide)

end ComponentName

end OpenZL.Compressor
