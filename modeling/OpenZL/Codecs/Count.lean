import OpenZL.Codecs.WildCopy
import OpenZL.Lib.CommonPrefix
import Mathlib.Order.Nat

/-!
# Counting equal bytes

`ZS_countBound` of `count.h`: how many bytes from two positions of a buffer on are equal, up to a
bound.

Principal results: `countWords_spec`, `compareStep_spec`, `countBound_spec`.
-/

namespace OpenZL.Codecs.Count

open OpenZL.Lib OpenZL.Codecs.Copy

/-- `ZL_ctz64`, undefined at zero. -/
def ctz64 (x : Nat) : Option Nat := lowestBit 64 x

/-- `ZS_nbCommonBytes` -/
def nbCommonBytes (val : Nat) : Option Nat := do
  let bit ← ctz64 val
  some (bit >>> 3)

/-- `ZL_readST`, `ZL_read32`, `ZL_read16` and a read of a byte. -/
def readLE (buf : List UInt8) (pos n : Nat) : Option Nat := do
  let bytes ← Buffer.load buf pos n
  some (ofLE bytes)

/-- The comparison of words: whether it found a difference, and how far the two positions got. The
source writes the first round out. -/
def countWords (buf : List UInt8) (pEndLoopLimit : Int) : Nat → Nat → Nat →
    Option (Bool × Nat × Nat)
  | 0, _, _ => none
  | fuel + 1, pInNext, pMatchNext =>
      if (pInNext : Int) < pEndLoopLimit then do
        let a ← readLE buf pInNext 8
        let b ← readLE buf pMatchNext 8
        let diff := a ^^^ b
        if diff = 0 then countWords buf pEndLoopLimit fuel (pInNext + 8) (pMatchNext + 8)
        else do
          let n ← nbCommonBytes diff
          some (true, pInNext + n, pMatchNext + n)
      else some (false, pInNext, pMatchNext)

/-- The comparison of `n` bytes, if as many are left. -/
def compareStep (buf : List UInt8) (pBound n pInNext pMatchNext : Nat) : Option (Nat × Nat) :=
  if pInNext + (n - 1) < pBound then do
    let a ← readLE buf pInNext n
    let b ← readLE buf pMatchNext n
    if a = b then some (pInNext + n, pMatchNext + n) else some (pInNext, pMatchNext)
  else some (pInNext, pMatchNext)

/-- `ZS_countBound` -/
def countBound (buf : List UInt8) (pIn pMatch pBound pEnd : Nat) : Option Nat :=
  if pMatch ≤ pIn ∧ pBound ≤ pEnd ∧ pIn ≤ pBound then do
    let pEndLoopLimit := min ((pEnd : Int) - 7) pBound
    let (found, pInNext, pMatchNext) ←
      countWords buf pEndLoopLimit (pBound - pIn + 1) pIn pMatch
    if found then some (min (pBound - pIn) (pInNext - pIn))
    else do
      let (pInNext, pMatchNext) ← compareStep buf pBound 4 pInNext pMatchNext
      let (pInNext, pMatchNext) ← compareStep buf pBound 2 pInNext pMatchNext
      let (pInNext, _) ← compareStep buf pBound 1 pInNext pMatchNext
      some (min (pInNext - pIn) (pBound - pIn))
  else none

section Reads

variable {buf : List UInt8} {p q n : Nat}

theorem readLE_of_le (h : p + n ≤ buf.length) :
    readLE buf p n = some (ofLE (Buffer.read buf p n)) := by
  rw [readLE, Buffer.load_of_le h]
  rfl

theorem read_eq_iff (hp : p + n ≤ buf.length) (hq : q + n ≤ buf.length) :
    ofLE (Buffer.read buf p n) = ofLE (Buffer.read buf q n) ↔
      Buffer.read buf p n = Buffer.read buf q n := by
  refine ⟨ofLE_inj ?_, congrArg ofLE⟩
  rw [Buffer.length_read hp, Buffer.length_read hq]

theorem nbCommonBytes_xor (hp : p + 8 ≤ buf.length) (hq : q + 8 ≤ buf.length)
    (h : Buffer.read buf p 8 ≠ Buffer.read buf q 8) :
    nbCommonBytes (ofLE (Buffer.read buf p 8) ^^^ ofLE (Buffer.read buf q 8)) =
      some (commonPrefix (buf.drop p) (buf.drop q)) := by
  have hlen : (Buffer.read buf p 8).length = (Buffer.read buf q 8).length := by
    rw [Buffer.length_read hp, Buffer.length_read hq]
  obtain ⟨k, hk, hdiv⟩ := lowestBit_xor hlen h
  rw [Buffer.length_read hp] at hk
  rw [nbCommonBytes, ctz64, hk, (commonPrefix_drop_of_ne hp hq h).1, ← hdiv, Option.bind_eq_bind,
    Option.bind_some, Nat.shiftRight_eq_div_pow]

end Reads

/-- From `pIn` and `pMatch` to `p` and `q` all bytes are equal. -/
structure Agrees (buf : List UInt8) (pIn pMatch p q : Nat) : Prop where
  le : pIn ≤ p
  sub_eq : p - pIn = q - pMatch
  le' : pMatch ≤ q
  count : commonPrefix (buf.drop pIn) (buf.drop pMatch) =
    p - pIn + commonPrefix (buf.drop p) (buf.drop q)

section Counting

variable {buf : List UInt8} {pIn pMatch pBound pEnd p q n : Nat}

theorem Agrees.start (buf : List UInt8) (pIn pMatch : Nat) : Agrees buf pIn pMatch pIn pMatch :=
  ⟨Nat.le_refl _, by omega, Nat.le_refl _, by omega⟩

theorem Agrees.next (h : Agrees buf pIn pMatch p q) (hp : p + n ≤ buf.length)
    (heq : Buffer.read buf p n = Buffer.read buf q n) :
    Agrees buf pIn pMatch (p + n) (q + n) := by
  have hcount := commonPrefix_drop_of_eq hp heq
  obtain ⟨hle, hsub, hle', hcount'⟩ := h
  exact ⟨by omega, by omega, by omega, by omega⟩

/-- **The comparison of words** finds the first difference, or only equal words up to its limit. -/
theorem countWords_spec (hmatch : pMatch ≤ pIn) (hend : pEnd ≤ buf.length) (fuel : Nat) :
    ∀ {p q : Nat}, Agrees buf pIn pMatch p q → 0 < fuel → pBound < p + fuel →
      ∃ found p' q', countWords buf (min ((pEnd : Int) - 7) pBound) fuel p q =
          some (found, p', q') ∧
        (found = true → p' - pIn = commonPrefix (buf.drop pIn) (buf.drop pMatch)) ∧
        (found = false → Agrees buf pIn pMatch p' q' ∧
          min ((pEnd : Int) - 7) pBound ≤ p') := by
  induction fuel with
  | zero =>
    intro p q h hpos
    omega
  | succ fuel ih =>
    intro p q h _ hfuel
    have hle := h.le
    have hsub := h.sub_eq
    rw [countWords]
    by_cases hmore : (p : Int) < min ((pEnd : Int) - 7) pBound
    · have hp : p + 8 ≤ buf.length := by omega
      have hq : q + 8 ≤ buf.length := by omega
      rw [if_pos hmore, readLE_of_le hp, readLE_of_le hq]
      simp only [Option.bind_eq_bind, Option.bind_some, Nat.xor_eq_zero_iff, read_eq_iff hp hq]
      by_cases heq : Buffer.read buf p 8 = Buffer.read buf q 8
      · rw [if_pos heq]
        exact ih (h.next hp heq) (by omega) (by omega)
      · rw [if_neg heq, nbCommonBytes_xor hp hq heq]
        refine ⟨true, _, _, rfl, fun _ => ?_, fun h => by cases h⟩
        rw [h.count]
        omega
    · rw [if_neg hmore]
      exact ⟨false, p, q, rfl, fun hfound => (by cases hfound), fun _ => ⟨h, by omega⟩⟩

theorem compareStep_spec (h : Agrees buf pIn pMatch p q) (hmatch : pMatch ≤ pIn)
    (hend : pBound ≤ buf.length) (hn : 0 < n)
    (hfew : min (pBound - p) (commonPrefix (buf.drop p) (buf.drop q)) < 2 * n) :
    ∃ p' q', compareStep buf pBound n p q = some (p', q') ∧ Agrees buf pIn pMatch p' q' ∧
      min (pBound - p') (commonPrefix (buf.drop p') (buf.drop q')) < n := by
  have hle := h.le
  have hsub := h.sub_eq
  rw [compareStep]
  by_cases hroom : p + (n - 1) < pBound
  · have hp : p + n ≤ buf.length := by omega
    have hq : q + n ≤ buf.length := by omega
    rw [if_pos hroom, readLE_of_le hp, readLE_of_le hq]
    simp only [Option.bind_eq_bind, Option.bind_some, read_eq_iff hp hq]
    by_cases heq : Buffer.read buf p n = Buffer.read buf q n
    · have hcount := commonPrefix_drop_of_eq hp heq
      rw [if_pos heq]
      exact ⟨p + n, q + n, rfl, h.next hp heq, by omega⟩
    · have hlt := (commonPrefix_drop_of_ne hp hq heq).2
      rw [if_neg heq]
      exact ⟨p, q, rfl, h, by omega⟩
  · rw [if_neg hroom]
    exact ⟨p, q, rfl, h, by omega⟩

/-- **`ZS_countBound` counts** the equal bytes up to its bound. -/
theorem countBound_spec (hmatch : pMatch ≤ pIn) (hbound : pIn ≤ pBound) (hpEnd : pBound ≤ pEnd)
    (hend : pEnd ≤ buf.length) :
    countBound buf pIn pMatch pBound pEnd =
      some (min (pBound - pIn) (commonPrefix (buf.drop pIn) (buf.drop pMatch))) := by
  obtain ⟨found, p, q, hrun, hfound, hmore⟩ := @countWords_spec buf pIn pMatch pBound pEnd hmatch
    hend (pBound - pIn + 1) pIn pMatch (Agrees.start buf pIn pMatch) (by omega) (by omega)
  rw [countBound, if_pos ⟨hmatch, hpEnd, hbound⟩]
  simp only [hrun, Option.bind_eq_bind, Option.bind_some]
  cases found with
  | true =>
    rw [if_pos rfl, hfound rfl]
  | false =>
    rw [if_neg Bool.false_ne_true]
    obtain ⟨h, hlimit⟩ := hmore rfl
    have hle : pBound ≤ buf.length := hpEnd.trans hend
    have hcount := commonPrefix_le_left (buf.drop p) (buf.drop q)
    rw [List.length_drop] at hcount
    obtain ⟨p₁, q₁, hrun₁, h₁, hfew₁⟩ := @compareStep_spec buf pIn pMatch pBound p q 4 h hmatch hle
      (by omega) (by omega)
    obtain ⟨p₂, q₂, hrun₂, h₂, hfew₂⟩ := @compareStep_spec buf pIn pMatch pBound p₁ q₁ 2 h₁ hmatch
      hle (by omega) hfew₁
    obtain ⟨p₃, q₃, hrun₃, h₃, hfew₃⟩ := @compareStep_spec buf pIn pMatch pBound p₂ q₂ 1 h₂ hmatch
      hle (by omega) hfew₂
    simp only [hrun₁, hrun₂, hrun₃, Option.bind_some]
    have hcount₃ := h₃.count
    congr 1
    omega

end Counting

end OpenZL.Codecs.Count
