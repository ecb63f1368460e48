import Mathlib.Algebra.GroupWithZero.Nat
import OpenZL.Codecs.WildCopy
import Mathlib.Algebra.BigOperators.Group.List.Basic

/-!
# Prefix decoder

`decode_prefix_kernel.c`: each field is some bytes of the field before it and a suffix.

Principal result: `blendv_blendMasks`.
-/

namespace OpenZL.Codecs.Prefix

open OpenZL.Lib OpenZL.Codecs.Copy

/-- What is said about a field: `eltWidths[i]` and `matchSizes[i]`. -/
structure Element where
  eltWidth : Nat
  matchSize : Nat
  eltWidth_lt : eltWidth < 2 ^ 32
  matchSize_lt : matchSize < 2 ^ 32
  deriving DecidableEq, Repr

/-- The bytes of a field. -/
def Element.size (e : Element) : Nat := e.matchSize + e.eltWidth

/-- The suffixes, one behind the other, and what is said about the fields. -/
structure Input where
  suffixes : List UInt8
  elts : List Element
  length_suffixes : suffixes.length = (elts.map Element.eltWidth).sum

/-- `ZS_calcOriginalPrefixSize` -/
def calcOriginalPrefixSize (matchSizes : List Nat) (eltWidthsSum : Nat) : Nat :=
  matchSizes.foldl (fun dstSize matchSize => (dstSize + matchSize) % 2 ^ 64) (eltWidthsSum % 2 ^ 64)

/-- The size of the output of an input. -/
def Input.outSize (input : Input) : Nat :=
  calcOriginalPrefixSize (input.elts.map Element.matchSize) (input.elts.map Element.eltWidth).sum

/-- How the decoder may stop: with an error, or in a state that C leaves undefined. -/
inductive Stop
  | corruption
  | undefined
  deriving DecidableEq, Repr

/-- How a field is copied: by `ZS_decodePrefix_fallback`, or in the loop of `ZS_decodePrefix`
without or with AVX2. -/
inductive Path
  | fallback
  | portable
  | avx2
  deriving DecidableEq, Repr

/-- The locals of the loops, with the output and the field sizes written. -/
structure State where
  out : List UInt8
  fieldSizes : List Nat
  suffixPos : Nat
  prevOut : Nat
  currOut : Nat
  prevFieldSize : Nat
  vec : List UInt8
  deriving DecidableEq, Repr

/-- The row of `blendMasks` for a match size. -/
def blendMasks (matchSize : Nat) : List UInt8 :=
  List.replicate matchSize 0x00 ++ List.replicate (32 - matchSize) 0xFF

/-- `_mm256_blendv_epi8` -/
def blendv (a b mask : List UInt8) : List UInt8 :=
  List.zipWith (fun ab m => if m ≥ 0x80 then ab.2 else ab.1) (a.zip b) mask

/-- The copy of a field: the output and the register. -/
def copyField (suffixes : List UInt8) (path : Path) (e : Element) (s : State) :
    Option (List UInt8 × List UInt8) :=
  match path with
  | .fallback => do
      let out ← memcpy s.out s.currOut none s.prevOut e.matchSize
      let out ← memcpy out (s.currOut + e.matchSize) (some suffixes) s.suffixPos e.eltWidth
      some (out, s.vec)
  | .portable => do
      let out ← memcpy s.out s.currOut none s.prevOut e.matchSize
      let out ← wildcopy out (s.currOut + e.matchSize) (some suffixes) s.suffixPos e.eltWidth
      some (out, s.vec)
  | .avx2 =>
      if e.matchSize ≤ 32 then
        -- `currSuffixPtr - currMatchSize` lies in the suffixes
        if e.matchSize ≤ s.suffixPos then do
          let data ← Buffer.load suffixes (s.suffixPos - e.matchSize) 32
          let vec := blendv s.vec data (blendMasks e.matchSize)
          let out ← Buffer.store s.out s.currOut vec
          if e.size % 2 ^ 32 > 32 then do
            let remSuffix := e.size % 2 ^ 32 - 32
            let out ← wildcopy out (s.currOut + 32) (some suffixes)
              (s.suffixPos + (e.eltWidth - remSuffix)) remSuffix
            some (out, vec)
          else some (out, vec)
        else none
      else do
        let out ← wildcopy s.out s.currOut none s.prevOut e.matchSize
        let out ← wildcopy out (s.currOut + e.matchSize) (some suffixes) s.suffixPos e.eltWidth
        some (out, s.vec)

/-- The body of the loops. -/
def decodeField (suffixes : List UInt8) (path : Path) (e : Element) (s : State) :
    Except Stop State :=
  if e.matchSize > s.prevFieldSize then .error .corruption
  else
    match copyField suffixes path e s with
    | none => .error .undefined
    | some (out, vec) =>
        -- `ZL_overflowAddU32` stores the low bits and tells of the carry
        let prevFieldSize := e.size % 2 ^ 32
        if e.size ≥ 2 ^ 32 then .error .corruption
        else .ok
          { out := out
            fieldSizes := s.fieldSizes ++ [prevFieldSize]
            suffixPos := s.suffixPos + e.eltWidth
            prevOut := s.currOut
            currOut := s.currOut + prevFieldSize
            prevFieldSize := prevFieldSize
            vec := vec }

/-- A loop over fields. -/
def decodeFields (suffixes : List UInt8) (path : Path) : List Element → State → Except Stop State
  | [], s => .ok s
  | e :: elts, s =>
      match decodeField suffixes path e s with
      | .error stop => .error stop
      | .ok s => decodeFields suffixes path elts s

/-- `nbWildcopies`: the loop that counts fields down until enough suffixes are behind them. -/
def nbWildcopies (eltWidths : List Nat) : Nat → Nat → Nat
  | 0, _ => 0
  | n + 1, suffixSum =>
      if suffixSum < ZS_WILDCOPY_OVERLENGTH then
        nbWildcopies eltWidths n (suffixSum + eltWidths.getD n 0)
      else n + 1

/-- `nbWildcopies` of an input. -/
def Input.nbWildcopies (input : Input) : Nat :=
  Prefix.nbWildcopies (input.elts.map Element.eltWidth) input.elts.length 0

/-- How the first fields are copied. -/
def wildPath (avx2 : Bool) : Path := if avx2 then .avx2 else .portable

/-- `ZS_decodePrefix`: the output and the field sizes. -/
def decodePrefix (avx2 : Bool) (input : Input) (out : List UInt8) :
    Except Stop (List UInt8 × List Nat) :=
  let start : State :=
    { out := out
      fieldSizes := []
      suffixPos := 0
      prevOut := 0
      currOut := 0
      prevFieldSize := 0
      vec := List.replicate 32 0 }
  match decodeFields input.suffixes (wildPath avx2) (input.elts.take input.nbWildcopies) start with
  | .error stop => .error stop
  | .ok s =>
      match decodeFields input.suffixes .fallback (input.elts.drop input.nbWildcopies) s with
      | .error stop => .error stop
      | .ok s => .ok (s.out, s.fieldSizes)

/-- The fields of the plain loop, behind the field `prev`. -/
def plainFields : List UInt8 → List Element → List UInt8 → List (List UInt8)
  | _, [], _ => []
  | suffixes, e :: elts, prev =>
      (prev.take e.matchSize ++ suffixes.take e.eltWidth) ::
        plainFields (suffixes.drop e.eltWidth) elts
          (prev.take e.matchSize ++ suffixes.take e.eltWidth)

/-- The size of the field before the `i`-th. -/
def prevSize (elts : List Element) (i : Nat) : Nat := (0 :: elts.map Element.size).getD i 0

/-- Some match size exceeds the field before, or some field size has more than 32 bits. -/
def Bad (elts : List Element) : Prop :=
  ∃ i e, elts[i]? = some e ∧ (e.matchSize > prevSize elts i ∨ e.size ≥ 2 ^ 32)

/-- The bytes of the output that the copy of a field takes, from the start of the field. -/
def reach : Path → Element → Nat
  | .fallback, e => e.size
  | .portable, e => e.matchSize + wildLength e.eltWidth
  | .avx2, e =>
      if e.matchSize ≤ 32 then
        if e.size % 2 ^ 32 > 32 then 32 + wildLength (e.size % 2 ^ 32 - 32) else 32
      else max (wildLength e.matchSize) (e.matchSize + wildLength e.eltWidth)

/-- The path and what is said of each field. -/
def Input.plan (input : Input) (avx2 : Bool) : List (Path × Element) :=
  (input.elts.take input.nbWildcopies).map (fun e => (wildPath avx2, e)) ++
    (input.elts.drop input.nbWildcopies).map fun e => (.fallback, e)

/-- From the position `pos` on, behind a field of `prevFieldSize` bytes, the fields up to the first
bad one are copied within `outSize` bytes. -/
def FitsFrom (outSize : Nat) : List (Path × Element) → Nat → Nat → Prop
  | [], _, _ => True
  | (path, e) :: plan, prevFieldSize, pos =>
      e.matchSize ≤ prevFieldSize → pos + reach path e ≤ outSize ∧
        (e.size < 2 ^ 32 → FitsFrom outSize plan e.size (pos + e.size))

/-- All fields up to the first bad one are copied within the output. -/
def Fits (avx2 : Bool) (input : Input) : Prop := FitsFrom input.outSize (input.plan avx2) 0 0

theorem zipWith_blend_replicate (mask : UInt8) (n : Nat) : ∀ {a b : List UInt8},
    a.length = n → b.length = n →
      List.zipWith (fun (ab : UInt8 × UInt8) m => if m ≥ 0x80 then ab.2 else ab.1) (a.zip b)
        (List.replicate n mask) = if mask ≥ 0x80 then b else a := by
  induction n with
  | zero =>
    intro a b ha hb
    rw [List.length_eq_zero_iff.1 ha, List.length_eq_zero_iff.1 hb, ite_self]
    rfl
  | succ n ih =>
    intro a b ha hb
    obtain ⟨x, a, rfl⟩ := List.exists_cons_of_length_eq_add_one ha
    obtain ⟨y, b, rfl⟩ := List.exists_cons_of_length_eq_add_one hb
    rw [List.replicate_succ, List.zip_cons_cons, List.zipWith_cons_cons,
      ih (Nat.succ.inj ha) (Nat.succ.inj hb)]
    split <;> rfl

theorem blendv_blendMasks {a b : List UInt8} {matchSize : Nat} (ha : a.length = 32)
    (hb : b.length = 32) (h : matchSize ≤ 32) :
    blendv a b (blendMasks matchSize) = a.take matchSize ++ b.drop matchSize := by
  have hsplit : a.zip b = (a.take matchSize).zip (b.take matchSize) ++
      (a.drop matchSize).zip (b.drop matchSize) := by
    have hlen : (a.take matchSize).length = (b.take matchSize).length := by
      rw [List.length_take, List.length_take, ha, hb]
    conv_lhs => rw [← List.take_append_drop matchSize a, ← List.take_append_drop matchSize b]
    exact List.zip_append hlen
  have hta : (a.take matchSize).length = matchSize := by rw [List.length_take]; omega
  have htb : (b.take matchSize).length = matchSize := by rw [List.length_take]; omega
  have hda : (a.drop matchSize).length = 32 - matchSize := by rw [List.length_drop, ha]
  have hdb : (b.drop matchSize).length = 32 - matchSize := by rw [List.length_drop, hb]
  have hzip : ((a.take matchSize).zip (b.take matchSize)).length =
      (List.replicate matchSize (0x00 : UInt8)).length := by
    rw [List.length_zip, hta, htb, List.length_replicate, Nat.min_self]
  rw [blendv, blendMasks, hsplit, List.zipWith_append hzip, zipWith_blend_replicate _ _ hta htb,
    zipWith_blend_replicate _ _ hda hdb]
  rfl

end OpenZL.Codecs.Prefix
