import OpenZL.Codecs.Count
import OpenZL.Codecs.PrefixFields

/-!
# Prefix encoder

`encode_prefix_kernel.c`: for each string, how many bytes it shares with the one before, and the
rest of it.

Principal results: `encodeField_spec`, `encodePrefix_spec`, `plainFields_encoded`.
-/

namespace OpenZL.Codecs.Prefix

open OpenZL.Lib OpenZL.Codecs.Copy OpenZL.Codecs.Count

/-- `ZS_getPrefixMatchSize` -/
def getPrefixMatchSize (src : List UInt8) (prev prevSize curr currSize endPtr : Nat) :
    Option Nat := do
  let maxMatchLen := min prevSize currSize
  let count ← countBound src curr prev (curr + maxMatchLen) endPtr
  some (count % 2 ^ 32)

/-- The locals of the loops, with what they have written. -/
structure Encoder where
  suffixes : List UInt8
  fieldSizes : List Nat
  matchSizes : List Nat
  prevElt : Nat
  currElt : Nat
  currSuffix : Nat
  prevEltWidth : Nat
  deriving DecidableEq, Repr

/-- The copy of the rest of a string: a wild copy, or `memcpy` in `ZS_encodePrefix_fallback`. -/
def copyRest (wild : Bool) (suffixes : List UInt8) (currSuffix : Nat) (src : List UInt8)
    (nextR unmatchedSize : Nat) : Option (List UInt8) :=
  if wild then wildcopy suffixes currSuffix (some src) nextR unmatchedSize
  else memcpy suffixes currSuffix (some src) nextR unmatchedSize

/-- The body of the loops. -/
def encodeField (src : List UInt8) (rEnd : Nat) (wild : Bool) (currEltWidth : Nat) (e : Encoder) :
    Option Encoder := do
  let matchSize ←
    getPrefixMatchSize src e.prevElt e.prevEltWidth e.currElt currEltWidth rEnd
  let unmatchedSize := currEltWidth - matchSize
  let nextR := e.currElt + matchSize
  let suffixes ← copyRest wild e.suffixes e.currSuffix src nextR unmatchedSize
  some
    { suffixes := suffixes
      fieldSizes := e.fieldSizes ++ [unmatchedSize]
      matchSizes := e.matchSizes ++ [matchSize]
      prevElt := e.currElt
      currElt := e.currElt + currEltWidth
      currSuffix := e.currSuffix + unmatchedSize
      prevEltWidth := currEltWidth }

/-- A loop over strings. -/
def encodeFields (src : List UInt8) (rEnd : Nat) (wild : Bool) :
    List Nat → Encoder → Option Encoder
  | [], e => some e
  | width :: eltWidths, e => do
      let e ← encodeField src rEnd wild width e
      encodeFields src rEnd wild eltWidths e

/-- `ZS_encodePrefix`: the buffer of the suffixes, their sizes and the match sizes. -/
def encodePrefix (suffixes src : List UInt8) (eltWidths : List Nat) (fieldSizesSum : Nat) :
    Option (List UInt8 × List Nat × List Nat) := do
  let n := nbWildcopies eltWidths eltWidths.length 0
  let e ← encodeFields src fieldSizesSum true (eltWidths.take n)
    { suffixes := suffixes
      fieldSizes := []
      matchSizes := []
      prevElt := 0
      currElt := 0
      currSuffix := 0
      prevEltWidth := 0 }
  let e ← encodeFields src fieldSizesSum false (eltWidths.drop n) e
  some (e.suffixes, e.fieldSizes, e.matchSizes)

/-- Behind the string `prev`: how many bytes each string shares with the one before, and its other
bytes. -/
def encoded : List UInt8 → List (List UInt8) → List (Nat × List UInt8)
  | _, [] => []
  | prev, x :: strings =>
      (commonPrefix x prev, x.drop (commonPrefix x prev)) :: encoded x strings

/-- The strings, one behind the other, behind what was encoded of them. -/
structure Encoded (src : List UInt8) (done : List (Nat × List UInt8)) (prev : List UInt8)
    (e : Encoder) : Prop where
  length_suffixes : e.suffixes.length = src.length
  take_suffixes : e.suffixes.take e.currSuffix = (done.map Prod.snd).flatten
  currSuffix_eq : e.currSuffix = (done.map Prod.snd).flatten.length
  fieldSizes_eq : e.fieldSizes = done.map fun d => d.2.length
  matchSizes_eq : e.matchSizes = done.map Prod.fst
  currSuffix_le : e.currSuffix ≤ e.currElt
  currElt_le : e.currElt ≤ src.length
  prevElt_le : e.prevElt ≤ e.currElt
  prevEltWidth_eq : e.prevEltWidth = prev.length
  read_prev : Buffer.read src e.prevElt prev.length = prev

section EncodeField

variable {src prev x : List UInt8} {done : List (Nat × List UInt8)} {e : Encoder}

theorem Encoded.matchSize (h : Encoded src done prev e)
    (hroom : e.currElt + x.length ≤ src.length)
    (hread : Buffer.read src e.currElt x.length = x) (hlt : x.length < 2 ^ 32) :
    getPrefixMatchSize src e.prevElt e.prevEltWidth e.currElt x.length src.length =
      some (commonPrefix x prev) := by
  have hle := h.prevElt_le
  obtain ⟨m, hm⟩ : ∃ m, min prev.length x.length = m := ⟨_, rfl⟩
  have hx : (src.drop e.currElt).take m = x.take m := by
    have htake := congrArg (List.take m) hread
    rwa [Buffer.read_eq, List.take_take, Nat.min_eq_left (by omega)] at htake
  have hprev : (src.drop e.prevElt).take m = prev.take m := by
    have htake := congrArg (List.take m) h.read_prev
    rwa [Buffer.read_eq, List.take_take, Nat.min_eq_left (by omega)] at htake
  have hleft := commonPrefix_le_left x prev
  have hright := commonPrefix_le_right x prev
  have hcount : min m (commonPrefix (src.drop e.currElt) (src.drop e.prevElt)) =
      commonPrefix x prev := by
    rw [← commonPrefix_take, hx, hprev, commonPrefix_take]
    omega
  have hspec := @countBound_spec src e.currElt e.prevElt (e.currElt + m) src.length hle
    (Nat.le_add_right _ _) (by omega) (Nat.le_refl _)
  rw [Nat.add_sub_cancel_left, hcount] at hspec
  rw [getPrefixMatchSize, h.prevEltWidth_eq, hm, hspec, Option.bind_eq_bind, Option.bind_some,
    Nat.mod_eq_of_lt (by omega)]

theorem copyRest_spec {wild : Bool} {suffixes : List UInt8} {pos ip length : Nat}
    (hpos : pos + length ≤ suffixes.length) (hip : ip + length ≤ src.length)
    (hwild : wild = true → pos + length + 32 ≤ suffixes.length ∧ ip + length + 32 ≤ src.length) :
    ∃ xs, copyRest wild suffixes pos src ip length = some (Buffer.write suffixes pos xs) ∧
      length ≤ xs.length ∧ pos + xs.length ≤ suffixes.length ∧
        xs.take length = Buffer.read src ip length := by
  cases wild with
  | true =>
    obtain ⟨hpos', hip'⟩ := hwild rfl
    have hover := wildLength_le (Nat.le_refl (length + 32))
    obtain ⟨xs, hrun, hxs, htake⟩ := @wildcopy_spec (some src) suffixes pos ip length nofun
      (by omega) fun _ => by
        rw [Option.getD_some]
        omega
    have hle := le_wildLength length
    exact ⟨xs, by rw [copyRest, if_pos rfl, hrun], by omega, by omega, htake nofun⟩
  | false =>
    have hlen : (Buffer.read src ip length).length = length := Buffer.length_read hip
    refine ⟨Buffer.read src ip length, ?_, hlen.ge, by omega, ?_⟩
    · rw [copyRest, if_neg nofun, memcpy_other hip, Buffer.store_of_le (by omega)]
    · rw [List.take_of_length_le hlen.le]

/-- **One string.** -/
theorem encodeField_spec (h : Encoded src done prev e) {wild : Bool}
    (hroom : e.currElt + x.length ≤ src.length)
    (hwild : wild = true → e.currElt + x.length + 32 ≤ src.length)
    (hread : Buffer.read src e.currElt x.length = x) (hlt : x.length < 2 ^ 32) :
    ∃ e', encodeField src src.length wild x.length e = some e' ∧
      Encoded src (done ++ [(commonPrefix x prev, x.drop (commonPrefix x prev))]) x e' ∧
        e'.currElt = e.currElt + x.length := by
  obtain ⟨m, hm⟩ : ∃ m, commonPrefix x prev = m := ⟨_, rfl⟩
  have hle : m ≤ x.length := hm ▸ commonPrefix_le_left x prev
  have hsuffix := h.currSuffix_le
  have hlen := h.length_suffixes
  have hcurr := h.currSuffix_eq
  obtain ⟨xs, hrun, hxs, hfit, htake⟩ := @copyRest_spec src wild e.suffixes e.currSuffix
    (e.currElt + m) (x.length - m) (by omega) (by omega) fun hw => by
      have := hwild hw
      omega
  have hrest : Buffer.read src (e.currElt + m) (x.length - m) = x.drop m := by
    have hdrop := congrArg (List.drop m) hread
    rwa [Buffer.read_eq, List.drop_take, List.drop_drop] at hdrop
  rw [hrest] at htake
  rw [encodeField, h.matchSize hroom hread hlt, hm, Option.bind_eq_bind, Option.bind_some]
  dsimp only
  rw [hrun, Option.bind_eq_bind, Option.bind_some]
  refine ⟨_, rfl, ?_, rfl⟩
  constructor
  · exact (Buffer.length_write hfit).trans hlen
  · simp only [List.map_append, List.map_singleton, List.flatten_append, List.flatten_singleton]
    rw [Buffer.take_write (by omega) hxs, h.take_suffixes, htake]
  · simp only [List.map_append, List.map_singleton, List.flatten_append, List.flatten_singleton,
      List.length_append, List.length_drop]
    rw [hcurr]
  · simp only [List.map_append, List.map_singleton, List.length_drop]
    rw [h.fieldSizes_eq]
  · simp only [List.map_append, List.map_singleton]
    rw [h.matchSizes_eq]
  · dsimp only
    omega
  · exact hroom
  · exact Nat.le_add_right _ _
  · rfl
  · exact hread

end EncodeField

section EncodeFields

variable {src : List UInt8}

theorem encodeFields_spec {wild : Bool} (strings later : List (List UInt8)) :
    ∀ {done : List (Nat × List UInt8)} {prev : List UInt8} {e : Encoder},
      Encoded src done prev e →
      src.drop e.currElt = (strings ++ later).flatten →
      (wild = true → strings = [] ∨ 32 ≤ later.flatten.length) →
      (∀ x ∈ strings, x.length < 2 ^ 32) →
        ∃ e' done' prev', encodeFields src src.length wild (strings.map List.length) e = some e' ∧
          Encoded src (done ++ done') prev' e' ∧ src.drop e'.currElt = later.flatten ∧
            encoded prev (strings ++ later) = done' ++ encoded prev' later := by
  induction strings with
  | nil =>
    intro done prev e h hsrc _ _
    exact ⟨e, [], prev, rfl, by rwa [List.append_nil], hsrc, rfl⟩
  | cons x strings ih =>
    intro done prev e h hsrc hwild hlt
    have hlen := congrArg List.length hsrc
    simp only [List.cons_append, List.flatten_cons, List.flatten_append, List.length_append,
      List.length_drop] at hlen hsrc
    have hread : Buffer.read src e.currElt x.length = x := by
      rw [Buffer.read_eq, hsrc, List.take_left' rfl]
    have hx := hlt x List.mem_cons_self
    have hle := h.currElt_le
    obtain ⟨e₁, hrun, h₁, hcurr⟩ := encodeField_spec h (by omega) (fun hw => by
      have := (hwild hw).resolve_left (List.cons_ne_nil _ _)
      omega) hread hx
    obtain ⟨e₂, done', prev', hrun', h₂, hsrc', hencoded⟩ := ih h₁
      (by rw [hcurr, ← List.drop_drop, hsrc, List.drop_left' rfl, List.flatten_append])
      (fun hw => Or.inr ((hwild hw).resolve_left (List.cons_ne_nil _ _)))
      fun y hy => hlt y (List.mem_cons_of_mem _ hy)
    refine ⟨e₂, (commonPrefix x prev, x.drop (commonPrefix x prev)) :: done', prev', ?_, ?_, hsrc',
      ?_⟩
    · rw [List.map_cons, encodeFields, hrun, Option.bind_eq_bind, Option.bind_some, hrun']
    · rwa [List.append_assoc] at h₂
    · rw [List.cons_append, encoded, hencoded]
      rfl

end EncodeFields

/-- **What the encoder leaves.** -/
theorem encodePrefix_spec {strings : List (List UInt8)} (hlt : ∀ x ∈ strings, x.length < 2 ^ 32)
    {suffixes : List UInt8} (hlen : suffixes.length = strings.flatten.length) :
    ∃ suffixes', encodePrefix suffixes strings.flatten (strings.map List.length)
        strings.flatten.length = some (suffixes', (encoded [] strings).map (fun d => d.2.length),
          (encoded [] strings).map Prod.fst) ∧
      suffixes'.take ((encoded [] strings).map fun d => d.2.length).sum =
        ((encoded [] strings).map Prod.snd).flatten := by
  obtain ⟨n, hn⟩ : ∃ n, nbWildcopies (strings.map List.length) (strings.map List.length).length 0 =
    n := ⟨_, rfl⟩
  have hroom := @nbWildcopies_spec (strings.map List.length) (strings.map List.length).length 0
    (Nat.le_refl _) (by rw [List.drop_length]; rfl)
  rw [hn, ← List.map_drop, ← List.length_flatten] at hroom
  have hall : strings.take n ++ strings.drop n = strings := List.take_append_drop n strings
  obtain ⟨e₁, done₁, prev₁, hrun₁, h₁, hsrc₁, hencoded₁⟩ := @encodeFields_spec strings.flatten true
    (strings.take n) (strings.drop n) [] []
    { suffixes := suffixes
      fieldSizes := []
      matchSizes := []
      prevElt := 0
      currElt := 0
      currSuffix := 0
      prevEltWidth := 0 }
    ⟨hlen, rfl, rfl, rfl, rfl, Nat.le_refl _, Nat.zero_le _, Nat.le_refl _, rfl, rfl⟩
    (by rw [hall]; rfl)
    (fun _ => hroom.imp_left fun h => by rw [h, List.take_zero])
    fun x hx => hlt x (List.mem_of_mem_take hx)
  obtain ⟨e₂, done₂, prev₂, hrun₂, h₂, -, hencoded₂⟩ := @encodeFields_spec strings.flatten false
    (strings.drop n) [] _ _ e₁ h₁ (by rw [hsrc₁, List.append_nil]) nofun
    fun x hx => hlt x (List.mem_of_mem_drop hx)
  have hdone : encoded [] strings = [] ++ done₁ ++ done₂ := by
    rw [List.append_nil, encoded, List.append_nil] at hencoded₂
    rw [hall, hencoded₂] at hencoded₁
    exact hencoded₁
  rw [← hdone] at h₂
  refine ⟨e₂.suffixes, ?_, ?_⟩
  · rw [encodePrefix, hn, ← List.map_take, ← List.map_drop]
    simp only [Option.bind_eq_bind, hrun₁, hrun₂, Option.bind_some]
    rw [h₂.fieldSizes_eq, h₂.matchSizes_eq]
  · have htake := h₂.take_suffixes
    have hmap : ((encoded [] strings).map Prod.snd).map List.length =
        (encoded [] strings).map fun d => d.2.length := by
      rw [List.map_map]
      rfl
    rwa [h₂.currSuffix_eq, List.length_flatten, hmap] at htake

/-- **The plain loop gives the strings back**, and finds nothing bad. -/
theorem plainFields_encoded {strings : List (List UInt8)} : ∀ {prev : List UInt8}
    {elts : List Element}, (∀ x ∈ strings, x.length < 2 ^ 32) →
    elts.map Element.matchSize = (encoded prev strings).map Prod.fst →
    elts.map Element.eltWidth = (encoded prev strings).map (fun d => d.2.length) →
      plainFields ((encoded prev strings).map Prod.snd).flatten elts prev = strings ∧
        ¬BadFrom elts prev.length := by
  induction strings with
  | nil =>
    intro prev elts _ hmatch _
    rw [encoded, List.map_nil, List.map_eq_nil_iff] at hmatch
    rw [hmatch]
    exact ⟨rfl, id⟩
  | cons x strings ih =>
    intro prev elts hlt hmatch hwidth
    cases elts with
    | nil => cases hmatch
    | cons e elts =>
      rw [encoded, List.map_cons, List.map_cons, List.cons_eq_cons] at hmatch hwidth
      have hm : e.matchSize = commonPrefix x prev := hmatch.1
      have hw : e.eltWidth = (x.drop (commonPrefix x prev)).length := hwidth.1
      have hfield : prev.take e.matchSize ++ x.drop (commonPrefix x prev) = x := by
        rw [hm, ← take_commonPrefix, List.take_append_drop]
      have hsize : e.size = x.length := by
        have hle := commonPrefix_le_left x prev
        rw [Element.size, hm, hw, List.length_drop]
        omega
      have hle := commonPrefix_le_right x prev
      obtain ⟨hplain, hbad⟩ := @ih x elts (fun y hy => hlt y (List.mem_cons_of_mem _ hy)) hmatch.2
        hwidth.2
      rw [encoded, List.map_cons, List.flatten_cons, plainFields]
      rw [List.take_left' hw.symm, List.drop_left' hw.symm, hfield, hplain, BadFrom, hsize]
      refine ⟨rfl, ?_⟩
      rintro (h | h | h)
      · omega
      · exact absurd (hlt x List.mem_cons_self) (Nat.not_lt.2 h)
      · exact hbad h

end OpenZL.Codecs.Prefix
