import OpenZL.Codecs.PrefixEncode

/-!
# Decoding of prefixes

The decoder against the plain loop, on every path and for all inputs, and against the encoder.

Principal results: `fits_of_totalSize`, `meets_iff`, `decodePrefix_encodePrefix`,
`decodePrefix_correct`.
-/

namespace OpenZL.Codecs.Prefix

open OpenZL.Lib OpenZL.Codecs.Copy

theorem widths_le_totalSize (elts : List Element) : widths elts ≤ totalSize elts := by
  rw [totalSize_eq]
  exact Nat.le_add_right _ _

theorem totalSize_cons (e : Element) (elts : List Element) :
    totalSize (e :: elts) = e.size + totalSize elts := by
  rw [totalSize, List.map_cons, List.sum_cons, totalSize]

theorem totalSize_take_add (elts : List Element) (n : Nat) :
    totalSize (elts.take n) + totalSize (elts.drop n) = totalSize elts := by
  rw [totalSize, totalSize, ← List.sum_append, ← List.map_append, List.take_append_drop, totalSize]

theorem reach_le (path : Path) (e : Element) : reach path e ≤ e.size + slack path := by
  have hsize : e.size = e.matchSize + e.eltWidth := rfl
  have hwidth := wildLength_le (Nat.le_refl (e.eltWidth + 32))
  have hmatch := wildLength_le (Nat.le_refl (e.matchSize + 32))
  cases path with
  | fallback => exact Nat.le_refl _
  | portable =>
    rw [reach, slack]
    omega
  | avx2 =>
    rw [reach, slack]
    split
    · split
      · have hrest := wildLength_le (Nat.le_refl (e.size % 2 ^ 32 - 32 + 32))
        omega
      · omega
    · omega

theorem fitsFrom_append {path : Path} {outSize : Nat} {plan : List (Path × Element)}
    (elts : List Element) : ∀ {prevFieldSize pos : Nat},
      (elts ≠ [] → pos + totalSize elts + slack path ≤ outSize) →
      (∀ last, FitsFrom outSize plan last (pos + totalSize elts)) →
        FitsFrom outSize (elts.map (fun e => (path, e)) ++ plan) prevFieldSize pos := by
  induction elts with
  | nil =>
    intro prevFieldSize pos _ hplan
    exact hplan prevFieldSize
  | cons e elts ih =>
    intro prevFieldSize pos hroom hplan
    have hroom := hroom (List.cons_ne_nil e elts)
    have hreach := reach_le path e
    rw [totalSize_cons] at hroom hplan
    refine fun _ => ⟨by omega, fun _ => ih (fun _ => by omega) fun last => ?_⟩
    rw [Nat.add_assoc]
    exact hplan last

/-- **Fields that take less than `2 ^ 64` bytes fit.** -/
theorem fits_of_totalSize (avx2 : Bool) {input : Input} (h : totalSize input.elts < 2 ^ 64) :
    Fits avx2 input := by
  have hsize : input.outSize = totalSize input.elts := by
    rw [outSize_eq, Nat.mod_eq_of_lt h]
  have htotal := totalSize_take_add input.elts input.nbWildcopies
  have hwidths := widths_take_add input.elts input.nbWildcopies
  have hdrop := widths_le_totalSize (input.elts.drop input.nbWildcopies)
  have hlen : input.suffixes.length = widths input.elts := input.length_suffixes
  have hlast : ∀ last, FitsFrom input.outSize
      ((input.elts.drop input.nbWildcopies).map (fun e => (Path.fallback, e)) ++ []) last
        (totalSize (input.elts.take input.nbWildcopies)) := by
    intro last
    refine fitsFrom_append _ (fun _ => ?_) fun _ => trivial
    rw [slack]
    omega
  refine fitsFrom_append _ (fun hne => ?_) fun last => ?_
  · have hroom := input.room avx2 hne
    omega
  · have := hlast last
    rwa [List.append_nil, ← Nat.zero_add (totalSize _)] at this

/-- An error exactly for bad inputs, and the fields of the plain loop otherwise. -/
def Meets (avx2 : Bool) (input : Input) (out : List UInt8) : Prop :=
  (decodePrefix avx2 input out = .error .corruption ↔ Bad input.elts) ∧
  (¬Bad input.elts → decodePrefix avx2 input out =
    .ok ((plainFields input.suffixes input.elts []).flatten,
      (plainFields input.suffixes input.elts []).map List.length))

theorem meets_iff (avx2 : Bool) (input : Input) {out : List UInt8}
    (hout : out.length = input.outSize) :
    Meets avx2 input out ↔ totalSize input.elts < 2 ^ 64 ∨ Bad input.elts ∧ Fits avx2 input := by
  obtain ⟨hleaves, hbad, hgood⟩ := decodePrefix_spec avx2 input hout
  constructor
  · rintro ⟨herror, hok⟩
    by_cases hb : Bad input.elts
    · refine Or.inr ⟨hb, ?_⟩
      by_contra hfits
      rw [hleaves hfits] at herror
      cases herror.2 hb
    · refine Or.inl (hgood ?_ hb).1
      by_contra hfits
      have hrun := hok hb
      rw [hleaves hfits] at hrun
      cases hrun
  · intro h
    have hfits : Fits avx2 input := by
      rcases h with h | h
      · exact fits_of_totalSize avx2 h
      · exact h.2
    refine ⟨⟨fun herror => ?_, hbad hfits⟩, fun hb => (hgood hfits hb).2⟩
    by_contra hb
    rw [(hgood hfits hb).2] at herror
    cases herror

theorem exists_elements {α : Type} (f g : α → Nat) (xs : List α)
    (h : ∀ x ∈ xs, f x < 2 ^ 32 ∧ g x < 2 ^ 32) :
    ∃ elts : List Element,
      elts.map Element.matchSize = xs.map f ∧ elts.map Element.eltWidth = xs.map g := by
  induction xs with
  | nil => exact ⟨[], rfl, rfl⟩
  | cons x xs ih =>
    obtain ⟨elts, hf, hg⟩ := ih fun y hy => h y (List.mem_cons_of_mem _ hy)
    have hx := h x List.mem_cons_self
    exact ⟨⟨g x, f x, hx.2, hx.1⟩ :: elts, by rw [List.map_cons, List.map_cons, hf],
      by rw [List.map_cons, List.map_cons, hg]⟩

theorem encoded_lt {strings : List (List UInt8)} : ∀ {prev : List UInt8},
    (∀ x ∈ strings, x.length < 2 ^ 32) →
      ∀ d ∈ encoded prev strings, d.1 < 2 ^ 32 ∧ d.2.length < 2 ^ 32 := by
  induction strings with
  | nil =>
    intro prev _ d hd
    cases hd
  | cons x strings ih =>
    intro prev hlt d hd
    have hx := hlt x List.mem_cons_self
    rcases List.mem_cons.1 hd with rfl | hd
    · have hle := commonPrefix_le_left x prev
      rw [List.length_drop]
      omega
    · exact ih (fun y hy => hlt y (List.mem_cons_of_mem _ hy)) d hd

theorem decodePrefix_encodePrefix (avx2 : Bool) {strings : List (List UInt8)}
    (hlt : ∀ x ∈ strings, x.length < 2 ^ 32)
    (hsize : strings.flatten.length < 2 ^ 64) {suffixes : List UInt8}
    (hlen : suffixes.length = strings.flatten.length) :
    ∃ suffixes' fieldSizes matchSizes,
      encodePrefix suffixes strings.flatten (strings.map List.length) strings.flatten.length =
        some (suffixes', fieldSizes, matchSizes) ∧
      ∃ input : Input, input.suffixes = suffixes'.take fieldSizes.sum ∧
        input.elts.map Element.eltWidth = fieldSizes ∧
        input.elts.map Element.matchSize = matchSizes ∧
        ∀ out, out.length = input.outSize →
          decodePrefix avx2 input out = .ok (strings.flatten, strings.map List.length) := by
  obtain ⟨suffixes', hrun, htake⟩ := encodePrefix_spec hlt hlen
  obtain ⟨elts, hmatch, hwidth⟩ := exists_elements Prod.fst (fun d => d.2.length)
    (encoded [] strings) (encoded_lt hlt)
  have hflat : ((encoded [] strings).map Prod.snd).flatten.length =
      (elts.map Element.eltWidth).sum := by
    rw [hwidth, List.length_flatten, List.map_map]
    rfl
  obtain ⟨hplain, hbad⟩ := plainFields_encoded hlt hmatch hwidth
  refine ⟨suffixes', _, _, hrun,
    ⟨((encoded [] strings).map Prod.snd).flatten, elts, hflat⟩, htake.symm, hwidth, hmatch,
    fun out hout => ?_⟩
  have hsizes := length_plainFields elts hbad hflat.ge
  rw [hplain] at hsizes
  have htotal : totalSize elts < 2 ^ 64 := by
    rw [totalSize, ← hsizes, ← List.length_flatten]
    exact hsize
  have hrun' := ((decodePrefix_spec avx2 _ hout).2.2 (fits_of_totalSize avx2 htotal)
    fun h => hbad ((bad_iff elts).1 h)).2
  dsimp only at hrun'
  rw [hrun', hplain]

/-- **The decoder meets the plain loop exactly where the size of its output does not wrap around**,
or where a bad field is met before the copies leave the output; and it inverts the encoder. -/
theorem decodePrefix_correct (avx2 : Bool) :
    (∀ (input : Input) (out : List UInt8), out.length = input.outSize →
      (Meets avx2 input out ↔
        totalSize input.elts < 2 ^ 64 ∨ Bad input.elts ∧ Fits avx2 input)) ∧
    (∀ (strings : List (List UInt8)) (suffixes : List UInt8),
      (∀ x ∈ strings, x.length < 2 ^ 32) → strings.flatten.length < 2 ^ 64 →
      suffixes.length = strings.flatten.length →
      ∃ suffixes' fieldSizes matchSizes,
        encodePrefix suffixes strings.flatten (strings.map List.length) strings.flatten.length =
          some (suffixes', fieldSizes, matchSizes) ∧
        ∃ input : Input, input.suffixes = suffixes'.take fieldSizes.sum ∧
          input.elts.map Element.eltWidth = fieldSizes ∧
          input.elts.map Element.matchSize = matchSizes ∧
          ∀ out, out.length = input.outSize →
            decodePrefix avx2 input out = .ok (strings.flatten, strings.map List.length)) := by
  exact ⟨fun input out hout => meets_iff avx2 input hout,
    fun strings suffixes hlt hsize hlen => decodePrefix_encodePrefix avx2 hlt hsize hlen⟩

/-- Two strings, one the beginning of the other. -/
def twoStrings : Input :=
  ⟨[1, 2, 3], [⟨2, 0, by decide, by decide⟩, ⟨1, 2, by decide, by decide⟩], by decide⟩

theorem decodePrefix_correct_two :
    Meets true twoStrings [0, 0, 0, 0, 0] ∧
    ∃ suffixes' fieldSizes matchSizes,
      encodePrefix [0, 0, 0, 0, 0] [1, 2, 1, 2, 3] [2, 3] 5 =
        some (suffixes', fieldSizes, matchSizes) ∧
      ∃ input : Input, input.suffixes = suffixes'.take fieldSizes.sum ∧
        input.elts.map Element.eltWidth = fieldSizes ∧
        input.elts.map Element.matchSize = matchSizes ∧
        ∀ out, out.length = input.outSize →
          decodePrefix true input out = .ok ([1, 2, 1, 2, 3], [2, 3]) :=
  ⟨((decodePrefix_correct true).1 twoStrings [0, 0, 0, 0, 0] (by decide)).2 (Or.inl (by decide)),
    (decodePrefix_correct true).2 [[1, 2], [1, 2, 3]] [0, 0, 0, 0, 0] (by decide) (by decide)
      (by decide)⟩

/-- A field of `2 ^ 32 - 1` bytes, and `n` copies of it. -/
def copies (n : Nat) : List Element :=
  ⟨2 ^ 32 - 1, 0, by decide, by decide⟩ ::
    List.replicate n ⟨0, 2 ^ 32 - 1, by decide, by decide⟩

theorem totalSize_copies (n : Nat) : totalSize (copies n) = (2 ^ 32 - 1) * (n + 1) := by
  rw [copies, totalSize_cons, totalSize, List.map_replicate, List.sum_replicate_nat,
    Element.size, Element.size]
  dsimp only
  omega

theorem widths_copies (n : Nat) : widths (copies n) = 2 ^ 32 - 1 := by
  rw [copies, widths_cons, widths, List.map_replicate, List.sum_replicate_nat,
    Nat.mul_zero, Nat.add_zero]

theorem not_bad_copies (n : Nat) : ¬Bad (copies n) := by
  have hrest : ∀ n, ¬BadFrom (List.replicate n ⟨0, 2 ^ 32 - 1, by decide, by decide⟩)
      (2 ^ 32 - 1) := by
    intro n
    induction n with
    | zero => exact id
    | succ n ih =>
      rw [List.replicate_succ, BadFrom]
      rintro (h | h | h)
      · exact absurd h (Nat.lt_irrefl _)
      · exact absurd h (by decide)
      · exact ih h
  rw [bad_iff, copies, BadFrom]
  rintro (h | h | h)
  · exact absurd h (Nat.lt_irrefl _)
  · exact absurd h (by decide)
  · exact hrest n h

/-- The input that says so. -/
def copiesInput (n : Nat) : Input :=
  ⟨List.replicate (2 ^ 32 - 1) 0, copies n, by rw [List.length_replicate, ← widths, widths_copies]⟩

/-- With `2 ^ 32 + 1` copies the size of the output wraps around. -/
theorem not_meets_copies : ¬∀ (avx2 : Bool) (input : Input) (out : List UInt8),
    out.length = input.outSize → Meets avx2 input out := by
  intro h
  have hmeets := h true (copiesInput (2 ^ 32 + 1))
    (List.replicate (copiesInput (2 ^ 32 + 1)).outSize 0) List.length_replicate
  rw [meets_iff _ _ List.length_replicate] at hmeets
  have htotal : totalSize (copiesInput (2 ^ 32 + 1)).elts = (2 ^ 32 - 1) * (2 ^ 32 + 1 + 1) :=
    totalSize_copies (2 ^ 32 + 1)
  rcases hmeets with hlt | ⟨hbad, -⟩
  · rw [htotal] at hlt
    exact absurd hlt (by decide)
  · exact not_bad_copies (2 ^ 32 + 1) hbad

end OpenZL.Codecs.Prefix
