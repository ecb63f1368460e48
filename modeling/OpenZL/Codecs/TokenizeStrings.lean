import OpenZL.Codecs.TokenizeNumbers

/-!
# Tokenized strings

The string encoder concatenates the strings of its alphabet, in the order of first occurrence or in
lexicographic order; the decoder copies a string for each index, with wild copies as long as enough
of the output is left.

Principal results: `vsfComparator_lt`, `EI_tokenizeVSFImpl_spec`, `DI_tokenizeVSF_spec`.
-/

namespace OpenZL.Codecs.Tokenize

open OpenZL.Common OpenZL.Lib OpenZL.Codecs.Copy

theorem memcmp_self (xs : List UInt8) (n : Nat) : memcmp xs xs n = 0 := by
  induction xs generalizing n with
  | nil => rfl
  | cons x xs ih =>
    cases n with
    | zero => rfl
    | succ n => rw [memcmp, if_pos rfl, ih]

theorem eq_of_memcmp {xs ys : List UInt8} (hlen : xs.length = ys.length)
    (h : memcmp xs ys xs.length = 0) : xs = ys := by
  induction xs generalizing ys with
  | nil => exact (List.length_eq_zero_iff.1 hlen.symm).symm
  | cons x xs ih =>
    cases ys with
    | nil => cases hlen
    | cons y ys =>
      rw [List.length_cons, memcmp] at h
      by_cases hxy : x = y
      · rw [if_pos hxy] at h
        rw [hxy, ih (Nat.succ.inj hlen) h]
      · rw [if_neg hxy] at h
        split at h <;> cases h

theorem MapVSF_eq_iff (lhs rhs : List UInt8) : MapVSF_eq lhs rhs = true ↔ lhs = rhs := by
  rw [MapVSF_eq]
  constructor
  · intro h
    split at h
    case isTrue => cases h
    case isFalse hlen => exact eq_of_memcmp (not_not.1 hlen) (beq_iff_eq.1 h)
  · rintro rfl
    rw [if_neg (not_not.2 rfl), memcmp_self]
    rfl

theorem vsfComparator_cons (x y : UInt8) (xs ys : List UInt8) :
    vsfComparator (x :: xs) (y :: ys) =
      if x = y then vsfComparator xs ys else if x < y then -1 else 1 := by
  have hne : ∀ n, x ≠ y → memcmp (x :: xs) (y :: ys) (n + 1) = if x < y then -1 else 1 :=
    fun n hxy => by rw [memcmp, if_neg hxy]
  have heq : ∀ n, x = y → memcmp (x :: xs) (y :: ys) (n + 1) = memcmp xs ys n :=
    fun n hxy => by rw [memcmp, if_pos hxy]
  have hsign : (if x < y then -1 else 1 : Int) ≠ 0 := by split <;> decide
  rw [vsfComparator, vsfComparator, List.length_cons, List.length_cons]
  rcases Nat.lt_trichotomy xs.length ys.length with hlen | hlen | hlen
  · have hlen' : xs.length + 1 < ys.length + 1 := by omega
    rw [if_neg hlen'.ne, if_neg hlen.ne]
    simp only [if_pos hlen', if_pos hlen]
    by_cases hxy : x = y
    · rw [if_pos hxy, heq _ hxy]
    · rw [if_neg hxy, hne _ hxy, if_neg hsign]
  · rw [if_pos (congrArg (· + 1) hlen), if_pos hlen]
    by_cases hxy : x = y
    · rw [if_pos hxy, heq _ hxy]
    · rw [if_neg hxy, hne _ hxy]
  · have hlen' : ¬ xs.length + 1 < ys.length + 1 := by omega
    rw [if_neg (by omega), if_neg hlen.ne']
    simp only [if_neg hlen', if_neg (Nat.lt_asymm hlen)]
    by_cases hxy : x = y
    · rw [if_pos hxy, heq _ hxy]
    · rw [if_neg hxy, hne _ hxy, if_neg hsign]

/-- **The comparator decides the lexicographic order** of bytes. -/
theorem vsfComparator_lt (xs ys : List UInt8) : vsfComparator xs ys < 0 ↔ xs < ys := by
  induction xs generalizing ys with
  | nil =>
    cases ys with
    | nil => simp [vsfComparator, memcmp]
    | cons y ys => simp [vsfComparator, memcmp]
  | cons x xs ih =>
    cases ys with
    | nil => simp [vsfComparator, memcmp]
    | cons y ys =>
      rw [vsfComparator_cons, List.cons_lt_cons_iff]
      by_cases hxy : x = y
      · subst hxy
        simp [ih]
      · by_cases hlt : x < y
        · simp [hxy, hlt]
        · simp [hxy, hlt]

/-- What a sort by the comparator leaves. -/
def vsfOrdered (lhs rhs : List UInt8) : Prop := ¬vsfComparator rhs lhs < 0

theorem vsfOrdered.lt {lhs rhs : List UInt8} (h : vsfOrdered lhs rhs) (hne : lhs ≠ rhs) :
    lhs < rhs := by
  rw [vsfOrdered, vsfComparator_lt] at h
  exact Std.lt_of_le_of_ne h hne

/-- The total size of strings. -/
def totalSize (strings : List (List UInt8)) : Nat := (strings.map List.length).sum

theorem length_flatten_eq (strings : List (List UInt8)) :
    strings.flatten.length = totalSize strings := List.length_flatten

theorem totalSize_perm {strings strings' : List (List UInt8)} (h : strings.Perm strings') :
    totalSize strings = totalSize strings' := (h.map List.length).sum_nat

theorem fieldsOf_flatten (strings : List (List UInt8)) :
    fieldsOf strings.flatten (strings.map List.length) = strings := by
  induction strings with
  | nil => rfl
  | cons s strings ih =>
    rw [List.flatten_cons, List.map_cons, fieldsOf, List.take_left' rfl, List.drop_left' rfl, ih]

theorem writeVSFAlphabet_spec (keys : List (List UInt8)) : ∀ {before behind : List UInt8},
    behind.length = totalSize keys →
      writeVSFAlphabet keys (before ++ behind) before.length = some (before ++ keys.flatten) := by
  induction keys with
  | nil =>
    intro before behind hlen
    rw [List.length_eq_zero_iff.1 hlen]
    rfl
  | cons key keys ih =>
    intro before behind hlen
    rw [totalSize, List.map_cons, List.sum_cons] at hlen
    have hkey : (behind.take key.length).length = key.length := by
      rw [List.length_take]
      omega
    have hwrite := Buffer.write_append before (behind.take key.length) (behind.drop key.length)
      hkey.symm
    rw [List.take_append_drop] at hwrite
    rw [writeVSFAlphabet, Buffer.store_of_le (by rw [List.length_append]; omega), hwrite,
      ← List.append_assoc]
    have hrest := @ih (before ++ key) (behind.drop key.length) (by
      rw [List.length_drop, totalSize]
      omega)
    rw [List.length_append] at hrest
    rw [Option.bind_eq_bind, Option.bind_some, hrest, List.append_assoc, List.flatten_cons]

/-! ## Encoder -/

/-- The string encoder wrote an exact dictionary, its strings one behind the other with their
sizes. -/
def StringDictionary (sort : Bool) (strings : List (List UInt8)) (tokens : VSFTokens) : Prop :=
  ∃ keys, Tokenized (· < ·) sort strings ⟨keys, tokens.indices, tokens.idxWidth⟩ ∧
    tokens.alphabet = keys.flatten ∧ tokens.alphabetFieldSizes = keys.map List.length

theorem minIdxSpace_pos (n : Nat) : getMinIdxSpace n ≠ 0 := by
  rw [getMinIdxSpace]
  split
  · decide
  · split <;> decide

theorem le_minIdxSpace {n : Nat} (h : n ≤ 2 ^ 32) : n ≤ 2 ^ (8 * getMinIdxSpace n) := by
  rw [getMinIdxSpace]
  split
  case isTrue hbyte => exact hbyte
  case isFalse =>
    split
    case isTrue hshort => exact hshort
    case isFalse => exact h

section Encoder

variable {hashFn : List UInt8 → UInt64} {a : Table.Allocator (List UInt8 × Nat)}
  {pdqsortVsf : List (List UInt8) → List (List UInt8)} {strings : List (List UInt8)}

theorem tokenizeVSFEncode_spec {t : Table.GenericTable (List UInt8 × Nat)}
    (hnumbers : Numbers hashFn MapVSF_eq 32 t (distinct strings))
    (hsort : Sorts vsfOrdered pdqsortVsf) (hstrings : ∀ s ∈ strings, s.length < 2 ^ 32)
    {alphabet : List UInt8} (halphabet : alphabet.length = totalSize (distinct strings))
    (sort : Bool) :
    ∃ tokens, tokenizeVSFEncode hashFn pdqsortVsf alphabet strings t
        (getMinIdxSpace t.tableSize) sort = .ok tokens ∧ StringDictionary sort strings tokens := by
  obtain ⟨hsize, hkeys⟩ := keysOf_spec hnumbers
  have hmany : (distinct strings).length ≤ 2 ^ 30 - 1 := hnumbers.length_le
  obtain ⟨t', hsync, hnumbers', hdict⟩ := hnumbers.order MapVSF_eq_iff List.lt_irrefl
    (fun _ _ => vsfOrdered.lt) (dictionary_distinct (· < ·) strings) hsort sort
  have hperm : (if sort then pdqsortVsf (distinct strings) else distinct strings).Perm
      (distinct strings) := by
    cases sort with
    | false => exact List.Perm.refl _
    | true => exact hsort.perm _
  rw [tokenizeVSFEncode, hsize, if_neg (by omega), if_neg (minIdxSpace_pos _), hkeys, defined,
    ok_bind]
  dsimp only
  rw [mapVSF, hsync, defined, ok_bind, ← hperm.length_eq]
  rw [← totalSize_perm hperm] at halphabet
  rw [← hperm.length_eq] at hmany
  generalize (if sort then pdqsortVsf (distinct strings) else distinct strings) = keys
    at hnumbers' hdict halphabet hmany ⊢
  have htokenized := tokenized_of_dictionary hdict rfl
    (le_minIdxSpace (show keys.length ≤ 2 ^ 32 by omega))
  have hsizes : (keys.map fun key => key.length % 2 ^ 32) = keys.map List.length :=
    List.map_congr_left fun key hkey => Nat.mod_eq_of_lt (hstrings key ((hdict.mem_iff key).1 hkey))
  have hwrite := @writeVSFAlphabet_spec keys [] alphabet halphabet
  rw [List.nil_append, List.length_nil, List.nil_append] at hwrite
  rw [hwrite, defined, ok_bind, writeIndices_tokenized MapVSF_eq_iff hnumbers' htokenized, defined,
    ok_bind, hsizes]
  exact ⟨_, rfl, keys, htokenized, rfl, rfl⟩

/-- **The string encoder** writes an exact dictionary, or there is no memory for it. -/
theorem EI_tokenizeVSFImpl_spec (hashFn : List UInt8 → UInt64)
    (a : Table.Allocator (List UInt8 × Nat)) (hsort : Sorts vsfOrdered pdqsortVsf)
    (fill : Nat → UInt8) (hstrings : ∀ s ∈ strings, s.length < 2 ^ 32) (sort : Bool) :
    (∃ tokens, EI_tokenizeVSFImpl hashFn a pdqsortVsf fill strings.flatten
        (strings.map List.length) sort = .ok tokens ∧ StringDictionary sort strings tokens) ∨
      EI_tokenizeVSFImpl hashFn a pdqsortVsf fill strings.flatten (strings.map List.length) sort =
        .error (.error .allocation) ∧ TooLarge a strings.length := by
  obtain ⟨ok, t, hreserve, hholding, hmax, hrefused⟩ :=
    @reserve_create _ hashFn MapVSF_eq 32 a MapVSF_eq_iff strings.length _ (Nat.min_le_right 256 _)
  have hlarge : ∀ h : Exhausted a 32 t.maxCapacity strings.length, TooLarge a strings.length :=
    fun h => Exhausted.tooLarge (by decide) (hmax ▸ h)
  rw [EI_tokenizeVSFImpl, fieldsOf_flatten, List.length_map]
  dsimp only
  rw [mapVSF, hreserve, defined, ok_bind]
  cases ok with
  | false => exact Or.inr ⟨rfl, hlarge (hrefused rfl)⟩
  | true =>
    obtain ⟨b, hbuild, hb⟩ :=
      @buildAlphabet_spec _ hashFn MapVSF_eq 32 a t _ MapVSF_eq_iff List.length hholding strings
    rw [if_neg Bool.false_ne_true.symm, hbuild, defined, ok_bind]
    cases hbad : b.badAlloc with
    | true => exact Or.inr ⟨rfl, hlarge (hb.exhausted hbad)⟩
    | false =>
      refine Or.inl (tokenizeVSFEncode_spec (hb.numbers hbad) hsort hstrings ?_ sort)
      rw [List.length_map, List.length_range, hb.fieldSizesSum hbad, totalSize]

end Encoder

/-! ## Copies -/

section Copies

variable {alphabetBuffer out : List UInt8} {start eltWidth next : Nat}

theorem copyToken_spec (wild : Bool) {slack : Nat}
    (hslack : slack = if wild then ZS_WILDCOPY_OVERLENGTH else 0)
    (hsrc : start + eltWidth + slack ≤ alphabetBuffer.length)
    (hdst : next + eltWidth + slack ≤ out.length) :
    ∃ xs, copyToken wild alphabetBuffer out next start eltWidth =
        some (Buffer.write out next xs) ∧ next + xs.length ≤ out.length ∧
      eltWidth ≤ xs.length ∧ xs.take eltWidth = Buffer.read alphabetBuffer start eltWidth := by
  have hover : ZS_WILDCOPY_OVERLENGTH = 32 := rfl
  cases wild with
  | false =>
    rw [if_neg nofun] at hslack
    have hread := Buffer.length_read (show start + eltWidth ≤ alphabetBuffer.length by omega)
    refine ⟨Buffer.read alphabetBuffer start eltWidth, ?_, by omega, hread.ge, ?_⟩
    · rw [copyToken, if_neg nofun, memcpy_other (by omega), Buffer.store_of_le (by omega)]
    · exact List.take_of_length_le hread.le
  | true =>
    rw [if_pos rfl] at hslack
    have hwild : wildLength eltWidth ≤ eltWidth + 32 := wildLength_le (Nat.le_refl _)
    obtain ⟨xs, hrun, hlen, htake⟩ := @wildcopy_spec (some alphabetBuffer) out next start eltWidth
      nofun (by omega) (fun _ => by rw [Option.getD_some]; omega)
    have hle := le_wildLength eltWidth
    refine ⟨xs, ?_, by omega, by omega, htake nofun⟩
    rw [copyToken, if_pos rfl, if_pos (by omega), hrun]

theorem copyTokens_spec (wild : Bool) {slack : Nat}
    (hslack : slack = if wild then ZS_WILDCOPY_OVERLENGTH else 0) (elts : List (Nat × Nat)) :
    ∀ {out : List UInt8} {next : Nat},
      (∀ e ∈ elts, e.1 + e.2 + slack ≤ alphabetBuffer.length) →
      next + (elts.map Prod.snd).sum ≤ out.length →
      (elts ≠ [] → next + (elts.map Prod.snd).sum + slack ≤ out.length) →
      ∃ out', copyTokens wild alphabetBuffer elts out next =
          some (out', next + (elts.map Prod.snd).sum) ∧
        out'.length = out.length ∧
        out'.take (next + (elts.map Prod.snd).sum) = out.take next ++
          (elts.map fun e => Buffer.read alphabetBuffer e.1 e.2).flatten := by
  induction elts with
  | nil =>
    intro out next _ hle _
    refine ⟨out, rfl, rfl, ?_⟩
    rw [List.map_nil, List.map_nil, List.flatten_nil, List.append_nil]
    rfl
  | cons e elts ih =>
    intro out next hsrc hle hroom
    obtain ⟨start, eltWidth⟩ := e
    have hroom := hroom (List.cons_ne_nil _ _)
    rw [List.map_cons, List.sum_cons] at hle hroom ⊢
    obtain ⟨xs, hrun, hfit, hlen, htake⟩ := copyToken_spec wild hslack
      (hsrc _ List.mem_cons_self) (show next + eltWidth + slack ≤ out.length by omega)
    have hwritten := Buffer.length_write hfit
    obtain ⟨out', hrest, hlen', htake'⟩ := @ih (Buffer.write out next xs) (next + eltWidth)
      (fun e he => hsrc e (List.mem_cons_of_mem _ he)) (by omega) (fun _ => by omega)
    rw [Nat.add_assoc] at hrest htake'
    refine ⟨out', ?_, hlen'.trans hwritten, ?_⟩
    · rw [copyTokens, hrun, Option.bind_eq_bind, Option.bind_some, hrest]
    · rw [htake', Buffer.take_write (by omega) hlen, htake, List.map_cons, List.flatten_cons,
        List.append_assoc]

end Copies

theorem wildcopySafeIndexLimit_spec (sizes : List Nat) : ∀ (limit tailSum : Nat),
    tailSum ≤ ZS_WILDCOPY_OVERLENGTH → limit < sizes.length →
      tailSum = (sizes.drop (limit + 1)).sum →
      wildcopySafeIndexLimit (sizes.getD · 0) limit tailSum = 0 ∨
        ZS_WILDCOPY_OVERLENGTH <
          (sizes.drop (wildcopySafeIndexLimit (sizes.getD · 0) limit tailSum)).sum := by
  intro limit
  induction limit with
  | zero => exact fun _ _ _ _ => Or.inl rfl
  | succ limit ih =>
    intro tailSum hle hlt hsum
    have hnext : tailSum + sizes.getD (limit + 1) 0 = (sizes.drop (limit + 1)).sum := by
      rw [List.drop_eq_getElem_cons hlt, List.sum_cons, List.getD_eq_getElem _ _ hlt, hsum]
      omega
    rw [wildcopySafeIndexLimit]
    split
    case isTrue hgt =>
      rw [hnext] at hgt
      exact Or.inr hgt
    case isFalse hngt => exact ih _ (Nat.not_lt.1 hngt) (by omega) hnext

/-! ## Decoder -/

theorem alphabetStarts_spec {keys : List (List UInt8)} {s : Nat} {idx : Nat} {x : List UInt8}
    (h : keys[idx]? = some x) :
    ∃ start, (alphabetStarts (keys.map List.length) s)[idx]? = some (s + start) ∧
      start + x.length ≤ totalSize keys ∧ Buffer.read keys.flatten start x.length = x := by
  induction keys generalizing s idx with
  | nil => cases h
  | cons key keys ih =>
    have htotal : totalSize (key :: keys) = key.length + totalSize keys := by
      rw [totalSize, List.map_cons, List.sum_cons, totalSize]
    cases idx with
    | zero =>
      obtain rfl : key = x := Option.some.inj h
      refine ⟨0, rfl, by omega, ?_⟩
      rw [Buffer.read_of_start, List.flatten_cons, List.take_left' rfl]
    | succ idx =>
      obtain ⟨start, hstart, hle, hread⟩ := @ih (s + key.length) idx h
      refine ⟨key.length + start, ?_, by omega, ?_⟩
      · rw [List.map_cons, alphabetStarts, List.getElem?_cons_succ, hstart, Nat.add_assoc]
      · rw [Buffer.read_eq] at hread ⊢
        rw [List.flatten_cons, List.drop_append, List.drop_eq_nil_of_le (by omega),
          List.nil_append, Nat.add_sub_cancel_left, hread]

theorem elements_spec {keys : List (List UInt8)} {buffer : List UInt8}
    (hbuffer : buffer.take (totalSize keys) = keys.flatten) (indices : List Nat) :
    ∀ {strings : List (List UInt8)}, indices.mapM (fun i => keys[i]?) = some strings →
      ∃ elts : List (Nat × Nat), (indices.mapM fun idx => do
          let start ← (alphabetStarts (keys.map List.length) 0)[idx]?
          let eltWidth ← (keys.map List.length)[idx]?
          some (start, eltWidth)) = some elts ∧
        elts.map Prod.snd = strings.map List.length ∧
        (elts.map fun e => Buffer.read buffer e.1 e.2) = strings ∧
        ∀ e ∈ elts, e.1 + e.2 ≤ totalSize keys := by
  induction indices with
  | nil =>
    intro strings h
    obtain rfl : [] = strings := Option.some.inj h
    exact ⟨[], rfl, rfl, rfl, nofun⟩
  | cons idx indices ih =>
    intro strings h
    rw [List.mapM_cons] at h
    obtain ⟨x, hx, h⟩ := Option.bind_eq_some_iff.1 h
    obtain ⟨rest, hrest, h⟩ := Option.bind_eq_some_iff.1 h
    obtain rfl : x :: rest = strings := Option.some.inj h
    obtain ⟨elts, hrun, hsizes, hreads, hfits⟩ := ih hrest
    obtain ⟨start, hstart, hle, hread⟩ := @alphabetStarts_spec keys 0 idx x hx
    rw [Nat.zero_add] at hstart
    have hsize : (keys.map List.length)[idx]? = some x.length := by rw [List.getElem?_map, hx]; rfl
    have hread' : Buffer.read buffer start x.length = x := by
      rw [← hbuffer, Buffer.read_eq, List.drop_take, List.take_take, Nat.min_eq_left (by omega)]
        at hread
      exact hread
    refine ⟨(start, x.length) :: elts, ?_, ?_, ?_, fun e he => ?_⟩
    · rw [List.mapM_cons, hrun, hstart, hsize]
      rfl
    · rw [List.map_cons, List.map_cons, hsizes]
    · rw [List.map_cons, hread', hreads]
    · rcases List.mem_cons.1 he with rfl | he
      · exact hle
      · exact hfits e he

theorem tokenizeVSFDecode_spec {keys strings : List (List UInt8)} {tokens : VSFTokens}
    (halphabet : tokens.alphabet = keys.flatten)
    (hsizes : tokens.alphabetFieldSizes = keys.map List.length)
    (hstrings : tokens.indices.mapM (fun i => keys[i]?) = some strings)
    {out workspace : List UInt8} (hout : out.length = totalSize strings)
    (hworkspace : workspace.length = tokens.alphabet.length + ZS_WILDCOPY_OVERLENGTH) :
    tokenizeVSFDecode tokens out workspace =
      some (strings.flatten, strings.map List.length) := by
  have hover : ZS_WILDCOPY_OVERLENGTH = 32 := rfl
  have hlen : tokens.alphabet.length = totalSize keys := by rw [halphabet, length_flatten_eq]
  have hstore : Buffer.store workspace 0 tokens.alphabet =
      some (Buffer.write workspace 0 tokens.alphabet) := Buffer.store_of_le (by omega)
  have hbufferLen := Buffer.length_write
    (show 0 + tokens.alphabet.length ≤ workspace.length by omega)
  have hbuffer : (Buffer.write workspace 0 tokens.alphabet).take (totalSize keys) =
      keys.flatten := by
    have htake := Buffer.take_write (Nat.zero_le workspace.length)
      (Nat.le_refl tokens.alphabet.length)
    rw [Nat.zero_add, List.take_zero, List.nil_append, List.take_length, hlen] at htake
    rw [htake, halphabet]
  obtain ⟨elts, helts, hwidths, hreads, hfits⟩ := elements_spec hbuffer tokens.indices hstrings
  generalize Buffer.write workspace 0 tokens.alphabet = alphabetBuffer
    at hstore hbufferLen hreads
  have htotal : (elts.map Prod.snd).sum = out.length := by rw [hwidths, hout, totalSize]
  have hgetD : (fun i => (elts.getD i (0, 0)).2) = fun i => (elts.map Prod.snd).getD i 0 :=
    funext fun i => (List.getD_map _ (0, 0) Prod.snd).symm
  have hlimit : ∃ limit, wildcopySafeIndexLimit (fun i => (elts.getD i (0, 0)).2)
      (elts.length - 1) 0 = limit ∧
        (limit = 0 ∨ 32 < ((elts.map Prod.snd).drop limit).sum) := by
    refine ⟨_, rfl, ?_⟩
    rw [hgetD]
    cases elts with
    | nil => exact Or.inl rfl
    | cons e elts =>
      have hlast : (e :: elts).length - 1 + 1 = ((e :: elts).map Prod.snd).length := by
        rw [List.length_map, List.length_cons, Nat.add_sub_cancel]
      refine wildcopySafeIndexLimit_spec ((e :: elts).map Prod.snd) _ 0 (by omega) (by omega) ?_
      rw [hlast, List.drop_length, List.sum_nil]
  obtain ⟨limit, hlimit, hslack⟩ := hlimit
  have hsplit : ((elts.take limit).map Prod.snd).sum + ((elts.drop limit).map Prod.snd).sum =
      (elts.map Prod.snd).sum := by
    rw [← List.sum_append, ← List.map_append, List.take_append_drop]
  rw [← List.map_drop] at hslack
  obtain ⟨out₁, hrun₁, hlen₁, htake₁⟩ := @copyTokens_spec alphabetBuffer true 32 rfl
    (elts.take limit) out 0 (fun e he => by
      have := hfits e (List.mem_of_mem_take he)
      omega) (by omega) (fun hne => by
      have hpos : limit ≠ 0 := fun h => hne (by rw [h, List.take_zero])
      have := hslack.resolve_left hpos
      omega)
  obtain ⟨out₂, hrun₂, hlen₂, htake₂⟩ := @copyTokens_spec alphabetBuffer false 0 rfl
    (elts.drop limit) out₁ (0 + ((elts.take limit).map Prod.snd).sum) (fun e he => by
      have := hfits e (List.mem_of_mem_drop he)
      omega) (by omega) (fun _ => by omega)
  have hresult : out₂ = strings.flatten := by
    rw [htake₁, List.take_zero, List.nil_append, ← List.flatten_append, ← List.map_append,
      List.take_append_drop, hreads, Nat.zero_add, hsplit, htotal, ← hlen₁, ← hlen₂,
      List.take_length] at htake₂
    exact htake₂
  rw [tokenizeVSFDecode, hstore, hsizes]
  simp only [Option.bind_eq_bind, Option.bind_some] at helts ⊢
  rw [helts]
  simp only [Option.bind_some, hlimit, hrun₁, hrun₂, hresult, hwidths]

theorem computeVSFContentSize_spec {keys : List (List UInt8)} {tokens : VSFTokens}
    (hsizes : tokens.alphabetFieldSizes = keys.map List.length) {strings : List (List UInt8)}
    (hstrings : tokens.indices.mapM (fun i => keys[i]?) = some strings)
    (htotal : totalSize strings < 2 ^ 64) :
    computeVSFContentSize tokens = totalSize strings := by
  have hrun : ∀ (indices : List Nat) {strings : List (List UInt8)} {acc : Nat},
      indices.mapM (fun i => keys[i]?) = some strings → acc + totalSize strings < 2 ^ 64 →
        indices.foldl (fun size idx => (size + tokens.alphabetFieldSizes.getD idx 0) % 2 ^ 64) acc =
          acc + totalSize strings := by
    intro indices
    induction indices with
    | nil =>
      intro strings acc h _
      obtain rfl : [] = strings := Option.some.inj h
      rfl
    | cons idx indices ih =>
      intro strings acc h hlt
      rw [List.mapM_cons] at h
      obtain ⟨x, hx, h⟩ := Option.bind_eq_some_iff.1 h
      obtain ⟨rest, hrest, h⟩ := Option.bind_eq_some_iff.1 h
      obtain rfl : x :: rest = strings := Option.some.inj h
      have hsize : tokens.alphabetFieldSizes.getD idx 0 = x.length := by
        rw [hsizes, List.getD_eq_getElem?_getD, List.getElem?_map, hx]
        rfl
      have hcons : totalSize (x :: rest) = x.length + totalSize rest := by
        rw [totalSize, List.map_cons, List.sum_cons, totalSize]
      rw [List.foldl_cons, hsize, Nat.mod_eq_of_lt (by omega), ih hrest (by omega)]
      omega
  have h := @hrun tokens.indices strings 0 hstrings (by omega)
  rwa [Nat.zero_add] at h

/-- **The string decoder** gives the strings of a dictionary back. -/
theorem DI_tokenizeVSF_spec {strings : List (List UInt8)} {tokens : VSFTokens} {sort : Bool}
    (h : StringDictionary sort strings tokens) (htotal : totalSize strings < 2 ^ 64)
    (fill scratch : Nat → UInt8) :
    DI_tokenizeVSF fill scratch tokens = .ok (strings.flatten, strings.map List.length) := by
  obtain ⟨keys, htokens, halphabet, hsizes⟩ := h
  have hindices : tokens.indices = _ := htokens.indices
  have hwidth : tokens.idxWidth = _ := htokens.idxWidth
  have hstrings : tokens.indices.mapM (fun i => keys[i]?) = some strings := htokens.lookup
  have hall : tokens.indices.all (· < tokens.alphabetFieldSizes.length) = true := by
    rw [List.all_eq_true]
    intro idx hidx
    rw [hsizes, List.length_map, decide_eq_true_iff]
    exact htokens.lt_length idx hidx
  have hmany : ¬tokens.indices.length < tokens.alphabetFieldSizes.length := by
    have hsub : keys.Subperm strings := List.subperm_of_subset htokens.dictionary.nodup
      fun x hx => (htokens.dictionary.mem_iff x).1 hx
    rw [hindices, hsizes, List.length_map, List.length_map]
    exact Nat.not_lt.2 hsub.length_le
  rw [DI_tokenizeVSF, hwidth, if_pos (validIdxWidth_minIdxSpace _), if_pos hall,
    if_neg hmany, computeVSFContentSize_spec hsizes hstrings htotal,
    tokenizeVSFDecode_spec halphabet hsizes hstrings]
  · rfl
  · rw [List.length_map, List.length_range]
  · rw [List.length_map, List.length_range]

/-- **Tokenizing is exact.** With `pdqsort` a sort and memory for the map, numbers of each width and
strings become their alphabet without repetition, in the order of first occurrence or sorted, and
indices of the least width; decoding these gives the list back. -/
theorem tokenize_exact (hashFn : Nat → UInt64) (hashVSF : List UInt8 → UInt64)
    (a : Table.Allocator (Nat × Nat)) (aVSF : Table.Allocator (List UInt8 × Nat))
    {pdqsort : Nat → List Nat → List Nat} {pdqsortVsf : List (List UInt8) → List (List UInt8)}
    (hpdqsort : ∀ width, Sorts (· ≤ ·) (pdqsort width)) (hpdqsortVsf : Sorts vsfOrdered pdqsortVsf)
    (fill scratch : Nat → UInt8) (sort : Bool) :
    (∀ (eltWidth : Nat) (input : List Nat),
      eltWidth = 1 ∨ eltWidth = 2 ∨ eltWidth = 4 ∨ eltWidth = 8 →
      (∀ x ∈ input, x < 2 ^ (8 * eltWidth)) →
        (∃ tokens, EI_tokenizeImpl hashFn a pdqsort false eltWidth input sort = .ok tokens ∧
          Tokenized (· < ·) sort input tokens ∧ tokenizeDecode tokens = .ok input) ∨
        EI_tokenizeImpl hashFn a pdqsort false eltWidth input sort = .error (.error .allocation) ∧
          TooLarge a input.length) ∧
    ∀ strings : List (List UInt8), (∀ s ∈ strings, s.length < 2 ^ 32) →
      totalSize strings < 2 ^ 64 →
        (∃ tokens, EI_tokenizeVSFImpl hashVSF aVSF pdqsortVsf fill strings.flatten
            (strings.map List.length) sort = .ok tokens ∧ StringDictionary sort strings tokens ∧
          DI_tokenizeVSF fill scratch tokens = .ok (strings.flatten, strings.map List.length)) ∨
        EI_tokenizeVSFImpl hashVSF aVSF pdqsortVsf fill strings.flatten (strings.map List.length)
          sort = .error (.error .allocation) ∧ TooLarge aVSF strings.length := by
  constructor
  · intro eltWidth input hwidth hinput
    have hkind : ¬((false : Bool) = true ∧ sort = true) := fun h => nomatch h.1
    rcases EI_tokenizeImpl_spec hashFn a hpdqsort hwidth hinput hkind with
      ⟨tokens, hrun, htokens⟩ | hfull
    · exact Or.inl ⟨tokens, hrun, htokens, tokenizeDecode_spec htokens⟩
    · exact Or.inr hfull
  · intro strings hstrings htotal
    rcases EI_tokenizeVSFImpl_spec hashVSF aVSF hpdqsortVsf fill hstrings sort with
      ⟨tokens, hrun, htokens⟩ | hfull
    · exact Or.inl ⟨tokens, hrun, htokens, DI_tokenizeVSF_spec htokens htotal fill scratch⟩
    · exact Or.inr hfull

theorem sorts_mergeSort {κ : Type} {le : κ → κ → Prop} [DecidableRel le]
    (htrans : ∀ x y z, le x y → le y z → le x z) (htotal : ∀ x y, le x y ∨ le y x) :
    Sorts le fun xs => xs.mergeSort (fun x y => decide (le x y)) where
  perm := fun xs => List.mergeSort_perm xs _
  pairwise := fun xs => by
    refine (List.pairwise_mergeSort (fun x y z hxy hyz => ?_) (fun x y => ?_) xs).imp
      of_decide_eq_true
    · exact decide_eq_true (htrans x y z (of_decide_eq_true hxy) (of_decide_eq_true hyz))
    · rw [Bool.or_eq_true, decide_eq_true_iff, decide_eq_true_iff]
      exact htotal x y

theorem vsfOrdered_iff (lhs rhs : List UInt8) : vsfOrdered lhs rhs ↔ lhs ≤ rhs := by
  rw [vsfOrdered, vsfComparator_lt]
  exact Iff.rfl

instance : DecidableRel vsfOrdered := fun lhs rhs =>
  inferInstanceAs (Decidable (¬vsfComparator rhs lhs < 0))

theorem sorts_vsfOrdered :
    Sorts vsfOrdered fun xs => xs.mergeSort (fun x y => decide (vsfOrdered x y)) :=
  sorts_mergeSort
    (fun x y z hxy hyz => (vsfOrdered_iff x z).2
      (List.le_trans ((vsfOrdered_iff x y).1 hxy) ((vsfOrdered_iff y z).1 hyz)))
    (fun x y => (List.le_total x y).imp (vsfOrdered_iff x y).2 (vsfOrdered_iff y x).2)

theorem tokenize_exact_sorted :
    (∃ tokens, EI_tokenizeImpl (fun _ => 0) ⟨fun _ => true, fun _ _ => ⟨(0, 0), 0⟩⟩
        (fun _ xs => xs.mergeSort (fun x y => decide (x ≤ y))) false 2 [7, 3, 7] true = .ok tokens ∧
      Tokenized (· < ·) true [7, 3, 7] tokens ∧ tokenizeDecode tokens = .ok [7, 3, 7]) ∧
    ∃ tokens, EI_tokenizeVSFImpl (fun _ => 0) ⟨fun _ => true, fun _ _ => ⟨([], 0), 0⟩⟩
        (fun xs => xs.mergeSort (fun x y => decide (vsfOrdered x y))) (fun _ => 0)
        [98, 97, 97, 98] [1, 2, 1] true = .ok tokens ∧
      StringDictionary true [[98], [97, 97], [98]] tokens ∧
      DI_tokenizeVSF (fun _ => 0) (fun _ => 0) tokens = .ok ([98, 97, 97, 98], [1, 2, 1]) := by
  have h := tokenize_exact (fun _ => 0) (fun _ => 0) ⟨fun _ => true, fun _ _ => ⟨(0, 0), 0⟩⟩
    ⟨fun _ => true, fun _ _ => ⟨([], 0), 0⟩⟩
    (fun _ => sorts_mergeSort (fun _ _ _ => Nat.le_trans) Nat.le_total) sorts_vsfOrdered
    (fun _ => 0) (fun _ => 0) true
  refine ⟨(h.1 2 [7, 3, 7] (by decide) (by decide)).resolve_right ?_,
    (h.2 [[98], [97, 97], [98]] (by decide) (by decide)).resolve_right ?_⟩
  · rintro ⟨-, ⟨i, hi⟩ | hlarge⟩
    · cases hi
    · exact absurd hlarge (by decide)
  · rintro ⟨-, ⟨i, hi⟩ | hlarge⟩
    · cases hi
    · exact absurd hlarge (by decide)

end OpenZL.Codecs.Tokenize
