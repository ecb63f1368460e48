import OpenZL.Codecs.LzDecode
import OpenZL.Lib.PeriodicCopy

/-!
# LZ decoding algorithm

The decoding algorithm of `spec_lz.md` on lists, and the reference loop of the decoder: it succeeds
exactly when the algorithm passes its assertions and produces `dstSize` bytes, with these bytes.

Principal results: `decodeSequence_spec`, `decodeGeneric_spec`.
-/

namespace OpenZL.Codecs.Lz

open OpenZL.Lib OpenZL.Lib.Periodic

/-- `output.append(output[-offset])`, `match_len` times. -/
def appendMatch (offset : Nat) : Nat → List UInt8 → List UInt8
  | 0, output => output
  | matchLen + 1, output =>
      appendMatch offset matchLen (output ++ [output.getD (output.length - offset) 0])

/-- One round of the loop of `spec_lz.md`, with the literals left; `none` is a failed assertion. -/
def specSequence (s : Sequence) (output literals : List UInt8) :
    Option (List UInt8 × List UInt8) :=
  if s.litLen ≤ literals.length then
    let output := output ++ literals.take s.litLen
    if s.offset ≠ 0 ∧ s.offset ≤ output.length then
      some (appendMatch s.offset s.matchLen output, literals.drop s.litLen)
    else none
  else none

/-- The decoding algorithm of `spec_lz.md`. -/
def specDecode : List Sequence → List UInt8 → List UInt8 → Option (List UInt8)
  | [], output, literals => some (output ++ literals)
  | s :: ss, output, literals => do
      let (output, literals) ← specSequence s output literals
      specDecode ss output literals

theorem appendMatch_eq {offset : Nat} (hpos : 0 < offset) (matchLen : Nat) {output : List UInt8}
    (hle : offset ≤ output.length) :
    appendMatch offset matchLen output = extend offset matchLen output := by
  have hrun : ∀ n c, appendMatch offset n (extend offset c output) =
      extend offset (c + n) output := by
    intro n
    induction n with
    | zero => exact fun c => rfl
    | succ n ih =>
      intro c
      have hnext : (extend offset c output).getD ((extend offset c output).length - offset) 0 =
          cell output offset c := by
        have hcell := @getD_extend _ _ output offset c hpos hle
          ((extend offset c output).length - offset)
          (by rw [length_extend]; omega) (by rw [length_extend]; omega)
        rw [length_extend, show output.length + c - offset + offset - output.length = c by omega]
          at hcell
        rw [length_extend]
        exact hcell
      have hone : run output offset c 1 = [cell output offset c] := rfl
      rw [appendMatch, hnext, ← hone, extend_append, ih, Nat.add_assoc, Nat.add_comm 1]
  have hall := hrun matchLen 0
  rwa [extend_zero, Nat.zero_add] at hall

/-- The sequences from `seq` on. -/
def InSequences.sequencesFrom (src : InSequences) (seq : Nat) : List Sequence :=
  (List.range' seq (src.numSequences - seq)).map src.sequence

theorem sequencesFrom_of_lt {src : InSequences} {seq : Nat} (h : seq < src.numSequences) :
    src.sequencesFrom seq = src.sequence seq :: src.sequencesFrom (seq + 1) := by
  obtain ⟨n, hn⟩ := Nat.exists_eq_add_of_lt h
  have hone : src.numSequences - seq = n + 1 := by omega
  have hrest : src.numSequences - (seq + 1) = n := by omega
  rw [InSequences.sequencesFrom, InSequences.sequencesFrom, hone, hrest, List.range'_succ,
    List.map_cons]

theorem sequencesFrom_of_ge {src : InSequences} {seq : Nat} (h : src.numSequences ≤ seq) :
    src.sequencesFrom seq = [] := by
  rw [InSequences.sequencesFrom, Nat.sub_eq_zero_of_le h, List.range'_zero, List.map_nil]

/-- The literals that can be used. -/
def InSequences.usable (src : InSequences) : List UInt8 := src.literals.take src.numLiterals

/-- All lengths and offsets are the same as `ptrdiff_t`. -/
def InSequences.Exact (src : InSequences) : Prop :=
  ∀ seq, (src.sequence seq).litLen < 2 ^ 63 ∧ (src.sequence seq).offset < 2 ^ 63 ∧
    (src.sequence seq).matchLen < 2 ^ 63

theorem toPtrdiff_of_lt {v : Nat} (h : v < 2 ^ 63) : toPtrdiff v = v := if_pos h

theorem getD_lt {xs : List Nat} {n : Nat} (hn : 0 < n) (h : ∀ v ∈ xs, v < n) (i : Nat) :
    xs.getD i 0 < n := by
  rcases Nat.lt_or_ge i xs.length with hi | hi
  · rw [List.getD_eq_getElem _ _ hi]
    exact h _ (List.getElem_mem hi)
  · rw [List.getD_eq_getElem?_getD, List.getElem?_eq_none hi]
    exact hn

theorem exact_of_width {src : InSequences} (ho : src.offsetsEltWidth ≤ 4)
    (hl : src.literalLengthsEltWidth ≤ 4) (hm : src.matchLengthsEltWidth ≤ 4) : src.Exact := by
  have hwidth : ∀ {w : Nat}, w ≤ 4 → 2 ^ (8 * w) ≤ 2 ^ 63 := fun h =>
    Nat.pow_le_pow_right (by decide) (by omega)
  intro seq
  refine ⟨?_, ?_, ?_⟩
  · exact (getD_lt (Nat.two_pow_pos _) src.literalLengths_lt seq).trans_le (hwidth hl)
  · exact (getD_lt (Nat.two_pow_pos _) src.offsets_lt seq).trans_le (hwidth ho)
  · exact (getD_lt (Nat.two_pow_pos _) src.matchLengths_lt seq).trans_le (hwidth hm)

/-- A decoder that has produced `out` and has `rest` of its literals left. -/
structure At (dst : List UInt8) (src : InSequences) (outPos litPos : Nat) (out rest : List UInt8) :
    Prop where
  outPos_le : outPos ≤ dst.length
  out : dst.take outPos = out
  litPos_le : litPos ≤ src.numLiterals
  rest : src.usable.drop litPos = rest

variable {dst : List UInt8} {src : InSequences} {seq outPos litPos : Nat} {out rest : List UInt8}

theorem At.start (dst : List UInt8) (src : InSequences) : At dst src 0 0 [] src.usable :=
  ⟨Nat.zero_le _, rfl, Nat.zero_le _, rfl⟩

theorem At.length_out (h : At dst src outPos litPos out rest) : out.length = outPos := by
  rw [← h.out, List.length_take, Nat.min_eq_left h.outPos_le]

theorem length_usable (src : InSequences) : src.usable.length = src.numLiterals := by
  rw [InSequences.usable, List.length_take, Nat.min_eq_left src.numLiterals_le]

theorem At.length_rest (h : At dst src outPos litPos out rest) :
    rest.length = src.numLiterals - litPos := by
  rw [← h.rest, List.length_drop, length_usable]

theorem At.read (h : At dst src outPos litPos out rest) {n : Nat} (hn : n ≤ rest.length) :
    Buffer.read src.literals litPos n = rest.take n := by
  have hlen := h.length_rest
  rw [← h.rest, InSequences.usable, Buffer.read_eq, List.drop_take, List.take_take,
    Nat.min_eq_left (by omega)]

/-- The sequence needs no more literals than there are, no more bytes than were produced, and no
more room than there is. -/
def Sequence.Fits (s : Sequence) (dstSize outPos rest : Nat) : Prop :=
  s.litLen ≤ rest ∧ s.offset ≤ outPos + s.litLen ∧ outPos + s.litLen + s.matchLen ≤ dstSize

instance (s : Sequence) (dstSize outPos rest : Nat) : Decidable (s.Fits dstSize outPos rest) :=
  inferInstanceAs (Decidable (_ ∧ _ ∧ _))

/-- What a sequence comes to. -/
def Sequence.apply (s : Sequence) (out rest : List UInt8) : List UInt8 :=
  extend s.offset s.matchLen (out ++ rest.take s.litLen)

theorem specSequence_eq {s : Sequence} (hlit : s.litLen ≤ rest.length) (hpos : s.offset ≠ 0)
    (hoffset : s.offset ≤ out.length + s.litLen) :
    specSequence s out rest = some (s.apply out rest, rest.drop s.litLen) := by
  have hlen : (out ++ rest.take s.litLen).length = out.length + s.litLen := by
    rw [List.length_append, List.length_take, Nat.min_eq_left hlit]
  rw [specSequence, if_pos hlit, if_pos ⟨hpos, hlen ▸ hoffset⟩,
    appendMatch_eq (Nat.pos_of_ne_zero hpos) _ (hlen ▸ hoffset)]
  rfl

theorem copyBytes_spec {offset c : Nat} (hpos : 0 < offset) (hle : offset ≤ out.length)
    (h : Extends dst out offset 0) (hfit : out.length + c ≤ dst.length) :
    Extends (copyBytes dst out.length offset c) out offset c ∧
      (copyBytes dst out.length offset c).length = dst.length := by
  induction c with
  | zero => exact ⟨h, rfl⟩
  | succ c ih =>
    obtain ⟨ih, hlen⟩ := ih (by omega)
    have hread := @Extends.read _ _ _ _ _ _ 1 ih hpos hle (out.length + c - offset) (by omega)
      (by omega) ⟨1, by omega⟩
    have hcell : Buffer.read (copyBytes dst out.length offset c) (out.length + c - offset) 1 =
        [(copyBytes dst out.length offset c).getD (out.length + c - offset) 0] := by
      rw [Buffer.read_eq, List.take_one_drop_eq_of_lt_length (by omega),
        List.getD_eq_getElem _ _ (by omega)]
      rfl
    have hset : copyBytes dst out.length offset (c + 1) =
        Buffer.write (copyBytes dst out.length offset c) (out.length + c)
          [(copyBytes dst out.length offset c).getD (out.length + c - offset) 0] := by
      rw [copyBytes, List.set_eq_take_append_cons_drop, if_pos (by omega), Buffer.write]
      simp
    rw [hset, ← hcell, hread]
    refine ⟨ih.write ?_ ?_ ?_, ?_⟩
    · rw [take_run (Nat.le_refl 1)]
    · rw [length_run]
    · rw [length_run]
      omega
    · rw [Buffer.length_write (by rw [length_run]; omega), hlen]

theorem At.write_literals (h : At dst src outPos litPos out rest) {n : Nat} (hn : n ≤ rest.length)
    (hfit : outPos + n ≤ dst.length) :
    At (Buffer.write dst outPos (rest.take n)) src (outPos + n) (litPos + n) (out ++ rest.take n)
      (rest.drop n) := by
  have hlen : (rest.take n).length = n := by
    rw [List.length_take, Nat.min_eq_left hn]
  have hrest := h.length_rest
  have hlit := h.litPos_le
  have hwrite : (Buffer.write dst outPos (rest.take n)).length = dst.length :=
    Buffer.length_write (by rw [hlen]; exact hfit)
  refine ⟨by omega, ?_, by omega, ?_⟩
  · rw [Buffer.take_write h.outPos_le hlen.ge, h.out, List.take_take, Nat.min_self]
  · rw [← List.drop_drop, h.rest]

theorem decodeSequence_spec (hexact : src.Exact) (h : At dst src outPos litPos out rest)
    (seq : Nat) :
    let s := src.sequence seq
    (s.Fits dst.length outPos rest.length ∧ s.offset ≠ 0 ∧
        ∃ dst', decodeSequence dst src seq outPos litPos =
            .ok (dst', outPos + s.litLen + s.matchLen, litPos + s.litLen) ∧
          dst'.length = dst.length ∧
          At dst' src (outPos + s.litLen + s.matchLen) (litPos + s.litLen) (s.apply out rest)
            (rest.drop s.litLen)) ∨
      ¬ (s.Fits dst.length outPos rest.length ∧ s.offset ≠ 0) ∧
        ∃ e, decodeSequence dst src seq outPos litPos = .error (.error e) := by
  intro s
  obtain ⟨hl, ho, hm⟩ := hexact seq
  have hlitLen : toPtrdiff (src.sequence seq).litLen = s.litLen := toPtrdiff_of_lt hl
  have hoffset : toPtrdiff (src.sequence seq).offset = s.offset := toPtrdiff_of_lt ho
  have hmatchLen : toPtrdiff (src.sequence seq).matchLen = s.matchLen := toPtrdiff_of_lt hm
  have hrest := h.length_rest
  have hlit := h.litPos_le
  simp only [decodeSequence, hlitLen, hoffset, hmatchLen, Int.toNat_natCast]
  by_cases h₁ : s.litLen ≤ rest.length
  case neg =>
    rw [if_pos (by omega)]
    exact .inr ⟨fun hgood => h₁ hgood.1.1, _, rfl⟩
  rw [if_neg (by omega)]
  by_cases h₂ : outPos + s.litLen ≤ dst.length
  case neg =>
    rw [if_pos (by omega)]
    exact .inr ⟨fun hgood => h₂ ((Nat.le_add_right _ _).trans hgood.1.2.2), _, rfl⟩
  have hwrite := h.write_literals h₁ h₂
  have hlen : (rest.take s.litLen).length = s.litLen := by
    rw [List.length_take, Nat.min_eq_left h₁]
  have hsize : (Buffer.write dst outPos (rest.take s.litLen)).length = dst.length :=
    Buffer.length_write (by rw [hlen]; exact h₂)
  rw [if_neg (by omega), h.read h₁, hsize]
  by_cases h₃ : s.offset = 0
  case pos =>
    rw [if_pos (by omega)]
    exact .inr ⟨fun hgood => hgood.2 h₃, _, rfl⟩
  rw [if_neg (by omega)]
  by_cases h₄ : s.offset ≤ outPos + s.litLen
  case neg =>
    rw [if_pos (by omega)]
    exact .inr ⟨fun hgood => h₄ hgood.1.2.1, _, rfl⟩
  rw [if_neg (by omega)]
  by_cases h₅ : outPos + s.litLen + s.matchLen ≤ dst.length
  case neg =>
    rw [if_pos (by omega)]
    exact .inr ⟨fun hgood => h₅ hgood.1.2.2, _, rfl⟩
  rw [if_neg (by omega)]
  refine .inl ⟨⟨h₁, h₄, h₅⟩, h₃, _, rfl, ?_⟩
  have hlit₂ := hwrite.length_out
  have hstart := Extends.start hwrite.outPos_le s.offset
  rw [hwrite.out] at hstart
  obtain ⟨hmatch, hlen₂⟩ := copyBytes_spec (Nat.pos_of_ne_zero h₃) (hlit₂ ▸ h₄) hstart
    (by rw [hlit₂, hsize]; exact h₅)
  rw [hlit₂] at hmatch hlen₂
  have htake := hmatch.take
  rw [hlit₂] at htake
  exact ⟨hlen₂.trans hsize, by omega, htake, hwrite.litPos_le, hwrite.rest⟩

/-- All sequences fit, one after the other, and the last literals fill the output. -/
def WellFormed (dstSize : Nat) : List Sequence → Nat → Nat → Prop
  | [], outPos, rest => outPos + rest = dstSize
  | s :: ss, outPos, rest =>
      s.Fits dstSize outPos rest ∧
        WellFormed dstSize ss (outPos + s.litLen + s.matchLen) (rest - s.litLen)

theorem decodeLastLiterals_spec (h : At dst src outPos litPos out rest) :
    (outPos + rest.length = dst.length ∧
        decodeLastLiterals dst src outPos litPos = .ok (out ++ rest)) ∨
      outPos + rest.length ≠ dst.length ∧
        ∃ e, decodeLastLiterals dst src outPos litPos = .error (.error e) := by
  have hlit := h.litPos_le
  have hle := h.outPos_le
  have hrest := h.length_rest
  unfold decodeLastLiterals
  rw [if_neg (by omega), ← hrest]
  dsimp only
  rw [h.read (Nat.le_refl _), List.take_length]
  by_cases h₁ : outPos + rest.length ≤ dst.length
  case neg =>
    rw [if_pos (by omega)]
    exact .inr ⟨by omega, _, rfl⟩
  rw [if_neg (by omega), Buffer.length_write h₁]
  by_cases h₂ : outPos + rest.length = dst.length
  case neg =>
    rw [if_pos h₂]
    exact .inr ⟨h₂, _, rfl⟩
  rw [if_neg (not_not.2 h₂)]
  refine .inl ⟨h₂, ?_⟩
  have htake := Buffer.take_write hle (Nat.le_refl rest.length)
  rw [h₂, ← Buffer.length_write h₁, List.take_length, List.take_length, h.out] at htake
  rw [htake]

theorem decodeSequences_spec (hexact : src.Exact) (n : Nat) :
    ∀ {dst : List UInt8} {seq outPos litPos : Nat} {out rest : List UInt8},
      At dst src outPos litPos out rest → seq + n = src.numSequences →
      (WellFormed dst.length (src.sequencesFrom seq) outPos rest.length ∧
          (∀ s ∈ src.sequencesFrom seq, s.offset ≠ 0) ∧
          ∃ o, (decodeSequences src n dst seq outPos litPos >>= fun r =>
              decodeLastLiterals r.1 src r.2.1 r.2.2) = .ok o ∧
            specDecode (src.sequencesFrom seq) out rest = some o ∧ o.length = dst.length) ∨
        ¬ (WellFormed dst.length (src.sequencesFrom seq) outPos rest.length ∧
            ∀ s ∈ src.sequencesFrom seq, s.offset ≠ 0) ∧
          ∃ e, (decodeSequences src n dst seq outPos litPos >>= fun r =>
            decodeLastLiterals r.1 src r.2.1 r.2.2) = .error (.error e) := by
  induction n with
  | zero =>
    intro dst seq outPos litPos out rest h hn
    rw [sequencesFrom_of_ge (by omega), decodeSequences, ok_bind, WellFormed]
    rcases decodeLastLiterals_spec h with ⟨hsize, hrun⟩ | ⟨hsize, hrun⟩
    · refine .inl ⟨hsize, nofun, _, hrun, rfl, ?_⟩
      rw [List.length_append, h.length_out, hsize]
    · exact .inr ⟨fun hgood => hsize hgood.1, hrun⟩
  | succ n ih =>
    intro dst seq outPos litPos out rest h hn
    rw [sequencesFrom_of_lt (by omega), decodeSequences, WellFormed, List.forall_mem_cons]
    rcases decodeSequence_spec hexact h seq with ⟨hfits, hpos, dst', hstep, hlen, hat⟩ |
      ⟨hbad, e, hstep⟩
    · rw [hstep, ok_bind]
      have hrest' : (rest.drop (src.sequence seq).litLen).length =
          rest.length - (src.sequence seq).litLen := List.length_drop
      have hspec : specDecode (src.sequence seq :: src.sequencesFrom (seq + 1)) out rest =
          specDecode (src.sequencesFrom (seq + 1)) ((src.sequence seq).apply out rest)
            (rest.drop (src.sequence seq).litLen) := by
        rw [specDecode, specSequence_eq hfits.1 hpos (by rw [h.length_out]; exact hfits.2.1)]
        rfl
      rcases @ih _ (seq + 1) _ _ _ _ hat (by omega) with
        ⟨hwell, hnonzero, o, hrun, hdecode, hsize⟩ | ⟨hbad, e, hrun⟩
      · rw [hlen, hrest'] at hwell
        exact .inl ⟨⟨hfits, hwell⟩, ⟨hpos, hnonzero⟩, o, hrun, hspec.trans hdecode,
          hsize.trans hlen⟩
      · rw [hlen, hrest'] at hbad
        exact .inr ⟨fun hgood => hbad ⟨hgood.1.2, hgood.2.2⟩, e, hrun⟩
    · rw [hstep]
      exact .inr ⟨fun hgood => hbad ⟨hgood.1.1, hgood.2.1⟩, e, rfl⟩

/-- **The reference loop is the algorithm**: it succeeds exactly on well-formed sequences without
zero offsets, with the bytes of the algorithm. -/
theorem decodeGeneric_spec (hexact : src.Exact) (dst : List UInt8) :
    (WellFormed dst.length (src.sequencesFrom 0) 0 src.numLiterals ∧
        (∀ s ∈ src.sequencesFrom 0, s.offset ≠ 0) ∧
        ∃ o, decodeGeneric dst src = .ok o ∧
          specDecode (src.sequencesFrom 0) [] src.usable = some o ∧ o.length = dst.length) ∨
      ¬ (WellFormed dst.length (src.sequencesFrom 0) 0 src.numLiterals ∧
          ∀ s ∈ src.sequencesFrom 0, s.offset ≠ 0) ∧
        ∃ e, decodeGeneric dst src = .error (.error e) := by
  have hrun := decodeSequences_spec hexact src.numSequences (At.start dst src) (Nat.zero_add _)
  rwa [length_usable] at hrun

end OpenZL.Codecs.Lz
