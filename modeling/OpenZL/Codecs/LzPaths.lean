import OpenZL.Codecs.LzCopies
import OpenZL.Codecs.LzReference

/-!
# LZ fast loop and reference loop

The decoder with the fast loop against the reference loop.

Principal results: `fastSequence_spec`, `fastLoop_spec`, `typedLoop_spec`, `decodeTyped_complete`,
`decode_rejects_iff`.
-/

namespace OpenZL.Codecs.Lz

open OpenZL.Lib OpenZL.Lib.Periodic

/-! ## The fast loop -/

/-- How many literals must be left for the fast loop. -/
def slop (moved : Bool) : Nat := if moved then 0 else kLitSlop

/-- The fast loop takes a sequence that begins with enough room for whole chunks and, where it is
longer than a chunk, ends with enough room for another sequence. -/
def Sequence.FastFits (avx2 : Bool) (dstSize slop outPos rest : Nat) (s : Sequence) : Prop :=
  outPos + kOutSlop ≤ dstSize ∧ slop ≤ rest ∧
    (kLitCopyLen < s.litLen →
      s.litLen + slop ≤ rest ∧ outPos + s.litLen + s.matchLen + kOutSlop ≤ dstSize) ∧
    (matchChunk avx2 s.offset s.matchLen < s.matchLen →
      outPos + s.litLen + s.matchLen + kOutSlop ≤ dstSize)

instance (avx2 : Bool) (dstSize slop outPos rest : Nat) (s : Sequence) :
    Decidable (s.FastFits avx2 dstSize slop outPos rest) :=
  inferInstanceAs (Decidable (_ ∧ _ ∧ _ ∧ _))

/-- All sequences fit and the last literals fill the output, but an offset may be zero where the
fast loop takes the sequence. `moved` says that the literals have been moved, `resumed` that the
sequence before was left to the reference routine: they are moved only then. -/
def Accepted (avx2 : Bool) (dstSize : Nat) : List Sequence → Nat → Nat → Bool → Bool → Prop
  | [], outPos, rest, _, _ => outPos + rest = dstSize
  | s :: ss, outPos, rest, moved, resumed =>
      let moved := moved || (resumed && decide (rest < kLitSlop))
      let fast := decide (s.FastFits avx2 dstSize (slop moved) outPos rest)
      s.Fits dstSize outPos rest ∧ (s.offset = 0 → fast = true) ∧
        Accepted avx2 dstSize ss (outPos + s.litLen + s.matchLen) (rest - s.litLen) moved !fast

/-- The fast loop's limit for literals, in the buffer it reads them from. -/
structure Limits (src : InSequences) (litLimit : Int) (moved : Bool) : Prop where
  limit : litLimit = (src.numLiterals : Int) - slop moved
  room : src.numLiterals + kLitSlop ≤ src.literals.length + slop moved

variable {avx2 moved : Bool} {src : InSequences} {litLimit : Int} {dst : List UInt8}
  {seq outPos litPos : Nat} {out rest : List UInt8}

theorem fastSequence_spec (avx2 : Bool) (hlimits : Limits src litLimit moved)
    (h : At dst src outPos litPos out rest) (hout : outPos + kOutSlop ≤ dst.length)
    (hrest : slop moved ≤ rest.length) (seq : Nat) :
    let s := src.sequence seq
    let run := fastSequence avx2 src (outLimit dst) litLimit dst seq outPos litPos
    (¬ s.FastFits avx2 dst.length (slop moved) outPos rest.length ∧
        ∃ dst', run = .ok (dst', none) ∧ dst'.length = dst.length ∧
          At dst' src outPos litPos out rest) ∨
      (outPos + s.litLen < s.offset ∧ run = .error (.error .offsetTooLarge)) ∨
      s.FastFits avx2 dst.length (slop moved) outPos rest.length ∧
        s.offset ≤ outPos + s.litLen ∧ outPos + s.litLen + s.matchLen ≤ dst.length ∧
        ∃ dst', run = .ok (dst', some (outPos + s.litLen + s.matchLen, litPos + s.litLen)) ∧
          dst'.length = dst.length ∧
          (s.litLen ≤ rest.length → ∃ out',
            At dst' src (outPos + s.litLen + s.matchLen) (litPos + s.litLen) out'
              (rest.drop s.litLen) ∧
            (s.offset ≠ 0 → out' = s.apply out rest)) := by
  intro s run
  have hlimit := hlimits.limit
  have hroom := hlimits.room
  have hlenOut := h.length_out
  have hlenRest := h.length_rest
  have hlit := h.litPos_le
  have hkLit : kLitSlop = 32 := rfl
  have hkOut : kOutSlop = 64 := rfl
  have hchunk : matchChunk avx2 s.offset s.matchLen ≤ 32 := by
    unfold matchChunk
    split_ifs <;> omega
  have hdef : run = fastSequence avx2 src (outLimit dst) litLimit dst seq outPos litPos := rfl
  have hfast : s.FastFits avx2 dst.length (slop moved) outPos rest.length ↔
      outPos + kOutSlop ≤ dst.length ∧ slop moved ≤ rest.length ∧
        (32 < s.litLen → s.litLen + slop moved ≤ rest.length ∧
          outPos + s.litLen + s.matchLen + kOutSlop ≤ dst.length) ∧
        (matchChunk avx2 s.offset s.matchLen < s.matchLen →
          outPos + s.litLen + s.matchLen + kOutSlop ≤ dst.length) := Iff.rfl
  obtain ⟨exitMatch, hexitMatch⟩ : ∃ e, e =
      decide (((outPos + s.litLen + s.matchLen : Nat) : Int) > outLimit dst) := ⟨_, rfl⟩
  obtain ⟨exitLit, hexitLit⟩ : ∃ e, e =
      decide (((litPos + s.litLen : Nat) : Int) > litLimit ∨
        ((outPos + s.litLen + s.matchLen : Nat) : Int) > outLimit dst) := ⟨_, rfl⟩
  have hmatch : exitMatch = false ↔ outPos + s.litLen + s.matchLen + kOutSlop ≤ dst.length := by
    rw [hexitMatch, decide_eq_false_iff_not, outLimit]
    omega
  have hlits : exitLit = false ↔ s.litLen + slop moved ≤ rest.length ∧
      outPos + s.litLen + s.matchLen + kOutSlop ≤ dst.length := by
    rw [hexitLit, decide_eq_false_iff_not, outLimit]
    omega
  -- the literals, up to the check of the limits
  obtain ⟨dst₁, hcopy, hlen₁, htake₁, hread⟩ :
      ∃ dst₁, copyLiterals dst outPos src.literals litPos s.litLen exitLit =
          .ok (dst₁, decide (32 < s.litLen) && exitLit) ∧
        dst₁.length = dst.length ∧ dst₁.take outPos = out ∧
        ((decide (32 < s.litLen) && exitLit) = false →
          dst₁.take (outPos + s.litLen) = out ++ Buffer.read src.literals litPos s.litLen) := by
    have htake := h.out
    rw [← hlenOut] at htake hlits hout ⊢
    cases hexit : exitLit with
    | true =>
      exact @copyLiterals_spec dst out src.literals litPos s.litLen 32 true htake (by omega)
        (by omega) (Nat.le_refl _) nofun
    | false =>
      obtain ⟨hroomLit, hroomOut⟩ := hlits.1 hexit
      exact @copyLiterals_spec dst out src.literals litPos s.litLen (s.litLen + 32) false htake
        (by omega) (by omega) (by omega) fun _ => Nat.le_succ _
  rw [fastSequence] at hdef
  dsimp only at hdef
  rw [← hexitLit, ← hexitMatch] at hdef
  change run = (copyLiterals dst outPos src.literals litPos s.litLen exitLit >>= _) at hdef
  rw [hcopy, ok_bind] at hdef
  dsimp only at hdef
  cases hleave : decide (32 < s.litLen) && exitLit with
  | true =>
    obtain ⟨hlong, hleave'⟩ := Bool.and_eq_true_iff.1 hleave
    rw [hleave, if_pos rfl] at hdef
    refine .inl ⟨fun hgood => ?_, dst₁, hdef, hlen₁, hlen₁ ▸ h.outPos_le, htake₁, hlit, h.rest⟩
    have := hlits.2 ((hfast.1 hgood).2.2.1 (of_decide_eq_true hlong))
    rw [this] at hleave'
    cases hleave'
  | false =>
    rw [hleave, if_neg (by decide)] at hdef
    have hshort : 32 < s.litLen → exitLit = false := by
      intro hlong
      rwa [decide_eq_true hlong, Bool.true_and] at hleave
    have hfirst : outPos + s.litLen + 32 ≤ dst.length := by
      by_cases hlong : 32 < s.litLen
      · have := hlits.1 (hshort hlong)
        omega
      · omega
    have hprefix := hread hleave
    have hlen : (dst₁.take (outPos + s.litLen)).length = outPos + s.litLen := by
      rw [List.length_take, Nat.min_eq_left (by omega)]
    have hspec := @copyMatch_spec (dst₁.take (outPos + s.litLen)) dst₁ s.matchLen exitMatch avx2
      (by rw [hlen]) (by rw [hlen, hlen₁]; exact hfirst)
      (fun hexit => by
        have := hmatch.1 hexit
        omega) s.offset
    rw [hlen, hlen₁] at hspec
    rcases hspec with ⟨hfar, herror⟩ | ⟨hnear, c, dst₂, hcopied, hchunk₂, hlong₂⟩
    · change run = (copyMatch avx2 dst₁ (outPos + s.litLen) s.offset s.matchLen exitMatch >>= _)
        at hdef
      rw [herror] at hdef
      exact .inr (.inl ⟨hfar, hdef⟩)
    · change run = (copyMatch avx2 dst₁ (outPos + s.litLen) s.offset s.matchLen exitMatch >>= _)
        at hdef
      rw [hcopied, ok_bind] at hdef
      have htake₂ := hchunk₂.start
      rw [hlen] at htake₂
      cases hleave₂ : decide (matchChunk avx2 s.offset s.matchLen < s.matchLen) && exitMatch with
      | true =>
        obtain ⟨hlong, hleave'⟩ := Bool.and_eq_true_iff.1 hleave₂
        rw [hleave₂] at hdef
        refine .inl ⟨fun hgood => ?_, dst₂, hdef, hchunk₂.length, hchunk₂.length ▸ h.outPos_le,
          ?_, hlit, h.rest⟩
        · have := hmatch.2 ((hfast.1 hgood).2.2.2 (of_decide_eq_true hlong))
          rw [this] at hleave'
          cases hleave'
        · have h₀ := congrArg (List.take outPos) htake₂
          rwa [List.take_take, List.take_take, Nat.min_eq_left (by omega), htake₁] at h₀
      | false =>
        rw [hleave₂] at hdef
        have hmore : matchChunk avx2 s.offset s.matchLen < s.matchLen →
            outPos + s.litLen + s.matchLen + kOutSlop ≤ dst.length := by
          intro hlong
          rw [decide_eq_true hlong, Bool.true_and] at hleave₂
          exact hmatch.1 hleave₂
        have hnext : outPos + s.litLen + s.matchLen ≤ dst.length := by
          by_cases hlong : matchChunk avx2 s.offset s.matchLen < s.matchLen
          · have := hmore hlong
            omega
          · omega
        refine .inr (.inr ⟨hfast.2 ⟨hout, hrest, fun hlong => hlits.1 (hshort hlong), hmore⟩,
          hnear, hnext, dst₂, hdef, hchunk₂.length, fun henough => ?_⟩)
        refine ⟨dst₂.take (outPos + s.litLen + s.matchLen),
          ⟨hchunk₂.length ▸ hnext, rfl, by omega, ?_⟩, fun hpos => ?_⟩
        · rw [← List.drop_drop, h.rest]
        · have hcells := ((hchunk₂.mono (hlong₂ hleave₂)).cells (Nat.pos_of_ne_zero hpos)).take
          rw [hlen, hprefix, h.read henough] at hcells
          exact hcells

theorem accepted_cons {dstSize : Nat} {s : Sequence} {ss : List Sequence} {outPos rest : Nat} :
    Accepted avx2 dstSize (s :: ss) outPos rest moved false ↔
      s.Fits dstSize outPos rest ∧
        (s.offset = 0 → s.FastFits avx2 dstSize (slop moved) outPos rest) ∧
        Accepted avx2 dstSize ss (outPos + s.litLen + s.matchLen) (rest - s.litLen) moved
          !decide (s.FastFits avx2 dstSize (slop moved) outPos rest) := by
  rw [Accepted]
  simp only [Bool.false_and, Bool.or_false, decide_eq_true_eq]

/-- A run of the fast loop up to where it stops: the sequences before are taken, the one there, if
any, is not. -/
structure FastRun (avx2 moved : Bool) (src : InSequences) (dst : List UInt8)
    (seq outPos : Nat) (out rest : List UInt8) (dst' : List UInt8) (seq' outPos' litPos' : Nat) :
    Prop where
  seq_le : seq ≤ seq'
  seq_le_num : seq' ≤ src.numSequences
  length : dst'.length = dst.length
  goesOn : ∃ out' rest', At dst' src outPos' litPos' out' rest' ∧
    (Accepted avx2 dst.length (src.sequencesFrom seq) outPos rest.length moved false ↔
      Accepted avx2 dst.length (src.sequencesFrom seq') outPos' rest'.length moved false) ∧
    ((∀ s ∈ src.sequencesFrom seq, s.offset ≠ 0) →
      specDecode (src.sequencesFrom seq) out rest =
          specDecode (src.sequencesFrom seq') out' rest' ∧
        ∀ s ∈ src.sequencesFrom seq', s.offset ≠ 0) ∧
    (seq' < src.numSequences →
      ¬ (src.sequence seq').FastFits avx2 dst.length (slop moved) outPos' rest'.length)

theorem FastRun.refl (h : At dst src outPos litPos out rest) (hseq : seq ≤ src.numSequences)
    (hstop : seq < src.numSequences →
      ¬ (src.sequence seq).FastFits avx2 dst.length (slop moved) outPos rest.length) :
    FastRun avx2 moved src dst seq outPos out rest dst seq outPos litPos :=
  ⟨Nat.le_refl _, hseq, rfl, out, rest, h, Iff.rfl, fun hnonzero => ⟨rfl, hnonzero⟩, hstop⟩

/-- What the fast loop comes to: a refusal, literals past the end of the buffer, or a run. -/
def FastOutcome (avx2 moved : Bool) (src : InSequences) (dst : List UInt8)
    (seq outPos : Nat) (out rest : List UInt8)
    (r : Except Stop (List UInt8 × Nat × Nat × Nat)) : Prop :=
  (¬ Accepted avx2 dst.length (src.sequencesFrom seq) outPos rest.length moved false ∧
      ((∃ e, r = .error (.error e)) ∨
        ∃ dst' seq' outPos' litPos', r = .ok (dst', seq', outPos', litPos') ∧
          src.numLiterals < litPos')) ∨
    ∃ dst' seq' outPos' litPos', r = .ok (dst', seq', outPos', litPos') ∧
      FastRun avx2 moved src dst seq outPos out rest dst' seq' outPos' litPos'

theorem FastOutcome.cons {s : Sequence} {dst₁ : List UInt8} {outPos₁ litPos₁ : Nat}
    {out₁ : List UInt8} {r : Except Stop (List UInt8 × Nat × Nat × Nat)}
    (hseq : seq < src.numSequences) (hs : src.sequence seq = s)
    (h : At dst src outPos litPos out rest)
    (hfits : s.Fits dst.length outPos rest.length)
    (hfast : s.FastFits avx2 dst.length (slop moved) outPos rest.length)
    (hlen : dst₁.length = dst.length) (houtPos : outPos₁ = outPos + s.litLen + s.matchLen)
    (h₁ : At dst₁ src outPos₁ litPos₁ out₁ (rest.drop s.litLen))
    (hout₁ : s.offset ≠ 0 → out₁ = s.apply out rest)
    (hr : FastOutcome avx2 moved src dst₁ (seq + 1) outPos₁ out₁ (rest.drop s.litLen) r) :
    FastOutcome avx2 moved src dst seq outPos out rest r := by
  subst hs
  have haccepted : Accepted avx2 dst.length (src.sequencesFrom seq) outPos rest.length moved false ↔
      Accepted avx2 dst₁.length (src.sequencesFrom (seq + 1)) outPos₁
        (rest.drop (src.sequence seq).litLen).length moved false := by
    rw [sequencesFrom_of_lt hseq, accepted_cons, decide_eq_true hfast, Bool.not_true, hlen,
      houtPos, List.length_drop]
    exact ⟨fun hall => hall.2.2, fun hall => ⟨hfits, fun _ => hfast, hall⟩⟩
  rcases hr with ⟨hbad, hr⟩ | ⟨dst', seq', outPos', litPos', hr, hrun⟩
  · exact .inl ⟨fun hall => hbad (haccepted.1 hall), hr⟩
  · obtain ⟨out', rest', hat, hiff, hspec, hstop⟩ := hrun.goesOn
    refine .inr ⟨dst', seq', outPos', litPos', hr, ?_, hrun.seq_le_num, hrun.length.trans hlen, out',
      rest', hat, ?_, fun hnonzero => ?_, hlen ▸ hstop⟩
    · exact (Nat.le_succ _).trans hrun.seq_le
    · rw [hlen] at hiff
      rw [haccepted, hlen, hiff]
    · rw [sequencesFrom_of_lt hseq, List.forall_mem_cons] at hnonzero
      obtain ⟨hdecode, hnonzero'⟩ := hspec hnonzero.2
      refine ⟨?_, hnonzero'⟩
      rw [sequencesFrom_of_lt hseq, specDecode,
        specSequence_eq hfits.1 hnonzero.1 (by rw [h.length_out]; exact hfits.2.1),
        ← hout₁ hnonzero.1]
      exact hdecode

theorem fastLoop_spec (hlimits : Limits src litLimit moved) (fuel : Nat) :
    ∀ {dst : List UInt8} {seq outPos litPos : Nat} {out rest : List UInt8},
      At dst src outPos litPos out rest → outPos + kOutSlop ≤ dst.length →
      slop moved ≤ rest.length → seq < src.numSequences → src.numSequences ≤ seq + fuel →
        FastOutcome avx2 moved src dst seq outPos out rest
          (fastLoop avx2 src (outLimit dst) litLimit fuel dst seq outPos litPos) := by
  induction fuel with
  | zero =>
    intro dst seq outPos litPos out rest _ _ _ hseq hfuel
    omega
  | succ fuel ih =>
    intro dst seq outPos litPos out rest h hout hrest hseq hfuel
    have hlimit := hlimits.limit
    rw [fastLoop]
    rcases fastSequence_spec avx2 hlimits h hout hrest seq with
      ⟨hslow, dst₁, hrun, hlen, hat⟩ | ⟨hfar, hrun⟩ | ⟨hfast, hnear, hnext, dst₁, hrun, hlen, hmore⟩
    · rw [hrun, ok_bind]
      have hstop := @FastRun.refl avx2 moved src dst₁ seq outPos litPos out rest hat hseq.le
        fun _ => hlen ▸ hslow
      exact .inr ⟨dst₁, seq, outPos, litPos, rfl, hstop.seq_le, hstop.seq_le_num, hlen,
        hlen ▸ hstop.goesOn⟩
    · rw [hrun]
      refine .inl ⟨fun hall => ?_, .inl ⟨_, rfl⟩⟩
      rw [sequencesFrom_of_lt hseq, accepted_cons] at hall
      have := hall.1.2.1
      omega
    · rw [hrun, ok_bind]
      dsimp only
      have hlit := h.litPos_le
      have hlenRest := h.length_rest
      by_cases hlits : (src.sequence seq).litLen ≤ rest.length
      · obtain ⟨out₁, hat, hout₁⟩ := hmore hlits
        have hlenRest₁ := hat.length_rest
        have hcons : ∀ {r : Except Stop (List UInt8 × Nat × Nat × Nat)}, _ →
            FastOutcome avx2 moved src dst seq outPos out rest r := fun hr =>
          FastOutcome.cons hseq rfl h ⟨hlits, hnear, hnext⟩ hfast hlen rfl hat hout₁ hr
        split
        · rename_i hagain
          obtain ⟨hseq', hout', hlit'⟩ := hagain
          have hlimitOut : outLimit dst₁ = outLimit dst := by rw [outLimit, outLimit, hlen]
          have hrun' := ih hat (by rw [outLimit] at hout'; omega) (by omega) hseq' (by omega)
          rw [hlimitOut] at hrun'
          exact hcons hrun'
        · rename_i hagain
          refine hcons (.inr ⟨_, _, _, _, rfl, FastRun.refl hat (by omega) fun hseq' hfast' => ?_⟩)
          refine hagain ⟨hseq', ?_, ?_⟩
          · have := hfast'.1
            rw [outLimit]
            omega
          · have := hfast'.2.1
            omega
      · -- the literals ran past the end: the loop stops here
        rw [if_neg (by omega)]
        refine .inl ⟨fun hall => ?_, .inr ⟨_, _, _, _, rfl, by omega⟩⟩
        rw [sequencesFrom_of_lt hseq, accepted_cons] at hall
        exact hlits hall.1.1

/-! ## The whole decoder -/

/-- A decoder between two rounds. -/
structure TypedAt (dst : List UInt8) (state : DecodeState) (out rest : List UInt8) : Prop where
  at_ : At dst state.src state.outPos state.litPos out rest
  limits : Limits state.src state.litLimit state.moved

theorem accepted_resumed {dstSize outPos rest : Nat} (ss : List Sequence) :
    Accepted avx2 dstSize ss outPos rest moved true ↔
      Accepted avx2 dstSize ss outPos rest (moved || decide (rest < kLitSlop)) false := by
  cases ss with
  | nil => exact Iff.rfl
  | cons s ss => simp only [Accepted, Bool.true_and, Bool.false_and, Bool.or_false]

theorem settleLiterals_spec {state : DecodeState} (h : TypedAt dst state out rest) :
    ∃ state', settleLiterals state = .ok state' ∧ TypedAt dst state' out rest ∧
      state'.seq = state.seq ∧ state'.outPos = state.outPos ∧
      state'.src.numSequences = state.src.numSequences ∧
      state'.src.sequence = state.src.sequence ∧
      state'.moved = (state.moved || decide (rest.length < kLitSlop)) ∧
      slop state'.moved ≤ rest.length := by
  have hat := h.at_
  have hlit := hat.litPos_le
  have hlenRest := hat.length_rest
  have hlimit := h.limits.limit
  unfold settleLiterals
  by_cases hfew : (state.litPos : Int) > state.litLimit
  · rw [if_pos hfew]
    cases hmoved : state.moved with
    | true =>
      rw [hmoved, slop, if_pos rfl] at hlimit
      omega
    | false =>
      rw [hmoved, slop, if_neg (by decide)] at hlimit
      have hle : state.src.numLiterals - state.litPos ≤ kLitSlop := by omega
      have hread : (Buffer.read state.src.literals state.litPos
          (state.src.numLiterals - state.litPos)).length =
          state.src.numLiterals - state.litPos :=
        Buffer.length_read (by have := state.src.numLiterals_le; omega)
      have hrest := hat.read (Nat.le_refl rest.length)
      rw [List.take_length, hlenRest] at hrest
      rw [if_neg (by decide), dif_pos hle]
      refine ⟨moveLiterals state hle, rfl, ⟨⟨hat.outPos_le, hat.out, Nat.zero_le _, ?_⟩, ?_, ?_⟩,
        rfl, rfl, rfl, rfl, ?_, Nat.zero_le _⟩
      · change (List.take (state.src.numLiterals - state.litPos) (Buffer.read state.src.literals
          state.litPos (state.src.numLiterals - state.litPos) ++ _)).drop 0 = rest
        rw [List.drop_zero, List.take_left' hread, hrest]
      · exact (Int.sub_zero _).symm
      · change state.src.numLiterals - state.litPos + kLitSlop ≤ (Buffer.read state.src.literals
          state.litPos (state.src.numLiterals - state.litPos) ++
            List.replicate (2 * kLitSlop - (state.src.numLiterals - state.litPos)) 0).length + 0
        rw [List.length_append, List.length_replicate, hread]
        omega
      · rw [Bool.false_or, decide_eq_true (by omega)]
        rfl
  · rw [if_neg hfew]
    refine ⟨state, rfl, h, rfl, rfl, rfl, rfl, ?_, by omega⟩
    cases hmoved : state.moved with
    | true => rfl
    | false =>
      rw [hmoved, slop, if_neg (by decide)] at hlimit
      rw [Bool.false_or, decide_eq_false (by omega)]

theorem sequencesFrom_congr {src src' : InSequences} (hnum : src'.numSequences = src.numSequences)
    (hseq : src'.sequence = src.sequence) (seq : Nat) :
    src'.sequencesFrom seq = src.sequencesFrom seq := by
  rw [InSequences.sequencesFrom, InSequences.sequencesFrom, hnum, hseq]

theorem typedFast_spec (avx2 : Bool) {state : DecodeState} (h : TypedAt dst state out rest)
    (hseq : state.seq < state.src.numSequences) :
    (¬ Accepted avx2 dst.length (state.src.sequencesFrom state.seq) state.outPos rest.length
        state.moved true ∧ ∃ e, typedFast avx2 dst state = .error (.error e)) ∨
      ∃ dst' state' out' rest', typedFast avx2 dst state = .ok (dst', state') ∧
        dst'.length = dst.length ∧ TypedAt dst' state' out' rest' ∧
        state.seq ≤ state'.seq ∧ state'.seq ≤ state'.src.numSequences ∧
        state'.src.numSequences = state.src.numSequences ∧
        state'.src.sequence = state.src.sequence ∧
        (Accepted avx2 dst.length (state.src.sequencesFrom state.seq) state.outPos rest.length
            state.moved true ↔
          Accepted avx2 dst.length (state'.src.sequencesFrom state'.seq) state'.outPos
            rest'.length state'.moved false) ∧
        ((∀ s ∈ state.src.sequencesFrom state.seq, s.offset ≠ 0) →
          specDecode (state.src.sequencesFrom state.seq) out rest =
              specDecode (state'.src.sequencesFrom state'.seq) out' rest' ∧
            ∀ s ∈ state'.src.sequencesFrom state'.seq, s.offset ≠ 0) ∧
        (state'.seq < state'.src.numSequences →
          ¬ (state'.src.sequence state'.seq).FastFits avx2 dst.length (slop state'.moved)
            state'.outPos rest'.length) := by
  obtain ⟨state₁, hsettle, h₁, hseq₁, hout₁, hnum₁, hsame₁, hmoved₁, hslop₁⟩ :=
    settleLiterals_spec h
  have hat₁ := h₁.at_
  have hlimit := h₁.limits.limit
  have hlit := hat₁.litPos_le
  have hlenRest := hat₁.length_rest
  have hfrom := sequencesFrom_congr hnum₁ hsame₁ state.seq
  have haccepted : Accepted avx2 dst.length (state.src.sequencesFrom state.seq) state.outPos
      rest.length state.moved true ↔
      Accepted avx2 dst.length (state₁.src.sequencesFrom state₁.seq) state₁.outPos rest.length
        state₁.moved false := by
    rw [accepted_resumed, hseq₁, hout₁, hmoved₁, hfrom]
  rw [typedFast, hsettle, ok_bind, haccepted]
  rw [← hfrom, ← hseq₁]
  have hseq' : state₁.seq < state₁.src.numSequences := by omega
  by_cases hroom : state₁.outPos + kOutSlop ≤ dst.length
  · rw [if_pos ⟨by rw [outLimit]; omega, by omega, by omega⟩]
    rcases fastLoop_spec h₁.limits state₁.src.numSequences hat₁ hroom hslop₁ hseq'
      (Nat.le_add_left _ _) with ⟨hbad, ⟨e, hrun⟩ | ⟨dst', seq', outPos', litPos', hrun, hpast⟩⟩ |
      ⟨dst', seq', outPos', litPos', hrun, hfast⟩
    · rw [hrun]
      exact .inl ⟨hbad, e, rfl⟩
    · rw [hrun, ok_bind]
      dsimp only
      rw [if_pos hpast]
      exact .inl ⟨hbad, _, rfl⟩
    · obtain ⟨out', rest', hat', hiff, hspec, hstop⟩ := hfast.goesOn
      rw [hrun, ok_bind]
      dsimp only
      rw [if_neg (Nat.not_lt.2 hat'.litPos_le)]
      exact .inr ⟨dst', _, out', rest', rfl, hfast.length, ⟨hat', h₁.limits⟩, hfast.seq_le,
        hfast.seq_le_num, hnum₁, hsame₁, hiff, hspec, hstop⟩
  · rw [if_neg fun hpre => hroom (by have := hpre.1; rw [outLimit] at this; omega)]
    exact .inr ⟨dst, state₁, out, rest, rfl, rfl, h₁, Nat.le_refl _, by omega, hnum₁, hsame₁,
      Iff.rfl, fun hnonzero => ⟨rfl, hnonzero⟩, fun _ hfast => hroom hfast.1⟩

/-- What a decoder with the fast loop comes to. -/
def TypedOutcome (avx2 moved resumed : Bool) (dstSize : Nat) (ss : List Sequence) (outPos : Nat)
    (out rest : List UInt8) (r : Except Stop (List UInt8)) : Prop :=
  (Accepted avx2 dstSize ss outPos rest.length moved resumed ∧ ∃ o, r = .ok o ∧
      ((∀ s ∈ ss, s.offset ≠ 0) → specDecode ss out rest = some o)) ∨
    ¬ Accepted avx2 dstSize ss outPos rest.length moved resumed ∧ ∃ e, r = .error (.error e)

theorem typedLoop_spec (avx2 : Bool) (fuel : Nat) :
    ∀ {dst : List UInt8} {state : DecodeState} {out rest : List UInt8},
      state.src.Exact → TypedAt dst state out rest → state.seq ≤ state.src.numSequences →
      state.src.numSequences ≤ state.seq + fuel →
        TypedOutcome avx2 state.moved true dst.length (state.src.sequencesFrom state.seq)
          state.outPos out rest
          (typedLoop avx2 fuel dst state >>= fun r =>
            decodeLastLiterals r.1 r.2.src r.2.outPos r.2.litPos) := by
  have hend : ∀ {dst : List UInt8} {state : DecodeState} {out rest : List UInt8} (resumed : Bool),
      TypedAt dst state out rest → state.src.numSequences ≤ state.seq →
        TypedOutcome avx2 state.moved resumed dst.length (state.src.sequencesFrom state.seq)
          state.outPos out rest
          ((.ok (dst, state) : Except Stop (List UInt8 × DecodeState)) >>= fun r =>
            decodeLastLiterals r.1 r.2.src r.2.outPos r.2.litPos) := by
    intro dst state out rest resumed h hseq
    rw [sequencesFrom_of_ge hseq, ok_bind]
    rcases decodeLastLiterals_spec h.at_ with ⟨hsize, hrun⟩ | ⟨hsize, hrun⟩
    · exact .inl ⟨hsize, _, hrun, fun _ => rfl⟩
    · exact .inr ⟨hsize, hrun⟩
  induction fuel with
  | zero =>
    intro dst state out rest _ h hseq hfuel
    rw [typedLoop, if_neg (by omega)]
    exact hend true h (by omega)
  | succ fuel ih =>
    intro dst state out rest hexact h hseq hfuel
    by_cases hdone : state.src.numSequences ≤ state.seq
    · rw [typedLoop, if_neg (by omega)]
      exact hend true h hdone
    have hlt : state.seq < state.src.numSequences := Nat.lt_of_not_le hdone
    rw [typedLoop, if_pos hlt]
    rcases typedFast_spec avx2 h hlt with ⟨hbad, e, hfast⟩ |
      ⟨dst₁, state₁, out₁, rest₁, hfast, hlen₁, h₁, hle₁, hnum₁, hcount₁, hsame₁, hiff, hspec, hslow⟩
    · dsimp only
      rw [hfast]
      exact .inr ⟨hbad, e, rfl⟩
    dsimp only
    rw [hfast, ok_bind]
    have hexact₁ : state₁.src.Exact := by
      intro seq
      rw [hsame₁]
      exact hexact seq
    -- from the sequence at which the round's fast loop stopped
    have hrest : ∀ {r : Except Stop (List UInt8)},
        TypedOutcome avx2 state₁.moved false dst.length (state₁.src.sequencesFrom state₁.seq)
          state₁.outPos out₁ rest₁ r →
        TypedOutcome avx2 state.moved true dst.length (state.src.sequencesFrom state.seq)
          state.outPos out rest r := by
      rintro r (⟨hall, o, hrun, hdecode⟩ | ⟨hbad, hrun⟩)
      · refine .inl ⟨hiff.2 hall, o, hrun, fun hnonzero => ?_⟩
        obtain ⟨heq, hnonzero₁⟩ := hspec hnonzero
        exact heq.trans (hdecode hnonzero₁)
      · exact .inr ⟨fun hall => hbad (hiff.1 hall), hrun⟩
    refine hrest ?_
    by_cases hmore : state₁.seq < state₁.src.numSequences
    case neg =>
      have hstop := hend false h₁ (Nat.le_of_not_lt hmore)
      rw [hlen₁] at hstop
      have hrun : typedLoop avx2 fuel dst₁ state₁ = .ok (dst₁, state₁) := by
        cases fuel with
        | zero => rw [typedLoop, if_neg hmore]
        | succ fuel => rw [typedLoop, if_neg hmore]
      rw [if_neg hmore, hrun]
      exact hstop
    rw [if_pos hmore, sequencesFrom_of_lt hmore]
    -- the reference routine takes one sequence
    rcases decodeSequence_spec hexact₁ h₁.at_ state₁.seq with
      ⟨hfits, hpos, dst₂, hstep, hlen₂, hat₂⟩ | ⟨hbad, e, hstep⟩
    · rw [hstep, ok_bind]
      have h₂ : TypedAt dst₂
          { state₁ with
            seq := state₁.seq + 1
            outPos := state₁.outPos + (state₁.src.sequence state₁.seq).litLen +
              (state₁.src.sequence state₁.seq).matchLen
            litPos := state₁.litPos + (state₁.src.sequence state₁.seq).litLen }
          ((state₁.src.sequence state₁.seq).apply out₁ rest₁)
          (rest₁.drop (state₁.src.sequence state₁.seq).litLen) := ⟨hat₂, h₁.limits⟩
      have hnext := @ih dst₂
        { state₁ with
          seq := state₁.seq + 1
          outPos := state₁.outPos + (state₁.src.sequence state₁.seq).litLen +
            (state₁.src.sequence state₁.seq).matchLen
          litPos := state₁.litPos + (state₁.src.sequence state₁.seq).litLen }
        _ _ hexact₁ h₂ hmore (by dsimp only; omega)
      dsimp only at hnext
      rw [hlen₂, hlen₁] at hnext
      have haccepted : Accepted avx2 dst.length
          (state₁.src.sequence state₁.seq :: state₁.src.sequencesFrom (state₁.seq + 1))
          state₁.outPos rest₁.length state₁.moved false ↔
        Accepted avx2 dst.length (state₁.src.sequencesFrom (state₁.seq + 1))
          (state₁.outPos + (state₁.src.sequence state₁.seq).litLen +
            (state₁.src.sequence state₁.seq).matchLen)
          (rest₁.drop (state₁.src.sequence state₁.seq).litLen).length state₁.moved true := by
        rw [accepted_cons, decide_eq_false (hslow hmore), Bool.not_false, List.length_drop]
        rw [hlen₁] at hfits
        exact ⟨fun hall => hall.2.2, fun hall => ⟨hfits, fun hzero => absurd hzero hpos, hall⟩⟩
      rcases hnext with ⟨hall, o, hrun, hdecode⟩ | ⟨hbad, hrun⟩
      · refine .inl ⟨haccepted.2 hall, o, hrun, fun hnonzero => ?_⟩
        rw [specDecode, specSequence_eq hfits.1 hpos
          (by rw [h₁.at_.length_out]; exact hfits.2.1)]
        exact hdecode (List.forall_mem_cons.1 hnonzero).2
      · exact .inr ⟨fun hall => hbad (haccepted.1 hall), hrun⟩
    · rw [hstep]
      refine .inr ⟨fun hall => ?_, e, rfl⟩
      rw [accepted_cons] at hall
      rw [hlen₁] at hbad
      exact hbad ⟨hall.1, fun hzero => hslow hmore (hall.2.1 hzero)⟩

theorem decodeTyped_spec (avx2 : Bool) (hexact : src.Exact) (dst : List UInt8) :
    TypedOutcome avx2 false true dst.length (src.sequencesFrom 0) 0 [] src.usable
      (decodeTyped avx2 dst src) := by
  have hstart : TypedAt dst
      { src := src
        seq := 0
        outPos := 0
        litPos := 0
        litLimit := (src.numLiterals : Int) - kLitSlop
        moved := false } [] src.usable :=
    ⟨At.start dst src, rfl, Nat.add_le_add_right src.numLiterals_le _⟩
  exact typedLoop_spec avx2 (src.numSequences + 1) hexact hstart (Nat.zero_le _)
    (by dsimp only; omega)

/-! ## What is refused -/

theorem Accepted.wellFormed {dstSize : Nat} {ss : List Sequence} :
    ∀ {outPos rest : Nat} {moved resumed : Bool},
      Accepted avx2 dstSize ss outPos rest moved resumed → WellFormed dstSize ss outPos rest := by
  induction ss with
  | nil => exact fun h => h
  | cons s ss ih =>
    intro outPos rest moved resumed h
    exact ⟨h.1, ih h.2.2⟩

theorem WellFormed.accepted {dstSize : Nat} {ss : List Sequence} :
    ∀ {outPos rest : Nat} {moved resumed : Bool}, WellFormed dstSize ss outPos rest →
      (∀ s ∈ ss, s.offset ≠ 0) → Accepted avx2 dstSize ss outPos rest moved resumed := by
  induction ss with
  | nil => exact fun h _ => h
  | cons s ss ih =>
    intro outPos rest moved resumed h hnonzero
    obtain ⟨hs, hss⟩ := List.forall_mem_cons.1 hnonzero
    exact ⟨h.1, fun hzero => absurd hzero hs, ih h.2 hss⟩

/-- **The fast loop is complete**: the decoder with the fast loop always comes to an end, within
its buffers, and it decodes what the reference loop decodes, whatever the output holds before. -/
theorem decodeTyped_complete (avx2 : Bool) {src : InSequences}
    (hoffsets : src.offsetsEltWidth = 2 ∨ src.offsetsEltWidth = 4)
    (hliterals : src.literalLengthsEltWidth = 2) (hmatches : src.matchLengthsEltWidth = 2)
    {dst dst' : List UInt8} (hsize : dst'.length = dst.length) :
    ((∃ o, decodeTyped avx2 dst' src = .ok o) ∨
        ∃ e, decodeTyped avx2 dst' src = .error (.error e)) ∧
      ∀ o, decodeGeneric dst src = .ok o →
        o.length = dst.length ∧ decodeTyped avx2 dst' src = .ok o := by
  have hexact : src.Exact := exact_of_width (by omega) (by omega) (by omega)
  have hrun := decodeTyped_spec avx2 hexact dst'
  rw [TypedOutcome, length_usable, hsize] at hrun
  constructor
  · rcases hrun with ⟨-, o, hrun, -⟩ | ⟨-, hrun⟩
    · exact .inl ⟨o, hrun⟩
    · exact .inr hrun
  · intro o hgeneric
    rcases decodeGeneric_spec hexact dst with ⟨hwell, hnonzero, o', hrun', hdecode, hlen⟩ |
      ⟨-, e, hrun'⟩
    · obtain rfl := Except.ok.inj (hgeneric.symm.trans hrun')
      rcases hrun with ⟨-, o', hrun, hdecode'⟩ | ⟨hbad, -⟩
      · obtain rfl := Option.some.inj (hdecode.symm.trans (hdecode' hnonzero))
        exact ⟨hlen, hrun⟩
      · exact absurd (hwell.accepted hnonzero) hbad
    · cases hgeneric.symm.trans hrun'

/-- One sequence, with widths the fast decoder takes. -/
def oneSequence (literals : List UInt8) (offset litLen matchLen : Nat)
    (h : offset < 2 ^ 16 ∧ litLen < 2 ^ 16 ∧ matchLen < 2 ^ 16) : InSequences where
  literals := literals
  numLiterals := literals.length
  offsets := [offset]
  offsetsEltWidth := 2
  literalLengths := [litLen]
  literalLengthsEltWidth := 2
  matchLengths := [matchLen]
  matchLengthsEltWidth := 2
  numSequences := 1
  numLiterals_le := Nat.le_refl _
  length_offsets := rfl
  length_literalLengths := rfl
  length_matchLengths := rfl
  offsets_lt := List.forall_mem_singleton.2 h.1
  literalLengths_lt := List.forall_mem_singleton.2 h.2.1
  matchLengths_lt := List.forall_mem_singleton.2 h.2.2

/-- Two literals, a match that overlaps, and the last literal. -/
def overlappingInput : InSequences := oneSequence [7, 8, 9] 1 2 3 (by decide)

theorem decodeTyped_complete_overlapping :
    decodeGeneric [0, 0, 0, 0, 0, 0] overlappingInput = .ok [7, 8, 8, 8, 8, 9] ∧
      decodeTyped true [1, 1, 1, 1, 1, 1] overlappingInput = .ok [7, 8, 8, 8, 8, 9] :=
  ⟨rfl, ((decodeTyped_complete true (.inl rfl) rfl rfl rfl).2 _ rfl).2⟩

theorem decodeGeneric_fails_iff (hexact : src.Exact) (dst : List UInt8) :
    (∃ e, decodeGeneric dst src = .error (.error e)) ↔
      ¬ (WellFormed dst.length (src.sequencesFrom 0) 0 src.numLiterals ∧
        ∀ s ∈ src.sequencesFrom 0, s.offset ≠ 0) := by
  rcases decodeGeneric_spec hexact dst with ⟨hwell, hnonzero, o, hrun, -, -⟩ | ⟨hbad, hrun⟩
  · rw [hrun]
    exact ⟨nofun, fun hbad => absurd ⟨hwell, hnonzero⟩ hbad⟩
  · exact ⟨fun _ => hbad, fun _ => hrun⟩

theorem decodeTyped_fails_iff (avx2 : Bool) (hexact : src.Exact) (dst : List UInt8) :
    (∃ e, decodeTyped avx2 dst src = .error (.error e)) ↔
      ¬ Accepted avx2 dst.length (src.sequencesFrom 0) 0 src.numLiterals false true := by
  have hrun := decodeTyped_spec avx2 hexact dst
  rw [TypedOutcome, length_usable] at hrun
  rcases hrun with ⟨hall, o, hrun, -⟩ | ⟨hbad, hrun⟩
  · rw [hrun]
    exact ⟨nofun, fun hbad => absurd hall hbad⟩
  · exact ⟨fun _ => hbad, fun _ => hrun⟩

/-- **What the reference loop refuses is refused**, exactly unless the sequences are otherwise well
formed, some offset is zero, and the fast loop takes every sequence with a zero offset. -/
theorem decode_rejects_iff (avx2 : Bool) {src : InSequences}
    (hoffsets : src.offsetsEltWidth = 2 ∨ src.offsetsEltWidth = 4)
    (hliterals : src.literalLengthsEltWidth = 2) (hmatches : src.matchLengthsEltWidth = 2)
    (dst : List UInt8) :
    ((∃ e, decodeGeneric dst src = .error (.error e)) →
        ∃ e, decode avx2 dst src = .error (.error e)) ↔
      ¬ (dst.length ≤ maxTypedSize ∧
        Accepted avx2 dst.length (src.sequencesFrom 0) 0 src.numLiterals false true ∧
        ∃ s ∈ src.sequencesFrom 0, s.offset = 0) := by
  have hexact : src.Exact := exact_of_width (by omega) (by omega) (by omega)
  have hdecode : decode avx2 dst src =
      if dst.length ≤ maxTypedSize then decodeTyped avx2 dst src else decodeGeneric dst src := by
    unfold decode
    rcases hoffsets with h | h <;> simp [h, hliterals, hmatches]
  have hgeneric := decodeGeneric_fails_iff hexact dst
  have htyped := decodeTyped_fails_iff avx2 hexact dst
  rw [hdecode, hgeneric]
  by_cases hfits : dst.length ≤ maxTypedSize
  case neg =>
    rw [if_neg hfits, hgeneric]
    exact ⟨fun _ hbad => hfits hbad.1, fun _ h => h⟩
  rw [if_pos hfits, htyped]
  constructor
  · rintro himp ⟨-, hall, s, hs, hzero⟩
    exact himp (fun hgood => hgood.2 s hs hzero) hall
  · intro hcond hbad hall
    refine hbad ⟨hall.wellFormed, fun s hs hzero => hcond ⟨hfits, hall, s, hs, hzero⟩⟩

/-- 64 literals, the first of them before a match of no bytes from nowhere. -/
def zeroOffsetInput : InSequences := oneSequence (List.replicate 64 7) 0 1 0 (by decide)

theorem decode_rejects_zero_offset_iff :
    ((∃ e, decodeGeneric (List.replicate 64 0) zeroOffsetInput = .error (.error e)) →
        ∃ e, decode true (List.replicate 64 0) zeroOffsetInput = .error (.error e)) ↔
      ¬ ((List.replicate 64 (0 : UInt8)).length ≤ maxTypedSize ∧
        Accepted true (List.replicate 64 (0 : UInt8)).length (zeroOffsetInput.sequencesFrom 0) 0
          zeroOffsetInput.numLiterals false true ∧
        ∃ s ∈ zeroOffsetInput.sequencesFrom 0, s.offset = 0) :=
  decode_rejects_iff true (.inl rfl) rfl rfl (List.replicate 64 0)

/-- The fast loop takes a zero offset. -/
theorem decode_accepts_zero_offset :
    ¬ ((∃ e, decodeGeneric (List.replicate 64 0) zeroOffsetInput = .error (.error e)) →
      ∃ e, decode true (List.replicate 64 0) zeroOffsetInput = .error (.error e)) := by
  have hexact : zeroOffsetInput.Exact := exact_of_width (by decide) (by decide) (by decide)
  have hsize : (List.replicate 64 (0 : UInt8)).length = 64 := List.length_replicate
  have hdecode : decode true (List.replicate 64 0) zeroOffsetInput =
      decodeTyped true (List.replicate 64 0) zeroOffsetInput := by
    rw [decode, hsize]
    exact if_pos (by decide)
  have haccepted : Accepted true 64 [⟨1, 0, 0⟩] 0 64 false true := by
    refine ⟨by decide, fun _ => by decide, rfl⟩
  intro h
  obtain ⟨e, he⟩ := h ⟨.offsetZero, rfl⟩
  rw [hdecode] at he
  have hbad := (decodeTyped_fails_iff true hexact _).1 ⟨e, he⟩
  rw [hsize] at hbad
  exact hbad haccepted

end OpenZL.Codecs.Lz
