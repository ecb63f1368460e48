import OpenZL.Codecs.MuxLengthsVector

/-!
# Muxed lengths on every path

The rounds of the vector encoder, and the round trip over all paths.

Principal results: `muxRounds_spec`, `muxLengths_iff`.
-/

namespace OpenZL.Codecs.MuxLengths

open OpenZL.Lib OpenZL.Lib.Simd

/-! ## One round -/

/-- A comparison of lanes of two bytes. -/
def flagLane (b : Bool) : Nat := if b then 2 ^ 16 - 1 else 0

theorem tokenExtract_eq {as bs : List Bool} (ha : as.length = 8) (hb : bs.length = 8) :
    pshufb256 (ofLanes 2 ((as ++ bs).map flagLane)) kTokenExtract =
      (as ++ (List.replicate 8 false ++ (bs ++ List.replicate 8 false))).map flagByte := by
  have hlane : ∀ b, toLE 2 (flagLane b) = [flagByte b, flagByte b] := by decide
  obtain ⟨a₀, a₁, a₂, a₃, a₄, a₅, a₆, a₇, rfl⟩ := length_eight ha
  obtain ⟨b₀, b₁, b₂, b₃, b₄, b₅, b₆, b₇, rfl⟩ := length_eight hb
  simp only [List.cons_append, List.nil_append, List.map_cons, List.map_nil, ofLanes,
    List.flatMap_cons, List.flatMap_nil, hlane]
  rfl

theorem movemask_halves {as bs : List Bool} (ha : as.length = 8) (hb : bs.length = 8) :
    movemaskEpi8 ((as ++ (List.replicate 8 false ++ (bs ++ List.replicate 8 false))).map flagByte)
        &&& 0xff = ofBits as ∧
      (movemaskEpi8 ((as ++ (List.replicate 8 false ++ (bs ++ List.replicate 8 false))).map
        flagByte) >>> 16) &&& 0xff = ofBits bs := by
  have hlta := ofBits_lt as
  have hltb := ofBits_lt bs
  have hzero : ofBits (List.replicate 8 false) = 0 := rfl
  rw [ha] at hlta
  rw [hb] at hltb
  rw [movemaskEpi8_flags, ofBits_append, ofBits_append, ofBits_append, hzero, ha, hb,
    List.length_replicate, show 0xff = 2 ^ 8 - 1 from rfl, Nat.and_two_pow_sub_one_eq_mod,
    Nat.and_two_pow_sub_one_eq_mod, Nat.shiftRight_eq_div_pow]
  omega

theorem muxGather_eq {zs ss : List Nat} (hz : zs.length = 8) (hs : ss.length = 8) :
    let muxed := pshufb256 (Shuffles.orSi (ofLanes 4 zs) (ofLanes 4 ss)) kMuxGather
    muxed.take 4 ++ (muxed.drop 16).take 4 =
      List.zipWith (fun z s => UInt8.ofNat z ||| UInt8.ofNat s) zs ss := by
  obtain ⟨z₀, z₁, z₂, z₃, z₄, z₅, z₆, z₇, rfl⟩ := length_eight hz
  obtain ⟨s₀, s₁, s₂, s₃, s₄, s₅, s₆, s₇, rfl⟩ := length_eight hs
  rfl

theorem mux_byte {splitPoint t u : Nat} (hsp : splitPoint ≤ 8) (ht : t < 2 ^ splitPoint) :
    UInt8.ofNat (t + 2 ^ 16 * u) ||| UInt8.ofNat ((t + 2 ^ 16 * u) >>> (16 - splitPoint)) =
      UInt8.ofNat (t + 2 ^ splitPoint * u) := by
  have hpow : 2 ^ 16 = 2 ^ (16 - splitPoint) * 2 ^ splitPoint := by
    rw [← Nat.pow_add, Nat.sub_add_cancel (hsp.trans (by decide))]
  have hle : 2 ^ splitPoint ≤ 2 ^ (16 - splitPoint) := Nat.pow_le_pow_right (by decide) (by omega)
  have hshift : (t + 2 ^ 16 * u) >>> (16 - splitPoint) = u <<< splitPoint := by
    rw [Nat.shiftRight_eq_div_pow, hpow, Nat.mul_assoc,
      Nat.add_mul_div_left _ _ (Nat.two_pow_pos _), Nat.div_eq_of_lt (ht.trans_le hle),
      Nat.zero_add, Nat.shiftLeft_eq, Nat.mul_comm]
  have hlow : UInt8.ofNat (t + 2 ^ 16 * u) = UInt8.ofNat t := by
    apply UInt8.toNat_inj.1
    rw [UInt8.toNat_ofNat', UInt8.toNat_ofNat']
    omega
  rw [hshift, hlow, ← or_shiftLeft ht]
  apply UInt8.toNat_inj.1
  rw [UInt8.toNat_or, UInt8.toNat_ofNat', UInt8.toNat_ofNat', UInt8.toNat_ofNat',
    ← Nat.or_mod_two_pow]

theorem keep_extra (m y : Nat) (bs : List Bool) (xs : List Nat) :
    keep (decide (m ≤ y) :: bs) ((y + 2 ^ 16 - m) % 2 ^ 16 :: xs) = extra 2 m y ++ keep bs xs := by
  unfold extra
  by_cases h : m ≤ y
  · rw [decide_eq_true h, if_pos h, keep,
      show (y + 2 ^ 16 - m) % 2 ^ 16 = (y - m) % 2 ^ (8 * 2) by omega]
    rfl
  · rw [decide_eq_false h, if_neg h, keep]
    rfl

theorem packed_eq {bs : List Bool} {es : List Nat} (hbs : bs.length = 8) (hes : es.length = 8)
    (hlt : ∀ e ∈ es, e < 2 ^ 16) :
    lanes 2 8 (pshufb (ofLanes 2 es) (compressU16LUT (ofBits bs))) =
        keep bs es ++ List.replicate (8 - (keep bs es).length) 0 ∧
      popcount (ofBits bs) = (keep bs es).length := by
  have htables : compressU16LUT (ofBits bs) = (compressSelect bs).flatMap laneIndex ∧
      popcount (ofBits bs) = bs.count true := by
    obtain ⟨b₀, b₁, b₂, b₃, b₄, b₅, b₆, b₇, rfl⟩ := length_eight hbs
    exact (tables_eight _ _ _ _ _ _ _ _).2
  have hselect : ∀ r, some r ∈ compressSelect bs → r < 8 := by
    intro r hr
    rcases List.mem_append.1 hr with hr | hr
    · obtain ⟨i, hi, hir⟩ := List.mem_map.1 hr
      have := lt_of_mem_flagged hi
      cases hir
      omega
    · cases (List.mem_replicate.1 hr).2
  have hkeep := length_keep (hbs.trans hes.symm)
  have hle : bs.count true ≤ 8 := hbs ▸ List.count_le_length
  rw [htables.1, htables.2, pshufb_lanes hes hselect, map_compressSelect (hbs.trans hes.symm), hbs]
  refine ⟨?_, hkeep.symm⟩
  have hlen : (keep bs es ++ List.replicate (8 - (keep bs es).length) 0).length = 8 := by
    rw [List.length_append, List.length_replicate]
    omega
  have hmem : ∀ e ∈ keep bs es ++ List.replicate (8 - (keep bs es).length) 0,
      e < 2 ^ (8 * 2) := by
    intro e he
    rcases List.mem_append.1 he with he | he
    · exact hlt e (mem_of_mem_keep he)
    · rw [(List.mem_replicate.1 he).2]
      decide
  have hall := lanes_ofLanes hmem
  rwa [hlen] at hall

section MuxRound

variable {splitPoint matchLengthBias : Nat}

theorem pairs_eq {a b : Nat} (ha : a < 2 ^ 16) :
    ofLanes 4 (List.replicate 8 (a ||| b <<< 16)) =
      ofLanes 2 (interleave (List.replicate 8 a) (List.replicate 8 b)) := by
  have hall : ∀ x ∈ List.replicate 8 a, x < 2 ^ 16 := fun x hx => (List.mem_replicate.1 hx).2 ▸ ha
  have hlen : (List.replicate 8 a).length = (List.replicate 8 b).length := by
    rw [List.length_replicate, List.length_replicate]
  rw [ofLanes_interleave hlen hall, or_shiftLeft ha]
  rfl

theorem mem_interleave {x : Nat} : ∀ {as bs : List Nat}, x ∈ interleave as bs → x ∈ as ∨ x ∈ bs
  | a :: as, b :: bs, h => by
      rcases List.mem_cons.1 h with rfl | h
      · exact .inl List.mem_cons_self
      · rcases List.mem_cons.1 h with rfl | h
        · exact .inr List.mem_cons_self
        · exact (mem_interleave h).imp (List.mem_cons_of_mem _) (List.mem_cons_of_mem _)
  | [], _, h => nomatch h
  | _ :: _, [], h => nomatch h

theorem zipWith_sub_lt (xs ys : List Nat) :
    ∀ w ∈ List.zipWith (fun x y => (x + 2 ^ 16 - y) % 2 ^ 16) xs ys, w < 2 ^ 16 := by
  intro w hw
  rw [← List.map_uncurry_zip_eq_zipWith] at hw
  obtain ⟨p, -, rfl⟩ := List.mem_map.1 hw
  exact Nat.mod_lt _ (Nat.two_pow_pos 16)

theorem token_eq {xs ms : List Nat} (hxs : ∀ x ∈ xs, x < 2 ^ 16) (hms : ∀ m ∈ ms, m < 2 ^ 16) :
    subEpi16 (ofLanes 2 xs) (subsEpu16 (ofLanes 2 xs) (ofLanes 2 ms)) =
      ofLanes 2 (List.zipWith min xs ms) := by
  have hsubs : ∀ x ∈ List.zipWith (fun x y => x - y) xs ms, x < 2 ^ (8 * 2) := by
    intro w hw
    rw [← List.map_uncurry_zip_eq_zipWith] at hw
    obtain ⟨p, hp, rfl⟩ := List.mem_map.1 hw
    exact (Nat.sub_le _ _).trans_lt (hxs _ (List.of_mem_zip hp).1)
  rw [subsEpu16, lanewise_ofLanes (by decide) _ hxs hms, subEpi16,
    lanewise_ofLanes (by decide) _ hxs hsubs]
  congr 1
  induction xs generalizing ms with
  | nil => rfl
  | cons x xs ih =>
    cases ms with
    | nil => rfl
    | cons m ms =>
      have hx := hxs x List.mem_cons_self
      rw [List.zipWith_cons_cons, List.zipWith_cons_cons, List.zipWith_cons_cons,
        ih (fun y hy => hxs y (List.mem_cons_of_mem _ hy))
          (fun y hy => hms y (List.mem_cons_of_mem _ hy))
          (fun y hy => hsubs y (List.mem_cons_of_mem _ hy))]
      congr 1
      omega

theorem eqMask_eq {xs ms : List Nat} (hxs : ∀ x ∈ xs, x < 2 ^ 16) (hms : ∀ m ∈ ms, m < 2 ^ 16) :
    cmpeqEpi16 (ofLanes 2 (List.zipWith min xs ms)) (ofLanes 2 ms) =
      ofLanes 2 ((List.zipWith (fun x m => decide (m ≤ x)) xs ms).map flagLane) := by
  have hmin : ∀ w ∈ List.zipWith min xs ms, w < 2 ^ (8 * 2) := by
    intro w hw
    rw [← List.map_uncurry_zip_eq_zipWith] at hw
    obtain ⟨p, hp, rfl⟩ := List.mem_map.1 hw
    exact (Nat.min_le_left _ _).trans_lt (hxs _ (List.of_mem_zip hp).1)
  rw [cmpeqEpi16, lanewise_ofLanes (by decide) _ hmin hms]
  congr 1
  clear hmin hxs hms
  induction xs generalizing ms with
  | nil => rfl
  | cons x xs ih =>
    cases ms with
    | nil => rfl
    | cons m ms =>
      have hfull : min x m = m ↔ m ≤ x := by omega
      rw [List.zipWith_cons_cons, List.zipWith_cons_cons, List.zipWith_cons_cons, List.map_cons, ih,
        flagLane]
      simp only [decide_eq_true_eq, hfull]

theorem vals_eq {lls mls : List Nat} (hl : lls.length = 8) (hm : mls.length = 8)
    (hlls : ∀ v ∈ lls, v < 2 ^ 16) (hmls : ∀ v ∈ mls, v < 2 ^ 16) (hbias : matchLengthBias ≤ 15) :
    subEpi16 (unpackloEpi16 (ofLanes 2 lls) (ofLanes 2 mls) ++
        unpackhiEpi16 (ofLanes 2 lls) (ofLanes 2 mls))
        (ofLanes 4 (List.replicate 8 (matchLengthBias <<< 16))) =
      ofLanes 2 (interleave lls (mls.map (unbias 16 · matchLengthBias))) := by
  have hlanes := @lanes_ofLanes 2 lls hlls
  have hlanes' := @lanes_ofLanes 2 mls hmls
  have hpairs := @pairs_eq 0 matchLengthBias (by decide)
  rw [hl] at hlanes
  rw [hm] at hlanes'
  rw [Nat.zero_or] at hpairs
  rw [unpackloEpi16, unpackhiEpi16, hlanes, hlanes', ← ofLanes_append, hpairs]
  have hraw : interleave (lls.take 4) (mls.take 4) ++ interleave (lls.drop 4) (mls.drop 4) =
      interleave lls mls := by
    obtain ⟨l₀, l₁, l₂, l₃, l₄, l₅, l₆, l₇, rfl⟩ := length_eight hl
    obtain ⟨m₀, m₁, m₂, m₃, m₄, m₅, m₆, m₇, rfl⟩ := length_eight hm
    rfl
  have hzero : List.zipWith (fun x y => (x + 2 ^ 16 - y) % 2 ^ 16) lls (List.replicate 8 0) =
      lls := by
    obtain ⟨l₀, l₁, l₂, l₃, l₄, l₅, l₆, l₇, rfl⟩ := length_eight hl
    simp only [List.forall_mem_cons] at hlls
    simp only [List.replicate_succ, List.replicate_zero, List.zipWith_cons_cons,
      List.zipWith_nil_left, Nat.sub_zero, Nat.add_mod_right, Nat.mod_eq_of_lt, hlls]
  have hsub : List.zipWith (fun x y => (x + 2 ^ 16 - y) % 2 ^ 16) mls
      (List.replicate 8 matchLengthBias) = mls.map (unbias 16 · matchLengthBias) := by
    obtain ⟨m₀, m₁, m₂, m₃, m₄, m₅, m₆, m₇, rfl⟩ := length_eight hm
    rfl
  have hlen : (List.replicate 8 0).length = (List.replicate 8 matchLengthBias).length := by
    rw [List.length_replicate, List.length_replicate]
  rw [hraw, subEpi16, lanewise_ofLanes (by decide),
    zipWith_interleave _ (hl.trans hm.symm) hlen, hzero, hsub]
  · intro x hx
    rcases mem_interleave hx with hx | hx
    · exact hlls x hx
    · exact hmls x hx
  · intro x hx
    rcases mem_interleave hx with hx | hx
    · rw [(List.mem_replicate.1 hx).2]
      decide
    · rw [(List.mem_replicate.1 hx).2]
      omega

theorem muxOne_unbias {ml : Nat} (hsp : splitPoint ≤ 8) (hbias : matchLengthBias ≤ 15)
    (hml : ml < 2 ^ 16) (ll : Nat) :
    muxOne 2 splitPoint ll (unbias 16 ml matchLengthBias) =
      muxOne 2 splitPoint ll (unbias 64 ml matchLengthBias) := by
  obtain ⟨-, hmask⟩ := masks_le hsp
  have hmin : min (unbias 16 ml matchLengthBias) (mlMask splitPoint) =
      min (unbias 64 ml matchLengthBias) (mlMask splitPoint) := by
    unfold unbias
    omega
  have hextra : extra 2 (mlMask splitPoint) (unbias 16 ml matchLengthBias) =
      extra 2 (mlMask splitPoint) (unbias 64 ml matchLengthBias) := by
    unfold extra
    by_cases h : mlMask splitPoint ≤ unbias 16 ml matchLengthBias
    · have h' : mlMask splitPoint ≤ unbias 64 ml matchLengthBias := by
        unfold unbias at h ⊢
        omega
      have hval : (unbias 16 ml matchLengthBias - mlMask splitPoint) % 2 ^ (8 * 2) =
          (unbias 64 ml matchLengthBias - mlMask splitPoint) % 2 ^ (8 * 2) := by
        unfold unbias at h h' ⊢
        omega
      rw [if_pos h, if_pos h', hval]
    · have h' : ¬ mlMask splitPoint ≤ unbias 64 ml matchLengthBias := by
        unfold unbias at h ⊢
        omega
      rw [if_neg h, if_neg h']
  rw [muxOne_eq, muxOne_eq, hmin, hextra]

theorem encode_muxed (eltWidth splitPoint matchLengthBias : Nat) : ∀ lls mls : List Nat,
    (muxLengthsEncodeImpl eltWidth splitPoint matchLengthBias lls mls).1 =
      List.zipWith (fun ll ml => (muxOne eltWidth splitPoint ll (unbias 64 ml matchLengthBias)).1)
        lls mls
  | ll :: lls, ml :: mls => by
      rw [muxLengthsEncodeImpl, List.zipWith_cons_cons, ← encode_muxed]
  | [], _ => rfl
  | _ :: _, [] => rfl

theorem encode_append (eltWidth splitPoint matchLengthBias : Nat) : ∀ {l₁ m₁ : List Nat},
    l₁.length = m₁.length → ∀ l₂ m₂ : List Nat,
      muxLengthsEncodeImpl eltWidth splitPoint matchLengthBias (l₁ ++ l₂) (m₁ ++ m₂) =
        ((muxLengthsEncodeImpl eltWidth splitPoint matchLengthBias l₁ m₁).1 ++
          (muxLengthsEncodeImpl eltWidth splitPoint matchLengthBias l₂ m₂).1,
        (muxLengthsEncodeImpl eltWidth splitPoint matchLengthBias l₁ m₁).2 ++
          (muxLengthsEncodeImpl eltWidth splitPoint matchLengthBias l₂ m₂).2)
  | ll :: l₁, ml :: m₁, h, l₂, m₂ => by
      rw [List.cons_append, List.cons_append, muxLengthsEncodeImpl, muxLengthsEncodeImpl,
        encode_append _ _ _ (Nat.succ.inj h)]
      rw [List.append_assoc]
      rfl
  | [], [], _, _, _ => rfl

theorem keep_pairs (hsp : splitPoint ≤ 8) (hbias : matchLengthBias ≤ 15) : ∀ {lls mls : List Nat},
    lls.length = mls.length → (∀ v ∈ mls, v < 2 ^ 16) →
      let vals := interleave lls (mls.map (unbias 16 · matchLengthBias))
      let masks := interleave (List.replicate lls.length (llMask splitPoint))
        (List.replicate mls.length (mlMask splitPoint))
      keep (List.zipWith (fun x m => decide (m ≤ x)) vals masks)
          (List.zipWith (fun x m => (x + 2 ^ 16 - m) % 2 ^ 16) vals masks) =
        (muxLengthsEncodeImpl 2 splitPoint matchLengthBias lls mls).2
  | ll :: lls, ml :: mls, h, hmls => by
      have hrest := keep_pairs hsp hbias (Nat.succ.inj h) fun v hv =>
        hmls v (List.mem_cons_of_mem _ hv)
      dsimp only at hrest ⊢
      rw [List.map_cons, List.length_cons, List.length_cons, List.replicate_succ,
        List.replicate_succ, interleave, interleave, List.zipWith_cons_cons,
        List.zipWith_cons_cons, List.zipWith_cons_cons, List.zipWith_cons_cons, keep_extra,
        keep_extra, hrest, muxLengthsEncodeImpl,
        ← muxOne_unbias hsp hbias (hmls ml List.mem_cons_self), muxOne_eq]
      exact (List.append_assoc _ _ _).symm
  | [], [], _, _ => rfl

theorem interleave_append : ∀ {as bs : List Nat}, as.length = bs.length → ∀ cs ds : List Nat,
    interleave (as ++ cs) (bs ++ ds) = interleave as bs ++ interleave cs ds
  | a :: as, b :: bs, h, cs, ds => by
      rw [List.cons_append, List.cons_append, interleave, interleave_append (Nat.succ.inj h)]
      rfl
  | [], [], _, _, _ => rfl

theorem length_interleave : ∀ {as bs : List Nat}, as.length = bs.length →
    (interleave as bs).length = 2 * as.length
  | a :: as, b :: bs, h => by
      rw [interleave, List.length_cons, List.length_cons, length_interleave (Nat.succ.inj h),
        List.length_cons]
      omega
  | [], [], _ => rfl

theorem gather_tokens (hsp : splitPoint ≤ 8) {lls ys : List Nat} (hl : lls.length = 8)
    (hy : ys.length = 8) (hlls : ∀ v ∈ lls, v < 2 ^ 16) (hys : ∀ v ∈ ys, v < 2 ^ 16) :
    let tokens := ofLanes 2 (List.zipWith min (interleave lls ys)
      (interleave (List.replicate 8 (llMask splitPoint)) (List.replicate 8 (mlMask splitPoint))))
    let muxed := pshufb256 (Shuffles.orSi tokens (srlEpi32 tokens (16 - splitPoint))) kMuxGather
    muxed.take 4 ++ (muxed.drop 16).take 4 =
      List.zipWith (fun ll y => (muxOne 2 splitPoint ll y).1) lls ys := by
  have hmasks : (List.replicate 8 (llMask splitPoint)).length =
      (List.replicate 8 (mlMask splitPoint)).length := by
    rw [List.length_replicate, List.length_replicate]
  have htl : (List.zipWith min lls (List.replicate 8 (llMask splitPoint))).length = 8 := by
    rw [List.length_zipWith, hl, List.length_replicate, Nat.min_self]
  have hty : (List.zipWith min ys (List.replicate 8 (mlMask splitPoint))).length = 8 := by
    rw [List.length_zipWith, hy, List.length_replicate, Nat.min_self]
  have htlt : ∀ t ∈ List.zipWith min lls (List.replicate 8 (llMask splitPoint)),
      t < 2 ^ 16 := by
    intro t ht
    rw [← List.map_uncurry_zip_eq_zipWith] at ht
    obtain ⟨p, hp, rfl⟩ := List.mem_map.1 ht
    exact (Nat.min_le_left _ _).trans_lt (hlls _ (List.of_mem_zip hp).1)
  have hult : ∀ t ∈ List.zipWith min ys (List.replicate 8 (mlMask splitPoint)), t < 2 ^ 16 := by
    intro t ht
    rw [← List.map_uncurry_zip_eq_zipWith] at ht
    obtain ⟨p, hp, rfl⟩ := List.mem_map.1 ht
    exact (Nat.min_le_left _ _).trans_lt (hys _ (List.of_mem_zip hp).1)
  dsimp only
  rw [zipWith_interleave _ (hl.trans hy.symm) hmasks, ofLanes_interleave (htl.trans hty.symm) htlt]
  have hlen : (List.zipWith (fun a b => a + 2 ^ 16 * b)
      (List.zipWith min lls (List.replicate 8 (llMask splitPoint)))
      (List.zipWith min ys (List.replicate 8 (mlMask splitPoint)))).length = 8 := by
    rw [List.length_zipWith, htl, hty, Nat.min_self]
  have hlt : ∀ z ∈ List.zipWith (fun a b => a + 2 ^ 16 * b)
      (List.zipWith min lls (List.replicate 8 (llMask splitPoint)))
      (List.zipWith min ys (List.replicate 8 (mlMask splitPoint))), z < 2 ^ (8 * 4) := by
    intro z hz
    rw [← List.map_uncurry_zip_eq_zipWith] at hz
    obtain ⟨p, hp, rfl⟩ := List.mem_map.1 hz
    have ht := htlt _ (List.of_mem_zip hp).1
    have hu := hult _ (List.of_mem_zip hp).2
    dsimp only [Function.uncurry]
    omega
  have hdiv := length_div_ofLanes (k := 4) (by decide) (List.zipWith (fun a b => a + 2 ^ 16 * b)
      (List.zipWith min lls (List.replicate 8 (llMask splitPoint)))
      (List.zipWith min ys (List.replicate 8 (mlMask splitPoint))))
  rw [srlEpi32, hdiv, lanes_ofLanes hlt, muxGather_eq hlen (by rw [List.length_map, hlen])]
  obtain ⟨l₀, l₁, l₂, l₃, l₄, l₅, l₆, l₇, rfl⟩ := length_eight hl
  obtain ⟨y₀, y₁, y₂, y₃, y₄, y₅, y₆, y₇, rfl⟩ := length_eight hy
  simp only [List.replicate_succ, List.replicate_zero, List.zipWith_cons_cons,
    List.zipWith_nil_left, List.map_cons, List.map_nil, mux_byte hsp (min_mask_lt _ _), muxOne_eq]

theorem zipWith_congr_right {α β : Type} {f g : α → Nat → β} {n : Nat} : ∀ {as : List α}
    {bs : List Nat}, (∀ b ∈ bs, b < n) → (∀ a b, b < n → f a b = g a b) →
      List.zipWith f as bs = List.zipWith g as bs
  | a :: as, b :: bs, hbs, h => by
      rw [List.zipWith_cons_cons, List.zipWith_cons_cons, h a b (hbs b List.mem_cons_self),
        zipWith_congr_right (fun x hx => hbs x (List.mem_cons_of_mem _ hx)) h]
  | [], _, _, _ => rfl
  | _ :: _, [], _, _ => rfl

theorem muxRound_spec (hsp : splitPoint ≤ 8) (hbias : matchLengthBias ≤ 15)
    {l₁ l₂ m₁ m₂ : List Nat} (hl₁ : l₁.length = 4) (hl₂ : l₂.length = 4) (hm₁ : m₁.length = 4)
    (hm₂ : m₂.length = 4) (hlls : ∀ v ∈ l₁ ++ l₂, v < 2 ^ 16) (hmls : ∀ v ∈ m₁ ++ m₂, v < 2 ^ 16) :
    let r := muxRound splitPoint matchLengthBias (ofLanes 2 (l₁ ++ l₂)) (ofLanes 2 (m₁ ++ m₂))
    let lo := (muxLengthsEncodeImpl 2 splitPoint matchLengthBias l₁ m₁).2
    let hi := (muxLengthsEncodeImpl 2 splitPoint matchLengthBias l₂ m₂).2
    r.muxed = (muxLengthsEncodeImpl 2 splitPoint matchLengthBias (l₁ ++ l₂) (m₁ ++ m₂)).1 ∧
      lanes 2 8 r.loPacked = lo ++ List.replicate (8 - lo.length) 0 ∧ r.loCount = lo.length ∧
        lanes 2 8 r.hiPacked = hi ++ List.replicate (8 - hi.length) 0 ∧ r.hiCount = hi.length := by
  have hl : (l₁ ++ l₂).length = 8 := by rw [List.length_append, hl₁, hl₂]
  have hm : (m₁ ++ m₂).length = 8 := by rw [List.length_append, hm₁, hm₂]
  have hmasks := masks_le hsp
  have hkeep₁ := keep_pairs hsp hbias (hl₁.trans hm₁.symm) fun v hv =>
    hmls v (List.mem_append_left _ hv)
  have hkeep₂ := keep_pairs hsp hbias (hl₂.trans hm₂.symm) fun v hv =>
    hmls v (List.mem_append_right _ hv)
  have hvals := vals_eq hl hm hlls hmls hbias
  have hmask := @pairs_eq (llMask splitPoint) (mlMask splitPoint) (by omega)
  have hys : ∀ y ∈ (m₁ ++ m₂).map (unbias 16 · matchLengthBias), y < 2 ^ 16 := by
    intro y hy
    obtain ⟨m, -, rfl⟩ := List.mem_map.1 hy
    exact Nat.mod_lt _ (Nat.two_pow_pos 16)
  have hxs : ∀ x ∈ interleave (l₁ ++ l₂) ((m₁ ++ m₂).map (unbias 16 · matchLengthBias)),
      x < 2 ^ 16 := fun x hx => (mem_interleave hx).elim (hlls x) (hys x)
  have hms : ∀ m ∈ interleave (List.replicate 8 (llMask splitPoint))
      (List.replicate 8 (mlMask splitPoint)), m < 2 ^ 16 := by
    intro m hm
    rcases mem_interleave hm with hm | hm
    · rw [(List.mem_replicate.1 hm).2]
      omega
    · rw [(List.mem_replicate.1 hm).2]
      omega
  have hylen : ((m₁ ++ m₂).map (unbias 16 · matchLengthBias)).length = 8 := by
    rw [List.length_map, hm]
  have hmux := gather_tokens hsp hl hylen hlls hys
  have hbytes : List.zipWith (fun ll y => (muxOne 2 splitPoint ll y).1) (l₁ ++ l₂)
      ((m₁ ++ m₂).map (unbias 16 · matchLengthBias)) =
        (muxLengthsEncodeImpl 2 splitPoint matchLengthBias (l₁ ++ l₂) (m₁ ++ m₂)).1 := by
    rw [encode_muxed, List.zipWith_map_right]
    exact zipWith_congr_right hmls fun ll ml hml => by rw [muxOne_unbias hsp hbias hml]
  have hvals₂ : interleave (l₁ ++ l₂) ((m₁ ++ m₂).map (unbias 16 · matchLengthBias)) =
      interleave l₁ (m₁.map (unbias 16 · matchLengthBias)) ++
        interleave l₂ (m₂.map (unbias 16 · matchLengthBias)) := by
    rw [List.map_append, interleave_append (by rw [List.length_map, hl₁, hm₁])]
  have hmask₂ : interleave (List.replicate 8 (llMask splitPoint))
      (List.replicate 8 (mlMask splitPoint)) =
        interleave (List.replicate 4 (llMask splitPoint)) (List.replicate 4 (mlMask splitPoint)) ++
          interleave (List.replicate 4 (llMask splitPoint))
            (List.replicate 4 (mlMask splitPoint)) := rfl
  have hlen₁ : (interleave l₁ (m₁.map (unbias 16 · matchLengthBias))).length = 8 := by
    rw [length_interleave (by rw [List.length_map, hl₁, hm₁]), hl₁]
  have hlen₂ : (interleave l₂ (m₂.map (unbias 16 · matchLengthBias))).length = 8 := by
    rw [length_interleave (by rw [List.length_map, hl₂, hm₂]), hl₂]
  have hlenM : (interleave (List.replicate 4 (llMask splitPoint))
      (List.replicate 4 (mlMask splitPoint))).length = 8 := rfl
  unfold muxRound
  dsimp only
  rw [hvals, hmask, token_eq hxs hms, eqMask_eq hxs hms, hmux, hbytes]
  rw [hl₁, hm₁] at hkeep₁
  rw [hl₂, hm₂] at hkeep₂
  rw [subEpi16, lanewise_ofLanes (by decide) _ hxs hms, hvals₂, hmask₂,
    List.zipWith_append (hlen₁.trans hlenM.symm), List.zipWith_append (hlen₁.trans hlenM.symm)]
  generalize interleave (List.replicate 4 (llMask splitPoint))
    (List.replicate 4 (mlMask splitPoint)) = M at *
  generalize interleave l₁ (m₁.map (unbias 16 · matchLengthBias)) = X₁ at *
  generalize interleave l₂ (m₂.map (unbias 16 · matchLengthBias)) = X₂ at *
  have hflags : ∀ X : List Nat, X.length = 8 →
      (List.zipWith (fun x m => decide (m ≤ x)) X M).length = 8 := by
    intro X hX
    rw [List.length_zipWith, hX, hlenM, Nat.min_self]
  have hextra : ∀ X : List Nat, X.length = 8 →
      (List.zipWith (fun x y => (x + 2 ^ 16 - y) % 2 ^ 16) X M).length = 8 := by
    intro X hX
    rw [List.length_zipWith, hX, hlenM, Nat.min_self]
  have htake : (ofLanes 2 (List.zipWith (fun x y => (x + 2 ^ 16 - y) % 2 ^ 16) X₁ M)).length =
      16 := by
    rw [length_ofLanes, hextra X₁ hlen₁]
  obtain ⟨hlo, hhi⟩ := movemask_halves (hflags X₁ hlen₁) (hflags X₂ hlen₂)
  obtain ⟨hpack₁, hcount₁⟩ := packed_eq (hflags X₁ hlen₁) (hextra X₁ hlen₁) (zipWith_sub_lt _ _)
  obtain ⟨hpack₂, hcount₂⟩ := packed_eq (hflags X₂ hlen₂) (hextra X₂ hlen₂) (zipWith_sub_lt _ _)
  rw [tokenExtract_eq (hflags X₁ hlen₁) (hflags X₂ hlen₂), hlo, hhi, ofLanes_append,
    List.take_left' htake, List.drop_left' htake, hpack₁, hpack₂, hcount₁, hcount₂, hkeep₁, hkeep₂]
  exact ⟨rfl, rfl, rfl, rfl, rfl⟩

end MuxRound

/-! ## All rounds -/

/-- What has been written so far, in buffers of fixed lengths. -/
structure MuxOut.Wrote (out : MuxOut) (muxed : List UInt8) (long : List Nat)
    (muxedCapacity longCapacity : Nat) : Prop where
  i : out.i = muxed.length
  muxed : out.muxedOut.take muxed.length = muxed
  count : out.count = long.length
  long : out.longOut.take long.length = long
  muxedCapacity : out.muxedOut.length = muxedCapacity
  longCapacity : out.longOut.length = longCapacity

section MuxRun

variable {splitPoint matchLengthBias : Nat} {out : MuxOut} {muxed : List UInt8} {long : List Nat}
  {muxedCapacity longCapacity : Nat}

theorem MuxOut.Wrote.start (muxedOut : List UInt8) (longOut : List Nat) :
    MuxOut.Wrote ⟨muxedOut, 0, longOut, 0⟩ [] [] muxedOut.length longOut.length :=
  ⟨rfl, rfl, rfl, rfl, rfl, rfl⟩

theorem MuxOut.Wrote.putMuxed (h : out.Wrote muxed long muxedCapacity longCapacity)
    (bytes : List UInt8) (hfit : muxed.length + bytes.length ≤ muxedCapacity) :
    ∃ out', out.putMuxed bytes = some out' ∧
      out'.Wrote (muxed ++ bytes) long muxedCapacity longCapacity := by
  have hcap : out.i + bytes.length ≤ out.muxedOut.length := by
    rw [h.i, h.muxedCapacity]
    exact hfit
  refine ⟨_, if_pos hcap, ?_, ?_, h.count, h.long, ?_, h.longCapacity⟩
  · rw [List.length_append, h.i]
  · have hpos : muxed.length ≤ out.muxedOut.length := h.muxedCapacity ▸ by omega
    rw [List.length_append, h.i, Buffer.take_write hpos (Nat.le_refl _), h.muxed, List.take_length]
  · rw [Buffer.length_write hcap, h.muxedCapacity]

theorem MuxOut.Wrote.putLong (h : out.Wrote muxed long muxedCapacity longCapacity)
    (vals : List Nat) {count : Nat} (hcount : count ≤ vals.length)
    (hfit : long.length + vals.length ≤ longCapacity) :
    ∃ out', out.putLong vals count = some out' ∧
      out'.Wrote muxed (long ++ vals.take count) muxedCapacity longCapacity := by
  have hcap : out.count + vals.length ≤ out.longOut.length := by
    rw [h.count, h.longCapacity]
    exact hfit
  have hlen : (long ++ vals.take count).length = long.length + count := by
    rw [List.length_append, List.length_take, Nat.min_eq_left hcount]
  refine ⟨_, if_pos hcap, h.i, h.muxed, ?_, ?_, h.muxedCapacity, ?_⟩
  · rw [hlen, h.count]
  · have hpos : long.length ≤ out.longOut.length := h.longCapacity ▸ by omega
    rw [hlen, h.count, Buffer.take_write hpos hcount, h.long]
  · rw [Buffer.length_write hcap, h.longCapacity]

theorem muxed_length_le (eltWidth splitPoint matchLengthBias : Nat) (lls mls : List Nat) :
    (muxLengthsEncodeImpl eltWidth splitPoint matchLengthBias lls mls).1.length ≤ lls.length := by
  rw [encode_muxed, List.length_zipWith]
  exact Nat.min_le_left _ _

theorem extra_length_le (eltWidth mask v : Nat) : (extra eltWidth mask v).length ≤ 1 := by
  rw [length_extra]
  split
  · exact Nat.le_refl 1
  · exact Nat.zero_le 1

theorem long_length_le (eltWidth splitPoint matchLengthBias : Nat) : ∀ lls mls : List Nat,
    (muxLengthsEncodeImpl eltWidth splitPoint matchLengthBias lls mls).2.length ≤ 2 * lls.length
  | ll :: lls, ml :: mls => by
      have hrest := long_length_le eltWidth splitPoint matchLengthBias lls mls
      have hll := extra_length_le eltWidth (llMask splitPoint) ll
      have hml := extra_length_le eltWidth (mlMask splitPoint) (unbias 64 ml matchLengthBias)
      rw [muxLengthsEncodeImpl, muxOne_eq]
      rw [List.length_append, List.length_append, List.length_cons]
      omega
  | [], _ => Nat.zero_le _
  | _ :: _, [] => Nat.zero_le _

theorem MuxOut.Wrote.putPacked (h : out.Wrote muxed long muxedCapacity longCapacity)
    (vals : List Nat) (hvals : vals.length ≤ 8) (hfit : long.length + 8 ≤ longCapacity) :
    ∃ out', out.putLong (vals ++ List.replicate (8 - vals.length) 0) vals.length = some out' ∧
      out'.Wrote muxed (long ++ vals) muxedCapacity longCapacity := by
  have hlen : (vals ++ List.replicate (8 - vals.length) 0).length = 8 := by
    rw [List.length_append, List.length_replicate]
    omega
  have hput := @MuxOut.Wrote.putLong out muxed long muxedCapacity longCapacity h
    (vals ++ List.replicate (8 - vals.length) 0) vals.length (by omega) (by omega)
  rwa [List.take_left' rfl] at hput

theorem muxTail_spec (hsp : splitPoint ≤ 8) (hbias : matchLengthBias ≤ 15) :
    ∀ {lls mls : List Nat} {out : MuxOut} {muxed : List UInt8} {long : List Nat},
      lls.length = mls.length → (∀ v ∈ mls, v < 2 ^ 16) →
      out.Wrote muxed long muxedCapacity longCapacity →
      muxed.length + lls.length ≤ muxedCapacity →
      long.length + (muxLengthsEncodeImpl 2 splitPoint matchLengthBias lls mls).2.length ≤
        longCapacity →
      ∃ out', muxRounds splitPoint matchLengthBias 0 lls mls out = some out' ∧
        out'.Wrote (muxed ++ (muxLengthsEncodeImpl 2 splitPoint matchLengthBias lls mls).1)
          (long ++ (muxLengthsEncodeImpl 2 splitPoint matchLengthBias lls mls).2)
          muxedCapacity longCapacity
  | ll :: lls, ml :: mls, out, muxed, long, hlen, hmls, hout, hmuxed, hlong => by
      rw [muxLengthsEncodeImpl, ← muxOne_unbias hsp hbias (hmls ml List.mem_cons_self)] at hlong ⊢
      dsimp only at hlong ⊢
      rw [List.length_append] at hlong
      rw [List.length_cons] at hmuxed
      obtain ⟨out₁, hput₁, hout₁⟩ := hout.putLong
        (muxOne 2 splitPoint ll (unbias 16 ml matchLengthBias)).2 (Nat.le_refl _) (by omega)
      rw [List.take_length] at hout₁
      obtain ⟨out₂, hput₂, hout₂⟩ := hout₁.putMuxed
        [(muxOne 2 splitPoint ll (unbias 16 ml matchLengthBias)).1]
        (by rw [List.length_singleton]; omega)
      obtain ⟨out', hrun, hout'⟩ := muxTail_spec hsp hbias (Nat.succ.inj hlen)
        (fun v hv => hmls v (List.mem_cons_of_mem _ hv)) hout₂
        (by rw [List.length_append, List.length_singleton]; omega)
        (by rw [List.length_append]; omega)
      refine ⟨out', ?_, ?_⟩
      · rw [muxRounds, hput₁, Option.bind_eq_bind, Option.bind_some, hput₂, Option.bind_some, hrun]
      · rwa [List.append_assoc, List.append_assoc, List.singleton_append] at hout'
  | [], [], out, muxed, long, _, _, hout, _, _ => by
      refine ⟨out, ?_, ?_⟩
      · rw [muxRounds]
        intro _ _ _ _ h
        cases h
      · rwa [muxLengthsEncodeImpl, List.append_nil, List.append_nil]
        intro _ _ _ _ h
        cases h

theorem muxRounds_spec (hsp : splitPoint ≤ 8) (hbias : matchLengthBias ≤ 15) (n : Nat)
    {lls mls : List Nat} {out : MuxOut} {muxed : List UInt8} {long : List Nat}
    (hn : 8 * n ≤ lls.length) (hlen : lls.length = mls.length) (hlls : ∀ v ∈ lls, v < 2 ^ 16)
    (hmls : ∀ v ∈ mls, v < 2 ^ 16) (hout : out.Wrote muxed long muxedCapacity longCapacity)
    (hmuxed : muxed.length + lls.length ≤ muxedCapacity)
    (hlong : long.length + (muxLengthsEncodeImpl 2 splitPoint matchLengthBias lls mls).2.length + 8 ≤
      longCapacity) :
    ∃ out', muxRounds splitPoint matchLengthBias n lls mls out = some out' ∧
      out'.Wrote (muxed ++ (muxLengthsEncodeImpl 2 splitPoint matchLengthBias lls mls).1)
        (long ++ (muxLengthsEncodeImpl 2 splitPoint matchLengthBias lls mls).2)
        muxedCapacity longCapacity := by
  induction n generalizing lls mls out muxed long with
  | zero => exact muxTail_spec hsp hbias hlen hmls hout hmuxed (by omega)
  | succ n ih =>
    have hsplit : ∀ xs : List Nat, 8 ≤ xs.length →
        ∃ as bs cs, xs = as ++ bs ++ cs ∧ as.length = 4 ∧ bs.length = 4 := by
      intro xs hxs
      refine ⟨xs.take 4, (xs.drop 4).take 4, xs.drop 8, ?_, ?_, ?_⟩
      · rw [List.append_assoc, ← List.drop_drop (i := 4) (j := 4), List.take_append_drop,
          List.take_append_drop]
      · rw [List.length_take]
        omega
      · rw [List.length_take, List.length_drop]
        omega
    obtain ⟨l₁, l₂, lls, rfl, hl₁, hl₂⟩ := hsplit lls (by omega)
    obtain ⟨m₁, m₂, mls, rfl, hm₁, hm₂⟩ := hsplit mls (by omega)
    have hl : (l₁ ++ l₂).length = 8 := by rw [List.length_append, hl₁, hl₂]
    have hm : (m₁ ++ m₂).length = 8 := by rw [List.length_append, hm₁, hm₂]
    obtain ⟨hbytes, hlo, hloCount, hhi, hhiCount⟩ := muxRound_spec hsp hbias hl₁ hl₂ hm₁ hm₂
      (fun v hv => hlls v (List.mem_append_left _ hv))
      (fun v hv => hmls v (List.mem_append_left _ hv))
    rw [encode_append _ _ _ (hl.trans hm.symm)] at hlong ⊢
    dsimp only at hlong ⊢
    rw [List.length_append, hl] at hn hlen hmuxed
    rw [List.length_append, hm] at hlen
    rw [List.length_append] at hlong
    have hpairs := encode_append 2 splitPoint matchLengthBias (hl₁.trans hm₁.symm) l₂ m₂
    have hlo8 := long_length_le 2 splitPoint matchLengthBias l₁ m₁
    have hhi8 := long_length_le 2 splitPoint matchLengthBias l₂ m₂
    have hbytes8 := muxed_length_le 2 splitPoint matchLengthBias (l₁ ++ l₂) (m₁ ++ m₂)
    have hlong₂ : (muxLengthsEncodeImpl 2 splitPoint matchLengthBias (l₁ ++ l₂) (m₁ ++ m₂)).2 =
        (muxLengthsEncodeImpl 2 splitPoint matchLengthBias l₁ m₁).2 ++
          (muxLengthsEncodeImpl 2 splitPoint matchLengthBias l₂ m₂).2 := by rw [hpairs]
    rw [hlong₂, List.length_append] at hlong
    obtain ⟨out₁, hput₁, hout₁⟩ := hout.putMuxed
      (muxLengthsEncodeImpl 2 splitPoint matchLengthBias (l₁ ++ l₂) (m₁ ++ m₂)).1 (by omega)
    obtain ⟨out₂, hput₂, hout₂⟩ := hout₁.putPacked
      (muxLengthsEncodeImpl 2 splitPoint matchLengthBias l₁ m₁).2 (by omega) (by omega)
    obtain ⟨out₃, hput₃, hout₃⟩ := hout₂.putPacked
      (muxLengthsEncodeImpl 2 splitPoint matchLengthBias l₂ m₂).2 (by omega)
      (by rw [List.length_append]; omega)
    obtain ⟨out', hrun, hout'⟩ := @ih lls mls _ _ _ (by omega) (by omega)
      (fun v hv => hlls v (List.mem_append_right _ hv))
      (fun v hv => hmls v (List.mem_append_right _ hv)) hout₃
      (by rw [List.length_append]; omega)
      (by rw [List.length_append, List.length_append]; omega)
    refine ⟨out', ?_, ?_⟩
    · rw [muxRounds, List.take_left' hl, List.take_left' hm, List.drop_left' hl,
        List.drop_left' hm, hbytes, hlo, hloCount, hhi, hhiCount, hput₁, Option.bind_eq_bind,
        Option.bind_some, hput₂, Option.bind_some, hput₃, Option.bind_some, hrun]
    · rw [hlong₂]
      simpa only [List.append_assoc] using hout'

end MuxRun

/-! ## Round trip -/

theorem muxLengthsEncode_spec {eltWidth splitPoint matchLengthBias : Nat} (avx2 : Bool)
    (hsp : splitPoint ≤ 8) (hbias : matchLengthBias ≤ 15) {lls mls : List Nat}
    (hlen : lls.length = mls.length) (hlls : ∀ v ∈ lls, v < 2 ^ (8 * eltWidth))
    (hmls : ∀ v ∈ mls, v < 2 ^ (8 * eltWidth)) {muxedOut : List UInt8} {longOut : List Nat}
    (hmuxed : lls.length ≤ muxedOut.length)
    (hlong : muxLengthsCountLong splitPoint matchLengthBias lls mls + 128 ≤ longOut.length) :
    ∃ out, muxLengthsEncode avx2 muxedOut longOut lls mls eltWidth splitPoint matchLengthBias =
        some out ∧
      out.Wrote (muxLengthsEncodeImpl eltWidth splitPoint matchLengthBias lls mls).1
        (muxLengthsEncodeImpl eltWidth splitPoint matchLengthBias lls mls).2
        muxedOut.length longOut.length := by
  have hstart := MuxOut.Wrote.start muxedOut longOut
  have hcount := length_encode eltWidth splitPoint matchLengthBias lls mls
  unfold muxLengthsEncode
  split
  · rename_i hpath
    obtain rfl := hpath.2
    have hrun := muxRounds_spec hsp hbias (lls.length / 8) (by omega) hlen hlls hmls hstart
      (by rw [List.length_nil]; omega) (by rw [List.length_nil]; omega)
    rwa [List.nil_append, List.nil_append] at hrun
  · obtain ⟨out₁, hput₁, hout₁⟩ := hstart.putMuxed
      (muxLengthsEncodeImpl eltWidth splitPoint matchLengthBias lls mls).1
      (by rw [List.length_nil, length_muxed _ _ _ hlen]; omega)
    obtain ⟨out₂, hput₂, hout₂⟩ := hout₁.putLong
      (muxLengthsEncodeImpl eltWidth splitPoint matchLengthBias lls mls).2 (Nat.le_refl _)
      (by rw [List.length_nil]; omega)
    rw [List.nil_append, List.nil_append, List.take_length] at hout₂
    refine ⟨out₂, ?_, hout₂⟩
    dsimp only
    rw [hput₁, Option.bind_eq_bind, Option.bind_some, hput₂]

theorem muxLengthsDecode_eq {eltWidth splitPoint matchLengthBias : Nat} (ssse3 : Bool)
    (hw : eltWidth ≤ 8) (hsp : splitPoint ≤ 8) (hbias : matchLengthBias ≤ 15) (muxed : List UInt8)
    {long : List Nat} (hlong : ∀ v ∈ long, v < 2 ^ (8 * eltWidth)) :
    muxLengthsDecode ssse3 muxed long eltWidth splitPoint matchLengthBias =
      some (decodeFields eltWidth splitPoint matchLengthBias muxed long) := by
  unfold muxLengthsDecode
  split
  · rename_i hpath
    obtain rfl := hpath.2
    rw [muxLengthsDecode2_eq hsp hbias muxed hlong, muxLengthsDecodeImpl_eq (by decide)]
  · rw [muxLengthsDecodeImpl_eq hw]

theorem extra_lt {eltWidth mask v x : Nat} (h : x ∈ extra eltWidth mask v) :
    x < 2 ^ (8 * eltWidth) := by
  unfold extra at h
  split at h
  · rw [List.mem_singleton.1 h]
    exact Nat.mod_lt _ (Nat.two_pow_pos _)
  · cases h

theorem long_lt (eltWidth splitPoint matchLengthBias : Nat) : ∀ {lls mls : List Nat} {x : Nat},
    x ∈ (muxLengthsEncodeImpl eltWidth splitPoint matchLengthBias lls mls).2 →
      x < 2 ^ (8 * eltWidth)
  | ll :: lls, ml :: mls, x, h => by
      rw [muxLengthsEncodeImpl, muxOne_eq] at h
      dsimp only at h
      rcases List.mem_append.1 h with h | h
      · exact (List.mem_append.1 h).elim extra_lt extra_lt
      · exact long_lt eltWidth splitPoint matchLengthBias h
  | [], _, _, h => nomatch h
  | _ :: _, [], _, h => nomatch h

/-- The lengths come back, on every path; the paths agree, also on bytes that no encoder wrote; and
the split, if chosen, is announced with its number of long values. -/
structure Muxes (eltWidth splitPoint matchLengthBias : Nat) (muxedOut : List UInt8)
    (longOut lls mls : List Nat) : Prop where
  roundTrip : ∀ avx2 ssse3, ∃ out,
    muxLengthsEncode avx2 muxedOut longOut lls mls eltWidth splitPoint matchLengthBias = some out ∧
      out.i = lls.length ∧
      out.count = muxLengthsCountLong splitPoint matchLengthBias lls mls ∧
      muxLengthsDecode ssse3 (out.muxedOut.take out.i) (out.longOut.take out.count) eltWidth
        splitPoint matchLengthBias = some (.ok (lls, mls))
  encodersAgree : ∀ out out',
    muxLengthsEncode true muxedOut longOut lls mls eltWidth splitPoint matchLengthBias = some out →
    muxLengthsEncode false muxedOut longOut lls mls eltWidth splitPoint matchLengthBias =
      some out' →
      out.muxedOut.take out.i = out'.muxedOut.take out'.i ∧
        out.longOut.take out.count = out'.longOut.take out'.count
  decodersAgree : ∀ (muxed : List UInt8) (long : List Nat), (∀ v ∈ long, v < 2 ^ (8 * eltWidth)) →
    muxLengthsDecode true muxed long eltWidth splitPoint matchLengthBias =
      muxLengthsDecode false muxed long eltWidth splitPoint matchLengthBias
  announced : (muxLengthsComputeSplitPoint matchLengthBias lls mls).splitPoint = splitPoint →
    (muxLengthsComputeSplitPoint matchLengthBias lls mls).numLong =
      muxLengthsCountLong splitPoint matchLengthBias lls mls

/-- **Lengths are muxed faithfully, on every path, unless counters wrap**: exactly when the split
is not the one chosen, or no counter of a length that is long there reached 2^32. -/
theorem muxLengths_iff {eltWidth splitPoint matchLengthBias : Nat}
    (hw : eltWidth ∈ [1, 2, 4, 8]) (hsp : splitPoint ≤ 8) (hbias : matchLengthBias ≤ 15)
    {lls mls : List Nat} (hlen : lls.length = mls.length)
    (hlls : ∀ v ∈ lls, v < 2 ^ (8 * eltWidth)) (hmls : ∀ v ∈ mls, v < 2 ^ (8 * eltWidth))
    {muxedOut : List UInt8} {longOut : List Nat} (hmuxed : lls.length ≤ muxedOut.length)
    (hlong : muxLengthsCountLong splitPoint matchLengthBias lls mls + 128 ≤ longOut.length) :
    Muxes eltWidth splitPoint matchLengthBias muxedOut longOut lls mls ↔
      (FirstLeast matchLengthBias lls mls splitPoint →
        CountersFit lls (llMask splitPoint) ∧
          CountersFit (mls.map (unbias 64 · matchLengthBias)) (mlMask splitPoint)) := by
  have hw8 : eltWidth ≤ 8 := by
    simp only [List.mem_cons, List.not_mem_nil, or_false] at hw
    omega
  rw [← numLong_eq_iff matchLengthBias splitPoint hlen]
  refine ⟨Muxes.announced, fun hannounced => ⟨?_, ?_, ?_, hannounced⟩⟩
  · intro avx2 ssse3
    obtain ⟨out, hrun, hout⟩ := muxLengthsEncode_spec avx2 hsp hbias hlen hlls hmls hmuxed hlong
    refine ⟨out, hrun, ?_, ?_, ?_⟩
    · rw [hout.i, length_muxed _ _ _ hlen]
    · rw [hout.count, length_encode]
    · rw [hout.i, hout.count, hout.muxed, hout.long, muxLengthsDecode_eq ssse3 hw8 hsp hbias _
        (fun v hv => long_lt _ _ _ hv), decodeFields_encode hw8 hsp hbias hlen hlls hmls]
  · intro out out' hrun hrun'
    obtain ⟨out₁, hrun₁, hout₁⟩ := muxLengthsEncode_spec true hsp hbias hlen hlls hmls hmuxed hlong
    obtain ⟨out₂, hrun₂, hout₂⟩ :=
      muxLengthsEncode_spec false hsp hbias hlen hlls hmls hmuxed hlong
    obtain rfl := Option.some.inj (hrun.symm.trans hrun₁)
    obtain rfl := Option.some.inj (hrun'.symm.trans hrun₂)
    rw [hout₁.i, hout₁.count, hout₁.muxed, hout₁.long, hout₂.i, hout₂.count, hout₂.muxed,
      hout₂.long]
    exact ⟨rfl, rfl⟩
  · intro muxed long hlong
    rw [muxLengthsDecode_eq true hw8 hsp hbias muxed hlong,
      muxLengthsDecode_eq false hw8 hsp hbias muxed hlong]

theorem muxLengths_iff_short :
    Muxes 2 3 4 (List.replicate 9 0) (List.replicate 160 0) [0, 7, 300, 1, 2, 3, 65535, 6, 8]
        [1, 35, 4, 65535, 3, 40, 0, 5, 6] ↔
      (FirstLeast 4 [0, 7, 300, 1, 2, 3, 65535, 6, 8] [1, 35, 4, 65535, 3, 40, 0, 5, 6] 3 →
        CountersFit [0, 7, 300, 1, 2, 3, 65535, 6, 8] (llMask 3) ∧
          CountersFit ([1, 35, 4, 65535, 3, 40, 0, 5, 6].map (unbias 64 · 4)) (mlMask 3)) := by
  apply muxLengths_iff
  case hlong =>
    rw [List.length_replicate]
    decide
  all_goals decide

theorem inBucket_replicate (n v i : Nat) :
    inBucket (List.replicate n v) i = if bucket v = i then n else 0 := by
  simp only [inBucket, List.countP_replicate, decide_eq_true_eq]

theorem longMod_replicate (v mask : Nat) : longMod (List.replicate (2 ^ 32) v) mask = 0 := by
  rw [longMod, List.sum_eq_zero]
  intro x hx
  obtain ⟨i, -, rfl⟩ := List.mem_map.1 hx
  rw [inBucket_replicate]
  split
  · exact Nat.mod_self _
  · exact Nat.zero_mod _

/-- 2^32 literal lengths of 255, all long, are announced as none. -/
theorem not_muxes_many :
    ¬ Muxes 1 1 0 (List.replicate (2 ^ 32) 0) (List.replicate (2 ^ 33) 0)
      (List.replicate (2 ^ 32) 255) (List.replicate (2 ^ 32) 0) := by
  intro h
  have hlen : (List.replicate (2 ^ 32) 255).length = (List.replicate (2 ^ 32) 0).length := by
    rw [List.length_replicate, List.length_replicate]
  have hzero : ∀ s, wrappedLong 0 (List.replicate (2 ^ 32) 255) (List.replicate (2 ^ 32) 0) s =
      0 := by
    intro s
    rw [wrappedLong, List.map_replicate, longMod_replicate, longMod_replicate]
  have hfirst : FirstLeast 0 (List.replicate (2 ^ 32) 255) (List.replicate (2 ^ 32) 0) 1 := by
    refine ⟨Nat.le_refl 1, by decide, fun s hs _ => ⟨?_, fun hlt => absurd hlt (by omega)⟩⟩
    rw [hzero, hzero]
  have hfit := ((numLong_eq_iff 0 1 hlen).1 h.announced hfirst).1 255 (by decide) (by decide)
  rw [inBucket_replicate] at hfit
  exact absurd hfit (by decide)

end OpenZL.Codecs.MuxLengths
