import OpenZL.Codecs.LzDecode
import OpenZL.Lib.PeriodicCopy

/-!
# Copies of the LZ fast loop

What the copies of the fast loop leave in the output.

Principal results: `copyLoop_spec`, `copyLiterals_spec`, `copyMatchNonOverlapping_spec`,
`copyMatchOverlapping_spec`, `copyMatch_spec`.
-/

namespace OpenZL.Codecs.Lz

open OpenZL.Lib OpenZL.Lib.Periodic

theorem load_of_le {buf : List UInt8} {pos n : Nat} (h : pos + n ≤ buf.length) :
    load buf pos n = .ok (Buffer.read buf pos n) := by
  rw [load, Buffer.load_of_le h]
  rfl

theorem store_of_le {buf bytes : List UInt8} {pos : Nat} (h : pos + bytes.length ≤ buf.length) :
    store buf pos bytes = .ok (Buffer.write buf pos bytes) := by
  rw [store, Buffer.store_of_le h]
  rfl

section CopyLoop

variable {σ : Type} {copy : Nat → σ → Except Stop σ} {k length bound : Nat} {P : Nat → σ → Prop}

theorem copyWhile_spec (hk : 0 < k) (hbound : length + k ≤ bound + 1)
    (hstep : ∀ c s, P c s → c + k ≤ bound → ∃ s', copy c s = .ok s' ∧ P (c + k) s') (fuel : Nat) :
    ∀ {copied : Nat} {s : σ}, P copied s → copied < length → length ≤ copied + fuel →
      ∃ c s', copyWhile copy k length fuel copied s = .ok s' ∧ P c s' ∧ length ≤ c := by
  induction fuel with
  | zero =>
    intro copied s _ hlt hle
    omega
  | succ fuel ih =>
    intro copied s hs hlt hle
    obtain ⟨s', hcopy, hs'⟩ := hstep copied s hs (by omega)
    rw [copyWhile, hcopy, ok_bind]
    by_cases hmore : copied + k < length
    · obtain ⟨c, s'', hrun, hs'', hc⟩ := ih hs' hmore (by omega)
      exact ⟨c, s'', by rw [if_pos hmore, hrun], hs'', hc⟩
    · exact ⟨copied + k, s', by rw [if_neg hmore], hs', Nat.le_of_not_lt hmore⟩

theorem copyLoop_spec (hk : 0 < k) (hfirst : k ≤ bound) {shouldExit : Bool}
    (hbound : shouldExit = false → length + k ≤ bound + 1)
    (hstep : ∀ c s, P c s → c + k ≤ bound → ∃ s', copy c s = .ok s' ∧ P (c + k) s') {s : σ}
    (hs : P 0 s) :
    ∃ c s', copyLoop copy k length shouldExit s = .ok (s', decide (k < length) && shouldExit) ∧
      P c s' ∧ ((decide (k < length) && shouldExit) = false → length ≤ c) := by
  obtain ⟨s', hcopy, hs'⟩ := hstep 0 s hs (by omega)
  rw [Nat.zero_add] at hs'
  rw [copyLoop, hcopy, ok_bind]
  by_cases hlong : k < length
  · rw [if_pos hlong, decide_eq_true hlong, Bool.true_and]
    cases shouldExit with
    | true => exact ⟨k, s', rfl, hs', nofun⟩
    | false =>
      obtain ⟨c, s'', hrun, hs'', hc⟩ :=
        copyWhile_spec hk (hbound rfl) hstep length hs' hlong (Nat.le_add_left _ _)
      refine ⟨c, s'', ?_, hs'', fun _ => hc⟩
      rw [hrun]
      rfl
  · rw [if_neg hlong, decide_eq_false hlong, Bool.false_and]
    exact ⟨k, s', rfl, hs', fun _ => Nat.le_of_not_lt hlong⟩

end CopyLoop

theorem copyLiterals_spec {dst out lits : List UInt8} {litPos litLen bound : Nat} {exit : Bool}
    (hout : dst.take out.length = out) (hdst : out.length + bound ≤ dst.length)
    (hlits : litPos + bound ≤ lits.length) (hfirst : 32 ≤ bound)
    (hbound : exit = false → litLen + 32 ≤ bound + 1) :
    ∃ dst', copyLiterals dst out.length lits litPos litLen exit =
        .ok (dst', decide (32 < litLen) && exit) ∧
      dst'.length = dst.length ∧ dst'.take out.length = out ∧
      ((decide (32 < litLen) && exit) = false →
        dst'.take (out.length + litLen) = out ++ Buffer.read lits litPos litLen) := by
  have hstep : ∀ (c : Nat) (d : List UInt8),
      (d.length = dst.length ∧ d.take (out.length + c) = out ++ Buffer.read lits litPos c) →
      c + 32 ≤ bound →
      ∃ d', copyNonOverlapping d (out.length + c) lits (litPos + c) kLitCopyLen = .ok d' ∧
        d'.length = dst.length ∧
        d'.take (out.length + (c + 32)) = out ++ Buffer.read lits litPos (c + 32) := by
    rintro c d ⟨hlen, htake⟩ hc
    have hread : (Buffer.read lits (litPos + c) 32).length = 32 := Buffer.length_read (by omega)
    have hfit : out.length + c + (Buffer.read lits (litPos + c) 32).length ≤ d.length := by omega
    refine ⟨Buffer.write d (out.length + c) (Buffer.read lits (litPos + c) 32), ?_, ?_, ?_⟩
    · have hload := @load_of_le lits (litPos + c) 32 (by omega)
      rw [copyNonOverlapping, kLitCopyLen, hload, ok_bind, store_of_le hfit]
    · rw [Buffer.length_write hfit, hlen]
    · rw [← Nat.add_assoc, Buffer.take_write (by omega) hread.ge, htake, List.append_assoc,
        List.take_of_length_le hread.le, ← Buffer.read_add]
  obtain ⟨c, dst', hrun, ⟨hlen, htake⟩, hc⟩ := @copyLoop_spec _ _ 32 litLen bound
    (fun c d => d.length = dst.length ∧ d.take (out.length + c) = out ++ Buffer.read lits litPos c)
    (by decide) hfirst exit hbound hstep dst ⟨rfl, by simpa using hout⟩
  refine ⟨dst', hrun, hlen, ?_, fun hexit => ?_⟩
  · have h₀ := congrArg (List.take out.length) htake
    rwa [List.take_take, Nat.min_eq_left (by omega), List.take_left' rfl] at h₀
  · have hle : litLen ≤ bound := by
      by_cases hlong : 32 < litLen
      · rw [decide_eq_true hlong, Bool.true_and] at hexit
        have := hbound hexit
        omega
      · omega
    have hlits' : (Buffer.read lits litPos litLen).length = litLen := Buffer.length_read (by omega)
    obtain ⟨n, rfl⟩ := Nat.exists_eq_add_of_le (hc hexit)
    have h₀ := congrArg (List.take (out.length + litLen)) htake
    rwa [List.take_take, Nat.min_eq_left (by omega), Buffer.read_add, ← List.append_assoc,
      List.take_left' (by rw [List.length_append, hlits'])] at h₀

/-- An output of `dstSize` bytes: first what was produced, then `c` bytes that repeat the last
`offset` of it. Nothing is said about a repetition of nothing. -/
structure Chunk (dstSize : Nat) (out : List UInt8) (offset c : Nat) (dst : List UInt8) : Prop where
  length : dst.length = dstSize
  start : dst.take out.length = out
  cells : 0 < offset → Extends dst out offset c

section Match

variable {dstSize offset c k : Nat} {out dst : List UInt8} {length : Nat} {exit : Bool}

theorem Chunk.ofOutput (hout : dst.take out.length = out) (h : out.length ≤ dst.length) (offset : Nat) :
    Chunk dst.length out offset 0 dst := by
  refine ⟨rfl, hout, fun _ => ?_⟩
  have hstart := Extends.start h offset
  rwa [hout] at hstart

theorem Chunk.mono {m : Nat} (h : Chunk dstSize out offset c dst) (hm : m ≤ c) :
    Chunk dstSize out offset m dst :=
  ⟨h.length, h.start, fun hpos => (h.cells hpos).mono hm⟩

theorem Chunk.store {bytes : List UInt8} {m : Nat} (h : Chunk dstSize out offset c dst)
    (hfit : out.length + c + bytes.length ≤ dstSize) (hm : m ≤ bytes.length)
    (hbytes : 0 < offset → bytes.take m = run out offset c m) :
    ∃ dst', Lz.store dst (out.length + c) bytes = .ok dst' ∧
      Chunk dstSize out offset (c + m) dst' := by
  have hlen := h.length
  have hfit' : out.length + c + bytes.length ≤ dst.length := by omega
  refine ⟨_, store_of_le hfit', ?_, ?_, fun hpos => ?_⟩
  · rw [Buffer.length_write hfit', hlen]
  · have htake := @Buffer.take_write _ dst (out.length + c) 0 (by omega) bytes (Nat.zero_le _)
    have h₀ := congrArg (List.take out.length) htake
    rwa [List.take_take, Nat.min_eq_left (by omega), List.take_zero, List.append_nil,
      List.take_take, Nat.min_eq_left (by omega), h.start] at h₀
  · exact (h.cells hpos).write (hbytes hpos) hm hfit'

theorem Chunk.copy {q : Nat} (h : Chunk dstSize out offset c dst) (hle : offset ≤ out.length)
    (hfit : out.length + c + k ≤ dstSize) (hq : q + k ≤ dstSize)
    (hback : 0 < offset →
      out.length - offset ≤ q ∧ q + k ≤ out.length + c ∧ offset ∣ out.length + c - q) :
    ∃ dst', copyNonOverlapping dst (out.length + c) dst q k = .ok dst' ∧
      Chunk dstSize out offset (c + k) dst' := by
  have hlen := h.length
  have hread : (Buffer.read dst q k).length = k := Buffer.length_read (by omega)
  obtain ⟨dst', hstore, hdst'⟩ := @Chunk.store _ _ _ _ _ (Buffer.read dst q k) k h (by omega)
    hread.ge fun hpos => by
      obtain ⟨hlo, hhi, hdvd⟩ := hback hpos
      rw [(h.cells hpos).read hpos hle hlo hhi hdvd, take_run (Nat.le_refl k)]
  refine ⟨dst', ?_, hdst'⟩
  rw [copyNonOverlapping, load_of_le (by omega), ok_bind, hstore]

theorem Chunk.copy_start (h : Chunk dstSize out offset 0 dst) (hle : offset ≤ out.length)
    (hk : offset ≤ k) (hfit : out.length + k ≤ dstSize) :
    ∃ dst', copyNonOverlapping dst (out.length + 0) dst (out.length - offset + 0) k = .ok dst' ∧
      Chunk dstSize out offset offset dst' := by
  have hlen := h.length
  have hread : (Buffer.read dst (out.length - offset + 0) k).length = k :=
    Buffer.length_read (by omega)
  obtain ⟨dst', hstore, hdst'⟩ := @Chunk.store _ _ _ _ _
    (Buffer.read dst (out.length - offset + 0) k) offset h (by omega) (by omega) fun hpos => by
      have hcells := @Extends.read _ _ _ _ _ _ offset (h.cells hpos) hpos hle
        (out.length - offset) (Nat.le_refl _) (by omega) ⟨1, by omega⟩
      rw [← hcells, Buffer.read_eq, Buffer.read_eq, List.take_take, Nat.min_eq_left hk]
      rfl
  rw [Nat.zero_add] at hdst'
  refine ⟨dst', ?_, hdst'⟩
  rw [copyNonOverlapping, load_of_le (by omega), ok_bind, hstore]

/-- What a copy of a match leaves. -/
def Copied (dstSize : Nat) (out : List UInt8) (offset length : Nat) (exit : Bool)
    (r : Except Stop (List UInt8 × Bool)) : Prop :=
  ∃ c dst', r = .ok (dst', exit) ∧ Chunk dstSize out offset c dst' ∧ (exit = false → length ≤ c)

theorem copyMatchNonOverlapping_spec (h : Chunk dstSize out offset 0 dst)
    (hle : offset ≤ out.length) (hk : 0 < k) (hover : k ≤ offset ∨ length ≤ offset)
    (hfirst : out.length + k ≤ dstSize)
    (hbound : exit = false → out.length + length + k ≤ dstSize + 1) :
    Copied dstSize out offset length (decide (k < length) && exit)
      (copyMatchNonOverlapping dst out.length (out.length - offset) length k exit) := by
  rcases Nat.lt_or_ge offset k with hlt | hge
  · -- the only chunk is longer than what repeats
    have hshort : ¬ k < length := by omega
    obtain ⟨dst', hcopy, hdst'⟩ := h.copy_start hle hlt.le hfirst
    refine ⟨offset, dst', ?_, hdst', fun _ => by omega⟩
    rw [copyMatchNonOverlapping, copyLoop]
    rw [hcopy, ok_bind, if_neg hshort, decide_eq_false hshort, Bool.false_and]
  · have hstep : ∀ c d, Chunk dstSize out offset c d → c + k ≤ dstSize - out.length →
        ∃ d', copyNonOverlapping d (out.length + c) d (out.length - offset + c) k = .ok d' ∧
          Chunk dstSize out offset (c + k) d' := by
      intro c d hd hc
      exact hd.copy hle (by omega) (by omega) fun _ =>
        ⟨Nat.le_add_right _ _, by omega, 1, by omega⟩
    have hbound' : exit = false → length + k ≤ dstSize - out.length + 1 := by
      intro hexit
      have := hbound hexit
      omega
    obtain ⟨c, dst', hrun, hdst', hc⟩ :=
      copyLoop_spec hk (by omega : k ≤ dstSize - out.length) hbound' hstep h
    exact ⟨c, dst', hrun, hdst', hc⟩

/-! ### Patterns -/

theorem run_congr (hdvd : offset ∣ c) (out : List UInt8) (k : Nat) :
    run out offset c k = run out offset 0 k := by
  obtain ⟨d, rfl⟩ := hdvd
  refine List.map_congr_left fun i _ => cell_congr ?_
  rw [Nat.mul_add_mod, Nat.zero_add]

theorem toNat_ofNat_mod {n m : Nat} (hm : 0 < m) (hle : m ≤ 16) :
    (UInt8.ofNat (n % m)).toNat = n % m := by
  have := Nat.mod_lt n hm
  rw [UInt8.toNat_ofNat']
  omega

theorem pshufb_mod {data : List UInt8} (hpos : 0 < offset) (hle : offset ≤ 16) (f : Nat → Nat) :
    Simd.pshufb data ((List.range 16).map fun pos => UInt8.ofNat (f pos % offset)) =
      (List.range 16).map fun pos => data.getD (f pos % offset) 0 := by
  rw [Simd.pshufb_eq, List.map_map]
  refine List.map_congr_left fun pos _ => ?_
  have hlt := Nat.mod_lt (f pos) hpos
  rw [Function.comp_apply, toNat_ofNat_mod hpos hle, if_neg (by omega),
    Nat.mod_eq_of_lt (by omega : f pos % offset < 16)]

theorem getD_run {i : Nat} (hi : i < k) (c : Nat) (out : List UInt8) :
    (run out offset c k).getD i 0 = cell out offset (c + i) := by
  rw [List.getD_eq_getElem _ _ (by rw [length_run]; exact hi), List.getElem_of_eq (by rw [run]),
    List.getElem_map, List.getElem_range]

theorem loadPattern_spec (h : Chunk dstSize out offset 0 dst) (hle : offset ≤ out.length)
    (h16 : offset ≤ 16) (hfit : out.length + 16 ≤ dstSize) :
    ∃ pattern, loadPattern dst (out.length - offset) offset = .ok pattern ∧ pattern.length = 16 ∧
      (0 < offset → pattern = run out offset 0 16) := by
  have hlen := h.length
  refine ⟨_, by rw [loadPattern, load_of_le (by omega), ok_bind], ?_, fun hpos => ?_⟩
  · rw [Simd.pshufb_eq, List.length_map, kPatternGeneration]
    split <;> simp
  · rw [kPatternGeneration, if_neg hpos.ne', pshufb_mod hpos h16, run]
    refine List.map_congr_left fun pos _ => ?_
    have hlt := Nat.mod_lt pos hpos
    have hcells := @Extends.read _ _ _ _ _ _ offset (h.cells hpos) hpos hle
      (out.length - offset) (Nat.le_refl _) (by omega) ⟨1, by omega⟩
    have hbyte : (Buffer.read dst (out.length - offset) 16).getD (pos % offset) 0 =
        (Buffer.read dst (out.length - offset) offset).getD (pos % offset) 0 := by
      rw [Buffer.read_eq, Buffer.read_eq, List.getD_eq_getElem?_getD, List.getD_eq_getElem?_getD,
        List.getElem?_take_of_lt (by omega), List.getElem?_take_of_lt hlt]
    rw [hbyte, hcells, getD_run hlt]
    refine cell_congr ?_
    rw [Nat.zero_add, Nat.zero_add, Nat.mod_mod]

theorem pshufb_reshuffle (hpos : 0 < offset) (h16 : offset ≤ 16) (c : Nat) (out : List UInt8) :
    Simd.pshufb (run out offset c 16) (kPatternReshuffle offset) = run out offset (c + 16) 16 := by
  have hshuffle := @pshufb_mod offset (run out offset c 16) hpos h16 (16 + ·)
  rw [kPatternReshuffle, if_neg hpos.ne', hshuffle]
  refine List.map_congr_left fun pos _ => ?_
  have hlt := Nat.mod_lt (16 + pos) hpos
  rw [getD_run (by omega)]
  refine cell_congr ?_
  rw [Nat.add_mod_mod, Nat.add_assoc]

theorem copyMatchOverlappingOffset1_spec (h : Chunk dstSize out 1 0 dst) (hle : 1 ≤ out.length)
    (hfirst : out.length + 32 ≤ dstSize)
    (hbound : exit = false → out.length + length + 32 ≤ dstSize + 1) :
    Copied dstSize out 1 length (decide (32 < length) && exit)
      (copyMatchOverlappingOffset1 dst out.length (out.length - 1) length exit) := by
  have hlen := h.length
  have hread := @Extends.read _ _ _ _ _ _ 1 (h.cells Nat.one_pos) Nat.one_pos hle
    (out.length - 1) (Nat.le_refl _) (by omega) ⟨1, by omega⟩
  have hpattern : List.replicate 32 ((run out 1 0 1).headD 0) = run out 1 0 32 := by
    refine List.ext_getElem (by rw [List.length_replicate, length_run]) fun i _ _ => ?_
    rw [List.getElem_replicate, List.getElem_of_eq (by rw [run]), List.getElem_map]
    refine cell_congr ?_
    rw [Nat.mod_one, Nat.mod_one]
  have hstep : ∀ c d, Chunk dstSize out 1 c d → c + 32 ≤ dstSize - out.length →
      ∃ d', store d (out.length + c) (List.replicate 32 ((run out 1 0 1).headD 0)) = .ok d' ∧
        Chunk dstSize out 1 (c + 32) d' := by
    intro c d hd hc
    rw [hpattern]
    refine hd.store (by rw [length_run]; omega) (by rw [length_run]) fun _ => ?_
    rw [take_run (Nat.le_refl 32), run_congr (one_dvd c)]
  have hbound' : exit = false → length + 32 ≤ dstSize - out.length + 1 := by
    intro hexit
    have := hbound hexit
    omega
  obtain ⟨c, dst', hrun, hdst', hc⟩ :=
    copyLoop_spec (by decide) (by omega : 32 ≤ dstSize - out.length) hbound' hstep h
  refine ⟨c, dst', ?_, hdst', hc⟩
  rw [copyMatchOverlappingOffset1, load_of_le (by omega), ok_bind, hread]
  exact hrun

theorem copyMatchOverlappingPow2_spec (h16 : offset ∣ 16) (h : Chunk dstSize out offset 0 dst)
    (hle : offset ≤ out.length) (hfirst : out.length + 32 ≤ dstSize)
    (hbound : exit = false → out.length + length + 32 ≤ dstSize + 1) :
    Copied dstSize out offset length (decide (32 < length) && exit)
      (copyMatchOverlappingPow2 dst out.length (out.length - offset) offset length exit) := by
  have hle16 : offset ≤ 16 := Nat.le_of_dvd (by decide) h16
  obtain ⟨pattern, hload, hlen, hpattern⟩ := loadPattern_spec h hle hle16 (by omega)
  have hstep : ∀ c d, (Chunk dstSize out offset c d ∧ 16 ∣ c) → c + 32 ≤ dstSize - out.length →
      ∃ d', copyPattern2x16 d (out.length + c) pattern = .ok d' ∧
        Chunk dstSize out offset (c + 32) d' ∧ 16 ∣ c + 32 := by
    rintro c d ⟨hd, hdvd⟩ hc
    have hcells : ∀ n, 16 ∣ n → 0 < offset → pattern.take 16 = run out offset n 16 := by
      intro n hn hpos
      rw [hpattern hpos, take_run (Nat.le_refl 16), run_congr (h16.trans hn)]
    obtain ⟨d₁, hstore₁, hd₁⟩ := hd.store (by omega) hlen.ge (hcells c hdvd)
    obtain ⟨d₂, hstore₂, hd₂⟩ :=
      hd₁.store (by omega) hlen.ge (hcells (c + 16) (Dvd.dvd.add hdvd (Nat.dvd_refl 16)))
    refine ⟨d₂, ?_, hd₂, Dvd.dvd.add hdvd (by decide)⟩
    rw [copyPattern2x16, hstore₁, ok_bind, Nat.add_assoc, hstore₂]
  have hbound' : exit = false → length + 32 ≤ dstSize - out.length + 1 := by
    intro hexit
    have := hbound hexit
    omega
  obtain ⟨c, dst', hrun, ⟨hdst', -⟩, hc⟩ :=
    @copyLoop_spec _ _ 32 length _ (fun c d => Chunk dstSize out offset c d ∧ 16 ∣ c) (by decide)
      (by omega : 32 ≤ dstSize - out.length) exit hbound' hstep dst ⟨h, Nat.dvd_zero 16⟩
  refine ⟨c, dst', ?_, hdst', hc⟩
  rw [copyMatchOverlappingPow2, hload, ok_bind]
  exact hrun

theorem copyMatchOverlappingNonPow2_spec (h16 : offset ≤ 16) (h : Chunk dstSize out offset 0 dst)
    (hle : offset ≤ out.length) (hfirst : out.length + 32 ≤ dstSize)
    (hbound : exit = false → out.length + length + 32 ≤ dstSize + 1) :
    Copied dstSize out offset length (decide (32 < length) && exit)
      (copyMatchOverlappingNonPow2 dst out.length (out.length - offset) offset length exit) := by
  obtain ⟨pattern, hload, hlen, hpattern⟩ := loadPattern_spec h hle h16 (by omega)
  have hshuffle : ∀ p : List UInt8, (Simd.pshufb p (kPatternReshuffle offset)).length = 16 := by
    intro p
    rw [Simd.pshufb_eq, List.length_map, kPatternReshuffle]
    split <;> simp
  have hstep : ∀ (c : Nat) (s : List UInt8 × List UInt8),
      (Chunk dstSize out offset c s.1 ∧ s.2.length = 16 ∧
        (0 < offset → s.2 = run out offset c 16)) →
      c + 32 ≤ dstSize - out.length →
      ∃ s', copyPatternWithReshuffle2x16 s.1 (out.length + c) s.2 (kPatternReshuffle offset) =
          .ok s' ∧
        Chunk dstSize out offset (c + 32) s'.1 ∧ s'.2.length = 16 ∧
          (0 < offset → s'.2 = run out offset (c + 32) 16) := by
    rintro c ⟨d, p⟩ ⟨hd, hplen, hp⟩ hc
    dsimp only at hd hplen hp
    obtain ⟨d₁, hstore₁, hd₁⟩ := @Chunk.store _ _ _ _ _ p 16 hd (by omega) hplen.ge fun hpos => by
      rw [hp hpos, take_run (Nat.le_refl 16)]
    obtain ⟨d₂, hstore₂, hd₂⟩ := @Chunk.store _ _ _ _ _
      (Simd.pshufb p (kPatternReshuffle offset)) 16 hd₁ (by rw [hshuffle]; omega) (hshuffle p).ge
      fun hpos => by
        rw [hp hpos, pshufb_reshuffle hpos h16, take_run (Nat.le_refl 16)]
    refine ⟨(d₂, Simd.pshufb (Simd.pshufb p (kPatternReshuffle offset)) (kPatternReshuffle offset)),
      ?_, hd₂, hshuffle _, fun hpos => ?_⟩
    · rw [copyPatternWithReshuffle2x16, hstore₁, ok_bind, Nat.add_assoc]
      dsimp only
      rw [hstore₂, ok_bind]
    · rw [hp hpos, pshufb_reshuffle hpos h16, pshufb_reshuffle hpos h16]
  have hbound' : exit = false → length + 32 ≤ dstSize - out.length + 1 := by
    intro hexit
    have := hbound hexit
    omega
  obtain ⟨c, ⟨dst', pattern'⟩, hrun, ⟨hdst', -, -⟩, hc⟩ :=
    @copyLoop_spec _ _ 32 length _ (fun c (s : List UInt8 × List UInt8) =>
        Chunk dstSize out offset c s.1 ∧ s.2.length = 16 ∧
          (0 < offset → s.2 = run out offset c 16)) (by decide)
      (by omega : 32 ≤ dstSize - out.length) exit hbound' hstep (dst, pattern)
      ⟨h, hlen, hpattern⟩
  refine ⟨c, dst', ?_, hdst', hc⟩
  rw [copyMatchOverlappingNonPow2, hload, ok_bind]
  dsimp only
  rw [hrun, ok_bind]

/-! ### Wild copies -/

theorem wildcopy_spec (h : Chunk dstSize out offset 0 dst) (hle : offset ≤ out.length)
    (hfit : out.length + length + 32 ≤ dstSize) :
    ∃ c dst', Copy.wildcopyWithin .srcBeforeDst dst out.length (out.length - offset) length =
        some dst' ∧
      Chunk dstSize out offset c dst' ∧ length ≤ c := by
  have hlen := h.length
  rcases Nat.eq_zero_or_pos offset with rfl | hpos
  · obtain ⟨dst', hrun, hkept⟩ := @Copy.wildcopyWithin_self dst out.length length (by omega)
    refine ⟨length, dst', hrun, ⟨hkept.length.trans hlen, hkept.take.trans h.start, ?_⟩,
      Nat.le_refl _⟩
    exact fun hpos => absurd hpos (Nat.lt_irrefl 0)
  · obtain ⟨c, hc, hc', hrun⟩ := @Copy.wildcopyWithin_filled dst out.length offset .srcBeforeDst
      length hpos hle (Or.inl rfl) (by omega)
    have hroom : out.length + c ≤ dst.length := by omega
    have hstart := @Copy.take_filled dst out.length offset c 0 hroom (Nat.zero_le c)
    have hcells := @Copy.extends_filled dst out.length offset c hroom
    rw [h.start] at hstart hcells
    rw [Nat.add_zero, run, List.range_zero, List.map_nil, List.append_nil] at hstart
    exact ⟨c, _, hrun, ⟨(Copy.length_filled hroom).trans hlen, hstart, fun _ => hcells⟩, hc⟩

/-! ### All matches -/

/-- How long a match may be before the limit of the output is looked at. -/
def matchChunk (avx2 : Bool) (offset matchLen : Nat) : Nat :=
  if offset < matchLen then
    if avx2 then if offset ≤ 16 then 32 else 16 else 0
  else 32

theorem copyMatchOverlapping_spec (avx2 : Bool) (hover : offset < length)
    (h : Chunk dstSize out offset 0 dst) (hle : offset ≤ out.length)
    (hfirst : out.length + 32 ≤ dstSize)
    (hbound : exit = false → out.length + length + 32 ≤ dstSize) :
    Copied dstSize out offset length (decide (matchChunk avx2 offset length < length) && exit)
      (copyMatchOverlapping avx2 dst out.length (out.length - offset) offset length exit) := by
  unfold copyMatchOverlapping matchChunk
  rw [if_pos hover]
  cases avx2 with
  | false =>
    have hpos : 0 < length := by omega
    rw [if_neg (by decide), if_neg (by decide), decide_eq_true hpos, Bool.true_and]
    cases exit with
    | true => exact ⟨0, dst, rfl, h, nofun⟩
    | false =>
      obtain ⟨c, dst', hrun, hdst', hc⟩ := wildcopy_spec h hle (hbound rfl)
      refine ⟨c, dst', ?_, hdst', fun _ => hc⟩
      rw [if_neg (by decide), hrun]
      rfl
  | true =>
    have hbound' : exit = false → out.length + length + 32 ≤ dstSize + 1 := fun hexit =>
      (hbound hexit).trans (Nat.le_succ _)
    rw [if_pos rfl, if_pos rfl]
    by_cases hone : offset = 1
    · subst hone
      exact copyMatchOverlappingOffset1_spec h hle hfirst hbound'
    rw [if_neg hone]
    by_cases hpow : offset = 2 ∨ offset = 4 ∨ offset = 8 ∨ offset = 16
    · have h16 : offset ∣ 16 := by
        rcases hpow with rfl | rfl | rfl | rfl <;> decide
      have hle16 : offset ≤ 16 := Nat.le_of_dvd (by decide) h16
      rw [if_pos hpow, if_pos hle16]
      exact copyMatchOverlappingPow2_spec h16 h hle hfirst hbound'
    rw [if_neg hpow]
    by_cases h16 : offset ≤ 16
    · rw [if_pos h16, if_pos h16]
      exact copyMatchOverlappingNonPow2_spec h16 h hle hfirst hbound'
    · rw [if_neg h16, if_neg h16]
      exact copyMatchNonOverlapping_spec h hle (by decide) (.inl (by omega)) (by omega)
        fun hexit => by have := hbound hexit; omega

theorem copyMatch_spec (avx2 : Bool) (hout : dst.take out.length = out)
    (hfirst : out.length + 32 ≤ dst.length)
    (hbound : exit = false → out.length + length + 32 ≤ dst.length) (offset : Nat) :
    (out.length < offset ∧
        copyMatch avx2 dst out.length offset length exit = .error (.error .offsetTooLarge)) ∨
      offset ≤ out.length ∧
        Copied dst.length out offset length
          (decide (matchChunk avx2 offset length < length) && exit)
          (copyMatch avx2 dst out.length offset length exit) := by
  have hstart := Chunk.ofOutput hout (by omega) offset
  unfold copyMatch
  by_cases hfar : out.length < offset
  · rw [if_pos hfar]
    exact .inl ⟨hfar, rfl⟩
  rw [if_neg hfar]
  refine .inr ⟨Nat.le_of_not_lt hfar, ?_⟩
  by_cases hover : offset < length
  · rw [if_pos hover]
    exact copyMatchOverlapping_spec avx2 hover hstart (Nat.le_of_not_lt hfar) hfirst hbound
  · rw [if_neg hover, matchChunk, if_neg hover]
    exact copyMatchNonOverlapping_spec hstart (Nat.le_of_not_lt hfar) (by decide)
      (.inr (Nat.le_of_not_lt hover)) hfirst fun hexit => (hbound hexit).trans (Nat.le_succ _)

end Match

end OpenZL.Codecs.Lz
