import OpenZL.Common.Basic
import OpenZL.Lib.Command
import OpenZL.Lib.Slices

/-!
# Segmenters (`segmenter.c`)

A segmenter cuts the session inputs into chunks: its function calls `ZL_Segmenter_processChunk` with
a number of elements for each input, any number of times, and may go on after a call that fails.

Principal results: `processChunk_refused`, `processChunk_fits`, `Disciplined`, `segments_partition`.
-/

namespace OpenZL.Compress

open OpenZL.Lib

variable {inputs : List Nat} {seg seg' : Segmenter} {call : Call}

/-- `STREAM_refStreamSliceWithoutRefCount`, for a source of `eltCount` elements.  That the slice
lies inside the source is only asserted. -/
def refStreamSlice (eltCount startingEltNum count : Nat) : Slice :=
  if count = eltCount then ⟨0, eltCount⟩ else ⟨startingEltNum, count⟩

/-- A chunk that was processed: where the inputs stood, what was asked for, and the slices. -/
structure Chunk where
  consumed : List Nat
  numElts : List Nat
  slices : List Slice
  deriving DecidableEq, Repr

/-- `ZL_Segmenter`, with the history of the calls that returned success. -/
structure Segmenter where
  inputs : List Nat
  consumed : List Nat
  numChunks : Nat
  chunks : List Chunk
  deriving DecidableEq, Repr

/-- `SEGM_init`. -/
def Segmenter.init (inputs : List Nat) : Segmenter where
  inputs
  consumed := List.replicate inputs.length 0
  numChunks := 0
  chunks := []

/-- A call of `ZL_Segmenter_processChunk`, with the outcome of the graph it starts and of writing
the chunk. -/
structure Call where
  numElts : List Nat
  graph : Except ErrorCode Unit
  flush : Except ErrorCode Unit
  deriving DecidableEq, Repr

/-- The loop over the inputs, from input `n`; `consumed` is a `size_t`. -/
def sliceInputs (n : Nat) : List Nat → Cmd ErrorCode Segmenter (List Slice)
  | [] => return []
  | count :: counts => do
    let seg ← Cmd.get
    let eltCount ← Cmd.expect seg.inputs[n]?
    let startingEltNum ← Cmd.expect seg.consumed[n]?
    Cmd.failWhen (count > eltCount) .parameter_invalid
    Cmd.modify fun seg =>
      { seg with consumed := seg.consumed.set n ((startingEltNum + count) % 2 ^ 64) }
    let slices ← sliceInputs (n + 1) counts
    return refStreamSlice eltCount startingEltNum count :: slices

/-- `ZL_Segmenter_processChunk`. -/
def processChunk (call : Call) : Cmd ErrorCode Segmenter Unit := do
  let seg ← Cmd.get
  Cmd.failWhen (call.numElts.length ≠ seg.inputs.length) .graph_invalidNumInputs
  let slices ← sliceInputs 0 call.numElts
  match call.graph with
  | .error e => Cmd.fail e
  | .ok _ =>
    Cmd.modify fun s => { s with numChunks := s.numChunks + 1 }
    match call.flush with
    | .error e => Cmd.fail e
    | .ok _ => Cmd.modify fun s =>
      { s with chunks := s.chunks ++ [⟨seg.consumed, call.numElts, slices⟩] }

/-- The calls of a segmenter function, which is told of the failures and may go on. -/
def processChunks (calls : List Call) : Cmd ErrorCode Segmenter Unit :=
  Cmd.forEach (fun call => do let _ ← Cmd.attempt (processChunk call); return ()) calls

/-- `SEGM_runSegmenter`, for a segmenter function that makes `calls` and reports `result`. -/
def runSegmenter (calls : List Call) (result : Except ErrorCode Unit) :
    Cmd ErrorCode Segmenter Unit := do
  processChunks calls
  match result with
  | .error e => Cmd.fail e
  | .ok _ =>
    let seg ← Cmd.get
    Cmd.failWhen (seg.numChunks = 0) .segmenter_noSegments
    Cmd.failWhen ((seg.consumed.zip seg.inputs).any fun (c, n) => c < n)
      .segmenter_inputNotConsumed

/-- Input `n` of the call is asked for `count` elements, with `c` of `total` consumed. -/
structure Asked (seg : Segmenter) (numElts : List Nat) (n count total c : Nat) : Prop where
  count_eq : numElts[n]? = some count
  total_eq : seg.inputs[n]? = some total
  consumed_eq : seg.consumed[n]? = some c

/-- A call that is refused without having advanced an input: it has the wrong number of inputs, or
asks for more than an input has in all, and for nothing of the inputs before. -/
def Call.Refused (call : Call) (seg : Segmenter) : Prop :=
  call.numElts.length ≠ seg.inputs.length ∨
    ∃ n count total c, Asked seg call.numElts n count total c ∧ total < count ∧
      ∀ m < n, call.numElts[m]? = some 0

/-- A call that asks for no more than is left of each input. -/
def Call.Fits (call : Call) (seg : Segmenter) : Prop :=
  call.numElts.length = seg.inputs.length ∧
    ∀ n count total c, Asked seg call.numElts n count total c → c + count ≤ total

theorem refStreamSlice_of_fits {eltCount start count : Nat} (h : start + count ≤ eltCount) :
    refStreamSlice eltCount start count = ⟨start, count⟩ := by
  unfold refStreamSlice
  split
  · rename_i heq
    obtain rfl : start = 0 := by omega
    rw [heq]
  · rfl

theorem sliceInputs_fits : ∀ {counts : List Nat} {n : Nat} {seg seg' : Segmenter}
    {r : Except ErrorCode (List Slice)},
    (∀ (i count : Nat), counts[i]? = some count → ∃ total c, seg.inputs[n + i]? = some total ∧
      seg.consumed[n + i]? = some c ∧ c + count ≤ total ∧ total < 2 ^ 64) →
    sliceInputs n counts seg = some (r, seg') →
    ∃ slices consumed, r = .ok slices ∧ seg' = { seg with consumed } ∧
      slices.length = counts.length ∧ consumed.length = seg.consumed.length ∧
      (∀ i < n, consumed[i]? = seg.consumed[i]?) ∧
      ∀ (i count c : Nat), counts[i]? = some count → seg.consumed[n + i]? = some c →
        consumed[n + i]? = some (c + count) ∧ slices[i]? = some ⟨c, count⟩
  | [], n, seg, seg', r, _, h => by
    obtain ⟨rfl, rfl⟩ := Cmd.run_pure_iff.1 h
    exact ⟨[], _, rfl, rfl, rfl, rfl, fun _ _ => rfl, by simp⟩
  | count :: counts, n, seg, seg', r, hfits, h => by
    obtain ⟨total, c, htotal, hc, hle, hlt⟩ := hfits 0 count rfl
    rw [Nat.add_zero] at htotal hc
    rw [sliceInputs, Cmd.run_get_bind] at h
    obtain ⟨_, htotal', h₁⟩ := Cmd.run_expect_bind.1 h
    obtain rfl := Option.some.inj (htotal.symm.trans htotal')
    obtain ⟨_, hc', h₂⟩ := Cmd.run_expect_bind.1 h₁
    obtain rfl := Option.some.inj (hc.symm.trans hc')
    have hn := (List.getElem?_eq_some_iff.1 hc).1
    rcases Cmd.run_failWhen_bind_some h₂ with ⟨hgt, -, -⟩ | ⟨-, h₃⟩
    · omega
    rw [Cmd.run_modify_bind, Nat.mod_eq_of_lt (by omega)] at h₃
    -- the other inputs see the same totals and positions
    have hother : ∀ i, n < i → (seg.consumed.set n (c + count))[i]? = seg.consumed[i]? :=
      fun i hi => List.getElem?_set_ne (Nat.ne_of_lt hi)
    have hrest : ∀ (i k : Nat), counts[i]? = some k → ∃ total c', seg.inputs[n + 1 + i]? =
        some total ∧ (seg.consumed.set n (c + count))[n + 1 + i]? = some c' ∧ c' + k ≤ total ∧
        total < 2 ^ 64 := by
      intro i k hk
      obtain ⟨total', c', h1, h2, h3⟩ := hfits (i + 1) k hk
      rw [show n + 1 + i = n + (i + 1) by omega, hother _ (by omega)]
      exact ⟨total', c', h1, h2, h3⟩
    rcases Cmd.run_bind_some h₃ with ⟨e, he, -⟩ | ⟨slices, t, htail, hpure⟩
    · obtain ⟨_, _, hr, -⟩ := sliceInputs_fits hrest he
      cases hr
    obtain ⟨slices', consumed, hr, rfl, hlen, hclen, hbefore, hspec⟩ :=
      sliceInputs_fits hrest htail
    cases hr
    obtain ⟨rfl, rfl⟩ := Cmd.run_pure_iff.1 hpure
    refine ⟨_, consumed, rfl, rfl, by simp [hlen], by simpa using hclen, ?_, ?_⟩
    · intro i hi
      rw [hbefore i (by omega)]
      exact List.getElem?_set_ne (by omega)
    · intro i k c' hk hc'
      cases i with
      | zero =>
        obtain rfl : count = k := by simpa using hk
        obtain rfl := Option.some.inj (hc.symm.trans hc')
        rw [Nat.add_zero, hbefore n (by omega), List.getElem?_set_self hn,
          refStreamSlice_of_fits hle]
        exact ⟨rfl, rfl⟩
      | succ i =>
        have h := hspec i k c' hk (by
          rw [show n + 1 + i = n + (i + 1) by omega]
          exact (hother _ (by omega)).trans hc')
        rwa [show n + 1 + i = n + (i + 1) by omega] at h

theorem sliceInputs_refused : ∀ {counts : List Nat} {n i count total : Nat} {seg seg' : Segmenter}
    {r : Except ErrorCode (List Slice)}, (∀ c ∈ seg.consumed, c < 2 ^ 64) →
    counts[i]? = some count → seg.inputs[n + i]? = some total → total < count →
    (∀ m < i, counts[m]? = some 0) → sliceInputs n counts seg = some (r, seg') →
    seg' = seg ∧ ∃ e, r = .error e
  | [], _, _, _, _, _, _, _, _, hcount, _, _, _, _ => by cases hcount
  | k :: counts, n, i, count, total, seg, seg', r, hsize, hcount, htotal, hlt, hzero, h => by
    rw [sliceInputs, Cmd.run_get_bind] at h
    obtain ⟨total', htotal', h₁⟩ := Cmd.run_expect_bind.1 h
    obtain ⟨c, hc, h₂⟩ := Cmd.run_expect_bind.1 h₁
    rcases Cmd.run_failWhen_bind_some h₂ with ⟨-, rfl, rfl⟩ | ⟨hle, h₃⟩
    · exact ⟨rfl, _, rfl⟩
    cases i with
    | zero =>
      obtain rfl : k = count := by simpa using hcount
      obtain rfl := Option.some.inj (htotal'.symm.trans htotal)
      omega
    | succ i =>
      obtain rfl : k = 0 := by simpa using hzero 0 (by omega)
      have hset : seg.consumed.set n ((c + 0) % 2 ^ 64) = seg.consumed := by
        rw [Nat.add_zero, Nat.mod_eq_of_lt (hsize c (List.mem_of_getElem? hc))]
        obtain ⟨hn, rfl⟩ := List.getElem?_eq_some_iff.1 hc
        exact List.set_getElem_self hn
      rw [Cmd.run_modify_bind, hset] at h₃
      have hrec : ∀ {q seg''}, sliceInputs (n + 1) counts seg = some (q, seg'') →
          seg'' = seg ∧ ∃ e, q = .error e := fun hq =>
        sliceInputs_refused hsize (by simpa using hcount)
          (by rwa [show n + 1 + i = n + (i + 1) by omega]) hlt
          (fun m hm => by simpa using hzero (m + 1) (by omega)) hq
      rcases Cmd.run_bind_some h₃ with ⟨e, he, rfl⟩ | ⟨slices, t, htail, -⟩
      · exact ⟨(hrec he).1, e, rfl⟩
      · obtain ⟨-, e, hr⟩ := hrec htail
        cases hr

/-- The slices taken from input `n`, chunk after chunk. -/
def Segmenter.column (seg : Segmenter) (n : Nat) : List Slice :=
  seg.chunks.filterMap (·.slices[n]?)

/-- The chunks processed so far follow each other, and took what they were asked to take. -/
structure Partition (inputs : List Nat) (seg : Segmenter) : Prop where
  inputs_eq : seg.inputs = inputs
  length_eq : seg.consumed.length = inputs.length
  within : ∀ (n c total : Nat), seg.consumed[n]? = some c → inputs[n]? = some total → c ≤ total
  exact : ∀ chunk ∈ seg.chunks, ∀ (n c count : Nat), chunk.consumed[n]? = some c →
    chunk.numElts[n]? = some count → chunk.slices[n]? = some ⟨c, count⟩
  tiles : ∀ (n c : Nat), seg.consumed[n]? = some c → ∃ stop ≤ c, Tiles 0 (seg.column n) stop

/-- As `Partition`, with the chunks covering all that was consumed. -/
structure Aligned (inputs : List Nat) (seg : Segmenter) : Prop extends Partition inputs seg where
  covered : ∀ (n c : Nat), seg.consumed[n]? = some c → Tiles 0 (seg.column n) c

/-- A call whose chunk is compressed and written. -/
def Call.Done (call : Call) : Prop := call.graph = .ok () ∧ call.flush = .ok ()

theorem processChunk_refused {r : Except ErrorCode Unit} (hsize : ∀ c ∈ seg.consumed, c < 2 ^ 64)
    (href : call.Refused seg) (h : processChunk call seg = some (r, seg')) : seg' = seg := by
  rw [processChunk, Cmd.run_get_bind] at h
  rcases Cmd.run_failWhen_bind_some h with ⟨-, -, rfl⟩ | ⟨hlen, h₁⟩
  · rfl
  rcases href with hne | ⟨n, count, total, c, ⟨hcount, htotal, -⟩, hlt, hzero⟩
  · exact absurd hne hlen
  have hrec : ∀ {q seg''}, sliceInputs 0 call.numElts seg = some (q, seg'') →
      seg'' = seg ∧ ∃ e, q = .error e := fun hq =>
    sliceInputs_refused hsize hcount (by rwa [Nat.zero_add]) hlt hzero hq
  rcases Cmd.run_bind_some h₁ with ⟨e, he, -⟩ | ⟨slices, t, hslices, -⟩
  · exact (hrec he).1
  · obtain ⟨-, e, hr⟩ := hrec hslices
    cases hr

/-- The inputs after a call that fits: each has advanced by what was asked for. -/
structure Advanced (call : Call) (seg : Segmenter) (slices : List Slice) (consumed : List Nat) :
    Prop where
  length_eq : consumed.length = seg.consumed.length
  next : ∀ (n count c : Nat), call.numElts[n]? = some count → seg.consumed[n]? = some c →
    consumed[n]? = some (c + count) ∧ slices[n]? = some ⟨c, count⟩

theorem processChunk_fits {r : Except ErrorCode Unit} (ha : Partition inputs seg)
    (hsize : ∀ n ∈ inputs, n < 2 ^ 64) (hfits : call.Fits seg)
    (h : processChunk call seg = some (r, seg')) :
    ∃ slices consumed, Advanced call seg slices consumed ∧
      (call.Done ∧ seg' = ⟨seg.inputs, consumed, seg.numChunks + 1,
        seg.chunks ++ [⟨seg.consumed, call.numElts, slices⟩]⟩ ∨
      ¬ call.Done ∧ ∃ numChunks, seg' = ⟨seg.inputs, consumed, numChunks, seg.chunks⟩) := by
  have hlens := ha.length_eq
  rw [processChunk, Cmd.run_get_bind] at h
  rcases Cmd.run_failWhen_bind_some h with ⟨hne, -, -⟩ | ⟨-, h₁⟩
  · exact absurd hfits.1 hne
  have hall : ∀ (i count : Nat), call.numElts[i]? = some count → ∃ total c,
      seg.inputs[0 + i]? = some total ∧ seg.consumed[0 + i]? = some c ∧ c + count ≤ total ∧
      total < 2 ^ 64 := by
    intro i count hcount
    have hi := (List.getElem?_eq_some_iff.1 hcount).1
    rw [hfits.1] at hi
    have htotal := List.getElem?_eq_getElem hi
    have hc := List.getElem?_eq_getElem (l := seg.consumed) (i := i)
      (by rw [hlens, ← ha.inputs_eq]; exact hi)
    rw [Nat.zero_add]
    refine ⟨_, _, htotal, hc, hfits.2 i count _ _ ⟨hcount, htotal, hc⟩, ?_⟩
    exact hsize _ (by rw [← ha.inputs_eq]; exact List.getElem_mem hi)
  rcases Cmd.run_bind_some h₁ with ⟨e, he, -⟩ | ⟨slices, t, hslices, h₂⟩
  · obtain ⟨_, _, hr, -⟩ := sliceInputs_fits hall he
    cases hr
  obtain ⟨_, consumed, hr, rfl, -, hclen, -, hspec⟩ := sliceInputs_fits hall hslices
  cases hr
  refine ⟨slices, consumed, ⟨hclen, fun n count c hcount hc => ?_⟩, ?_⟩
  · have := hspec n count c hcount (by rwa [Nat.zero_add])
    rwa [Nat.zero_add] at this
  cases hg : call.graph with
  | error e =>
    rw [hg] at h₂
    obtain ⟨-, rfl⟩ := Prod.mk.inj (Option.some.inj h₂)
    have hnot : ¬ call.Done := fun hd => by
      rw [hd.1] at hg
      cases hg
    exact Or.inr ⟨hnot, _, rfl⟩
  | ok u =>
    rw [hg] at h₂
    cases hfl : call.flush with
    | error e =>
      rw [hfl] at h₂
      obtain ⟨-, rfl⟩ := Prod.mk.inj (Option.some.inj h₂)
      have hnot : ¬ call.Done := fun hd => by
        rw [hd.2] at hfl
        cases hfl
      exact Or.inr ⟨hnot, _, rfl⟩
    | ok u' =>
      rw [hfl] at h₂
      obtain ⟨-, rfl⟩ := Prod.mk.inj (Option.some.inj h₂)
      exact Or.inl ⟨⟨hg, hfl⟩, rfl⟩

theorem Aligned.init (inputs : List Nat) : Aligned inputs (Segmenter.init inputs) := by
  have hzero : ∀ {n c : Nat}, (Segmenter.init inputs).consumed[n]? = some c → c = 0 := fun h =>
    List.eq_of_mem_replicate (List.mem_of_getElem? h)
  have hcovered : ∀ (n c : Nat), (Segmenter.init inputs).consumed[n]? = some c →
      Tiles 0 ((Segmenter.init inputs).column n) c := fun n c h => (hzero h).symm
  constructor
  · refine ⟨rfl, by simp [Segmenter.init], ?_, ?_, ?_⟩
    · intro n c total hc _
      rw [hzero hc]
      exact Nat.zero_le _
    · intro chunk hchunk
      cases hchunk
    · intro n c hc
      exact ⟨c, Nat.le_refl c, hcovered n c hc⟩
  · exact hcovered

theorem Partition.consumed_lt {seg : Segmenter} (h : Partition inputs seg)
    (hsize : ∀ n ∈ inputs, n < 2 ^ 64) : ∀ c ∈ seg.consumed, c < 2 ^ 64 := by
  intro c hc
  obtain ⟨n, hn⟩ := List.mem_iff_getElem?.1 hc
  have hlt := (List.getElem?_eq_some_iff.1 hn).1
  rw [h.length_eq] at hlt
  have htotal := List.getElem?_eq_getElem hlt
  have hle := h.within n c _ hn htotal
  have := hsize _ (List.getElem_mem hlt)
  omega

theorem Advanced.of_consumed {seg : Segmenter} {slices : List Slice} {consumed : List Nat}
    (hadv : Advanced call seg slices consumed) (hp : Partition inputs seg) (hfits : call.Fits seg)
    {n c : Nat} (hc : consumed[n]? = some c) : ∃ count c₀ total, call.numElts[n]? = some count ∧
      seg.consumed[n]? = some c₀ ∧ inputs[n]? = some total ∧ c = c₀ + count ∧ c ≤ total ∧
      slices[n]? = some ⟨c₀, count⟩ := by
  have hn := (List.getElem?_eq_some_iff.1 hc).1
  rw [hadv.length_eq] at hn
  have hn' : n < seg.inputs.length := by rw [hp.inputs_eq, ← hp.length_eq]; exact hn
  have hcount := List.getElem?_eq_getElem (l := call.numElts) (i := n) (by rw [hfits.1]; exact hn')
  have htotal := List.getElem?_eq_getElem hn'
  have hc₀ := List.getElem?_eq_getElem hn
  obtain ⟨hnext, hslice⟩ := hadv.next n _ _ hcount hc₀
  obtain rfl := Option.some.inj (hc.symm.trans hnext)
  have hle := hfits.2 n _ _ _ ⟨hcount, htotal, hc₀⟩
  exact ⟨_, _, _, hcount, hc₀, hp.inputs_eq ▸ htotal, rfl, hle, hslice⟩

theorem Advanced.consumed_le {seg : Segmenter} {slices : List Slice} {consumed : List Nat}
    (hadv : Advanced call seg slices consumed) (hp : Partition inputs seg) (hfits : call.Fits seg)
    {n c total : Nat} (hc : consumed[n]? = some c) (htotal : inputs[n]? = some total) :
    c ≤ total := by
  obtain ⟨count, c₀, total', -, -, htotal', -, hle, -⟩ := hadv.of_consumed hp hfits hc
  obtain rfl := Option.some.inj (htotal.symm.trans htotal')
  exact hle

section

variable {seg : Segmenter} {slices : List Slice} {consumed : List Nat} (ha : Aligned inputs seg)
  (hfits : call.Fits seg) (hadv : Advanced call seg slices consumed)

include ha hfits hadv

theorem Aligned.done (numChunks : Nat) :
    Aligned inputs ⟨seg.inputs, consumed, numChunks,
      seg.chunks ++ [⟨seg.consumed, call.numElts, slices⟩]⟩ := by
  have hcovered : ∀ (n c : Nat), consumed[n]? = some c → Tiles 0 (Segmenter.column
      ⟨seg.inputs, consumed, numChunks, seg.chunks ++ [⟨seg.consumed, call.numElts, slices⟩]⟩ n)
      c := by
    intro n c hc
    obtain ⟨count, c₀, total, -, hc₀, -, rfl, -, hslice⟩ :=
      hadv.of_consumed ha.toPartition hfits hc
    have htiles : Tiles 0 (seg.column n ++ [⟨c₀, count⟩]) (c₀ + count) :=
      (ha.covered n c₀ hc₀).append_singleton
    unfold Segmenter.column at htiles ⊢
    rw [List.filterMap_append]
    simpa [hslice] using htiles
  constructor
  · refine ⟨ha.inputs_eq, hadv.length_eq.trans ha.length_eq, ?_, ?_, ?_⟩
    · exact fun n c total => hadv.consumed_le ha.toPartition hfits
    · intro chunk hchunk n c count hc hcount
      rcases List.mem_append.1 hchunk with hold | hnew
      · exact ha.exact chunk hold n c count hc hcount
      · obtain rfl := List.mem_singleton.1 hnew
        exact (hadv.next n count c hcount hc).2
    · intro n c hc
      exact ⟨c, Nat.le_refl c, hcovered n c hc⟩
  · exact hcovered

theorem Aligned.failed (numChunks : Nat) :
    Partition inputs ⟨seg.inputs, consumed, numChunks, seg.chunks⟩ := by
  refine ⟨ha.inputs_eq, hadv.length_eq.trans ha.length_eq, ?_, ha.exact, ?_⟩
  · exact fun n c total => hadv.consumed_le ha.toPartition hfits
  · intro n c hc
    obtain ⟨count, c₀, total, -, hc₀, -, rfl, -, -⟩ := hadv.of_consumed ha.toPartition hfits hc
    exact ⟨c₀, Nat.le_add_right _ _, ha.covered n c₀ hc₀⟩

end

/-- A run in which every call is refused without advancing an input, or asks for no more than is
left and is carried out; or is the last one, and the segmenter function then fails. -/
def Disciplined (result : Except ErrorCode Unit) : List Call → Segmenter → Prop
  | [], _ => True
  | call :: calls, seg =>
    (call.Refused seg ∨ call.Fits seg ∧ (call.Done ∨ calls = [] ∧ result ≠ .ok ())) ∧
      ∀ r seg', processChunk call seg = some (r, seg') → Disciplined result calls seg'

theorem processChunks_cons {calls : List Call} {r : Except ErrorCode Unit} :
    processChunks (call :: calls) seg = some (r, seg') ↔
      ∃ q t, processChunk call seg = some (q, t) ∧ processChunks calls t = some (r, seg') := by
  constructor
  · intro h
    rcases Cmd.run_bind_some h with ⟨e, h₁, -⟩ | ⟨_, t, h₁, h₂⟩
    · obtain ⟨q, t, -, hret⟩ := Cmd.run_attempt_bind.1 h₁
      obtain ⟨hret, -⟩ := Cmd.run_pure_iff.1 hret
      cases hret
    · obtain ⟨q, t', hcall, hret⟩ := Cmd.run_attempt_bind.1 h₁
      obtain ⟨-, rfl⟩ := Cmd.run_pure_iff.1 hret
      exact ⟨q, t, hcall, h₂⟩
  · rintro ⟨q, t, hcall, hrest⟩
    have hret : (do let _ ← Cmd.attempt (processChunk call); return () :
        Cmd ErrorCode Segmenter Unit) seg = some (.ok (), t) :=
      Cmd.run_attempt_bind.2 ⟨q, t, hcall, rfl⟩
    exact (Cmd.run_bind_of_ok hret).trans hrest

theorem Disciplined.partition (hsize : ∀ n ∈ inputs, n < 2 ^ 64) {result : Except ErrorCode Unit} :
    ∀ {calls : List Call} {seg seg' : Segmenter} {r : Except ErrorCode Unit}
    (k : Nat), Aligned inputs seg → Disciplined result calls seg →
    processChunks (calls.take k) seg = some (r, seg') →
    Partition inputs seg' ∧ (result = .ok () → Aligned inputs seg')
  | calls, seg, seg', r, 0, ha, _, h => by
    rw [List.take_zero] at h
    obtain ⟨-, rfl⟩ := Cmd.run_pure_iff.1 h
    exact ⟨ha.toPartition, fun _ => ha⟩
  | [], seg, seg', r, k + 1, ha, _, h => by
    rw [List.take_nil] at h
    obtain ⟨-, rfl⟩ := Cmd.run_pure_iff.1 h
    exact ⟨ha.toPartition, fun _ => ha⟩
  | call :: calls, seg, seg', r, k + 1, ha, ⟨hcall, hnext⟩, h => by
    rw [List.take_succ_cons] at h
    obtain ⟨q, t, hchunk, hrest⟩ := processChunks_cons.1 h
    have hdisc := hnext q t hchunk
    rcases hcall with href | ⟨hfits, hdone⟩
    · obtain rfl := processChunk_refused (ha.consumed_lt hsize) href hchunk
      exact Disciplined.partition hsize k ha hdisc hrest
    obtain ⟨slices, consumed, hadv, ⟨-, rfl⟩ | ⟨hnot, numChunks, rfl⟩⟩ :=
      processChunk_fits ha.toPartition hsize hfits hchunk
    · exact Disciplined.partition hsize k (ha.done hfits hadv _) hdisc hrest
    -- the failed chunk was the last call
    rcases hdone with hd | ⟨rfl, hfail⟩
    · exact absurd hd hnot
    · rw [List.take_nil] at hrest
      obtain ⟨-, rfl⟩ := Cmd.run_pure_iff.1 hrest
      exact ⟨ha.failed hfits hadv _, fun hok => absurd hok hfail⟩

theorem runSegmenter_ok {calls : List Call} {result : Except ErrorCode Unit} {u : Unit}
    (h : runSegmenter calls result seg = some (.ok u, seg')) :
    (∃ r, processChunks calls seg = some (r, seg')) ∧ result = .ok () ∧
      ∀ (n c total : Nat), seg'.consumed[n]? = some c → seg'.inputs[n]? = some total →
        total ≤ c := by
  obtain ⟨_, t, hcalls, h₁⟩ := Cmd.run_bind_ok.1 h
  cases result with
  | error e => cases h₁
  | ok v =>
    dsimp only at h₁
    rw [Cmd.run_get_bind] at h₁
    obtain ⟨-, h₂⟩ := Cmd.run_failWhen_bind_ok.1 h₁
    obtain ⟨hall, rfl⟩ := Cmd.run_failWhen_ok.1 h₂
    refine ⟨⟨_, hcalls⟩, rfl, ?_⟩
    intro n c total hc htotal
    by_contra hlt
    apply hall
    have hzip : (seg'.consumed.zip seg'.inputs)[n]? = some (c, total) :=
      List.getElem?_zip_eq_some.2 ⟨hc, htotal⟩
    exact List.any_eq_true.2 ⟨(c, total), List.mem_of_getElem? hzip, by simpa using hlt⟩

/-- **In a disciplined run the chunks take consecutive slices within the inputs, each exactly what
was asked for; when the run succeeds, the slices of an input concatenate to the input.** -/
theorem segments_partition (inputs : List Nat) (hsize : ∀ n ∈ inputs, n < 2 ^ 64)
    (calls : List Call) (result : Except ErrorCode Unit)
    (hdisc : Disciplined result calls (Segmenter.init inputs)) :
    (∀ k r seg, processChunks (calls.take k) (Segmenter.init inputs) = some (r, seg) →
      Partition inputs seg) ∧
    ∀ seg, runSegmenter calls result (Segmenter.init inputs) = some (.ok (), seg) →
      ∀ (α : Type) (xs : List α) (n : Nat), inputs[n]? = some xs.length →
        (seg.column n).flatMap (Slice.content xs) = xs ∧
        ∀ slice ∈ seg.column n, slice.stop ≤ xs.length := by
  have ha := Aligned.init inputs
  constructor
  · intro k r seg h
    exact (Disciplined.partition hsize k ha hdisc h).1
  · intro seg h α xs n hn
    obtain ⟨⟨r, hcalls⟩, hok, hall⟩ := runSegmenter_ok h
    rw [← List.take_length (l := calls)] at hcalls
    obtain ⟨hp, haligned⟩ := Disciplined.partition hsize _ ha hdisc hcalls
    have hlt := (List.getElem?_eq_some_iff.1 hn).1
    rw [← hp.length_eq] at hlt
    have hc := List.getElem?_eq_getElem hlt
    have hle := hp.within n _ _ hc hn
    have hge := hall n _ _ hc (by rw [hp.inputs_eq]; exact hn)
    have htiles := (haligned hok).covered n _ hc
    rw [Nat.le_antisymm hle hge] at htiles
    refine ⟨?_, htiles.stop_le⟩
    rw [htiles.flatMap_content]
    simp [Slice.content]

/-- Two inputs cut in two chunks, with a call in between that asks for more than an input has. -/
theorem segments_partition_twoInputs :
    let calls : List Call := [⟨[3, 1], .ok (), .ok ()⟩, ⟨[5, 0], .ok (), .ok ()⟩,
      ⟨[1, 1], .ok (), .ok ()⟩]
    ∃ seg, runSegmenter calls (.ok ()) (Segmenter.init [4, 2]) = some (.ok (), seg) ∧
      seg.column 0 = [⟨0, 3⟩, ⟨3, 1⟩] ∧
      (seg.column 0).flatMap (Slice.content ['a', 'b', 'c', 'd']) = ['a', 'b', 'c', 'd'] := by
  intro calls
  have hdisc : Disciplined (.ok ()) calls (Segmenter.init [4, 2]) := by
    refine ⟨Or.inr ⟨⟨rfl, ?_⟩, Or.inl ⟨rfl, rfl⟩⟩, ?_⟩
    · rintro (_ | _ | n) count total c ⟨h₁, h₂, h₃⟩ <;> cases h₁ <;> cases h₂ <;> cases h₃ <;>
        decide
    rintro r seg h
    cases h
    refine ⟨Or.inl (Or.inr ⟨0, 5, 4, 3, ⟨rfl, rfl, rfl⟩, by decide, by simp⟩), ?_⟩
    rintro r seg h
    cases h
    refine ⟨Or.inr ⟨⟨rfl, ?_⟩, Or.inl ⟨rfl, rfl⟩⟩, fun _ _ _ => trivial⟩
    rintro (_ | _ | n) count total c ⟨h₁, h₂, h₃⟩ <;> cases h₁ <;> cases h₂ <;> cases h₃ <;>
      decide
  have hrun := (segments_partition [4, 2] (by decide) calls (.ok ()) hdisc).2
  exact ⟨_, rfl, by decide, (hrun _ rfl Char ['a', 'b', 'c', 'd'] 0 rfl).1⟩

/-- The second call asks for no more than the input has, but for more than is left of it: it
succeeds with a slice past the end, as does the run. -/
theorem processChunk_pastEnd :
    let calls : List Call := [⟨[3], .ok (), .ok ()⟩, ⟨[3], .ok (), .ok ()⟩]
    ∃ seg, runSegmenter calls (.ok ()) (Segmenter.init [4]) = some (.ok (), seg) ∧
      seg.consumed = [6] ∧ seg.column 0 = [⟨0, 3⟩, ⟨3, 3⟩] := by
  exact ⟨_, rfl, by decide, by decide⟩

end OpenZL.Compress
