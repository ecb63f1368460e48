import Mathlib.Data.List.Sort
import Mathlib.Data.Nat.Bitwise
import Mathlib.Tactic.IntervalCases
import OpenZL.Codecs.MergeSortedMerge
import OpenZL.Lib.Result

/-!
# merge_sorted restores the list

The runs of `getSortedRuns` are as few as increasing runs can be, the merge says for each of their
values which of them hold it, and the decoder gives each run its values back.

Principal results: `getSortedRuns_spec`, `decodeMergeSorted_merged`, `mergeSorted_spec`.
-/

namespace OpenZL.Codecs.MergeSorted

open OpenZL.Common OpenZL.Lib OpenZL.Shared

/-- The list is a concatenation of at most `n` strictly increasing runs. -/
def Splits (n : Nat) (values : List Nat) : Prop :=
  ∃ runs : List (List Nat), runs.flatten = values ∧ (∀ run ∈ runs, run.Pairwise (· < ·)) ∧
    runs.length ≤ n

/-- How many values of the list are not above the one before. -/
def descents : Nat → List Nat → Nat
  | _, [] => 0
  | prev, val :: rest => (if val ≤ prev then 1 else 0) + descents val rest

theorem descents_lt : ∀ (runs : List (List Nat)) (prev : Nat) (rest : List Nat),
    runs.flatten = prev :: rest → (∀ run ∈ runs, run.Pairwise (· < ·)) →
    descents prev rest < runs.length
  | [], _, _, h, _ => absurd h nofun
  | [] :: runs, prev, rest, h, hsorted => by
      have hlt := descents_lt runs prev rest h fun run hrun =>
        hsorted run (List.mem_cons_of_mem _ hrun)
      rw [List.length_cons]
      omega
  | (val :: run) :: runs, prev, rest, h, hsorted => by
      rw [List.flatten_cons, List.cons_append] at h
      obtain ⟨rfl, rfl⟩ := List.cons.inj h
      rw [List.forall_mem_cons] at hsorted
      rw [List.length_cons]
      have hruns : ∀ (run : List Nat) (v : Nat), (v :: run).Pairwise (· < ·) →
          descents v (run ++ runs.flatten) < runs.length + 1 := by
        intro run
        induction run with
        | nil =>
          intro v _
          rw [List.nil_append]
          cases hflat : runs.flatten with
          | nil => exact Nat.succ_pos _
          | cons w tail =>
            have hlt := descents_lt runs w tail hflat hsorted.2
            rw [descents]
            split <;> omega
        | cons w run ih =>
          intro v hv
          rw [List.pairwise_cons] at hv
          have hvw := hv.1 w List.mem_cons_self
          rw [List.cons_append, descents, if_neg (Nat.not_le.2 hvw), Nat.zero_add]
          exact ih w hv.2
      exact hruns run val hsorted.1

theorem getSortedRunsFrom_spec : ∀ (rest : List Nat) (srcs : List (List Nat)) (src : List Nat)
    (prev : Nat), srcs.length < MAX_NB_SRCS →
    (∀ run ∈ srcs, run ≠ [] ∧ run.Pairwise (· < ·)) → (src ++ [prev]).Pairwise (· < ·) →
    (∃ runs, getSortedRunsFrom rest srcs (src ++ [prev]) prev = .ok runs ∧
        runs.flatten = srcs.flatten ++ (src ++ prev :: rest) ∧
        (∀ run ∈ runs, run ≠ [] ∧ run.Pairwise (· < ·)) ∧
        0 < runs.length ∧ runs.length ≤ MAX_NB_SRCS) ∨
      MAX_NB_SRCS ≤ descents prev rest + srcs.length ∧
        getSortedRunsFrom rest srcs (src ++ [prev]) prev = .error .node_invalid_input
  | [], srcs, src, prev, hlen, hsrcs, hsrc => by
      refine Or.inl ⟨srcs ++ [src ++ [prev]], rfl, ?_, ?_, ?_, ?_⟩
      · rw [List.flatten_append, List.flatten_singleton]
      · exact List.forall_mem_append.2 ⟨hsrcs, List.forall_mem_singleton.2
          ⟨List.append_ne_nil_of_right_ne_nil src (List.cons_ne_nil prev []), hsrc⟩⟩
      · rw [List.length_append, List.length_singleton]
        omega
      · rw [List.length_append, List.length_singleton]
        omega
  | val :: rest, srcs, src, prev, hlen, hsrcs, hsrc => by
      rw [getSortedRunsFrom, descents]
      by_cases hdescent : val ≤ prev
      · rw [if_pos hdescent, if_pos hdescent]
        by_cases hfull : srcs.length + 1 ≥ MAX_NB_SRCS
        · rw [if_pos hfull]
          exact Or.inr ⟨by omega, rfl⟩
        · rw [if_neg hfull]
          have hlength : (srcs ++ [src ++ [prev]]).length = srcs.length + 1 := List.length_append
          have hruns : ∀ run ∈ srcs ++ [src ++ [prev]], run ≠ [] ∧ run.Pairwise (· < ·) :=
            List.forall_mem_append.2 ⟨hsrcs, List.forall_mem_singleton.2
              ⟨List.append_ne_nil_of_right_ne_nil src (List.cons_ne_nil prev []), hsrc⟩⟩
          rcases getSortedRunsFrom_spec rest (srcs ++ [src ++ [prev]]) [] val (by omega) hruns
              (List.pairwise_singleton _ _) with ⟨runs, hrun, hflat, hall⟩ | ⟨hmany, hrun⟩
          · refine Or.inl ⟨runs, hrun, ?_, hall⟩
            rw [hflat, List.flatten_append, List.flatten_singleton]
            simp only [List.append_assoc, List.singleton_append, List.nil_append]
          · exact Or.inr ⟨by omega, hrun⟩
      · rw [if_neg hdescent, if_neg hdescent, Nat.zero_add]
        have hnext : ((src ++ [prev]) ++ [val]).Pairwise (· < ·) := by
          refine List.pairwise_append.2 ⟨hsrc, List.pairwise_singleton _ _, ?_⟩
          intro x hx y hy
          rw [List.mem_singleton.1 hy]
          rcases List.mem_append.1 hx with hx | hx
          · have := (List.pairwise_append.1 hsrc).2.2 x hx prev List.mem_cons_self
            omega
          · rw [List.mem_singleton.1 hx]
            omega
        rcases getSortedRunsFrom_spec rest srcs (src ++ [prev]) val hlen hsrcs hnext with
          ⟨runs, hrun, hflat, hall⟩ | hmany
        · refine Or.inl ⟨runs, hrun, ?_, hall⟩
          rw [hflat]
          simp only [List.append_assoc, List.singleton_append]
        · exact Or.inr hmany

/-- **`getSortedRuns`** splits the list into increasing runs, where it splits into so few at all. -/
theorem getSortedRuns_spec (values : List Nat) :
    (∃ runs, getSortedRuns values = .ok runs ∧ runs.flatten = values ∧
        (∀ run ∈ runs, run ≠ [] ∧ run.Pairwise (· < ·)) ∧ runs.length ≤ MAX_NB_SRCS) ∨
      getSortedRuns values = .error .node_invalid_input ∧ ¬ Splits MAX_NB_SRCS values := by
  cases values with
  | nil => exact Or.inl ⟨[], rfl, rfl, nofun, Nat.zero_le _⟩
  | cons val rest =>
    rcases getSortedRunsFrom_spec rest [] [] val (by decide) nofun
      (List.pairwise_singleton _ _) with ⟨runs, hrun, hflat, hall, -, hle⟩ | ⟨hmany, hrun⟩
    · exact Or.inl ⟨runs, hrun, hflat, hall, hle⟩
    · refine Or.inr ⟨hrun, ?_⟩
      rintro ⟨runs, hflat, hsorted, hle⟩
      have hlt := descents_lt runs val rest hflat hsorted
      rw [List.length_nil] at hmany
      omega

/-- The values of the rows whose bitset holds `b`. -/
def selected (rows : List (Nat × Nat)) (b : Nat) : List Nat :=
  (rows.filter fun row => row.1.testBit b).map Prod.snd

/-- One destination, at one row. -/
def writeValue (b : Nat) (dst : Dst) (row : Nat × Nat) : Dst :=
  if dst.pos ≠ dst.cells.length then
    ⟨dst.cells.set dst.pos row.2, if row.1 &&& 1 <<< b ≠ 0 then dst.pos + 1 else dst.pos⟩
  else dst

theorem splitValue_eq (row : Nat × Nat) : ∀ (dsts : List Dst) (b : Nat),
    splitValue row.1 row.2 dsts b = dsts.mapIdx fun i dst => writeValue (b + i) dst row
  | [], _ => rfl
  | dst :: dsts, b => by
      rw [splitValue, splitValue_eq row dsts (b + 1), List.mapIdx_cons]
      simp only [Nat.add_assoc, Nat.add_comm 1]
      rfl

theorem foldl_splitValue (rows : List (Nat × Nat)) : ∀ dsts : List Dst,
    rows.foldl (fun dsts row => splitValue row.1 row.2 dsts 0) dsts =
      dsts.mapIdx fun b dst => rows.foldl (writeValue b) dst := by
  induction rows with
  | nil =>
    intro dsts
    refine List.ext_getElem? fun i => ?_
    rw [List.getElem?_mapIdx]
    exact Option.map_id'.symm
  | cons row rows ih =>
    intro dsts
    rw [List.foldl_cons, ih, splitValue_eq, List.mapIdx_mapIdx]
    simp only [Nat.zero_add, List.foldl_cons, Function.comp_def]

theorem selected_cons (row : Nat × Nat) (rows : List (Nat × Nat)) (b : Nat) :
    selected (row :: rows) b =
      if row.1.testBit b then row.2 :: selected rows b else selected rows b := by
  rw [selected, List.filter_cons]
  split <;> rfl

theorem and_bit_ne_zero_iff (n b : Nat) : n &&& 1 <<< b ≠ 0 ↔ n.testBit b = true := by
  rw [Nat.one_shiftLeft, Nat.and_two_pow]
  cases n.testBit b with
  | true => simp
  | false => simp

theorem foldl_writeValue (b : Nat) : ∀ (rows : List (Nat × Nat)) (written left : List Nat),
    (selected rows b).length = left.length →
    rows.foldl (writeValue b) ⟨written ++ left, written.length⟩ =
      ⟨written ++ selected rows b, (written ++ selected rows b).length⟩
  | [], written, left, h => by
      rw [List.eq_nil_of_length_eq_zero h.symm]
      rw [selected, List.filter_nil, List.map_nil, List.append_nil]
      rfl
  | row :: rows, written, left, h => by
      rw [selected_cons] at h ⊢
      rw [List.foldl_cons, writeValue]
      dsimp only
      cases left with
      | nil =>
        rw [List.append_nil, if_neg (fun hne => hne rfl)]
        by_cases hbit : row.1.testBit b = true
        · rw [if_pos hbit] at h
          exact absurd h (Nat.succ_ne_zero _)
        · rw [if_neg hbit] at h ⊢
          have ih := foldl_writeValue b rows written [] h
          rwa [List.append_nil] at ih
      | cons junk left =>
        have hset : (written ++ junk :: left).set written.length row.2 =
            written ++ row.2 :: left := by
          rw [List.set_append_right _ _ (Nat.le_refl _), Nat.sub_self, List.set_cons_zero]
        rw [if_pos (by rw [List.length_append, List.length_cons]; omega), hset]
        by_cases hbit : row.1.testBit b = true
        · rw [if_pos hbit] at h ⊢
          rw [if_pos ((and_bit_ne_zero_iff _ _).2 hbit)]
          have ih := foldl_writeValue b rows (written ++ [row.2]) left (Nat.succ.inj h)
          rw [List.length_append, List.length_singleton] at ih
          simp only [List.append_assoc, List.singleton_append] at ih
          exact ih
        · rw [if_neg hbit] at h ⊢
          rw [if_neg (fun hne => hbit ((and_bit_ne_zero_iff _ _).1 hne))]
          exact foldl_writeValue b rows written (row.2 :: left) h

theorem mapIdx_dstsOf (rows : List (Nat × Nat)) : ∀ (runs : List (List Nat)) (b : Nat)
    (cells : List Nat), (∀ i run, runs[i]? = some run → selected rows (b + i) = run) →
    cells.length = runs.flatten.length →
    (dstsOf (runs.map List.length) cells).mapIdx
        (fun i dst => rows.foldl (writeValue (b + i)) dst) =
      runs.map fun run => ⟨run, run.length⟩
  | [], _, _, _, _ => rfl
  | run :: runs, b, cells, h, hlen => by
      rw [List.flatten_cons, List.length_append] at hlen
      have hrun : selected rows (b + 0) = run := h 0 run rfl
      have hhead : rows.foldl (writeValue (b + 0)) ⟨cells.take run.length, 0⟩ =
          ⟨run, run.length⟩ := by
        have hwrite := foldl_writeValue (b + 0) rows [] (cells.take run.length)
          (by rw [hrun, List.length_take]; omega)
        rw [hrun] at hwrite
        exact hwrite
      have htail := mapIdx_dstsOf rows runs (b + 1) (cells.drop run.length)
        (fun i r hr => by rw [Nat.add_assoc, Nat.add_comm 1 i]; exact h (i + 1) r hr)
        (by rw [List.length_drop]; omega)
      simp only [Nat.add_assoc, Nat.add_comm 1] at htail
      rw [List.map_cons, dstsOf, List.mapIdx_cons, hhead, htail, List.map_cons]

theorem varintEncode_ne_nil (v : Nat) : varintEncode v ≠ [] := by
  rw [varintEncode, varintEncodeLoop]
  split <;> exact List.cons_ne_nil _ _

theorem length_le_writeHeader (runs : List (List Nat)) :
    runs.length ≤ (writeHeader runs).length := by
  induction runs with
  | nil => exact Nat.le_refl _
  | cons run runs ih =>
    have hpos := List.length_pos_of_ne_nil (varintEncode_ne_nil run.length)
    have hcons : writeHeader (run :: runs) = varintEncode run.length ++ writeHeader runs := rfl
    rw [hcons, List.length_append, List.length_cons]
    omega

theorem readSizes_writeHeader : ∀ (runs : List (List Nat)) (fuel dstSize : Nat),
    runs.length ≤ fuel → dstSize + runs.flatten.length < 2 ^ 64 →
    readSizes fuel (writeHeader runs) dstSize =
      .ok (runs.map List.length, dstSize + runs.flatten.length)
  | [], 0, _, _, _ => rfl
  | [], _ + 1, _, _, _ => rfl
  | run :: runs, 0, _, hfuel, _ => absurd hfuel (Nat.not_succ_le_zero _)
  | run :: runs, fuel + 1, dstSize, hfuel, hlt => by
      rw [List.flatten_cons, List.length_append] at hlt ⊢
      have hread := varintDecode_reads (show run.length < 2 ^ 64 by omega) (writeHeader runs)
      have hcons : writeHeader (run :: runs) = varintEncode run.length ++ writeHeader runs := rfl
      obtain ⟨b, bs, hheader⟩ := List.exists_cons_of_ne_nil (varintEncode_ne_nil run.length)
      rw [hheader] at hread hcons
      rw [hcons, List.cons_append, readSizes.eq_def]
      dsimp only
      rw [← List.cons_append, hread]
      simp only [ok_bind]
      rw [if_neg (by omega), readSizes_writeHeader runs fuel _ (Nat.le_of_succ_le_succ hfuel)
        (by omega), List.map_cons, ← Nat.add_assoc]
      rfl

theorem mem_selected {b v : Nat} :
    v ∈ selected rows b ↔ ∃ row ∈ rows, row.1.testBit b = true ∧ row.2 = v := by
  rw [selected, List.mem_map]
  constructor
  · rintro ⟨row, hrow, hv⟩
    rw [List.mem_filter] at hrow
    exact ⟨row, hrow.1, hrow.2, hv⟩
  · rintro ⟨row, hrow, hbit, hv⟩
    exact ⟨row, List.mem_filter.2 ⟨hrow, hbit⟩, hv⟩

theorem Merged.selected_eq {runs : List (List Nat)} (h : Merged runs rows)
    (hsorted : ∀ run ∈ runs, run.Pairwise (· < ·)) {i : Nat} {run : List Nat}
    (hrun : runs[i]? = some run) : selected rows i = run := by
  have hmem := List.mem_of_getElem? hrun
  have hselected : (selected rows i).Pairwise (· < ·) := by
    rw [selected]
    exact h.sorted.sublist (List.filter_sublist.map Prod.snd)
  refine hselected.eq_of_mem_iff (hsorted run hmem) fun v => ?_
  rw [mem_selected]
  constructor
  · rintro ⟨row, hrow, hbit, rfl⟩
    obtain ⟨src, hsrc, hv⟩ := (h.bits row hrow i).1 hbit
    rw [hrun] at hsrc
    exact Option.some.inj hsrc ▸ hv
  · intro hv
    obtain ⟨row, hrow, rfl⟩ := List.mem_map.1 ((h.mem v).2 ⟨run, hmem, hv⟩)
    exact ⟨row, hrow, (h.bits row hrow i).2 ⟨run, hrun, hv⟩, rfl⟩

theorem length_flatten_le {n : Nat} : ∀ {runs : List (List Nat)}, (∀ run ∈ runs, run.length ≤ n) →
    runs.flatten.length ≤ runs.length * n
  | [], _ => Nat.zero_le _
  | run :: runs, h => by
      rw [List.forall_mem_cons] at h
      have := length_flatten_le h.2
      rw [List.flatten_cons, List.length_append, List.length_cons, Nat.add_mul, Nat.one_mul]
      omega

/-- **The decoder** regenerates runs from their merge. -/
theorem decodeMergeSorted_merged {runs : List (List Nat)} {bitsetWidth : Nat} (h : Merged runs rows)
    (hsorted : ∀ run ∈ runs, run.Pairwise (· < ·)) (hvalues : ∀ run ∈ runs, ∀ v ∈ run, v < 2 ^ 32)
    (hle : runs.length ≤ MAX_NB_SRCS) (hfits : runs.length ≤ bitsetWidth * 8)
    (hwidth : bitsetWidth = 1 ∨ bitsetWidth = 2 ∨ bitsetWidth = 4 ∨ bitsetWidth = 8)
    (memory : Nat → Nat) :
    decodeMergeSorted memory (writeHeader runs) bitsetWidth (rows.map Prod.fst) 4
      (rows.map Prod.snd) = some (.ok runs.flatten) := by
  have hrows : rows.length ≤ 2 ^ 32 := by
    have hsubset : rows.map Prod.snd ⊆ List.range (2 ^ 32) := fun v hv => by
      obtain ⟨run, hrun, hv⟩ := (h.mem v).1 hv
      exact List.mem_range.2 (hvalues run hrun v hv)
    have hnodup : (rows.map Prod.snd).Nodup := h.sorted.imp fun hlt => Nat.ne_of_lt hlt
    have hlen := (hnodup.subperm hsubset).length_le
    rwa [List.length_map, List.length_range] at hlen
  have hrunlen : ∀ run ∈ runs, run.length ≤ rows.length := fun run hrun => by
    obtain ⟨i, hi⟩ := List.getElem?_of_mem hrun
    rw [← h.selected_eq hsorted hi, selected, List.length_map]
    exact List.length_filter_le _ _
  have hflat := Nat.le_trans (length_flatten_le hrunlen) (Nat.mul_le_mul_right rows.length hfits)
  have hwidth' : bitsetWidth ≤ 8 := by omega
  have hmul : bitsetWidth * 8 * rows.length ≤ 8 * 8 * 2 ^ 32 :=
    Nat.mul_le_mul (Nat.mul_le_mul_right 8 hwidth') hrows
  have hfill : fillDstPtrsFromHeader memory (writeHeader runs) bitsetWidth rows.length =
      .ok (dstsOf (runs.map List.length) ((List.range runs.flatten.length).map memory)) := by
    rw [fillDstPtrsFromHeader, if_neg (by omega),
      readSizes_writeHeader runs _ 0 (length_le_writeHeader runs) (by omega)]
    simp only [ok_bind, Nat.zero_add, List.length_map]
    rw [if_neg (by omega), if_neg (by omega), if_neg (by omega)]
    rfl
  have hzip : (rows.map Prod.fst).zip (rows.map Prod.snd) = rows := by
    rw [List.zip_map', List.map_id']
  have hdsts := mapIdx_dstsOf rows runs 0 ((List.range runs.flatten.length).map memory)
    (fun i run hrun => by rw [Nat.zero_add]; exact h.selected_eq hsorted hrun)
    (by rw [List.length_map, List.length_range])
  simp only [Nat.zero_add] at hdsts
  have hlength : ∀ (sizes cells : List Nat), (dstsOf sizes cells).length = sizes.length := by
    intro sizes
    induction sizes with
    | nil => exact fun _ => rfl
    | cons size sizes ih =>
      intro cells
      rw [dstsOf, List.length_cons, ih, List.length_cons]
  have hsplit : split (dstsOf (runs.map List.length) ((List.range runs.flatten.length).map memory))
      rows bitsetWidth = some (some (runs.map fun run => ⟨run, run.length⟩)) := by
    rw [split, if_pos ⟨hwidth', by rw [hlength, List.length_map]; exact hfits⟩, foldl_splitValue,
      hdsts]
    dsimp only
    rw [if_pos]
    rw [List.all_map, List.all_eq_true]
    exact fun run _ => beq_iff_eq.2 rfl
  rw [decodeMergeSorted, List.length_map, List.length_map, if_neg (fun hne => hne rfl),
    if_neg (fun hne => hne rfl), hfill]
  dsimp only
  rw [if_pos hwidth, hzip, hsplit]
  simp only [Option.bind_eq_bind, Option.bind_some]
  rw [List.flatMap_map]
  exact congrArg (fun l => some (Except.ok l)) List.flatMap_id

theorem bitsetWidth_spec {n : Nat} (hn : n ≤ MAX_NB_SRCS) {bitsetWidth : Nat}
    (h : bitsetWidth = 1 <<< (if n = 0 then 1 else nextPow2 ((n + 7) / 8))) :
    n ≤ bitsetWidth * 8 ∧
      (bitsetWidth = 1 ∨ bitsetWidth = 2 ∨ bitsetWidth = 4 ∨ bitsetWidth = 8) := by
  subst h
  rw [Nat.one_shiftLeft]
  rw [MAX_NB_SRCS] at hn
  by_cases hzero : n = 0
  · rw [if_pos hzero, hzero]
    decide
  · rw [if_neg hzero]
    have hroom := le_two_pow_nextPow2 ((n + 7) / 8)
    have hlog : nextPow2 ((n + 7) / 8) ≤ 3 := nextPow2_le (by omega)
    refine ⟨by omega, ?_⟩
    interval_cases nextPow2 ((n + 7) / 8) <;> decide

variable {hashFn : Nat → UInt64} {a : Table.Allocator Nat} {rows : List (Nat × Nat)}

/-- What the encoder makes of a list it takes. -/
structure Encodes (values : List Nat) (e : Encoded) (runs : List (List Nat)) : Prop where
  flatten : runs.flatten = values
  increasing : ∀ run ∈ runs, run ≠ [] ∧ run.Pairwise (· < ·)
  length_le : runs.length ≤ 64
  sorted : e.merged.Pairwise (· < ·)
  mem : ∀ v, v ∈ e.merged ↔ v ∈ values
  length_eq : e.bitsets.length = e.merged.length
  bits : ∀ (k bitset v : Nat), e.bitsets[k]? = some bitset → e.merged[k]? = some v →
    ∀ i, bitset.testBit i = true ↔ ∃ run, runs[i]? = some run ∧ v ∈ run
  regenerates : ∀ memory : Nat → Nat,
    decodeMergeSorted memory e.header e.bitsetWidth e.bitsets 4 e.merged = some (.ok values)

theorem Merged.encodes {runs : List (List Nat)} {bitsetWidth : Nat} (h : Merged runs rows)
    (hall : ∀ run ∈ runs, run ≠ [] ∧ run.Pairwise (· < ·))
    (hvalues : ∀ v ∈ runs.flatten, v < 2 ^ 32) (hle : runs.length ≤ MAX_NB_SRCS)
    (hfits : runs.length ≤ bitsetWidth * 8)
    (hwidth : bitsetWidth = 1 ∨ bitsetWidth = 2 ∨ bitsetWidth = 4 ∨ bitsetWidth = 8) :
    Encodes runs.flatten
      ⟨writeHeader runs, bitsetWidth, rows.map Prod.fst, rows.map Prod.snd⟩ runs where
  flatten := rfl
  increasing := hall
  length_le := hle
  sorted := h.sorted
  mem := fun v => (h.mem v).trans List.mem_flatten.symm
  length_eq := by rw [List.length_map, List.length_map]
  bits := fun k bitset v hbitset hv i => by
    rw [List.getElem?_map, Option.map_eq_some_iff] at hbitset hv
    obtain ⟨row, hrow, rfl⟩ := hbitset
    obtain ⟨row', hrow', rfl⟩ := hv
    obtain rfl := Option.some.inj (hrow.symm.trans hrow')
    exact h.bits row (List.mem_of_getElem? hrow) i
  regenerates := decodeMergeSorted_merged h (fun run hrun => (hall run hrun).2)
    (fun run hrun v hv => hvalues v (List.mem_flatten.2 ⟨run, hrun, hv⟩)) hle hfits hwidth

theorem mergeSorted_cases {values : List Nat} (hvalues : ∀ v ∈ values, v < 2 ^ 32) :
    (mergeSorted hashFn a 4 values = some (.error .node_invalid_input) ∧ ¬ Splits 64 values) ∨
      (mergeSorted hashFn a 4 values = some (.error .allocation) ∧ ∃ i, a.grants i = false) ∨
      ∃ e runs, mergeSorted hashFn a 4 values = some (.ok e) ∧
        getSortedRuns values = .ok runs ∧ Encodes values e runs := by
  rw [mergeSorted, if_neg (fun hne => hne rfl)]
  rcases getSortedRuns_spec values with ⟨runs, hruns, rfl, hall, hle⟩ | ⟨herror, hsplits⟩
  · rw [hruns]
    dsimp only
    obtain ⟨hfits, hwidth⟩ := bitsetWidth_spec hle rfl
    generalize 1 <<< (if runs.length = 0 then 1 else nextPow2 ((runs.length + 7) / 8)) =
      bitsetWidth at hfits hwidth
    by_cases hpos : runs.length > 0
    · rw [if_pos hpos, if_pos hwidth]
      rcases @merge_merged hashFn a runs _ _ hpos hle hfits (by omega)
          (fun run hrun => (hall run hrun).2) (Nat.le_refl _) with
        ⟨hrun, hrefused⟩ | ⟨rows, hrun, h⟩
      · rw [hrun]
        exact Or.inr (Or.inl ⟨rfl, hrefused⟩)
      · rw [hrun]
        exact Or.inr (Or.inr ⟨_, runs, rfl, rfl, h.encodes hall hvalues hle hfits hwidth⟩)
    · have hnil := List.eq_nil_of_length_eq_zero (Nat.eq_zero_of_not_pos hpos)
      subst hnil
      rw [if_neg hpos]
      exact Or.inr (Or.inr ⟨_, [], rfl, rfl,
        (Merged.nil fun _ h => absurd h List.not_mem_nil).encodes hall hvalues hle hfits hwidth⟩)
  · rw [herror]
    exact Or.inl ⟨rfl, hsplits⟩

/-- **merge_sorted takes exactly the lists that split into at most 64 increasing runs**, unless
memory is refused, and what it makes of one is exact and restores it. No assertion fails: the queue
never overflows, and each value is popped once. -/
theorem mergeSorted_spec (hashFn : Nat → UInt64) (a : Table.Allocator Nat) (values : List Nat)
    (hvalues : ∀ v ∈ values, v < 2 ^ 32) :
    ∃ r, mergeSorted hashFn a 4 values = some r ∧
      (r = .error .allocation → ∃ i, a.grants i = false) ∧
      (r ≠ .error .allocation → ((∃ e, r = .ok e) ↔ Splits 64 values)) ∧
      ∀ e, r = .ok e → ∃ runs, getSortedRuns values = .ok runs ∧ Encodes values e runs := by
  rcases @mergeSorted_cases hashFn a values hvalues with
    ⟨hrun, hsplits⟩ | ⟨hrun, hrefused⟩ | ⟨e, runs, hrun, hruns, hencodes⟩
  · exact ⟨_, hrun, nofun, fun _ => ⟨fun ⟨_, he⟩ => absurd he nofun, fun h => absurd h hsplits⟩, nofun⟩
  · exact ⟨_, hrun, fun _ => hrefused, fun hne => absurd rfl hne, nofun⟩
  · refine ⟨_, hrun, nofun, fun _ => ⟨fun _ => ?_, fun _ => ⟨e, rfl⟩⟩, fun e' he => ?_⟩
    · exact ⟨runs, hencodes.flatten, fun run hrun => (hencodes.increasing run hrun).2,
        hencodes.length_le⟩
    · obtain rfl := Except.ok.inj he
      exact ⟨runs, hruns, hencodes⟩

theorem mergeSorted_spec_three :
    ∃ r, mergeSorted (fun _ => 0) ⟨fun _ => true, fun _ _ => ⟨0, 0⟩⟩ 4 [1, 5, 5] = some r ∧
      (r = .error .allocation →
        ∃ i, (⟨fun _ => true, fun _ _ => ⟨0, 0⟩⟩ : Table.Allocator Nat).grants i = false) ∧
      (r ≠ .error .allocation → ((∃ e, r = .ok e) ↔ Splits 64 [1, 5, 5])) ∧
      ∀ e, r = .ok e → ∃ runs, getSortedRuns [1, 5, 5] = .ok runs ∧ Encodes [1, 5, 5] e runs :=
  mergeSorted_spec (fun _ => 0) ⟨fun _ => true, fun _ _ => ⟨0, 0⟩⟩ [1, 5, 5] (by decide)

end OpenZL.Codecs.MergeSorted
