import OpenZL.Codecs.SplitByStructPaths
import OpenZL.Sddl2.Arithmetic
import OpenZL.Sddl2.Planner

/-!
# Splitting the segments of a structure (`sddl2.c`, `encode_splitByStruct_binding.c`)

A segment of a structure type is split into one stream for each primitive field.

Principal results: `Reached.built`, `flattenFieldSizes_eq_layout`, `splitStreams_columns`,
`structure_flattening`.
-/

namespace OpenZL.Sddl2

open OpenZL.Lib

/-- The output streams that `EI_splitByStruct` creates, from stream `n` on; `fill` is what they hold
at first. -/
def createStreams (fill : Nat → Nat → UInt8) (nbStructs : Nat) : Nat → List Nat → List (List UInt8)
  | _, [] => []
  | n, size :: sizes =>
    (List.range (nbStructs * size)).map (fill n) :: createStreams fill nbStructs (n + 1) sizes

/-- `EI_splitByStruct`; `none` is undefined. -/
def splitByStruct (avx2 : Bool) (fill : Nat → Nat → UInt8) (fieldSizes : List Nat)
    (input : List UInt8) : Option (Except ErrorCode (List (List UInt8))) :=
  let structSize := fieldSizes.sum % 2 ^ 64
  if structSize = 0 then some (.error .nodeParameter_invalidValue)
  else if input.length % structSize ≠ 0 then some (.error .node_invalid_input)
  else if 0 ∈ fieldSizes then some (.error .nodeParameter_invalidValue)
  else (Codecs.SplitByStruct.splitByStruct avx2
    (createStreams fill (input.length / structSize) 0 fieldSizes) input fieldSizes).map .ok

/-- The streams of the fields: fields of size zero have none. -/
def routeFields : List Nat → List (List UInt8) → List (Option (List UInt8))
  | [], _ => []
  | size :: sizes, edges =>
    if size = 0 then none :: routeFields sizes edges
    else edges.head? :: routeFields sizes edges.tail

/-- The streams that `sddl2_apply_structure_split` gets for its fields. -/
def splitStreams (avx2 : Bool) (fill : Nat → Nat → UInt8) (fieldSizes : List Nat)
    (input : List UInt8) : Option (Except ErrorCode (List (Option (List UInt8)))) :=
  (splitByStruct avx2 fill (fieldSizes.filter (· > 0)) input).map fun splitOutputs =>
    splitOutputs.map (routeFields fieldSizes)

mutual

/-- The widths of the primitive fields of a type, one after the other; an array of primitives is
one field. -/
def Ty.layout : Ty → List Nat
  | .primitive kind width => [kindSize kind * width]
  | .struct _ members _ width => (List.replicate width (Ty.layouts members)).flatten

def Ty.layouts : List Ty → List Nat
  | [] => []
  | member :: members => member.layout ++ Ty.layouts members

end

/-- The fields of one element of a structure. -/
def Ty.elementLayout : Ty → List Nat
  | .primitive kind _ => [kindSize kind]
  | .struct _ members _ _ => Ty.layouts members

/-- The size of one element. -/
def Ty.elementSize : Ty → Nat
  | .primitive kind _ => kindSize kind
  | .struct _ _ totalSizeBytes _ => totalSizeBytes

mutual

/-- No array of structures, except of structures without fields. -/
def Ty.Flat : Ty → Prop
  | .primitive _ _ => True
  | .struct _ members _ width => Ty.fieldCounts members = 0 ∨ (width = 1 ∧ Ty.Flats members)

def Ty.Flats : List Ty → Prop
  | [] => True
  | member :: members => member.Flat ∧ Ty.Flats members

end

mutual

/-- No empty array of structures, except of structures without fields. -/
def Ty.NoneEmpty : Ty → Prop
  | .primitive _ _ => True
  | .struct _ members _ width =>
    Ty.fieldCounts members = 0 ∨ (1 ≤ width ∧ Ty.NonesEmpty members)

def Ty.NonesEmpty : List Ty → Prop
  | [] => True
  | member :: members => member.NoneEmpty ∧ Ty.NonesEmpty members

end

mutual

/-- What the machine makes sure of when it builds a type. -/
def Ty.Built : Ty → Prop
  | .primitive _ width => width < 2 ^ 32
  | .struct _ members totalSizeBytes width => width < 2 ^ 32 ∧ Ty.Builts members ∧
      totalSizeBytes = (members.map Ty.size).sum ∧ totalSizeBytes < 2 ^ 64

def Ty.Builts : List Ty → Prop
  | [] => True
  | member :: members => member.Built ∧ Ty.Builts members

end

/-- The types of few enough fields, without arrays of structures among the members. -/
def Ty.Splittable : Ty → Prop
  | .primitive _ _ => True
  | .struct _ members _ _ => INT_MAX < Ty.fieldCounts members ∨ Ty.Flats members

/-- No member of a structure is an empty array of structures. -/
def Ty.MembersNoneEmpty : Ty → Prop
  | .primitive _ _ => True
  | .struct _ members _ _ => Ty.NonesEmpty members

/-- The planner gives numbers to the fields of the type, and the split is run with these sizes. -/
def AcceptedSizes (type : Ty) (fieldSizes : List Nat) : Prop :=
  (∃ planner id planner', reserveSegmentStreamId type planner = some (.ok id, planner')) ∧
    ∃ replay replay', extractFlat flattenFieldSizes type replay = some (.ok fieldSizes, replay')

/-- The sizes that are accepted are those of the fields of one element, and sum up to its size. -/
def FlattensExactly (type : Ty) : Prop :=
  ∀ fieldSizes, AcceptedSizes type fieldSizes →
    fieldSizes = type.elementLayout ∧ fieldSizes.sum = type.elementSize

/-- The streams of consecutive fields of the given widths; a field of width zero has none. -/
def columns (elementSize n : Nat) (input : List UInt8) : Nat → List Nat →
    List (Option (List UInt8))
  | _, [] => []
  | offset, width :: widths =>
    (if width = 0 then none else some (column elementSize n input offset width)) ::
      columns elementSize n input (offset + width) widths

/-! ## Types the machine builds -/

theorem Ty.builts_iff {types : List Ty} : Ty.Builts types ↔ ∀ t ∈ types, t.Built := by
  induction types with
  | nil => simp [Ty.Builts]
  | cons t types ih => rw [Ty.Builts, ih, List.forall_mem_cons]

def Value.Built : Value → Prop
  | .type t => t.Built
  | _ => True

theorem closed_built : Closed Value.Built where
  i64 _ := trivial
  array t count hlt ht := by
    cases t with
    | primitive kind width => exact hlt
    | struct structData members total width => exact ⟨hlt, ht.2⟩

theorem Value.Simple.built {v : Value} (hv : v.Simple) : v.Built := by
  cases v with
  | i64 val => exact trivial
  | tag t => exact trivial
  | type t =>
    cases t with
    | primitive kind width =>
      have hwidth : width = 1 := hv
      subst hwidth
      change 1 < 2 ^ 32
      decide
    | struct => exact hv.elim

/-- The types of a state, wherever they are. -/
structure Vm.Built (s : Vm) : Prop where
  stack : ∀ v ∈ s.stack, v.Built
  registers : ∀ r ∈ s.registers, r.2.Built
  segments : ∀ seg ∈ s.segments, seg.type.Built

theorem Vm.Built.machine {s : Vm} (hs : s.Built) :
    Machine s.frame Value.Built s.nextStructData (fun _ => True) s :=
  ⟨rfl, rfl, trivial, hs.stack, hs.registers⟩

theorem Vm.Built.of_machine {s s' : Vm} {next : Nat} {Q : Nat → Prop} (hs : s.Built)
    (h : Machine s.frame Value.Built next Q s') : s'.Built := by
  have hsegments : s'.segments = s.segments := congrArg (·.2.1) h.frame_eq
  exact ⟨h.stack, h.registers, by rw [hsegments]; exact hs.segments⟩

section

variable {bytecode input : List UInt8}

theorem segmentCreateInternal_built {tag : Nat} {type : Ty} (htype : type.Built)
    (elementCount : Nat) :
    Cmd.Preserves Vm.Built (segmentCreateInternal input tag type elementCount) := by
  refine segmentCreateInternal_keeps (fun s _ hs => ⟨hs.stack, hs.registers, hs.segments⟩)
    (fun s last sizeBytes _ hlast hs => ⟨hs.stack, hs.registers, fun seg hseg => ?_⟩)
    (fun s _ _ _ hs => ⟨hs.stack, hs.registers, fun seg hseg => ?_⟩) elementCount
  · rcases List.mem_append.1 hseg with hseg | hseg
    · exact hs.segments seg (List.dropLast_subset _ hseg)
    · obtain rfl := List.mem_singleton.1 hseg
      exact hs.segments last (List.mem_of_getLast? hlast)
  · rcases List.mem_append.1 hseg with hseg | hseg
    · exact hs.segments seg hseg
    · obtain rfl := List.mem_singleton.1 hseg
      exact htype

theorem popI64_built : Cmd.Preserves Vm.Built popI64 := fun s r s' hs h =>
  hs.of_machine (popI64_keeps s r s' hs.machine h)

theorem popType_built : Cmd.Preserves Vm.Built popType := fun s r s' hs h =>
  hs.of_machine (popType_keeps s r s' hs.machine h)

theorem popTag_built : Cmd.Preserves Vm.Built popTag := fun s r s' hs h =>
  hs.of_machine (popTag_keeps s r s' hs.machine h)

theorem exec_built {instr : Instr} (hpush : ∀ v, instr = .push v → v.Built) :
    Cmd.Preserves Vm.Built (exec bytecode input instr) := by
  cases hcreate : instr.createsSegment with
  | false =>
    intro s r s' hs h
    have hlater : Later s.frame Value.Built (fun _ => Value.Built) s.nextStructData
        (fun _ => True) s' :=
      exec_keeps closed_built (fun _ _ _ _ => trivial) (fun _ _ hv => hv)
        (fun total members hmembers hsum hlt =>
          ⟨by decide, Ty.builts_iff.2 hmembers, hsum, hlt⟩) hs.machine hcreate hpush h
    rcases hlater with hs' | ⟨total, hs'⟩
    · exact hs.of_machine hs'
    · exact hs.of_machine hs'
  | true =>
    cases instr with
    | segmentCreateUnspecified =>
      refine popI64_built.bind fun size => (Cmd.Preserves.failWhen _).bind fun _ => ?_
      exact segmentCreateInternal_built (by change 1 < 2 ^ 32; decide) _
    | segmentCreateTagged =>
      refine popI64_built.bind fun size => ?_
      refine popType_built.bind_of
        (fun s t s' hs h => popType_fits s t s' hs.machine h) fun t ht => ?_
      refine popTag_built.bind fun tag => (Cmd.Preserves.failWhen _).bind fun _ => ?_
      exact segmentCreateInternal_built ht _
    | _ => cases hcreate

theorem step_built : Cmd.Preserves Vm.Built (step bytecode input) := by
  intro s r s' hs h
  unfold step at h
  rw [Cmd.run_get_bind] at h
  cases hpc : nextPc bytecode s.pc with
  | none =>
    rw [hpc] at h
    obtain ⟨-, rfl⟩ := Prod.mk.inj (Option.some.inj h)
    exact hs
  | some pc =>
    rw [hpc] at h
    exact exec_built (fun v hv => (decode_push_simple hv).built) { s with pc } r s'
      ⟨hs.stack, hs.registers, hs.segments⟩ h

theorem Reached.built {e : Option VmError} {s : Vm} (h : Reached bytecode input e s) :
    s.Built := by
  induction h with
  | init =>
    refine ⟨?_, ?_, ?_⟩
    all_goals exact fun _ hmem => absurd hmem List.not_mem_nil
  | ok _ _ hstep ih => exact step_built _ _ _ ih hstep
  | error _ _ hstep ih => exact step_built _ _ _ ih hstep

end

mutual

theorem tryCountPrimitiveFields_eq : ∀ t : Ty,
    tryCountPrimitiveFields t = if t.fieldCount < 2 ^ 64 then some t.fieldCount else none
  | .primitive _ _ => rfl
  | .struct _ members _ _ => by
    rw [tryCountPrimitiveFields, countMembers_eq members 0 (by decide), Ty.fieldCount,
      Nat.zero_add]

theorem countMembers_eq : ∀ (members : List Ty) (total : Nat), total < 2 ^ 64 →
    countMembers members total = if total + Ty.fieldCounts members < 2 ^ 64
      then some (total + Ty.fieldCounts members) else none
  | [], total, h => by
    rw [countMembers, Ty.fieldCounts, Nat.add_zero, if_pos h]
  | member :: members, total, h => by
    rw [countMembers, tryCountPrimitiveFields_eq member, Ty.fieldCounts]
    by_cases hmember : member.fieldCount < 2 ^ 64
    · rw [if_pos hmember]
      dsimp only
      by_cases hsum : member.fieldCount > SIZE_MAX - total
      · rw [if_pos hsum, if_neg (by unfold SIZE_MAX at hsum; omega)]
      · have hlt : total + member.fieldCount < 2 ^ 64 := by
          unfold SIZE_MAX at hsum
          omega
        rw [if_neg hsum, countMembers_eq members _ hlt, Nat.add_assoc]
    · rw [if_neg hmember, if_neg (by omega)]

end

/-! ## Layouts -/

theorem extractFlat_ok {α : Type} {f : TypeKind → Nat → α} {t : Ty} {replay replay' : Replay}
    {fields : List α} (h : extractFlat (flatten f) t replay = some (.ok fields, replay')) :
    fields = flatten f t := by
  unfold extractFlat at h
  obtain ⟨total, s₁, -, h₁⟩ := Cmd.run_bind_ok.1 h
  obtain ⟨-, h₂⟩ := Cmd.run_failWhen_bind_ok.1 h₁
  obtain ⟨-, h₃⟩ := Cmd.run_failWhen_bind_ok.1 h₂
  obtain ⟨hr, -⟩ := Cmd.run_pure_iff.1 h₃
  exact Except.ok.inj hr

theorem acceptedSizes_of_count {t : Ty} (hpos : 0 < t.fieldCount) (hle : t.fieldCount ≤ INT_MAX) :
    AcceptedSizes t (flattenFieldSizes t) := by
  have hcount : tryCountPrimitiveFields t = some t.fieldCount := by
    rw [tryCountPrimitiveFields_eq, if_pos (by unfold INT_MAX at hle; omega)]
  constructor
  · refine ⟨⟨0, 0, 0, ⟨[], 0, 0, 0⟩, []⟩, 0, ⟨0, 0, 0 + t.fieldCount, ⟨[], 0, 0, 0⟩, []⟩, ?_⟩
    unfold reserveSegmentStreamId
    rw [hcount]
    refine Cmd.run_failWhen_bind_ok.2 ⟨by omega, Cmd.run_failWhen_bind_ok.2 ⟨by omega, ?_⟩⟩
    rw [Cmd.run_get_bind]
    exact Cmd.run_failWhen_bind_ok.2 ⟨Nat.not_lt_zero _, rfl⟩
  · refine ⟨⟨0, []⟩, ⟨0, []⟩, ?_⟩
    unfold extractFlat countPrimitiveFields
    rw [hcount]
    have hlength : (flattenFieldSizes t).length = t.fieldCount := flatten_length _ t
    exact Cmd.run_failWhen_bind_ok.2 ⟨by omega, Cmd.run_failWhen_bind_ok.2
      ⟨fun hne => hne hlength, rfl⟩⟩

theorem AcceptedSizes.count_le {t : Ty} {fieldSizes : List Nat} (h : AcceptedSizes t fieldSizes) :
    t.fieldCount ≤ INT_MAX := by
  obtain ⟨⟨planner, id, planner', hreserve⟩, -⟩ := h
  unfold reserveSegmentStreamId at hreserve
  rw [tryCountPrimitiveFields_eq] at hreserve
  by_cases hlt : t.fieldCount < 2 ^ 64
  · rw [if_pos hlt] at hreserve
    obtain ⟨-, h₁⟩ := Cmd.run_failWhen_bind_ok.1 hreserve
    obtain ⟨hle, -⟩ := Cmd.run_failWhen_bind_ok.1 h₁
    omega
  · rw [if_neg hlt] at hreserve
    cases hreserve

theorem kindSize_le (kind : TypeKind) : kindSize kind ≤ 8 := by
  cases kind <;> decide

theorem primitive_size {kind : TypeKind} {width : Nat} (h : width < 2 ^ 32) :
    kindSize kind * width % 2 ^ 64 = kindSize kind * width := by
  have hle := Nat.mul_le_mul_right width (kindSize_le kind)
  exact Nat.mod_eq_of_lt (by omega)

mutual

theorem Ty.layout_eq_nil : ∀ t : Ty, t.fieldCount = 0 → t.layout = []
  | .struct _ members _ _, h => by
    rw [Ty.layout, Ty.layouts_eq_nil members h, List.flatten_replicate_nil]

theorem Ty.layouts_eq_nil : ∀ members : List Ty, Ty.fieldCounts members = 0 →
    Ty.layouts members = []
  | [], _ => rfl
  | member :: members, h => by
    rw [Ty.fieldCounts] at h
    rw [Ty.layouts, Ty.layout_eq_nil member (by omega), Ty.layouts_eq_nil members (by omega)]
    rfl

end

theorem Ty.flats_of_fieldless : ∀ {members : List Ty}, Ty.fieldCounts members = 0 →
    Ty.Flats members
  | [], _ => trivial
  | member :: members, h => by
    rw [Ty.fieldCounts] at h
    refine ⟨?_, Ty.flats_of_fieldless (by omega)⟩
    cases member with
    | primitive kind width => exact trivial
    | struct structData ms total width =>
      have hms : Ty.fieldCounts ms + Ty.fieldCounts members = 0 := h
      exact Or.inl (by omega)

mutual

theorem flattenFieldSizes_eq_layout : ∀ t : Ty, t.Built → t.Flat → flattenFieldSizes t = t.layout
  | .primitive kind width, hbuilt, _ => by
    change [kindSize kind * width % 2 ^ 64] = [kindSize kind * width]
    rw [primitive_size hbuilt]
  | .struct structData members total width, hbuilt, hflat => by
    rcases hflat with hnone | ⟨rfl, hflats⟩
    · rw [Ty.layout_eq_nil (.struct structData members total width) hnone]
      exact List.eq_nil_of_length_eq_zero ((flatten_length _ _).trans hnone)
    · have hmembers := flattenMembers_eq_layouts members hbuilt.2.1 hflats
      rw [Ty.layout, List.replicate_one, List.flatten_singleton]
      exact hmembers

theorem flattenMembers_eq_layouts : ∀ members : List Ty, Ty.Builts members → Ty.Flats members →
    flattenMembers (fun kind width => kindSize kind * width % 2 ^ 64) members = Ty.layouts members
  | [], _, _ => rfl
  | member :: members, hbuilts, hflats => by
    have hmember := flattenFieldSizes_eq_layout member hbuilts.1 hflats.1
    rw [flattenMembers, Ty.layouts, flattenMembers_eq_layouts members hbuilts.2 hflats.2]
    exact congrArg (· ++ _) hmember

end

mutual

theorem Ty.size_eq_layout_sum : ∀ t : Ty, t.Built → t.Flat → t.size = t.layout.sum
  | .primitive kind width, hbuilt, _ => by
    rw [Ty.size, primitive_size hbuilt, Ty.layout, List.sum_singleton]
  | .struct structData members total width, ⟨_, hbuilts, hsum, hlt⟩, hflat => by
    rcases hflat with hnone | ⟨rfl, hflats⟩
    · have hzero : total = 0 := by
        rw [hsum, Ty.sizes_eq_layouts_sum members hbuilts (Ty.flats_of_fieldless hnone),
          Ty.layouts_eq_nil members hnone]
        rfl
      rw [Ty.layout_eq_nil (.struct structData members total width) hnone, Ty.size, hzero,
        Nat.zero_mul]
      rfl
    · rw [Ty.size, Nat.mul_one, Nat.mod_eq_of_lt hlt, Ty.layout, List.replicate_one,
        List.flatten_singleton, hsum]
      exact Ty.sizes_eq_layouts_sum members hbuilts hflats

theorem Ty.sizes_eq_layouts_sum : ∀ members : List Ty, Ty.Builts members → Ty.Flats members →
    (members.map Ty.size).sum = (Ty.layouts members).sum
  | [], _, _ => rfl
  | member :: members, hbuilts, hflats => by
    rw [List.map_cons, List.sum_cons, Ty.layouts, List.sum_append,
      Ty.size_eq_layout_sum member hbuilts.1 hflats.1,
      Ty.sizes_eq_layouts_sum members hbuilts.2 hflats.2]

end

mutual

theorem Ty.fieldCount_le : ∀ t : Ty, t.NoneEmpty →
    t.fieldCount ≤ t.layout.length ∧ (t.layout.length ≤ t.fieldCount → t.Flat)
  | .primitive _ _, _ => ⟨Nat.le_refl _, fun _ => trivial⟩
  | .struct structData members total width, h => by
    rcases h with hnone | ⟨hwidth, hmembers⟩
    · exact ⟨Nat.le_trans (Nat.le_of_eq hnone) (Nat.zero_le _), fun _ => Or.inl hnone⟩
    · obtain ⟨hle, hflats⟩ := Ty.fieldCounts_le members hmembers
      have hlength : (Ty.layout (.struct structData members total width)).length =
          width * (Ty.layouts members).length := by
        rw [Ty.layout, List.length_flatten, List.map_replicate, List.sum_replicate_nat]
      have hone : (Ty.layouts members).length ≤ width * (Ty.layouts members).length :=
        Nat.le_mul_of_pos_left _ hwidth
      rw [hlength, Ty.fieldCount]
      refine ⟨hle.trans hone, fun hless => ?_⟩
      by_cases hnone : Ty.fieldCounts members = 0
      · exact Or.inl hnone
      · refine Or.inr ⟨?_, hflats (hone.trans hless)⟩
        have hmul : width * (Ty.layouts members).length ≤ 1 * (Ty.layouts members).length := by
          rw [Nat.one_mul]
          exact hless.trans hle
        have := Nat.le_of_mul_le_mul_right hmul (by omega)
        omega

theorem Ty.fieldCounts_le : ∀ members : List Ty, Ty.NonesEmpty members →
    Ty.fieldCounts members ≤ (Ty.layouts members).length ∧
      ((Ty.layouts members).length ≤ Ty.fieldCounts members → Ty.Flats members)
  | [], _ => ⟨Nat.le_refl _, fun _ => trivial⟩
  | member :: members, h => by
    obtain ⟨hle, hflat⟩ := Ty.fieldCount_le member h.1
    obtain ⟨hles, hflats⟩ := Ty.fieldCounts_le members h.2
    rw [Ty.fieldCounts, Ty.layouts, List.length_append]
    exact ⟨by omega, fun hless => ⟨hflat (by omega), hflats (by omega)⟩⟩

end

/-! ## Streams -/

theorem sources_createStreams (fill : Nat → Nat → UInt8) (nbStructs : Nat) :
    ∀ (n : Nat) (sizes : List Nat),
      Sources nbStructs sizes (createStreams fill nbStructs n sizes)
  | _, [] => trivial
  | n, size :: sizes => by
    refine ⟨?_, sources_createStreams fill nbStructs (n + 1) sizes⟩
    rw [List.length_map, List.length_range]

theorem sum_filter_pos : ∀ sizes : List Nat, (sizes.filter (· > 0)).sum = sizes.sum
  | [] => rfl
  | size :: sizes => by
    by_cases hsize : size > 0
    · rw [List.filter_cons_of_pos (by simpa using hsize), List.sum_cons, List.sum_cons,
        sum_filter_pos sizes]
    · rw [List.filter_cons_of_neg (by simpa using hsize), List.sum_cons, sum_filter_pos sizes]
      omega

theorem splitByStruct_eq (avx2 : Bool) (fill : Nat → Nat → UInt8) {sizes : List Nat}
    {input : List UInt8} {n : Nat} (hpos : ∀ size ∈ sizes, 0 < size) (hsum : 0 < sizes.sum)
    (hlt : sizes.sum < 2 ^ 64) (hlength : input.length = n * sizes.sum) :
    splitByStruct avx2 fill sizes input = some (.ok (Lib.columns sizes.sum n input 0 sizes)) := by
  have hne : sizes ≠ [] := by
    rintro rfl
    exact Nat.lt_irrefl 0 hsum
  have hsplit := (Codecs.SplitByStruct.splits_byStruct avx2 n hne hpos).encode_eq _ input
    (sources_createStreams fill n 0 sizes) hlength
  unfold splitByStruct
  rw [Nat.mod_eq_of_lt hlt, if_neg (by omega), hlength, Nat.mul_mod_left,
    if_neg (fun h => h rfl), if_neg (fun h => absurd (hpos 0 h) (Nat.lt_irrefl 0)),
    Nat.mul_div_cancel _ hsum, hsplit, Option.map_some]

theorem routeFields_columns (elementSize n : Nat) (input : List UInt8) :
    ∀ (offset : Nat) (sizes : List Nat),
    routeFields sizes (Lib.columns elementSize n input offset (sizes.filter (· > 0))) =
      columns elementSize n input offset sizes
  | _, [] => rfl
  | offset, size :: sizes => by
    have hrest := fun offset => routeFields_columns elementSize n input offset sizes
    rw [routeFields, columns]
    by_cases hsize : size = 0
    · rw [if_pos hsize, if_pos hsize, List.filter_cons_of_neg (by simp [hsize]), hrest, hsize,
        Nat.add_zero]
    · rw [if_neg hsize, if_neg hsize, List.filter_cons_of_pos (by simp; omega), Lib.columns,
        List.head?_cons, List.tail_cons, hrest]

theorem splitStreams_columns (avx2 : Bool) (fill : Nat → Nat → UInt8) {sizes : List Nat}
    {input : List UInt8} {n : Nat} (hsum : 0 < sizes.sum) (hlt : sizes.sum < 2 ^ 64)
    (hlength : input.length = n * sizes.sum) :
    splitStreams avx2 fill sizes input = some (.ok (columns sizes.sum n input 0 sizes)) := by
  have hsplit : splitByStruct avx2 fill (sizes.filter (· > 0)) input = some (.ok _) :=
    splitByStruct_eq avx2 fill
      (fun size hsize => of_decide_eq_true (List.mem_filter.1 hsize).2)
      (by rwa [sum_filter_pos]) (by rwa [sum_filter_pos]) (by rwa [sum_filter_pos])
  rw [splitStreams, hsplit, Option.map_some, Except.map, sum_filter_pos, routeFields_columns]

/-- A structure type of the state: on the stack, or the type of a segment. -/
inductive Vm.HasStruct (s : Vm) : Ty → Prop
  | stack {structData : Nat} {members : List Ty} {total width : Nat} :
      .type (.struct structData members total width) ∈ s.stack →
      Vm.HasStruct s (.struct structData members total width)
  | segment {seg : Segment} {structData : Nat} {members : List Ty} {total width : Nat} :
      seg ∈ s.segments → seg.type = .struct structData members total width →
      Vm.HasStruct s (.struct structData members total width)

theorem Vm.HasStruct.built {s : Vm} {t : Ty} (h : s.HasStruct t) (hs : s.Built) :
    t.Built ∧ ∃ structData members total width, t = .struct structData members total width := by
  cases h with
  | stack hmem => exact ⟨hs.stack _ hmem, _, _, _, _, rfl⟩
  | segment hmem heq => exact ⟨heq ▸ hs.segments _ hmem, _, _, _, _, rfl⟩

theorem AcceptedSizes.exact {t : Ty} {structData total width : Nat} {members : List Ty}
    {fieldSizes : List Nat} (h : AcceptedSizes t fieldSizes) (hbuilt : t.Built)
    (ht : t = .struct structData members total width) (hsplit : t.Splittable) :
    fieldSizes = t.elementLayout ∧ fieldSizes.sum = t.elementSize := by
  subst ht
  have hflats : Ty.Flats members := by
    rcases hsplit with hmany | hflats
    · have hle : Ty.fieldCounts members ≤ INT_MAX := h.count_le
      omega
    · exact hflats
  obtain ⟨-, replay, replay', hextract⟩ := h
  have hsizes : fieldSizes = Ty.layouts members :=
    (extractFlat_ok hextract).trans (flattenMembers_eq_layouts members hbuilt.2.1 hflats)
  refine ⟨hsizes, ?_⟩
  rw [hsizes, ← Ty.sizes_eq_layouts_sum members hbuilt.2.1 hflats]
  exact hbuilt.2.2.1.symm

theorem FlattensExactly.splittable {structData total width : Nat} {members : List Ty}
    (h : FlattensExactly (.struct structData members total width))
    (hempty : Ty.NonesEmpty members) : Ty.Splittable (.struct structData members total width) := by
  by_cases hmany : INT_MAX < Ty.fieldCounts members
  · exact Or.inl hmany
  by_cases hnone : Ty.fieldCounts members = 0
  · exact Or.inr (Ty.flats_of_fieldless hnone)
  have haccepted := acceptedSizes_of_count (t := .struct structData members total width)
    (Nat.pos_of_ne_zero hnone) (Nat.not_lt.1 hmany)
  have hsizes := congrArg List.length (h _ haccepted).1
  have hlength : (flattenFieldSizes (.struct structData members total width)).length =
      Ty.fieldCounts members := flatten_length _ _
  have helement : (Ty.elementLayout (.struct structData members total width)).length =
      (Ty.layouts members).length := rfl
  exact Or.inr ((Ty.fieldCounts_le members hempty).2 (by omega))

/-- **The sizes of the split are those of the layout, for types without arrays of structures.**
For types without empty arrays of structures, they are so for no others.  Every stream of the split
then holds the bytes of its field. -/
theorem structure_flattening {bytecode input : List UInt8} {e : Option VmError} {s : Vm} {t : Ty}
    (hs : Reached bytecode input e s) (ht : s.HasStruct t) :
    (t.Splittable → FlattensExactly t) ∧
    (t.MembersNoneEmpty → (FlattensExactly t ↔ t.Splittable)) ∧
    (t.Splittable → ∀ (avx2 : Bool) (fill : Nat → Nat → UInt8) (fieldSizes : List Nat) (n : Nat)
      (segment : List UInt8),
      AcceptedSizes t fieldSizes → 0 < t.elementSize → segment.length = n * t.elementSize →
      splitStreams avx2 fill fieldSizes segment =
        some (.ok (columns t.elementSize n segment 0 t.elementLayout))) := by
  obtain ⟨hbuilt, structData, members, total, width, rfl⟩ := ht.built hs.built
  have hexact : Ty.Splittable (.struct structData members total width) →
      FlattensExactly (.struct structData members total width) :=
    fun hsplit _ haccepted => haccepted.exact hbuilt rfl hsplit
  refine ⟨hexact, fun hempty => ⟨fun h => h.splittable hempty, hexact⟩, ?_⟩
  intro hsplit avx2 fill fieldSizes n segment haccepted hpos hlength
  obtain ⟨hlayout, hsum⟩ := haccepted.exact hbuilt rfl hsplit
  rw [← hlayout, ← hsum]
  rw [← hsum] at hpos hlength
  exact splitStreams_columns avx2 fill hpos (hsum ▸ hbuilt.2.2.2) hlength

/-- A state with the given stack, before the instruction at `pc`. -/
def stateWith (stack : List Value) (nextStructData pc : Nat) : Vm :=
  { Vm.init with stack, nextStructData, pc }

/-- `push.type.u8`, `push.type.u16le`, `push.u32 2`, `type.structure`. -/
def byteAndShort : List UInt8 :=
  [0x10, 1, 1, 0, 0x12, 1, 1, 0, 2, 0, 1, 0, 2, 0, 0, 0, 2, 0, 8, 0]

/-- A byte and a 16-bit integer are split into one byte and two. -/
theorem structure_flattening_byteAndShort :
    ∃ s, Reached byteAndShort [] none s ∧
      s.HasStruct (.struct 0 [.primitive .u8 1, .primitive .u16le 1] 3 1) ∧
      FlattensExactly (.struct 0 [.primitive .u8 1, .primitive .u16le 1] 3 1) := by
  have hs : Reached byteAndShort [] none
      (stateWith [.type (.struct 0 [.primitive .u8 1, .primitive .u16le 1] 3 1)] 1 20) :=
    execute_reached (r := .ok ()) rfl rfl
  refine ⟨_, hs, .stack List.mem_cons_self, ?_⟩
  exact (structure_flattening hs (.stack List.mem_cons_self)).1
    (Or.inr ⟨trivial, trivial, trivial⟩)

/-- `push.type.u8` twice, `push.u32 1`, `type.structure`, `push.u32 2`, `type.fixed_array`,
`push.u32 2`, `type.structure`. -/
def byteAndPair : List UInt8 :=
  [0x10, 1, 1, 0, 0x10, 1, 1, 0, 2, 0, 1, 0, 1, 0, 0, 0, 2, 0, 8, 0,
   2, 0, 1, 0, 2, 0, 0, 0, 1, 0, 8, 0, 2, 0, 1, 0, 2, 0, 0, 0, 2, 0, 8, 0]

/-- A byte and two structures of one byte are split into two bytes, of three. -/
theorem structure_notFlattened :
    ∃ s, Reached byteAndPair [] none s ∧
      s.HasStruct (.struct 1 [.primitive .u8 1, .struct 0 [.primitive .u8 1] 1 2] 3 1) ∧
      ¬ FlattensExactly (.struct 1 [.primitive .u8 1, .struct 0 [.primitive .u8 1] 1 2] 3 1) := by
  have next (pc : Nat) {stack stack' : List Value} {n n' pc' : Nat}
      (hs : Reached byteAndPair [] none (stateWith stack n pc)) (hpc : pc < 44)
      (hstep : step byteAndPair [] (stateWith stack n pc) =
        some (.ok (), stateWith stack' n' pc')) :
      Reached byteAndPair [] none (stateWith stack' n' pc') := hs.ok ⟨hpc, rfl⟩ hstep
  have h₀ : Reached byteAndPair [] none (stateWith [] 0 0) := Reached.init rfl
  have h₂ : Reached byteAndPair [] none
      (stateWith [.type (.primitive .u8 1), .type (.primitive .u8 1)] 0 8) :=
    next 4 (next _ h₀ (by decide) rfl) (by decide) rfl
  have h₄ : Reached byteAndPair [] none
      (stateWith [.type (.struct 0 [.primitive .u8 1] 1 1), .type (.primitive .u8 1)] 1 20) :=
    next 16 (next _ h₂ (by decide) rfl) (by decide) rfl
  have h₆ : Reached byteAndPair [] none
      (stateWith [.type (.struct 0 [.primitive .u8 1] 1 2), .type (.primitive .u8 1)] 1 32) :=
    next 28 (next _ h₄ (by decide) rfl) (by decide) rfl
  have h₈ : Reached byteAndPair [] none (stateWith
      [.type (.struct 1 [.primitive .u8 1, .struct 0 [.primitive .u8 1] 1 2] 3 1)] 2 44) :=
    next 40 (next _ h₆ (by decide) rfl) (by decide) rfl
  refine ⟨_, h₈, .stack List.mem_cons_self, fun h => ?_⟩
  have hsum := (h _ (acceptedSizes_of_count (by decide) (by decide))).2
  exact absurd hsum (by decide)

end OpenZL.Sddl2
