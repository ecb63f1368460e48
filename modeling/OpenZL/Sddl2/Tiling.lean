import OpenZL.Lib.Slices
import OpenZL.Sddl2.Interpreter

/-!
# Segments tile the input

What every run of the virtual machine keeps true of its cursor, its segments and their tags, and
the two ways in which a program can break it: a sum that wraps around in the bounds check, and a
segment created with the tag `0`, which no registry checks.

* `exec_keeps` — an instruction that creates no segment leaves the cursor, the segments and the
  registry as they are.
* `Sound.segmentCreate` — a segment that is created safely keeps the tiling, and the cursor goes
  forwards.
* `segments_tile` — runs with safe segments only are tiled in every state; `segments_not_tiled` has
  two others.
* `execute_total` — a run without a result stands before an undefined instruction.
-/

namespace OpenZL.Sddl2

open OpenZL.Lib

variable {sizes : Nat → Nat} {input : List UInt8} {s s' : Vm} {r : Except VmError Unit} {v : Value}

/-! ## Sizes of the types -/

/-- The structures below address `next` have the sizes listed by `sizes`. -/
def Ty.Fits (sizes : Nat → Nat) (next : Nat) : Ty → Prop
  | .primitive _ _ => True
  | .struct structData _ total _ => structData < next ∧ total = sizes structData

def Value.Fits (sizes : Nat → Nat) (next : Nat) : Value → Prop
  | .type t => t.Fits sizes next
  | _ => True

theorem Ty.Fits.withWidth {next : Nat} {t : Ty} (h : t.Fits sizes next) (width : Nat) :
    (t.withWidth width).Fits sizes next := by
  cases t with
  | primitive kind w => exact trivial
  | struct structData members total w => exact h

theorem Ty.Fits.allocate {next : Nat} {t : Ty} (h : t.Fits sizes next) (total : Nat) :
    t.Fits (Function.update sizes next total) (next + 1) := by
  cases t with
  | primitive kind w => exact trivial
  | struct structData members n w =>
    obtain ⟨hlt, rfl⟩ := h
    refine ⟨by omega, ?_⟩
    rw [Function.update_of_ne (by omega)]

theorem Value.Fits.allocate {next : Nat} (h : v.Fits sizes next) (total : Nat) :
    v.Fits (Function.update sizes next total) (next + 1) := by
  cases v with
  | i64 val => exact trivial
  | tag tag => exact trivial
  | type type => exact Ty.Fits.allocate h total

theorem allocated_fits (sizes : Nat → Nat) (next total : Nat) (members : List Ty) :
    (Value.type (.struct next members total 1)).Fits (Function.update sizes next total)
      (next + 1) :=
  ⟨Nat.lt_succ_self next, (Function.update_self next total sizes).symm⟩

theorem Ty.size_eq_of_equal {next : Nat} {t u : Ty} (h : t.equal u = true) (ht : t.Fits sizes next)
    (hu : u.Fits sizes next) : t.size = u.size := by
  cases t <;> cases u <;> simp_all [Ty.equal, Ty.Fits, Ty.size]

/-! ## What an instruction keeps -/

/-- What only the segment operations and the interpreter change. -/
def Vm.frame (s : Vm) : Nat × List Segment × List TagEntry :=
  (s.currentPos, s.segments, s.registry)

/-- A state with a given frame, not before a given instruction, whose values satisfy `P`. -/
structure Machine (frame : Nat × List Segment × List TagEntry) (P : Value → Prop) (next : Nat)
    (Q : Nat → Prop)
    (s : Vm) : Prop where
  frame_eq : s.frame = frame
  next_eq : s.nextStructData = next
  pc_ok : Q s.pc
  stack : ∀ v ∈ s.stack, P v
  registers : ∀ r ∈ s.registers, P r.2

/-- Properties of values that integers have, and that arrays take from their elements. -/
structure Closed (P : Value → Prop) : Prop where
  i64 : ∀ val, P (.i64 val)
  array : ∀ (t : Ty) (count : Nat), t.width * count < 2 ^ 32 → P (.type t) →
    P (.type (t.withWidth (t.width * count)))

theorem closed_fits (sizes : Nat → Nat) (next : Nat) : Closed (Value.Fits sizes next) :=
  ⟨fun _ => trivial, fun _ _ _ ht => Ty.Fits.withWidth ht _⟩

theorem closed_true : Closed fun _ => True := ⟨fun _ => trivial, fun _ _ _ _ => trivial⟩

section keeps

variable {frame : Nat × List Segment × List TagEntry} {P : Value → Prop} {next : Nat}
  {Q : Nat → Prop}

theorem push_keeps (hv : P v) :
    Cmd.Preserves (Machine frame P next Q) (push v) := by
  refine Cmd.Preserves.get.bind fun _ => (Cmd.Preserves.failWhen _).bind fun _ =>
    Cmd.Preserves.modify fun s hs => ?_
  refine ⟨hs.frame_eq, hs.next_eq, hs.pc_ok, ?_, hs.registers⟩
  exact List.forall_mem_cons.2 ⟨hv, hs.stack⟩

theorem pushI64_keeps (hP : Closed P) (val : Int) :
    Cmd.Preserves (Machine frame P next Q) (pushI64 val) :=
  push_keeps (hP.i64 val)

theorem pop_some {s s' : Vm} {r : Except VmError Value} (h : pop s = some (r, s')) :
    (s.stack = [] ∧ r = .error .stackUnderflow ∧ s' = s) ∨
      ∃ v stack, s.stack = v :: stack ∧ r = .ok v ∧ s' = { s with stack } := by
  unfold pop at h
  rw [Cmd.run_get_bind] at h
  cases hstack : s.stack with
  | nil =>
    rw [hstack] at h
    obtain ⟨rfl, rfl⟩ := Prod.mk.inj (Option.some.inj h)
    exact Or.inl ⟨rfl, rfl, rfl⟩
  | cons v stack =>
    rw [hstack] at h
    obtain ⟨rfl, rfl⟩ := Prod.mk.inj (Option.some.inj h)
    exact Or.inr ⟨v, stack, rfl, rfl, rfl⟩

theorem pop_keeps : Cmd.Preserves (Machine frame P next Q) pop := by
  intro s r s' hs h
  rcases pop_some h with ⟨-, -, rfl⟩ | ⟨v, stack, hstack, -, rfl⟩
  · exact hs
  · have hfits := hs.stack
    rw [hstack] at hfits
    exact ⟨hs.frame_eq, hs.next_eq, hs.pc_ok, (List.forall_mem_cons.1 hfits).2, hs.registers⟩

theorem pop_fits {s s' : Vm} (hs : Machine frame P next Q s) (h : pop s = some (.ok v, s')) :
    P v := by
  rcases pop_some h with ⟨-, hr, -⟩ | ⟨w, stack, hstack, hr, -⟩
  · cases hr
  · obtain rfl := Except.ok.inj hr
    exact hs.stack v (by rw [hstack]; exact List.mem_cons_self)

theorem popI64_keeps : Cmd.Preserves (Machine frame P next Q) popI64 := by
  refine pop_keeps.bind fun v => ?_
  cases v with
  | i64 val => exact Cmd.Preserves.pure _
  | tag tag => exact Cmd.Preserves.fail _
  | type type => exact Cmd.Preserves.fail _

theorem popPositiveI64_keeps : Cmd.Preserves (Machine frame P next Q) popPositiveI64 :=
  popI64_keeps.bind fun _ => (Cmd.Preserves.failWhen _).bind fun _ => Cmd.Preserves.pure _

theorem popTag_keeps : Cmd.Preserves (Machine frame P next Q) popTag := by
  refine pop_keeps.bind fun v => ?_
  cases v with
  | i64 val => exact Cmd.Preserves.fail _
  | tag tag => exact Cmd.Preserves.pure _
  | type type => exact Cmd.Preserves.fail _

theorem popType_keeps : Cmd.Preserves (Machine frame P next Q) popType := by
  refine pop_keeps.bind fun v => ?_
  cases v with
  | i64 val => exact Cmd.Preserves.fail _
  | tag tag => exact Cmd.Preserves.fail _
  | type type => exact Cmd.Preserves.pure _

theorem popType_fits (s : Vm) (t : Ty) (s' : Vm) (hs : Machine frame P next Q s)
    (h : popType s = some (.ok t, s')) : P (.type t) := by
  obtain ⟨v, s₁, hpop, hmatch⟩ := Cmd.run_bind_ok.1 h
  have hv := pop_fits hs hpop
  cases v with
  | i64 val => cases hmatch
  | tag tag => cases hmatch
  | type type =>
    obtain ⟨hr, -⟩ := Cmd.run_pure_iff.1 hmatch
    obtain rfl := Except.ok.inj hr
    exact hv

theorem unary_keeps {f : Int → VmM Unit} (hf : ∀ a, Cmd.Preserves (Machine frame P next Q) (f a)) :
    Cmd.Preserves (Machine frame P next Q) (popI64 >>= f) :=
  popI64_keeps.bind hf

theorem binary_keeps {f : Int → Int → VmM Unit}
    (hf : ∀ b a, Cmd.Preserves (Machine frame P next Q) (f b a)) :
    Cmd.Preserves (Machine frame P next Q) (popI64 >>= fun b => popI64 >>= fun a => f b a) :=
  popI64_keeps.bind fun b => popI64_keeps.bind fun a => hf b a

theorem checked_keeps (hP : Closed P) {c : Prop} [Decidable c] (e : VmError) (val : Int) :
    Cmd.Preserves (Machine frame P next Q)
      ((Cmd.failWhen c e : VmM Unit) >>= fun _ => pushI64 val) :=
  (Cmd.Preserves.failWhen _).bind fun _ => pushI64_keeps hP val

theorem opMath_keeps (hP : Closed P) (op : MathOp) :
    Cmd.Preserves (Machine frame P next Q) (opMath op) := by
  cases op with
  | add => exact binary_keeps fun _ _ => checked_keeps hP _ _
  | sub => exact binary_keeps fun _ _ => checked_keeps hP _ _
  | mul => exact binary_keeps fun _ _ => checked_keeps hP _ _
  | div => exact binary_keeps fun _ _ => (Cmd.Preserves.failWhen _).bind fun _ => checked_keeps hP _ _
  | mod => exact binary_keeps fun _ _ => (Cmd.Preserves.failWhen _).bind fun _ =>
      (Cmd.Preserves.expect _).bind fun _ => pushI64_keeps hP _
  | abs => exact unary_keeps fun _ => checked_keeps hP _ _
  | neg => exact unary_keeps fun _ => checked_keeps hP _ _
  | bitAnd => exact binary_keeps fun _ _ => pushI64_keeps hP _
  | bitOr => exact binary_keeps fun _ _ => pushI64_keeps hP _
  | bitXor => exact binary_keeps fun _ _ => pushI64_keeps hP _
  | bitNot => exact unary_keeps fun _ => pushI64_keeps hP _

theorem opLogic_keeps (hP : Closed P) (op : LogicOp) :
    Cmd.Preserves (Machine frame P next Q) (opLogic op) := by
  cases op with
  | and => exact binary_keeps fun _ _ => pushI64_keeps hP _
  | or => exact binary_keeps fun _ _ => pushI64_keeps hP _
  | xor => exact binary_keeps fun _ _ => pushI64_keeps hP _
  | not => exact unary_keeps fun _ => pushI64_keeps hP _

theorem opDrop_keeps : Cmd.Preserves (Machine frame P next Q) opDrop :=
  pop_keeps.bind fun _ => Cmd.Preserves.pure _

theorem opDropIf_keeps : Cmd.Preserves (Machine frame P next Q) opDropIf := by
  refine unary_keeps fun condition => ?_
  split
  · exact opDrop_keeps
  · exact Cmd.Preserves.pure _

theorem opDup_keeps : Cmd.Preserves (Machine frame P next Q) opDup := by
  intro s r s' hs h
  unfold opDup at h
  rw [Cmd.run_get_bind] at h
  cases hstack : s.stack with
  | nil =>
    rw [hstack] at h
    exact Cmd.Preserves.fail _ s r s' hs h
  | cons v stack =>
    rw [hstack] at h
    exact push_keeps (hs.stack v (by rw [hstack]; exact List.mem_cons_self)) s r s' hs h

theorem opSwap_keeps : Cmd.Preserves (Machine frame P next Q) opSwap := by
  intro s r s' hs h
  unfold opSwap at h
  rw [Cmd.run_get_bind] at h
  rcases hstack : s.stack with _ | ⟨a, _ | ⟨b, stack⟩⟩
  · rw [hstack] at h
    exact Cmd.Preserves.fail _ s r s' hs h
  · rw [hstack] at h
    exact Cmd.Preserves.fail _ s r s' hs h
  · rw [hstack] at h
    obtain ⟨-, rfl⟩ := Prod.mk.inj (Option.some.inj h)
    have hfits := hs.stack
    rw [hstack] at hfits
    obtain ⟨ha, hb, hrest⟩ : P a ∧ P b ∧ ∀ v ∈ stack, P v := by simpa using hfits
    exact ⟨hs.frame_eq, hs.next_eq, hs.pc_ok, by simpa using ⟨hb, ha, hrest⟩, hs.registers⟩

theorem opVarStore_keeps : Cmd.Preserves (Machine frame P next Q) opVarStore := by
  refine unary_keeps fun regIndex => (Cmd.Preserves.failWhen _).bind fun _ => ?_
  refine pop_keeps.bind_of (fun s v s' hs h => pop_fits hs h) fun v hv =>
    Cmd.Preserves.modify fun s hs => ?_
  exact ⟨hs.frame_eq, hs.next_eq, hs.pc_ok, hs.stack, List.forall_mem_cons.2 ⟨hv, hs.registers⟩⟩

theorem mem_of_lookup {k : Nat} : ∀ {l : List (Nat × Value)},
    l.lookup k = some v → (k, v) ∈ l
  | [], h => by cases h
  | (k', v') :: l, h => by
    rw [List.lookup_cons] at h
    split at h
    · rename_i hk
      obtain rfl := Option.some.inj h
      rw [beq_iff_eq.1 hk]
      exact List.mem_cons_self
    · exact List.mem_cons_of_mem _ (mem_of_lookup h)

theorem opVarLoad_keeps : Cmd.Preserves (Machine frame P next Q) opVarLoad := by
  refine unary_keeps fun regIndex => (Cmd.Preserves.failWhen _).bind fun _ => ?_
  intro s r s' hs h
  rw [Cmd.run_get_bind] at h
  cases hload : s.registers.lookup regIndex.toNat with
  | none =>
    rw [hload] at h
    exact Cmd.Preserves.fail _ s r s' hs h
  | some val =>
    rw [hload] at h
    exact push_keeps (hs.registers _ (mem_of_lookup hload)) s r s' hs h

theorem opTypeFixedArray_keeps (hP : Closed P) :
    Cmd.Preserves (Machine frame P next Q) opTypeFixedArray := by
  refine popPositiveI64_keeps.bind fun count => popType_keeps.bind_of popType_fits fun t ht => ?_
  intro s r s' hs h
  rcases Cmd.run_failWhen_bind_some h with ⟨-, -, rfl⟩ | ⟨hfits, h⟩
  · exact hs
  · exact push_keeps (hP.array t _ (by omega) ht) s r s' hs h

theorem opTypeSizeof_keeps (hP : Closed P) :
    Cmd.Preserves (Machine frame P next Q) opTypeSizeof :=
  popType_keeps.bind fun _ => pushI64_keeps hP _

/-! ## Skips and structures -/

/-- The program counters that an instruction may leave, from those that it may have. -/
def StepsInside (bytecode : List UInt8) (Q : Nat → Prop) : Prop :=
  ∀ pc pc', Q pc → nextPc bytecode pc = some pc' → Q pc'

theorem skip_keeps {bytecode : List UInt8} (hQ : StepsInside bytecode Q) : ∀ skipCount,
    Cmd.Preserves (Machine frame P next Q) (skip bytecode skipCount)
  | 0 => Cmd.Preserves.pure _
  | skipCount + 1 => by
    intro s r s' hs h
    rw [skip, Cmd.run_get_bind] at h
    cases hpc : nextPc bytecode s.pc with
    | none =>
      rw [hpc] at h
      exact Cmd.Preserves.fail _ s r s' hs h
    | some pc =>
      rw [hpc] at h
      change skip bytecode skipCount { s with pc } = some (r, s') at h
      exact skip_keeps hQ skipCount { s with pc } r s'
        ⟨hs.frame_eq, hs.next_eq, hQ s.pc pc hs.pc_ok hpc, hs.stack, hs.registers⟩ h

theorem popMembers_keeps (allocationSize : Nat) : ∀ (n : Nat) (members : List Ty),
    Cmd.Preserves (Machine frame P next Q) (popMembers allocationSize n members)
  | 0, _ => Cmd.Preserves.pure _
  | n + 1, _ => popType_keeps.bind fun _ => (Cmd.Preserves.expect _).bind fun _ =>
    popMembers_keeps allocationSize n _

theorem popMembers_fits {allocationSize : Nat} : ∀ {n : Nat} {members members' : List Ty}
    {s s' : Vm}, Machine frame P next Q s → (∀ t ∈ members, P (.type t)) →
    popMembers allocationSize n members s = some (.ok members', s') → ∀ t ∈ members', P (.type t)
  | 0, members, members', s, s', _, hmembers, h => by
    obtain ⟨hr, -⟩ := Cmd.run_pure_iff.1 h
    obtain rfl := Except.ok.inj hr
    exact hmembers
  | n + 1, members, members', s, s', hs, hmembers, h => by
    obtain ⟨t, s₁, hpop, h₁⟩ := Cmd.run_bind_ok.1 h
    obtain ⟨-, h₂⟩ := Cmd.run_require_bind.1 h₁
    exact popMembers_fits (popType_keeps s _ s₁ hs hpop)
      (List.forall_mem_cons.2 ⟨popType_fits s t s₁ hs hpop, hmembers⟩) h₂

theorem totalSize_ok : ∀ {members : List Ty} {total total' : Nat} {s s' : Vm}, total < 2 ^ 64 →
    totalSize members total s = some (.ok total', s') →
    total' = total + (members.map Ty.size).sum ∧ total' < 2 ^ 64
  | [], total, total', s, s', hlt, h => by
    obtain ⟨hr, -⟩ := Cmd.run_pure_iff.1 h
    obtain rfl := Except.ok.inj hr
    exact ⟨rfl, hlt⟩
  | t :: members, total, total', s, s', hlt, h => by
    obtain ⟨hfits, h₁⟩ := Cmd.run_failWhen_bind_ok.1 h
    obtain ⟨rfl, hlt'⟩ := totalSize_ok (by omega) h₁
    refine ⟨?_, hlt'⟩
    rw [List.map_cons, List.sum_cons, Nat.add_assoc]

theorem totalSize_keeps : ∀ (members : List Ty) (total : Nat),
    Cmd.Preserves (Machine frame P next Q) (totalSize members total)
  | [], _ => Cmd.Preserves.pure _
  | _ :: members, _ => (Cmd.Preserves.failWhen _).bind fun _ => totalSize_keeps members _

/-- A state in which at most one more description was allocated, of size `total`. -/
def Later (frame : Nat × List Segment × List TagEntry) (P : Value → Prop)
    (P' : Nat → Value → Prop) (next : Nat) (Q : Nat → Prop) (s : Vm) : Prop :=
  Machine frame P next Q s ∨ ∃ total, Machine frame (P' total) (next + 1) Q s

theorem opTypeStructure_later {P' : Nat → Value → Prop} (hP' : ∀ total v, P v → P' total v)
    (hnew : ∀ total members, (∀ t ∈ members, P (.type t)) → total = (members.map Ty.size).sum →
      total < 2 ^ 64 → P' total (.type (.struct next members total 1))) {s s' : Vm}
    (hs : Machine frame P next Q s) (h : opTypeStructure s = some (r, s')) :
    Later frame P P' next Q s' := by
  unfold opTypeStructure at h
  rcases Cmd.run_bind_some h with ⟨e, he, -⟩ | ⟨memberCount, s₁, hcount, h₁⟩
  · exact Or.inl (popPositiveI64_keeps s _ s' hs he)
  have hs₁ : Machine frame P next Q s₁ := popPositiveI64_keeps s _ s₁ hs hcount
  rw [Cmd.run_get_bind, Cmd.run_modify_bind] at h₁
  -- whatever the size turns out to be, the values there are satisfy the new property
  have hs₂ : ∀ total, Machine frame (P' total) (next + 1) Q
      { s₁ with nextStructData := s₁.nextStructData + 1 } := fun total =>
    ⟨hs₁.frame_eq, by rw [hs₁.next_eq], hs₁.pc_ok, fun v hv => hP' total v (hs₁.stack v hv),
      fun v hv => hP' total _ (hs₁.registers v hv)⟩
  rcases Cmd.run_bind_some h₁ with ⟨e, he, -⟩ | ⟨members, s₃, hpop, h₂⟩
  · exact Or.inr ⟨0, popMembers_keeps _ memberCount [] _ _ s' (hs₂ 0) he⟩
  have hs₃ := fun total => popMembers_keeps _ memberCount [] _ _ s₃ (hs₂ total) hpop
  rcases Cmd.run_bind_some h₂ with ⟨e, he, -⟩ | ⟨total, s₄, htotal, h₃⟩
  · exact Or.inr ⟨0, totalSize_keeps members 0 _ _ s' (hs₃ 0) he⟩
  have hs₄ := totalSize_keeps members 0 _ _ s₄ (hs₃ total) htotal
  refine Or.inr ⟨total, push_keeps ?_ s₄ r s' hs₄ h₃⟩
  obtain ⟨hsum, hlt⟩ := totalSize_ok (by decide) htotal
  have hold : Machine frame P (next + 1) Q
      { s₁ with nextStructData := s₁.nextStructData + 1 } :=
    ⟨hs₁.frame_eq, by rw [hs₁.next_eq], hs₁.pc_ok, hs₁.stack, hs₁.registers⟩
  rw [hs₁.next_eq]
  exact hnew total members (popMembers_fits hold (by simp) hpop) (by omega) hlt

/-! ## Instructions that create no segment -/

/-- The instructions that create segments. -/
def Instr.createsSegment : Instr → Bool
  | .segmentCreateUnspecified | .segmentCreateTagged => true
  | _ => false

theorem exec_keeps {P' : Nat → Value → Prop} {bytecode input : List UInt8} (hP : Closed P)
    (hQ : StepsInside bytecode Q) (hP' : ∀ total v, P v → P' total v)
    (hnew : ∀ total members, (∀ t ∈ members, P (.type t)) → total = (members.map Ty.size).sum →
      total < 2 ^ 64 → P' total (.type (.struct next members total 1))) {instr : Instr} {s s' : Vm}
    (hs : Machine frame P next Q s) (hinstr : instr.createsSegment = false)
    (hpush : ∀ v, instr = .push v → P v) (h : exec bytecode input instr s = some (r, s')) :
    Later frame P P' next Q s' := by
  cases instr with
  | push value => exact Or.inl (push_keeps (hpush value rfl) s r s' hs h)
  | pushCurrentPos => exact Or.inl ((Cmd.Preserves.get.bind fun _ => pushI64_keeps hP _) s r s' hs h)
  | pushRemaining => exact Or.inl ((Cmd.Preserves.get.bind fun _ => pushI64_keeps hP _) s r s' hs h)
  | pushStackDepth => exact Or.inl ((Cmd.Preserves.get.bind fun _ => pushI64_keeps hP _) s r s' hs h)
  | math op => exact Or.inl (opMath_keeps hP op s r s' hs h)
  | cmp op => exact Or.inl (binary_keeps (fun _ _ => pushI64_keeps hP _) s r s' hs h)
  | logic op => exact Or.inl (opLogic_keeps hP op s r s' hs h)
  | halt =>
    have hhalt : Cmd.Preserves (Machine frame P next Q) (exec bytecode input .halt) :=
      Cmd.Preserves.modify fun t ht => ⟨ht.frame_eq, ht.next_eq, ht.pc_ok, ht.stack, ht.registers⟩
    exact Or.inl (hhalt s r s' hs h)
  | expectTrue => exact Or.inl (unary_keeps (fun _ => Cmd.Preserves.failWhen _) s r s' hs h)
  | jumpIf =>
    exact Or.inl (unary_keeps (fun _ => popPositiveI64_keeps.bind fun _ => skip_keeps hQ _)
      s r s' hs h)
  | traceStart => exact Or.inl (Cmd.Preserves.pure _ s r s' hs h)
  | load op => exact Or.inl (unary_keeps (fun _ => checked_keeps hP _ _) s r s' hs h)
  | stackDrop => exact Or.inl (opDrop_keeps s r s' hs h)
  | stackDropIf => exact Or.inl (opDropIf_keeps s r s' hs h)
  | stackDup => exact Or.inl (opDup_keeps s r s' hs h)
  | stackSwap => exact Or.inl (opSwap_keeps s r s' hs h)
  | typeFixedArray => exact Or.inl (opTypeFixedArray_keeps hP s r s' hs h)
  | typeStructure => exact opTypeStructure_later hP' hnew hs h
  | typeSizeof => exact Or.inl (opTypeSizeof_keeps hP s r s' hs h)
  | varStore => exact Or.inl (opVarStore_keeps s r s' hs h)
  | varLoad => exact Or.inl (opVarLoad_keeps s r s' hs h)
  | segmentCreateUnspecified => cases hinstr
  | segmentCreateTagged => cases hinstr
  | invalid => exact Or.inl (Cmd.Preserves.fail _ s r s' hs h)
  | ignored => exact Or.inl (Cmd.Preserves.pure _ s r s' hs h)

end keeps

/-! ## Segments -/

def Segment.slice (seg : Segment) : Slice := ⟨seg.startPos, seg.sizeBytes⟩

/-- The segments tile the input up to the cursor, and tags tell their types. -/
structure Tiled (input : List UInt8) (s : Vm) : Prop where
  cursor_le : s.currentPos ≤ input.length
  tiles : Tiles 0 (s.segments.map Segment.slice) s.currentPos
  multiple : ∀ seg ∈ s.segments, seg.type.size ∣ seg.sizeBytes
  same_type : ∀ seg ∈ s.segments, ∀ seg' ∈ s.segments, seg.tag = seg'.tag →
    seg.type.equal seg'.type = true

/-- The registry knows the type of a tag other than `0`. -/
def Vm.registered (s : Vm) (tag : Nat) (type : Ty) : Prop :=
  tag ≠ 0 → ∃ entry, s.registry.find? (·.tag = tag) = some entry ∧ entry.type.equal type = true

/-- What a run keeps true of the frame, with descriptions of the given sizes. -/
structure Sound (input : List UInt8) (sizes : Nat → Nat) (s : Vm) : Prop where
  tiled : Tiled input s
  registered : ∀ seg ∈ s.segments, s.registered seg.tag seg.type
  segments_fit : ∀ seg ∈ s.segments, seg.type.Fits sizes s.nextStructData
  machine : Machine s.frame (Value.Fits sizes s.nextStructData) s.nextStructData
    (fun _ => True) s

theorem Sound.of_later {Q : Nat → Prop} (h : Sound input sizes s)
    (hlater : Later s.frame (Value.Fits sizes s.nextStructData)
      (fun total => Value.Fits (Function.update sizes s.nextStructData total) (s.nextStructData + 1))
      s.nextStructData Q s') :
    ∃ sizes', Sound input sizes' s' := by
  have hframe : s'.frame = s.frame := by
    rcases hlater with hs' | ⟨total, hs'⟩
    · exact hs'.frame_eq
    · exact hs'.frame_eq
  obtain ⟨hpos, hsegs, hreg⟩ : s'.currentPos = s.currentPos ∧ s'.segments = s.segments ∧
      s'.registry = s.registry := by simpa [Vm.frame] using hframe
  have hregistered : ∀ tag type, s.registered tag type → s'.registered tag type := by
    intro tag type htag
    unfold Vm.registered at *
    rwa [hreg]
  have hfits : ∃ sizes', (∀ seg ∈ s.segments, seg.type.Fits sizes' s'.nextStructData) ∧
      Machine s'.frame (Value.Fits sizes' s'.nextStructData) s'.nextStructData (fun _ => True) s' := by
    rcases hlater with hs' | ⟨total, hs'⟩
    · refine ⟨sizes, ?_, rfl, rfl, trivial, ?_, ?_⟩
      · rw [hs'.next_eq]
        exact h.segments_fit
      · rw [hs'.next_eq]
        exact hs'.stack
      · rw [hs'.next_eq]
        exact hs'.registers
    · refine ⟨Function.update sizes s.nextStructData total, ?_, rfl, rfl, trivial, ?_, ?_⟩
      · rw [hs'.next_eq]
        exact fun seg hseg => (h.segments_fit seg hseg).allocate total
      · rw [hs'.next_eq]
        exact hs'.stack
      · rw [hs'.next_eq]
        exact hs'.registers
  obtain ⟨sizes', hsegs', hmachine⟩ := hfits
  refine ⟨sizes', ⟨?_, ?_, ?_, ?_⟩, ?_, ?_, hmachine⟩
  · rw [hpos]
    exact h.tiled.cursor_le
  · rw [hpos, hsegs]
    exact h.tiled.tiles
  · rw [hsegs]
    exact h.tiled.multiple
  · rw [hsegs]
    exact h.tiled.same_type
  · rw [hsegs]
    exact fun seg hseg => hregistered _ _ (h.registered seg hseg)
  · rw [hsegs]
    exact hsegs'

theorem find?_append_of_some {p : TagEntry → Bool} {l : List TagEntry} {e : TagEntry}
    (h : l.find? p = some e) (l' : List TagEntry) : (l ++ l').find? p = some e := by
  rw [List.find?_append, h]
  rfl

theorem Sound.register {tag : Nat} {type : Ty} (hs : Sound input sizes s)
    (h : tagRegistryRegister tag type s = some (r, s')) :
    Sound input sizes s' ∧ s'.currentPos = s.currentPos ∧ s'.nextStructData = s.nextStructData ∧
      ∀ u, r = .ok u → s'.registered tag type := by
  unfold tagRegistryRegister at h
  rw [Cmd.run_get_bind] at h
  cases hfind : s.registry.find? (·.tag = tag) with
  | some entry =>
    rw [hfind] at h
    obtain ⟨rfl, hcheck⟩ := Cmd.run_failWhen h
    refine ⟨hs, rfl, rfl, fun u hr _ => ?_⟩
    rcases hcheck with ⟨hequal, -⟩ | ⟨-, hr'⟩
    · exact ⟨entry, hfind, by simpa using hequal⟩
    · rw [hr] at hr'
      cases hr'
  | none =>
    rw [hfind] at h
    rcases Cmd.run_failWhen_bind_some h with ⟨-, rfl, rfl⟩ | ⟨-, hmodify⟩
    · exact ⟨hs, rfl, rfl, fun u hr => by cases hr⟩
    obtain ⟨-, rfl⟩ := Prod.mk.inj (Option.some.inj hmodify)
    have htiled := hs.tiled
    refine ⟨⟨⟨htiled.cursor_le, htiled.tiles, htiled.multiple, htiled.same_type⟩,
      fun seg hseg htag => ?_, hs.segments_fit, ?_⟩, rfl, rfl, fun u hr _ => ?_⟩
    · obtain ⟨entry, hentry, hequal⟩ := hs.registered seg hseg htag
      exact ⟨entry, find?_append_of_some hentry _, hequal⟩
    · exact ⟨rfl, rfl, trivial, hs.machine.stack, hs.machine.registers⟩
    · refine ⟨⟨tag, type⟩, ?_, Ty.equal_refl type⟩
      rw [List.find?_append, hfind]
      simp

theorem Sound.equal_of_registered {s : Vm} {tag : Nat} {type : Ty} (hs : Sound input sizes s)
    (htag : tag ≠ 0) (hreg : s.registered tag type) :
    ∀ seg ∈ s.segments, seg.tag = tag → seg.type.equal type = true := by
  intro seg hseg hsame
  have hold := hs.registered seg hseg
  rw [hsame] at hold
  obtain ⟨entry, hentry, hequal⟩ := hold htag
  obtain ⟨entry', hentry', hequal'⟩ := hreg htag
  obtain rfl := Option.some.inj (hentry.symm.trans hentry')
  exact Ty.equal_trans (Ty.equal_symm hequal) hequal'

theorem Sound.of_last {s : Vm} (hs : Sound input sizes s) (init : List Segment) (seg : Segment)
    (hinit : ∀ t ∈ init, t ∈ s.segments) (htiles : Tiles 0 (init.map Segment.slice) seg.startPos)
    (hle : seg.startPos + seg.sizeBytes ≤ input.length) (hdvd : seg.type.size ∣ seg.sizeBytes)
    (hsame : ∀ t ∈ s.segments, t.tag = seg.tag → t.type.equal seg.type = true)
    (hreg : s.registered seg.tag seg.type) (hfits : seg.type.Fits sizes s.nextStructData) :
    Sound input sizes { s with
      segments := init ++ [seg], currentPos := seg.startPos + seg.sizeBytes } := by
  have hmem : ∀ {P : Segment → Prop}, (∀ t ∈ s.segments, P t) → P seg →
      ∀ t ∈ init ++ [seg], P t := by
    intro P hP hseg t ht
    rcases List.mem_append.1 ht with ht | ht
    · exact hP t (hinit t ht)
    · obtain rfl := List.mem_singleton.1 ht
      exact hseg
  refine ⟨⟨hle, ?_, hmem hs.tiled.multiple hdvd, ?_⟩, hmem hs.registered hreg,
    hmem hs.segments_fit hfits, rfl, rfl, trivial, hs.machine.stack, hs.machine.registers⟩
  · change Tiles 0 ((init ++ [seg]).map Segment.slice) _
    rw [List.map_append, List.map_singleton, Tiles.concat_iff]
    exact ⟨htiles, rfl⟩
  · refine hmem (fun t ht => ?_) ?_
    · exact hmem (hs.tiled.same_type t ht) fun htag => hsame t ht htag
    · refine hmem (fun t ht htag => ?_) fun _ => Ty.equal_refl _
      exact Ty.equal_symm (hsame t ht htag.symm)

theorem Sound.append {tag : Nat} {type : Ty} {sizeBytes : Nat} (hs : Sound input sizes s)
    (hsame : ∀ seg ∈ s.segments, seg.tag = tag → seg.type.equal type = true)
    (hreg : s.registered tag type) (hfits : type.Fits sizes s.nextStructData)
    (hdvd : type.size ∣ sizeBytes) (hle : s.currentPos + sizeBytes ≤ input.length)
    (hwrap : s.currentPos + sizeBytes < 2 ^ 64)
    (h : appendSegment tag type sizeBytes s = some (r, s')) :
    Sound input sizes s' ∧ s.currentPos ≤ s'.currentPos := by
  have hpos : (s.currentPos + sizeBytes) % 2 ^ 64 = s.currentPos + sizeBytes :=
    Nat.mod_eq_of_lt hwrap
  have hnew : Sound input sizes { s with
      segments := s.segments ++ [⟨tag, s.currentPos, sizeBytes, type⟩]
      currentPos := s.currentPos + sizeBytes } :=
    hs.of_last s.segments ⟨tag, s.currentPos, sizeBytes, type⟩ (fun _ ht => ht) hs.tiled.tiles hle
      hdvd hsame hreg hfits
  unfold appendSegment at h
  rw [Cmd.run_get_bind] at h
  simp only [hpos] at h
  cases hlast : s.segments.getLast? with
  | none =>
    rw [hlast] at h
    obtain ⟨-, rfl⟩ := Prod.mk.inj (Option.some.inj h)
    exact ⟨hnew, Nat.le_add_right _ _⟩
  | some last =>
    rw [hlast] at h
    dsimp only at h
    split at h
    · rename_i hmerge
      obtain ⟨-, rfl⟩ := Prod.mk.inj (Option.some.inj h)
      obtain ⟨init, hsplit⟩ := List.getLast?_eq_some_iff.1 hlast
      have hinit : ∀ seg ∈ init, seg ∈ s.segments := fun seg hseg => by
        rw [hsplit]
        exact List.mem_append_left _ hseg
      have hmem : last ∈ s.segments := by
        rw [hsplit]
        exact List.mem_append_right _ (List.mem_singleton.2 rfl)
      have htiles := hs.tiled.tiles
      rw [hsplit, List.map_append, List.map_singleton, Tiles.concat_iff] at htiles
      have hstop : last.startPos + last.sizeBytes = s.currentPos := htiles.2
      have hsize : (last.sizeBytes + sizeBytes) % 2 ^ 64 = last.sizeBytes + sizeBytes :=
        Nat.mod_eq_of_lt (by omega)
      -- equal tags have equal types, hence equal sizes: the sum is a multiple again
      have hequal := Ty.size_eq_of_equal (hsame last hmem hmerge.1) (hs.segments_fit last hmem) hfits
      have hmerged := hs.of_last init { last with sizeBytes := last.sizeBytes + sizeBytes }
        hinit htiles.1 (by dsimp only; omega)
        ((hs.tiled.multiple last hmem).add (hequal ▸ hdvd))
        (fun t ht htag => hs.tiled.same_type t ht last hmem htag) (hs.registered last hmem)
        (hs.segments_fit last hmem)
      dsimp only at hmerged ⊢
      rw [← Nat.add_assoc, hstop] at hmerged
      rw [hsplit, List.dropLast_concat, hsize]
      exact ⟨hmerged, Nat.le_add_right _ _⟩
    · rcases Cmd.run_failWhen_bind_some h with ⟨-, -, rfl⟩ | ⟨-, hmodify⟩
      · exact ⟨hs, Nat.le_refl _⟩
      · obtain ⟨-, rfl⟩ := Prod.mk.inj (Option.some.inj hmodify)
        exact ⟨hnew, Nat.le_add_right _ _⟩

/-! ## Safe segments -/

/-- What a segment that passes the checks of its creation must meet: its end does not wrap around,
and a segment of tag `0` has the type of the earlier ones. -/
def SafeSegment (input : List UInt8) (s : Vm) (tag : Nat) (type : Ty) (elementCount : Nat) : Prop :=
  elementCount * type.size < 2 ^ 64 →
    (s.currentPos + elementCount * type.size) % 2 ^ 64 ≤ input.length →
    s.currentPos + elementCount * type.size < 2 ^ 64 ∧
      (tag = 0 → ∀ seg ∈ s.segments, seg.tag = 0 → seg.type.equal type = true)

theorem Sound.segmentCreate {tag : Nat} {type : Ty} {elementCount : Nat} (hs : Sound input sizes s)
    (hfits : type.Fits sizes s.nextStructData) (hsafe : SafeSegment input s tag type elementCount)
    (h : segmentCreateInternal input tag type elementCount s = some (r, s')) :
    Sound input sizes s' ∧ s.currentPos ≤ s'.currentPos := by
  unfold segmentCreateInternal at h
  rcases Cmd.run_failWhen_bind_some h with ⟨-, -, rfl⟩ | ⟨hsize, h₁⟩
  · exact ⟨hs, Nat.le_refl _⟩
  rw [Cmd.run_get_bind] at h₁
  rcases Cmd.run_failWhen_bind_some h₁ with ⟨-, -, rfl⟩ | ⟨hbounds, h₂⟩
  · exact ⟨hs, Nat.le_refl _⟩
  obtain ⟨hwrap, hzero⟩ := hsafe (by omega) (by omega)
  rw [Nat.mod_eq_of_lt hwrap] at hbounds
  by_cases htag : tag ≠ 0
  · rw [if_pos htag] at h₂
    rcases Cmd.run_bind_some h₂ with ⟨e, he, -⟩ | ⟨u, s₁, hregister, happend⟩
    · obtain ⟨hs', hpos, -⟩ := hs.register he
      exact ⟨hs', Nat.le_of_eq hpos.symm⟩
    · obtain ⟨hs₁, hpos, hnext, hreg⟩ := hs.register hregister
      rw [← hpos]
      exact hs₁.append (hs₁.equal_of_registered htag (hreg u rfl)) (hreg u rfl) (by rwa [hnext])
        (Nat.dvd_mul_left _ _) (by omega) (by omega) happend
  · rw [if_neg htag] at h₂
    have htag0 : tag = 0 := by omega
    subst htag0
    exact hs.append (hzero rfl) (fun h0 => absurd rfl h0) hfits (Nat.dvd_mul_left _ _) (by omega)
      hwrap h₂

/-- The next instruction of `s`, if it creates a segment, creates a safe one. -/
def SafeStep (bytecode input : List UInt8) (s : Vm) : Prop :=
  match instrAt bytecode s.pc, s.stack with
  | .segmentCreateUnspecified, .i64 size :: _ =>
    0 ≤ size → SafeSegment input s 0 .unspecified size.toNat
  | .segmentCreateTagged, .i64 size :: .type type :: .tag tag :: _ =>
    0 ≤ size → SafeSegment input s tag type size.toNat
  | _, _ => True

theorem pop_bind_ok {α : Type} {f : Value → VmM α} {a : α} (h : (pop >>= f) s = some (.ok a, s')) :
    ∃ v stack, s.stack = v :: stack ∧ f v { s with stack } = some (.ok a, s') := by
  obtain ⟨v, s₁, hpop, hf⟩ := Cmd.run_bind_ok.1 h
  rcases pop_some hpop with ⟨-, hr, -⟩ | ⟨w, stack, hstack, hr, rfl⟩
  · cases hr
  · obtain rfl := Except.ok.inj hr
    exact ⟨v, stack, hstack, hf⟩

theorem popI64_ok {val : Int} (h : popI64 s = some (.ok val, s')) :
    ∃ stack, s.stack = .i64 val :: stack ∧ s' = { s with stack } := by
  obtain ⟨v, stack, hstack, hmatch⟩ := pop_bind_ok h
  cases v with
  | i64 a =>
    cases hmatch
    exact ⟨stack, hstack, rfl⟩
  | tag tag => cases hmatch
  | type type => cases hmatch

theorem popType_ok {type : Ty} (h : popType s = some (.ok type, s')) :
    ∃ stack, s.stack = .type type :: stack ∧ s' = { s with stack } := by
  obtain ⟨v, stack, hstack, hmatch⟩ := pop_bind_ok h
  cases v with
  | i64 a => cases hmatch
  | tag tag => cases hmatch
  | type t =>
    cases hmatch
    exact ⟨stack, hstack, rfl⟩

theorem popTag_ok {tag : Nat} (h : popTag s = some (.ok tag, s')) :
    ∃ stack, s.stack = .tag tag :: stack ∧ s' = { s with stack } := by
  obtain ⟨v, stack, hstack, hmatch⟩ := pop_bind_ok h
  cases v with
  | i64 a => cases hmatch
  | tag t =>
    cases hmatch
    exact ⟨stack, hstack, rfl⟩
  | type t => cases hmatch

/-! ## Runs -/

section runs

variable {bytecode input : List UInt8} {r : Except VmError Unit}

/-- The values that instructions bring with them: no structure, and no array. -/
def Value.Simple : Value → Prop
  | .type (.primitive _ width) => width = 1
  | .type (.struct _ _ _ _) => False
  | _ => True

theorem Value.Simple.fits (hv : v.Simple) (sizes : Nat → Nat) (next : Nat) :
    v.Fits sizes next := by
  cases v with
  | i64 val => exact trivial
  | tag t => exact trivial
  | type t =>
    cases t with
    | primitive kind width => exact trivial
    | struct => exact hv.elim

theorem decodePush_simple {opcode immediate : Nat} (h : decodePush opcode immediate = .push v) :
    v.Simple := by
  unfold decodePush at h
  split at h
  all_goals first
    | cases h; exact trivial
    | cases h
    | skip
  split at h
  · cases h
    exact rfl
  · cases h

theorem decode_push_simple {family opcode immediate : Nat}
    (h : decode family opcode immediate = .push v) : v.Simple := by
  unfold decode at h
  split at h
  · exact decodePush_simple h
  · unfold decodeMath at h; split at h <;> cases h
  · unfold decodeCmp at h; split at h <;> cases h
  · unfold decodeLogic at h; split at h <;> cases h
  · unfold decodeControl at h; split at h <;> cases h
  · unfold decodeLoad at h; split at h <;> cases h
  · unfold decodeStack at h; split at h <;> cases h
  · unfold decodeType at h; split at h <;> cases h
  · unfold decodeVar at h; split at h <;> cases h
  · cases h
  · unfold decodeSegment at h; split at h <;> cases h
  · cases h

theorem Sound.of_pc {sizes : Nat → Nat} {s : Vm} (h : Sound input sizes s) (pc : Nat) :
    Sound input sizes { s with pc } :=
  ⟨⟨h.tiled.cursor_le, h.tiled.tiles, h.tiled.multiple, h.tiled.same_type⟩, h.registered,
    h.segments_fit, rfl, rfl, trivial, h.machine.stack, h.machine.registers⟩

theorem Sound.of_stack {sizes : Nat → Nat} {s : Vm} (h : Sound input sizes s) {stack : List Value}
    (hsub : ∀ v ∈ stack, v ∈ s.stack) : Sound input sizes { s with stack } :=
  ⟨⟨h.tiled.cursor_le, h.tiled.tiles, h.tiled.multiple, h.tiled.same_type⟩, h.registered,
    h.segments_fit, rfl, rfl, trivial, fun v hv => h.machine.stack v (hsub v hv), h.machine.registers⟩

section

variable {sizes : Nat → Nat} {s s' : Vm} (hs : Sound input sizes s)

include hs

theorem Sound.of_keeps {α : Type} {m : VmM α} {r : Except VmError α} (hm : Cmd.Preserves
      (Machine s.frame (Value.Fits sizes s.nextStructData) s.nextStructData
        (fun _ => True)) m) (h : m s = some (r, s')) :
    (∃ sizes', Sound input sizes' s') ∧ s.currentPos ≤ s'.currentPos := by
  have hs' := hm s r s' hs.machine h
  refine ⟨hs.of_later (Or.inl hs'), Nat.le_of_eq ?_⟩
  have hframe : s'.frame = s.frame := hs'.frame_eq
  exact (congrArg Prod.fst hframe).symm

theorem Sound.createUnspecified (hsafe : ∀ size stack, s.stack = .i64 size :: stack →
      0 ≤ size → SafeSegment input s 0 .unspecified size.toNat)
    (h : opSegmentCreateUnspecified input s = some (r, s')) :
    (∃ sizes', Sound input sizes' s') ∧ s.currentPos ≤ s'.currentPos := by
  rcases Cmd.run_bind_some h with ⟨e, he, -⟩ | ⟨size, s₁, hpop, h₁⟩
  · exact hs.of_keeps popI64_keeps he
  obtain ⟨stack, hstack, rfl⟩ := popI64_ok hpop
  have hs₁ : Sound input sizes { s with stack } := hs.of_stack fun v hv => by
    rw [hstack]
    exact List.mem_cons_of_mem _ hv
  rcases Cmd.run_failWhen_bind_some h₁ with ⟨-, -, rfl⟩ | ⟨hsize, h₂⟩
  · exact ⟨⟨sizes, hs₁⟩, Nat.le_refl _⟩
  have hunspecified : Ty.unspecified.Fits sizes s.nextStructData := trivial
  obtain ⟨hs', hpos⟩ :=
    hs₁.segmentCreate hunspecified (hsafe size stack hstack (Int.not_lt.1 hsize)) h₂
  exact ⟨⟨sizes, hs'⟩, hpos⟩

theorem Sound.createTagged
    (hsafe : ∀ size type tag stack, s.stack = .i64 size :: .type type :: .tag tag :: stack →
      0 ≤ size → SafeSegment input s tag type size.toNat)
    (h : opSegmentCreateTagged input s = some (r, s')) :
    (∃ sizes', Sound input sizes' s') ∧ s.currentPos ≤ s'.currentPos := by
  rcases Cmd.run_bind_some h with ⟨e, he, -⟩ | ⟨size, s₁, hpop, h₁⟩
  · exact hs.of_keeps popI64_keeps he
  obtain ⟨stack₁, hstack₁, rfl⟩ := popI64_ok hpop
  have hs₁ : Sound input sizes { s with stack := stack₁ } := hs.of_stack fun v hv => by
    rw [hstack₁]
    exact List.mem_cons_of_mem _ hv
  rcases Cmd.run_bind_some h₁ with ⟨e, he, -⟩ | ⟨type, s₂, hpop₂, h₂⟩
  · exact hs₁.of_keeps popType_keeps he
  obtain ⟨stack₂, hstack₂, rfl⟩ := popType_ok hpop₂
  have hfits := popType_fits _ _ _ hs₁.machine hpop₂
  have hs₂ : Sound input sizes { s with stack := stack₂ } := hs₁.of_stack fun v hv => by
    rw [hstack₂]
    exact List.mem_cons_of_mem _ hv
  rcases Cmd.run_bind_some h₂ with ⟨e, he, -⟩ | ⟨tag, s₃, hpop₃, h₃⟩
  · exact hs₂.of_keeps popTag_keeps he
  obtain ⟨stack₃, hstack₃, rfl⟩ := popTag_ok hpop₃
  have hs₃ : Sound input sizes { s with stack := stack₃ } := hs₂.of_stack fun v hv => by
    rw [hstack₃]
    exact List.mem_cons_of_mem _ hv
  rcases Cmd.run_failWhen_bind_some h₃ with ⟨-, -, rfl⟩ | ⟨hsize, h₄⟩
  · exact ⟨⟨sizes, hs₃⟩, Nat.le_refl _⟩
  have hstack : s.stack = .i64 size :: .type type :: .tag tag :: stack₃ := by
    rw [hstack₁, show stack₁ = _ from hstack₂, show stack₂ = _ from hstack₃]
  obtain ⟨hs', hpos⟩ :=
    hs₃.segmentCreate hfits (hsafe size type tag stack₃ hstack (Int.not_lt.1 hsize)) h₄
  exact ⟨⟨sizes, hs'⟩, hpos⟩

theorem Sound.step (hsafe : SafeStep bytecode input s)
    (h : Sddl2.step bytecode input s = some (r, s')) :
    (∃ sizes', Sound input sizes' s') ∧ s.currentPos ≤ s'.currentPos := by
  unfold Sddl2.step at h
  rw [Cmd.run_get_bind] at h
  cases hpc : nextPc bytecode s.pc with
  | none =>
    rw [hpc] at h
    obtain ⟨-, rfl⟩ := Prod.mk.inj (Option.some.inj h)
    exact ⟨⟨sizes, hs⟩, Nat.le_refl _⟩
  | some pc =>
    rw [hpc] at h
    change exec bytecode input (instrAt bytecode s.pc) { s with pc } = some (r, s') at h
    have hs₁ := hs.of_pc pc
    unfold SafeStep at hsafe
    cases hinstr : (instrAt bytecode s.pc).createsSegment with
    | false =>
      have hlater := exec_keeps (closed_fits _ _) (fun _ _ _ _ => trivial)
        (fun total v hv => Value.Fits.allocate hv total)
        (fun total members _ _ _ => allocated_fits _ _ total members) hs₁.machine hinstr
        (fun v hv => (decode_push_simple hv).fits _ _) h
      refine ⟨hs₁.of_later hlater, Nat.le_of_eq ?_⟩
      have hframe : s'.frame = s.frame := by
        rcases hlater with hs' | ⟨total, hs'⟩
        · exact hs'.frame_eq
        · exact hs'.frame_eq
      exact (congrArg Prod.fst hframe).symm
    | true =>
      cases hcreate : instrAt bytecode s.pc with
      | segmentCreateUnspecified =>
        rw [hcreate] at h hsafe
        refine hs₁.createUnspecified (fun size stack hstack => ?_) h
        rw [show s.stack = _ from hstack] at hsafe
        exact hsafe
      | segmentCreateTagged =>
        rw [hcreate] at h hsafe
        refine hs₁.createTagged (fun size type tag stack hstack => ?_) h
        rw [show s.stack = _ from hstack] at hsafe
        exact hsafe
      | _ =>
        rw [hcreate] at hinstr
        cases hinstr

end

theorem Sound.init : Sound input (fun _ => 0) Vm.init where
  tiled := ⟨Nat.zero_le _, rfl, by simp [Vm.init], by simp [Vm.init]⟩
  registered := by simp [Vm.init]
  segments_fit := by simp [Vm.init]
  machine := ⟨rfl, rfl, trivial, by simp [Vm.init], by simp [Vm.init]⟩

theorem Reached.sound (hsafe : ∀ s, Reached bytecode input none s → s.running bytecode →
      SafeStep bytecode input s) {e : Option VmError} {s : Vm} (h : Reached bytecode input e s) :
    ∃ sizes, Sound input sizes s := by
  induction h with
  | init => exact ⟨_, Sound.init⟩
  | ok hs hrun hstep ih =>
    obtain ⟨sizes, hsound⟩ := ih
    exact (hsound.step (hsafe _ hs hrun) hstep).1
  | error hs hrun hstep ih =>
    obtain ⟨sizes, hsound⟩ := ih
    exact (hsound.step (hsafe _ hs hrun) hstep).1

/-- **Segments tile the input.**  In a run whose segments are all created safely, every state
reached is tiled, and no step moves the cursor backwards. -/
theorem segments_tile (hsafe : ∀ s, Reached bytecode input none s → s.running bytecode →
      SafeStep bytecode input s) :
    (∀ e s, Reached bytecode input e s → Tiled input s) ∧
      ∀ s r s', Reached bytecode input none s → s.running bytecode →
        Sddl2.step bytecode input s = some (r, s') → s.currentPos ≤ s'.currentPos := by
  constructor
  · intro e s hs
    obtain ⟨sizes, hsound⟩ := hs.sound hsafe
    exact hsound.tiled
  · intro s r s' hs hrun hstep
    obtain ⟨sizes, hsound⟩ := hs.sound hsafe
    exact (hsound.step (hsafe s hs hrun) hstep).2

/-! ## The position in the program -/

theorem segmentCreateInternal_keeps {I : Vm → Prop} {tag : Nat} {type : Ty}
    (hregister : ∀ s registry, I s → I { s with registry })
    (hextend : ∀ s last sizeBytes currentPos, s.segments.getLast? = some last → I s → I { s with
      segments := s.segments.dropLast ++ [{ last with sizeBytes }], currentPos })
    (happend : ∀ s startPos sizeBytes currentPos, I s → I { s with
      segments := s.segments ++ [⟨tag, startPos, sizeBytes, type⟩], currentPos })
    (elementCount : Nat) :
    Cmd.Preserves I (segmentCreateInternal input tag type elementCount) := by
  have hregister' : Cmd.Preserves I (tagRegistryRegister tag type) := by
    refine Cmd.Preserves.get.bind fun s => ?_
    split
    · exact Cmd.Preserves.failWhen _
    · exact (Cmd.Preserves.failWhen _).bind fun _ =>
        Cmd.Preserves.modify fun t ht => hregister t _ ht
  have happend' : Cmd.Preserves I (appendSegment tag type (elementCount * type.size)) := by
    intro s r s' hs h
    unfold appendSegment at h
    rw [Cmd.run_get_bind] at h
    cases hlast : s.segments.getLast? with
    | none =>
      rw [hlast] at h
      obtain ⟨-, rfl⟩ := Prod.mk.inj (Option.some.inj h)
      exact happend s _ _ _ hs
    | some last =>
      rw [hlast] at h
      dsimp only at h
      split at h
      · obtain ⟨-, rfl⟩ := Prod.mk.inj (Option.some.inj h)
        exact hextend s last _ _ hlast hs
      · rcases Cmd.run_failWhen_bind_some h with ⟨-, -, rfl⟩ | ⟨-, hmodify⟩
        · exact hs
        · obtain ⟨-, rfl⟩ := Prod.mk.inj (Option.some.inj hmodify)
          exact happend s _ _ _ hs
  refine (Cmd.Preserves.failWhen _).bind fun _ => Cmd.Preserves.get.bind fun s =>
    (Cmd.Preserves.failWhen _).bind fun _ => ?_
  split
  · exact hregister'.bind fun _ => happend'
  · exact happend'

theorem pc_of_keeps {α : Type} {Q : Nat → Prop} {m : VmM α}
    (hm : ∀ frame next, Cmd.Preserves (Machine frame (fun _ => True) next Q) m) :
    Cmd.Preserves (fun s : Vm => Q s.pc) m := by
  intro s r s' hs h
  have hmachine : Machine s.frame (fun _ => True) s.nextStructData Q s :=
    ⟨rfl, rfl, hs, fun _ _ => trivial, fun _ _ => trivial⟩
  exact (hm _ _ s r s' hmachine h).pc_ok

theorem exec_inside {Q : Nat → Prop} (hQ : StepsInside bytecode Q) (instr : Instr) :
    Cmd.Preserves (fun s : Vm => Q s.pc) (exec bytecode input instr) := by
  have hsegment : ∀ tag type elementCount, Cmd.Preserves (fun s : Vm => Q s.pc)
      (segmentCreateInternal input tag type elementCount) := fun tag type elementCount =>
    segmentCreateInternal_keeps (fun _ _ hs => hs) (fun _ _ _ _ _ hs => hs)
      (fun _ _ _ _ hs => hs) elementCount
  cases hinstr : instr.createsSegment with
  | false =>
    intro s r s' hs h
    have hmachine : Machine s.frame (fun _ => True) s.nextStructData Q s :=
      ⟨rfl, rfl, hs, fun _ _ => trivial, fun _ _ => trivial⟩
    have hlater : Later s.frame (fun _ => True) (fun _ _ => True) s.nextStructData Q s' :=
      exec_keeps closed_true hQ (fun _ _ _ => trivial) (fun _ _ _ _ _ => trivial) hmachine hinstr
        (fun _ _ => trivial) h
    rcases hlater with hs' | ⟨total, hs'⟩
    · exact hs'.pc_ok
    · exact hs'.pc_ok
  | true =>
    cases instr with
    | segmentCreateUnspecified =>
      exact (pc_of_keeps fun _ _ => popI64_keeps).bind fun _ =>
        (Cmd.Preserves.failWhen _).bind fun _ => hsegment _ _ _
    | segmentCreateTagged =>
      exact (pc_of_keeps fun _ _ => popI64_keeps).bind fun _ =>
        (pc_of_keeps fun _ _ => popType_keeps).bind fun _ =>
          (pc_of_keeps fun _ _ => popTag_keeps).bind fun _ =>
            (Cmd.Preserves.failWhen _).bind fun _ => hsegment _ _ _
    | _ => cases hinstr

theorem exec_pc {instr : Instr} {s s' : Vm} (h : exec bytecode input instr s = some (r, s')) :
    s.pc ≤ s'.pc := by
  have hforward : StepsInside bytecode (s.pc ≤ ·) := by
    intro pc pc' hle hnext
    have := nextPc_le hnext
    omega
  exact exec_inside hforward instr s r s' (Nat.le_refl _) h

theorem step_pc {s s' : Vm} {u : Unit} (h : Sddl2.step bytecode input s = some (.ok u, s')) :
    s.pc + 4 ≤ s'.pc := by
  unfold Sddl2.step at h
  rw [Cmd.run_get_bind] at h
  cases hpc : nextPc bytecode s.pc with
  | none =>
    rw [hpc] at h
    cases h
  | some pc =>
    rw [hpc] at h
    change exec bytecode input (instrAt bytecode s.pc) { s with pc } = some (.ok u, s') at h
    exact (nextPc_le hpc).trans (exec_pc h)

theorem runLoop_total : ∀ {fuel : Nat} {s : Vm}, bytecode.length - s.pc < fuel →
    Reached bytecode input none s → runLoop bytecode input fuel s = none →
    ∃ t, Reached bytecode input none t ∧ t.running bytecode ∧
      Sddl2.step bytecode input t = none
  | 0, s, hfuel, _, _ => absurd hfuel (Nat.not_lt_zero _)
  | fuel + 1, s, hfuel, hs, h => by
    rw [runLoop, Cmd.run_get_bind] at h
    by_cases hrun : s.running bytecode
    · rw [if_pos hrun] at h
      cases hstep : Sddl2.step bytecode input s with
      | none => exact ⟨s, hs, hrun, hstep⟩
      | some res =>
        obtain ⟨r, s'⟩ := res
        cases r with
        | error e =>
          rw [Cmd.run_bind_of_error hstep] at h
          cases h
        | ok u =>
          rw [Cmd.run_bind_of_ok hstep] at h
          have hpc := step_pc hstep
          have hlt := hrun.1
          exact runLoop_total (by omega) (Reached.ok hs hrun hstep) h
    · rw [if_neg hrun] at h
      cases h

theorem execute_total (h : executeBytecode bytecode input = none) :
    ∃ s, Reached bytecode input none s ∧ s.running bytecode ∧
      Sddl2.step bytecode input s = none := by
  unfold executeBytecode at h
  split at h
  · cases h
  · rename_i hsize
    exact runLoop_total (by change bytecode.length - 0 < _; omega) (Reached.init (by omega)) h

end runs

/-! ## Programs -/

/-- The state after some steps, or that of an error. -/
def Vm.after (bytecode input : List UInt8) : Nat → Vm
  | 0 => Vm.init
  | n + 1 =>
    match step bytecode input (after bytecode input n) with
    | some (_, s) => s
    | none => after bytecode input n

theorem Reached.eq_after {bytecode input : List UInt8} {n : Nat} {s : Vm}
    (h : Reached bytecode input none s) (hend : ¬ (Vm.after bytecode input n).running bytecode) :
    ∃ m ≤ n, s = Vm.after bytecode input m := by
  generalize he : (none : Option VmError) = e at h
  induction h with
  | init => exact ⟨0, Nat.zero_le n, rfl⟩
  | error => cases he
  | ok hs hrun hstep ih =>
    obtain ⟨m, hle, rfl⟩ := ih he
    have hne : m ≠ n := fun heq => hend (heq ▸ hrun)
    exact ⟨m + 1, by omega, by rw [Vm.after, hstep]⟩

def fiveBytes : List UInt8 := [1, 2, 3, 4, 5]

/-- Two segments under the tag `7`, of one byte and of two, and one of unspecified data. -/
def tagged : List UInt8 :=
  [5, 0, 1, 0, 7, 0, 0, 0, 0x10, 1, 1, 0, 2, 0, 1, 0, 1, 0, 0, 0, 2, 0, 0xC, 0,
   5, 0, 1, 0, 7, 0, 0, 0, 0x10, 1, 1, 0, 2, 0, 1, 0, 2, 0, 0, 0, 2, 0, 0xC, 0,
   2, 0, 1, 0, 2, 0, 0, 0, 1, 0, 0xC, 0]

/-- A program that is tiled all along; the segments under the tag are merged. -/
theorem segments_tile_tagged :
    ((∀ e s, Reached tagged fiveBytes e s → Tiled fiveBytes s) ∧
      ∀ s r s', Reached tagged fiveBytes none s → s.running tagged →
        step tagged fiveBytes s = some (r, s') → s.currentPos ≤ s'.currentPos) ∧
    ((Vm.after tagged fiveBytes 10).segments =
      [⟨7, 0, 3, .primitive .u8 1⟩, ⟨0, 3, 2, .unspecified⟩]) := by
  refine ⟨segments_tile fun s hs hrun => ?_, by rfl⟩
  obtain ⟨m, hm, rfl⟩ := hs.eq_after (n := 10) (by decide)
  have htag : (7 : Nat) ≠ 0 := by decide
  interval_cases m
  any_goals exact trivial
  · exact fun _ _ _ => ⟨by decide, fun h => absurd h htag⟩
  · exact fun _ _ _ => ⟨by decide, fun h => absurd h htag⟩
  · refine fun _ _ _ => ⟨by decide, fun _ seg hseg h => ?_⟩
    obtain rfl : seg = ⟨7, 0, 3, .primitive .u8 1⟩ := List.mem_singleton.1 hseg
    exact absurd h htag

/-- `push.tag 0`, `push.type.u32le`, `push.u32 1`, `segment.create_tagged`, `push.u32 1`,
`segment.create_unspecified`. -/
def taggedZero : List UInt8 :=
  [5, 0, 1, 0, 0, 0, 0, 0, 0x16, 1, 1, 0, 2, 0, 1, 0, 1, 0, 0, 0, 2, 0, 0xC, 0,
   2, 0, 1, 0, 1, 0, 0, 0, 1, 0, 0xC, 0]

/-- `push.u32 4`, `segment.create_unspecified`, `push.tag 1`, `push.type.u32le`,
`push.i64 0x3FFFFFFFFFFFFFFF`, `segment.create_tagged`. -/
def wrappedSize : List UInt8 :=
  [2, 0, 1, 0, 4, 0, 0, 0, 1, 0, 0xC, 0, 5, 0, 1, 0, 1, 0, 0, 0, 0x16, 1, 1, 0,
   4, 0, 1, 0, 255, 255, 255, 255, 255, 255, 255, 0x3F, 2, 0, 0xC, 0]

/-- A segment of unspecified data is merged into one of 32-bit integers, and a size that wraps
around sends the cursor back to the start. -/
theorem segments_not_tiled :
    (∃ s, Reached taggedZero fiveBytes none s ∧ ¬ Tiled fiveBytes s) ∧
      ∃ s, Reached wrappedSize fiveBytes none s ∧ ¬ Tiled fiveBytes s := by
  have hmerged : executeBytecode taggedZero fiveBytes = some (.ok (), { Vm.init with
      currentPos := 5
      segments := [⟨0, 0, 5, .primitive .u32le 1⟩]
      pc := 36 }) := by rfl
  have hwrapped : executeBytecode wrappedSize fiveBytes = some (.ok (), { Vm.init with
      currentPos := 0
      segments := [⟨0, 0, 4, .unspecified⟩, ⟨1, 4, 2 ^ 64 - 4, .primitive .u32le 1⟩]
      registry := [⟨1, .primitive .u32le 1⟩]
      pc := 40 }) := by rfl
  refine ⟨⟨_, execute_reached rfl hmerged, fun h => ?_⟩, ⟨_, execute_reached rfl hwrapped, fun h => ?_⟩⟩
  · have hdvd := h.multiple _ (List.mem_singleton.2 rfl)
    exact absurd hdvd (by decide)
  · have htiles : 0 = 0 ∧ 4 = 4 ∧ 2 ^ 64 = 0 := h.tiles
    exact absurd htiles.2.2 (by norm_num)

end OpenZL.Sddl2
