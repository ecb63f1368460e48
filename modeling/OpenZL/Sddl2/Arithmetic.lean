import OpenZL.Sddl2.Tiling

/-!
# Exact integers and exact sizes

Beside the machine, which computes with 64-bit integers and with types whose widths have 32 bits,
stands one that computes with integers and with the components of a type.

* `exec_follows`, `forEach_follows` — the machine follows the exact one, or reports an error due.
* `arithmetic_exact` — sequences, single integer instructions and the size of an allocation.
-/

namespace OpenZL.Sddl2

open OpenZL.Lib

/-! ## The exact machine -/

/-- The components of a type. -/
inductive Shape
  | primitive (kind : TypeKind)
  | array (count : Nat) (base : Shape)
  | record (members : List Shape)

mutual

/-- The sum of the products of the components. -/
def Shape.size : Shape → Nat
  | .primitive kind => kindSize kind
  | .array count base => count * base.size
  | .record members => Shape.sizes members

def Shape.sizes : List Shape → Nat
  | [] => 0
  | member :: members => member.size + Shape.sizes members

end

/-- How many copies of its element a type stands for. -/
def Shape.width : Shape → Nat
  | .array count base => count * base.width
  | _ => 1

/-- What a value of the stack stands for. -/
inductive Meaning
  | int (val : Int)
  | tag (tag : Nat)
  | type (shape : Shape)

/-- The seven integer instructions; division truncates. -/
def exactMath : MathOp → List Meaning → Option (List Meaning)
  | .add, .int b :: .int a :: rest => some (.int (a + b) :: rest)
  | .sub, .int b :: .int a :: rest => some (.int (a - b) :: rest)
  | .mul, .int b :: .int a :: rest => some (.int (a * b) :: rest)
  | .div, .int b :: .int a :: rest => if b = 0 then none else some (.int (a.tdiv b) :: rest)
  | .mod, .int b :: .int a :: rest => if b = 0 then none else some (.int (a.tmod b) :: rest)
  | .abs, .int a :: rest => some (.int |a| :: rest)
  | .neg, .int a :: rest => some (.int (-a) :: rest)
  | _, _ => none

/-- The members of a structure, from the last one to the first. -/
def exactMembers : Nat → List Shape → List Meaning → Option (List Shape × List Meaning)
  | 0, members, rest => some (members, rest)
  | n + 1, members, .type shape :: rest => exactMembers n (shape :: members) rest
  | _, _, _ => none

def exactStep : Instr → List Meaning → Option (List Meaning)
  | .push (.i64 val), rest => some (.int val :: rest)
  | .push (.type (.primitive kind _)), rest => some (.type (.primitive kind) :: rest)
  | .math op, stack => exactMath op stack
  | .stackDrop, _ :: rest => some rest
  | .stackDup, v :: rest => some (v :: v :: rest)
  | .stackSwap, a :: b :: rest => some (b :: a :: rest)
  | .typeFixedArray, .int count :: .type base :: rest =>
    if count < 0 then none else some (.type (.array count.toNat base) :: rest)
  | .typeStructure, .int count :: rest =>
    if count < 0 then none
    else (exactMembers count.toNat [] rest).map fun (members, rest) =>
      .type (.record members) :: rest
  | .typeSizeof, .type shape :: rest => some (.int shape.size :: rest)
  | _, _ => none

def exactRun : List Instr → List Meaning → Option (List Meaning)
  | [], stack => some stack
  | instr :: instrs, stack => (exactStep instr stack).bind (exactRun instrs)

/-! ## What the machine represents -/

/-- The integer instructions. -/
def MathOp.isInteger : MathOp → Bool
  | .add | .sub | .mul | .div | .mod | .abs | .neg => true
  | .bitAnd | .bitOr | .bitXor | .bitNot => false

def InI64 (val : Int) : Prop := INT64_MIN ≤ val ∧ val ≤ INT64_MAX

/-- The size of a type, before the product is reduced. -/
def Ty.bytes : Ty → Nat
  | .primitive kind width => kindSize kind * width
  | .struct _ _ total width => total * width

/-- A value in the range of its type stands for an integer, a tag or a shape of the same size and
width. -/
def Value.Represents : Value → Meaning → Prop
  | .i64 val, .int val' => val = val' ∧ InI64 val
  | .tag t, .tag t' => t = t'
  | .type t, .type shape => t.bytes = shape.size ∧ t.width = shape.width
  | _, _ => False

def Vm.Represents (s : Vm) (stack : List Meaning) : Prop :=
  List.Forall₂ Value.Represents s.stack stack

/-- The instructions that compute with integers and types. -/
def Instr.calculates : Instr → Prop
  | .push (.i64 val) => InI64 val
  | .push (.type (.primitive _ width)) => width = 1
  | .math op => op.isInteger = true
  | .stackDrop | .stackDup | .stackSwap | .typeFixedArray | .typeStructure | .typeSizeof => True
  | _ => False

/-! ## Errors that are due -/

/-- The machine has no room for an exact result: neither on its stack, nor in 64 bits for an integer
or the size of a type, nor in 32 bits for a width. -/
def Overflows : VmError → List Meaning → Prop
  | .stackOverflow, stack => stackCapacity < stack.length
  | .mathOverflow, .int val :: _ => ¬ InI64 val
  | .mathOverflow, .type shape :: _ => 2 ^ 32 ≤ shape.width ∨ 2 ^ 64 ≤ shape.size
  | _, _ => False

/-- An error is right where there is no exact result, or no room for it. -/
def NoRoom (exact : Option (List Meaning)) (e : VmError) : Prop :=
  ∀ stack, exact = some stack → Overflows e stack

/-- Some instruction of a sequence has no exact result, or one the machine has no room for. -/
def RunsOut : List Instr → List Meaning → VmError → Prop
  | [], _, _ => False
  | instr :: instrs, stack, e =>
    ∀ stack', exactStep instr stack = some stack' → Overflows e stack' ∨ RunsOut instrs stack' e

/-- The machine leaves what the exact machine leaves, or reports an error that is `due`. -/
def ExactOrFails (outcome : Option (Except VmError Unit × Vm)) (exact : Option (List Meaning))
    (due : VmError → Prop) : Prop :=
  (∃ s' stack, outcome = some (.ok (), s') ∧ exact = some stack ∧ s'.Represents stack) ∨
    ∃ e s', outcome = some (.error e, s') ∧ due e

/-- The operands of `SDDL2_op_mod` whose remainder is undefined. -/
def UndefinedMod (op : MathOp) (s : Vm) : Prop :=
  op = .mod ∧ ∃ rest, s.stack = .i64 (-1) :: .i64 INT64_MIN :: rest

/-- The state before an instruction keeps it within the widths of the machine. -/
def Instr.Fits : Instr → Vm → Prop
  | .math op, s => ¬ UndefinedMod op s
  | .typeFixedArray, s => ∀ count rest, s.stack = .i64 count :: rest → count < 2 ^ 32
  | .typeStructure, s => ∀ count rest, s.stack = .i64 count :: rest →
      structDataBytes count.toNat < 2 ^ 64 ∧
        ∀ type, Value.type type ∈ rest.take count.toNat → type.bytes < 2 ^ 64
  | .typeSizeof, s => ∀ type rest, s.stack = .type type :: rest → type.bytes < 2 ^ 63
  | _, _ => True

/-- Every instruction of a sequence fits in the state it starts from. -/
def AllFit (bytecode input : List UInt8) : List Instr → Vm → Prop
  | [], _ => True
  | instr :: instrs, s => instr.Fits s ∧
    ∀ s', exec bytecode input instr s = some (.ok (), s') → AllFit bytecode input instrs s'

/-! ## Guards against overflow -/

theorem inI64_iff {val : Int} : InI64 val ↔ -2 ^ 63 ≤ val ∧ val ≤ 2 ^ 63 - 1 := Iff.rfl

theorem inI64_add {a b : Int} (ha : InI64 a) (h : addWouldOverflow a b ≠ true) :
    InI64 (a + b) := by
  rw [inI64_iff] at ha ⊢
  simp [addWouldOverflow, INT64_MAX, INT64_MIN] at h
  omega

theorem inI64_sub {a b : Int} (ha : InI64 a) (h : subWouldOverflow a b ≠ true) :
    InI64 (a - b) := by
  rw [inI64_iff] at ha ⊢
  simp [subWouldOverflow, INT64_MAX, INT64_MIN] at h
  omega

theorem not_inI64_add {a b : Int} (h : addWouldOverflow a b = true) : ¬ InI64 (a + b) := by
  rw [inI64_iff]
  simp [addWouldOverflow, INT64_MAX, INT64_MIN] at h
  omega

theorem not_inI64_sub {a b : Int} (h : subWouldOverflow a b = true) : ¬ InI64 (a - b) := by
  rw [inI64_iff]
  simp [subWouldOverflow, INT64_MAX, INT64_MIN] at h
  omega

theorem mul_le_of_le_tdiv {m a b : Int} (hb : 0 < b) (hm : 0 ≤ m) (h : a ≤ m.tdiv b) :
    a * b ≤ m := by
  rw [Int.tdiv_eq_ediv_of_nonneg hm] at h
  exact (Int.le_ediv_iff_mul_le hb).1 h

theorem neg_le_mul_of_tdiv_le {m a b : Int} (hb : 0 < b) (hm : 0 ≤ m) (h : (-m).tdiv b ≤ a) :
    -m ≤ a * b := by
  rw [Int.neg_tdiv] at h
  have hmul : -a * b ≤ m := mul_le_of_le_tdiv hb hm (by omega)
  rw [Int.neg_mul] at hmul
  omega

theorem lt_mul_of_tdiv_lt {m a b : Int} (hb : 0 < b) (hm : 0 ≤ m) (h : m.tdiv b < a) :
    m < a * b := by
  rw [Int.tdiv_eq_ediv_of_nonneg hm] at h
  exact (Int.ediv_lt_iff_lt_mul hb).1 h

theorem mul_lt_neg_of_lt_tdiv {m a b : Int} (hb : 0 < b) (hm : 0 ≤ m) (h : a < (-m).tdiv b) :
    a * b < -m := by
  rw [Int.neg_tdiv] at h
  have hmul : m < -a * b := lt_mul_of_tdiv_lt hb hm (by omega)
  rw [Int.neg_mul] at hmul
  omega

theorem inI64_mul {a b : Int} (ha : InI64 a) (hb : InI64 b) (h : mulWouldOverflow a b ≠ true) :
    InI64 (a * b) := by
  rw [inI64_iff] at ha hb ⊢
  unfold mulWouldOverflow INT64_MIN INT64_MAX at h
  split_ifs at h with hzero hone ha₁ hb₁ ha₂ hb₂ hb₂
  · rcases hzero with rfl | rfl
    · omega
    · omega
  · rcases hone with rfl | rfl
    · omega
    · omega
  · rw [ne_eq, decide_eq_true_eq] at h
    subst ha₁
    omega
  · rw [ne_eq, decide_eq_true_eq] at h
    subst hb₁
    omega
  · rw [ne_eq, decide_eq_true_eq] at h
    have hmul : a * b ≤ 2 ^ 63 - 1 := mul_le_of_le_tdiv hb₂ (by decide) (Int.not_lt.1 h)
    have hpos := Int.mul_nonneg (Int.le_of_lt ha₂) (Int.le_of_lt hb₂)
    omega
  · rw [ne_eq, decide_eq_true_eq, Int.not_lt] at h
    have hmul : -2 ^ 63 ≤ b * a := neg_le_mul_of_tdiv_le ha₂ (by decide) h
    have hneg := Int.mul_nonneg (Int.le_of_lt ha₂) (show 0 ≤ -b by omega)
    rw [Int.mul_neg] at hneg
    rw [Int.mul_comm] at hmul
    omega
  · rw [ne_eq, decide_eq_true_eq, Int.not_lt] at h
    have hmul : -2 ^ 63 ≤ a * b := neg_le_mul_of_tdiv_le hb₂ (by decide) h
    have hneg := Int.mul_nonneg (show 0 ≤ -a by omega) (Int.le_of_lt hb₂)
    rw [Int.neg_mul] at hneg
    omega
  · rw [ne_eq, decide_eq_true_eq, Int.not_lt] at h
    have hle : -a ≤ (2 ^ 63 - 1 : Int).tdiv (-b) := by
      rw [Int.tdiv_neg]
      omega
    have hmul : -a * -b ≤ 2 ^ 63 - 1 := mul_le_of_le_tdiv (by omega) (by decide) hle
    have hpos := Int.mul_nonneg (show 0 ≤ -a by omega) (show 0 ≤ -b by omega)
    rw [Int.neg_mul_neg] at hmul hpos
    omega

theorem not_inI64_mul {a b : Int} (ha : InI64 a) (hb : InI64 b) (h : mulWouldOverflow a b = true) :
    ¬ InI64 (a * b) := by
  rw [inI64_iff] at ha hb ⊢
  unfold mulWouldOverflow INT64_MIN INT64_MAX at h
  split_ifs at h with hzero hone ha₁ hb₁ ha₂ hb₂ hb₂
  · rw [decide_eq_true_eq] at h
    subst ha₁ h
    omega
  · rw [decide_eq_true_eq] at h
    subst hb₁ h
    omega
  · have hmul := lt_mul_of_tdiv_lt hb₂ (by decide) (of_decide_eq_true h)
    omega
  · have hmul := mul_lt_neg_of_lt_tdiv ha₂ (by decide) (of_decide_eq_true h)
    rw [Int.mul_comm] at hmul
    omega
  · have hmul := mul_lt_neg_of_lt_tdiv hb₂ (by decide) (of_decide_eq_true h)
    omega
  · have hlt : (2 ^ 63 - 1 : Int).tdiv (-b) < -a := by
      have := of_decide_eq_true h
      rw [Int.tdiv_neg]
      omega
    have hmul := lt_mul_of_tdiv_lt (show 0 < -b by omega) (by decide) hlt
    rw [Int.neg_mul_neg] at hmul
    omega

theorem inI64_tdiv {a b : Int} (ha : InI64 a) (h : ¬ (a = INT64_MIN ∧ b = -1)) :
    InI64 (a.tdiv b) := by
  have h : ¬ (a = -2 ^ 63 ∧ b = -1) := h
  rw [inI64_iff] at ha ⊢
  have habs := Int.natAbs_tdiv_le_natAbs a b
  by_cases hmin : a = -2 ^ 63
  · -- the quotient of the smallest integer is not positive, or at most half as large
    rcases Int.lt_or_le b 0 with hb | hb
    · have hhalf : a.natAbs / b.natAbs ≤ a.natAbs / 2 :=
        Nat.div_le_div_left (by omega) (by decide)
      have hquotient : (a.tdiv b).natAbs = a.natAbs / b.natAbs := Int.natAbs_tdiv a b
      omega
    · have hneg := Int.tdiv_nonneg (show 0 ≤ -a by omega) hb
      rw [Int.neg_tdiv] at hneg
      omega
  · omega

theorem inI64_tmod {a b : Int} (ha : InI64 a) : InI64 (a.tmod b) := by
  rw [inI64_iff] at ha ⊢
  have habs := Int.natAbs_tmod a b
  have hle := Nat.mod_le a.natAbs b.natAbs
  rcases Int.lt_or_le a 0 with hneg | hpos
  · have hsign := Int.tmod_nonneg b (show 0 ≤ -a by omega)
    rw [Int.neg_tmod] at hsign
    omega
  · have hsign := Int.tmod_nonneg b hpos
    omega

/-! ## Popping operands -/

theorem popI64_cases (s : Vm) :
    (∃ val rest, s.stack = .i64 val :: rest ∧ popI64 s = some (.ok val, { s with stack := rest })) ∨
      (∀ val rest, s.stack ≠ .i64 val :: rest) ∧ ∃ e s', popI64 s = some (.error e, s') := by
  unfold popI64 pop
  cases hstack : s.stack with
  | nil => exact Or.inr ⟨by simp, _, _, by simp only [bind, Cmd.bind, Cmd.get, hstack]; rfl⟩
  | cons v rest =>
    cases v with
    | i64 val =>
      exact Or.inl ⟨val, rest, rfl, by simp only [bind, Cmd.bind, Cmd.get, hstack]; rfl⟩
    | tag t => exact Or.inr ⟨by simp, _, _, by simp only [bind, Cmd.bind, Cmd.get, hstack]; rfl⟩
    | type t => exact Or.inr ⟨by simp, _, _, by simp only [bind, Cmd.bind, Cmd.get, hstack]; rfl⟩

theorem popI64_of_stack {s : Vm} {val : Int} {rest : List Value}
    (h : s.stack = .i64 val :: rest) : popI64 s = some (.ok val, { s with stack := rest }) := by
  unfold popI64 pop
  simp only [bind, Cmd.bind, Cmd.get, h]
  rfl

theorem popPositiveI64_cases (s : Vm) :
    (∃ val rest, s.stack = .i64 val :: rest ∧ ¬ val < 0 ∧
      popPositiveI64 s = some (.ok val.toNat, { s with stack := rest })) ∨
      (∀ val rest, s.stack = .i64 val :: rest → val < 0) ∧
        ∃ e s', popPositiveI64 s = some (.error e, s') := by
  unfold popPositiveI64
  rcases popI64_cases s with ⟨val, rest, hstack, hpop⟩ | ⟨hne, e, s', hpop⟩
  · rw [Cmd.run_bind_of_ok hpop]
    by_cases hneg : val < 0
    · rw [Cmd.failWhen, if_pos hneg]
      refine Or.inr ⟨fun val' rest' hstack' => ?_, _, _, rfl⟩
      rw [hstack] at hstack'
      cases hstack'
      exact hneg
    · rw [Cmd.failWhen, if_neg hneg]
      exact Or.inl ⟨val, rest, hstack, hneg, rfl⟩
  · exact Or.inr ⟨fun val rest h => (hne val rest h).elim, e, s', Cmd.run_bind_of_error hpop⟩

theorem popType_cases (s : Vm) :
    (∃ t rest, s.stack = .type t :: rest ∧ popType s = some (.ok t, { s with stack := rest })) ∨
      (∀ t rest, s.stack ≠ .type t :: rest) ∧ ∃ e s', popType s = some (.error e, s') := by
  unfold popType pop
  cases hstack : s.stack with
  | nil => exact Or.inr ⟨by simp, _, _, by simp only [bind, Cmd.bind, Cmd.get, hstack]; rfl⟩
  | cons v rest =>
    cases v with
    | i64 val => exact Or.inr ⟨by simp, _, _, by simp only [bind, Cmd.bind, Cmd.get, hstack]; rfl⟩
    | tag t => exact Or.inr ⟨by simp, _, _, by simp only [bind, Cmd.bind, Cmd.get, hstack]; rfl⟩
    | type t => exact Or.inl ⟨t, rest, rfl, by simp only [bind, Cmd.bind, Cmd.get, hstack]; rfl⟩

theorem Vm.Represents.int {s : Vm} {stack : List Meaning} {val : Int} {rest : List Value}
    (hs : s.Represents stack) (hstack : s.stack = .i64 val :: rest) :
    ∃ stack', stack = .int val :: stack' ∧ InI64 val ∧ List.Forall₂ Value.Represents rest stack' := by
  unfold Vm.Represents at hs
  rw [hstack] at hs
  cases hs with
  | @cons _ m _ stack' hv hrest =>
    cases m with
    | int val' =>
      obtain ⟨rfl, hval⟩ := hv
      exact ⟨stack', rfl, hval, hrest⟩
    | tag t => exact hv.elim
    | type shape => exact hv.elim

theorem Vm.Represents.type {s : Vm} {stack : List Meaning} {t : Ty} {rest : List Value}
    (hs : s.Represents stack) (hstack : s.stack = .type t :: rest) :
    ∃ shape stack', stack = .type shape :: stack' ∧ t.bytes = shape.size ∧ t.width = shape.width ∧
      List.Forall₂ Value.Represents rest stack' := by
  unfold Vm.Represents at hs
  rw [hstack] at hs
  cases hs with
  | @cons _ m _ stack' hv hrest =>
    cases m with
    | int val => exact hv.elim
    | tag t => exact hv.elim
    | type shape => exact ⟨shape, stack', rfl, hv.1, hv.2, hrest⟩

theorem Vm.Represents.of_int {s : Vm} {val : Int} {stack : List Meaning}
    (hs : s.Represents (.int val :: stack)) : ∃ rest, s.stack = .i64 val :: rest := by
  obtain ⟨v, rest, hv, -, hstack⟩ := List.forall₂_cons_right_iff.1 hs
  cases v with
  | i64 val' =>
    obtain ⟨rfl, -⟩ := hv
    exact ⟨rest, hstack⟩
  | tag t => exact hv.elim
  | type t => exact hv.elim

theorem Vm.Represents.of_type {s : Vm} {shape : Shape} {stack : List Meaning}
    (hs : s.Represents (.type shape :: stack)) : ∃ t rest, s.stack = .type t :: rest := by
  obtain ⟨v, rest, hv, -, hstack⟩ := List.forall₂_cons_right_iff.1 hs
  cases v with
  | i64 val => exact hv.elim
  | tag t => exact hv.elim
  | type t => exact ⟨t, rest, hstack⟩

theorem Vm.Represents.int_ne {s : Vm} {stack : List Meaning} (hs : s.Represents stack)
    (h : ∀ val rest, s.stack ≠ .i64 val :: rest) : ∀ val rest, stack ≠ .int val :: rest := by
  rintro val rest rfl
  obtain ⟨rest', hstack⟩ := hs.of_int
  exact h val rest' hstack

theorem Vm.Represents.type_ne {s : Vm} {stack : List Meaning} (hs : s.Represents stack)
    (h : ∀ t rest, s.stack ≠ .type t :: rest) : ∀ shape rest, stack ≠ .type shape :: rest := by
  rintro shape rest rfl
  obtain ⟨t, rest', hstack⟩ := hs.of_type
  exact h t rest' hstack

/-! ## Following the exact machine -/

/-- An instruction does what the exact machine does, or fails for want of room. -/
abbrev Follows (outcome : Option (Except VmError Unit × Vm)) (exact : Option (List Meaning)) : Prop :=
  ExactOrFails outcome exact (NoRoom exact)

namespace Follows

variable {s : Vm} {stack : List Meaning} {exact : Option (List Meaning)}

theorem of_none {outcome : Option (Except VmError Unit × Vm)} {e : VmError} {s' : Vm}
    (h : outcome = some (.error e, s')) (hexact : exact = none) : Follows outcome exact :=
  Or.inr ⟨e, s', h, fun stack h => by rw [hexact] at h; cases h⟩

theorem of_overflow {outcome : Option (Except VmError Unit × Vm)} {e : VmError} {s' : Vm}
    {stack : List Meaning} (h : outcome = some (.error e, s')) (hover : Overflows e stack) :
    Follows outcome (some stack) :=
  Or.inr ⟨e, s', h, fun _ h => Option.some.inj h ▸ hover⟩

theorem of_ok {m : VmM Unit} {s' : Vm} (h : m s = some (.ok (), s')) (hs' : s'.Represents stack) :
    Follows (m s) (some stack) :=
  Or.inl ⟨s', stack, h, rfl, hs'⟩

theorem push {v : Value} {m : Meaning} (hv : v.Represents m) (hs : s.Represents stack) :
    Follows (push v s) (some (m :: stack)) := by
  unfold Sddl2.push
  rw [Cmd.run_get_bind]
  by_cases hfull : s.stack.length ≥ stackCapacity
  · refine of_overflow (Cmd.run_bind_of_error (by rw [Cmd.failWhen, if_pos hfull]; rfl)) ?_
    rw [Overflows, List.length_cons, ← hs.length_eq]
    omega
  · rw [Cmd.run_bind_of_ok (a := ()) (Cmd.run_failWhen_ok.2 ⟨hfull, rfl⟩)]
    exact of_ok rfl (List.Forall₂.cons hv hs)

theorem failWhen {c : Prop} [Decidable c] {e : VmError} {f : Unit → VmM Unit}
    (hc : c → NoRoom exact e) (h : ¬ c → Follows (f () s) exact) :
    Follows ((Cmd.failWhen c e >>= f) s) exact := by
  by_cases hc' : c
  · exact Or.inr ⟨e, s, Cmd.run_bind_of_error (by rw [Cmd.failWhen, if_pos hc']; rfl), hc hc'⟩
  · rw [Cmd.run_bind_of_ok (Cmd.run_failWhen_ok.2 ⟨hc', rfl⟩)]
    exact h hc'

variable (hs : s.Represents stack)

include hs

theorem popI64 {f : Int → VmM Unit} (hnone : (∀ val rest, stack ≠ .int val :: rest) → exact = none)
    (h : ∀ val rest stack', s.stack = .i64 val :: rest → stack = .int val :: stack' → InI64 val →
      List.Forall₂ Value.Represents rest stack' → Follows (f val { s with stack := rest }) exact) :
    Follows ((Sddl2.popI64 >>= f) s) exact := by
  rcases popI64_cases s with ⟨val, rest, hstack, hpop⟩ | ⟨hne, e, s', hpop⟩
  · obtain ⟨stack', hexact, hval, hrest⟩ := hs.int hstack
    rw [Cmd.run_bind_of_ok hpop]
    exact h val rest stack' hstack hexact hval hrest
  · exact of_none (Cmd.run_bind_of_error hpop) (hnone (hs.int_ne hne))

theorem popPositiveI64 {f : Nat → VmM Unit}
    (hnone : (∀ val rest, stack = .int val :: rest → val < 0) → exact = none)
    (h : ∀ val rest stack', s.stack = .i64 val :: rest → stack = .int val :: stack' → ¬ val < 0 →
      List.Forall₂ Value.Represents rest stack' →
      Follows (f val.toNat { s with stack := rest }) exact) :
    Follows ((Sddl2.popPositiveI64 >>= f) s) exact := by
  rcases popPositiveI64_cases s with ⟨val, rest, hstack, hneg, hpop⟩ | ⟨hne, e, s', hpop⟩
  · obtain ⟨stack', hexact, -, hrest⟩ := hs.int hstack
    rw [Cmd.run_bind_of_ok hpop]
    exact h val rest stack' hstack hexact hneg hrest
  · refine of_none (Cmd.run_bind_of_error hpop) (hnone ?_)
    rintro val rest rfl
    obtain ⟨rest', hstack⟩ := hs.of_int
    exact hne val rest' hstack

theorem popType {f : Ty → VmM Unit}
    (hnone : (∀ shape rest, stack ≠ .type shape :: rest) → exact = none)
    (h : ∀ t rest shape stack', s.stack = .type t :: rest → stack = .type shape :: stack' →
      t.bytes = shape.size → t.width = shape.width → List.Forall₂ Value.Represents rest stack' →
      Follows (f t { s with stack := rest }) exact) :
    Follows ((Sddl2.popType >>= f) s) exact := by
  rcases popType_cases s with ⟨t, rest, hstack, hpop⟩ | ⟨hne, e, s', hpop⟩
  · obtain ⟨shape, stack', hexact, hbytes, hwidth, hrest⟩ := hs.type hstack
    rw [Cmd.run_bind_of_ok hpop]
    exact h t rest shape stack' hstack hexact hbytes hwidth hrest
  · exact of_none (Cmd.run_bind_of_error hpop) (hnone (hs.type_ne hne))

theorem binary {f : Int → Int → VmM Unit}
    (hnone : (∀ b a rest, stack ≠ .int b :: .int a :: rest) → exact = none)
    (h : ∀ a b rest stack', s.stack = .i64 b :: .i64 a :: rest →
      stack = .int b :: .int a :: stack' → InI64 a → InI64 b →
      List.Forall₂ Value.Represents rest stack' → Follows (f a b { s with stack := rest }) exact) :
    Follows ((do let b ← Sddl2.popI64; let a ← Sddl2.popI64; f a b : VmM Unit) s) exact := by
  refine popI64 hs (fun hne => hnone fun b a rest => hne b _) ?_
  rintro b rest stack₁ hb rfl hbval hrest
  have hs₁ : Vm.Represents { s with stack := rest } stack₁ := hrest
  refine popI64 hs₁ (fun hne => hnone ?_) ?_
  · rintro b' a rest' heq
    cases heq
    exact hne a rest' rfl
  · rintro a rest' stack₂ ha rfl haval hrest'
    have ha : rest = .i64 a :: rest' := ha
    exact h a b rest' stack₂ (by rw [hb, ha]) rfl haval hbval hrest'

theorem unary {f : Int → VmM Unit} (hnone : (∀ a rest, stack ≠ .int a :: rest) → exact = none)
    (h : ∀ a rest stack', stack = .int a :: stack' → InI64 a →
      List.Forall₂ Value.Represents rest stack' → Follows (f a { s with stack := rest }) exact) :
    Follows ((Sddl2.popI64 >>= f) s) exact :=
  popI64 hs hnone fun a rest stack' _ => h a rest stack'

end Follows

theorem noRoom_int {val : Int} {stack : List Meaning} (h : ¬ InI64 val) :
    NoRoom (some (.int val :: stack)) .mathOverflow := by
  rintro _ ⟨⟩
  exact h

theorem exactMath_binary_none {op : MathOp} {stack : List Meaning} (habs : op ≠ .abs)
    (hneg : op ≠ .neg) (h : ∀ b a rest, stack ≠ .int b :: .int a :: rest) :
    exactMath op stack = none := by
  unfold exactMath
  split <;> first | rfl | exact absurd rfl (h _ _ _) | contradiction

theorem exactMath_unary_none {op : MathOp} {stack : List Meaning}
    (h : ∀ a rest, stack ≠ .int a :: rest) : exactMath op stack = none := by
  unfold exactMath
  split <;> first | rfl | exact absurd rfl (h _ _)

theorem opMath_follows {op : MathOp} {s : Vm} {stack : List Meaning}
    (hop : op.isInteger = true) (hs : s.Represents stack) (hmod : ¬ UndefinedMod op s) :
    Follows (opMath op s) (exactMath op stack) := by
  cases op with
  | add =>
    refine .binary hs (exactMath_binary_none (by decide) (by decide)) ?_
    rintro a b rest stack' - rfl ha - hrest
    exact .failWhen (fun h => noRoom_int (not_inI64_add h)) fun h =>
      .push ⟨rfl, inI64_add ha h⟩ hrest
  | sub =>
    refine .binary hs (exactMath_binary_none (by decide) (by decide)) ?_
    rintro a b rest stack' - rfl ha - hrest
    exact .failWhen (fun h => noRoom_int (not_inI64_sub h)) fun h =>
      .push ⟨rfl, inI64_sub ha h⟩ hrest
  | mul =>
    refine .binary hs (exactMath_binary_none (by decide) (by decide)) ?_
    rintro a b rest stack' - rfl ha hb hrest
    exact .failWhen (fun h => noRoom_int (not_inI64_mul ha hb h)) fun h =>
      .push ⟨rfl, inI64_mul ha hb h⟩ hrest
  | div =>
    refine .binary hs (exactMath_binary_none (by decide) (by decide)) ?_
    rintro a b rest stack' - rfl ha - hrest
    rw [exactMath]
    refine .failWhen (fun hzero => ?_) fun hzero => ?_
    · rw [if_pos hzero]
      rintro _ ⟨⟩
    · rw [if_neg hzero]
      refine .failWhen (fun hcorner => noRoom_int ?_) fun hcorner =>
        .push ⟨rfl, inI64_tdiv ha hcorner⟩ hrest
      obtain ⟨rfl, rfl⟩ := hcorner
      unfold InI64
      decide
  | mod =>
    refine .binary hs (exactMath_binary_none (by decide) (by decide)) ?_
    rintro a b rest stack' hstack rfl ha - hrest
    have hcorner : ¬ (a = INT64_MIN ∧ b = -1) := by
      rintro ⟨rfl, rfl⟩
      exact hmod ⟨rfl, rest, hstack⟩
    rw [exactMath, if_neg hcorner]
    refine .failWhen (fun hzero => ?_) fun hzero => ?_
    · rw [if_pos hzero]
      rintro _ ⟨⟩
    · rw [if_neg hzero]
      exact .push ⟨rfl, inI64_tmod ha⟩ hrest
  | abs =>
    refine .unary hs exactMath_unary_none ?_
    rintro a rest stack' rfl ha hrest
    refine .failWhen (fun hmin => noRoom_int ?_) fun hmin => .push ⟨?_, ?_⟩ hrest
    · rw [hmin]
      unfold InI64
      decide
    · split
      · rw [abs_of_neg ‹_›]
      · rw [abs_of_nonneg (by omega)]
    · have hmin : a ≠ -2 ^ 63 := hmin
      rw [inI64_iff] at ha ⊢
      split <;> omega
  | neg =>
    refine .unary hs exactMath_unary_none ?_
    rintro a rest stack' rfl ha hrest
    refine .failWhen (fun hmin => noRoom_int ?_) fun hmin => .push ⟨rfl, ?_⟩ hrest
    · rw [hmin]
      unfold InI64
      decide
    · have hmin : a ≠ -2 ^ 63 := hmin
      rw [inI64_iff] at ha ⊢
      omega
  | bitAnd => cases hop
  | bitOr => cases hop
  | bitXor => cases hop
  | bitNot => cases hop

/-! ## Types -/

theorem Ty.size_eq_mod (t : Ty) : t.size = t.bytes % 2 ^ 64 := by
  cases t with
  | primitive kind width => rfl
  | struct structData members total width => rfl

theorem Ty.bytes_withWidth (t : Ty) (count : Nat) :
    (t.withWidth (t.width * count)).bytes = count * t.bytes := by
  cases t with
  | primitive kind width =>
    change kindSize kind * (width * count) = count * (kindSize kind * width)
    ring
  | struct structData members total width =>
    change total * (width * count) = count * (total * width)
    ring

theorem toI64_of_lt {n : Nat} (h : n < 2 ^ 63) : toI64 (n % 2 ^ 64) = n := by
  have hmod : n % 2 ^ 64 = n := Nat.mod_eq_of_lt (by omega)
  rw [toI64, hmod, hmod, if_pos h]
  omega

theorem popMembers_cases {allocationSize : Nat} : ∀ {n : Nat} {members : List Ty}
    {shapes : List Shape} {s : Vm} {stack : List Meaning},
    structDataBytes n ≤ allocationSize → s.Represents stack →
    List.Forall₂ (fun t shape => Ty.bytes t = Shape.size shape) members shapes →
    (∃ members' shapes' rest stack', popMembers allocationSize n members s =
        some (.ok members', { s with stack := rest }) ∧
      exactMembers n shapes stack = some (shapes', stack') ∧
      List.Forall₂ Value.Represents rest stack' ∧
      List.Forall₂ (fun t shape => Ty.bytes t = Shape.size shape) members' shapes' ∧
      ∀ t ∈ members', t ∈ members ∨ Value.type t ∈ s.stack.take n) ∨
    exactMembers n shapes stack = none ∧
      ∃ e s', popMembers allocationSize n members s = some (.error e, s')
  | 0, members, shapes, s, stack, _, hs, hmembers =>
    Or.inl ⟨members, shapes, s.stack, stack, rfl, rfl, hs, hmembers, fun _ ht => Or.inl ht⟩
  | n + 1, members, shapes, s, stack, halloc, hs, hmembers => by
    rcases popType_cases s with ⟨t, rest, hstack, hpop⟩ | ⟨hne, e, s', hpop⟩
    · obtain ⟨shape, stack', rfl, hbytes, -, hrest⟩ := hs.type hstack
      have hless : structDataBytes n ≤ structDataBytes (n + 1) := by
        unfold structDataBytes sizeofType
        omega
      have hrun : popMembers allocationSize (n + 1) members s =
          popMembers allocationSize n (t :: members) { s with stack := rest } := by
        rw [popMembers, Cmd.run_bind_of_ok hpop, Cmd.require, if_pos halloc]
        rfl
      rw [hrun]
      have hrest' : Vm.Represents { s with stack := rest } stack' := hrest
      rcases popMembers_cases (hless.trans halloc) hrest' (hmembers.cons hbytes)
        with ⟨members', shapes', rest', stack'', hok, hexact, hrep, hall, hmem⟩ | herror
      · refine Or.inl ⟨members', shapes', rest', stack'', hok, hexact, hrep, hall, fun u hu => ?_⟩
        rw [hstack, List.take_succ_cons]
        rcases hmem u hu with hu | hu
        · rcases List.mem_cons.1 hu with rfl | hu
          · exact Or.inr List.mem_cons_self
          · exact Or.inl hu
        · exact Or.inr (List.mem_cons_of_mem _ hu)
      · exact Or.inr herror
    · refine Or.inr ⟨?_, e, s', Cmd.run_bind_of_error hpop⟩
      have hne := hs.type_ne hne
      unfold exactMembers
      split
      · contradiction
      · exact absurd rfl (hne _ _)
      · rfl

theorem totalSize_cases : ∀ {members : List Ty} {shapes : List Shape} {total : Nat} (s : Vm),
    List.Forall₂ (fun t shape => Ty.bytes t = Shape.size shape) members shapes →
    (∀ t ∈ members, t.bytes < 2 ^ 64) →
    totalSize members total s = some (.ok (total + Shape.sizes shapes), s) ∨
      2 ^ 64 ≤ total + Shape.sizes shapes ∧
        ∃ s', totalSize members total s = some (.error .mathOverflow, s')
  | [], [], total, s, _, _ => Or.inl rfl
  | t :: members, shape :: shapes, total, s, hall, hlt => by
    obtain ⟨hbytes, hrest⟩ := List.forall₂_cons.1 hall
    have hsize : t.size = shape.size := by
      rw [Ty.size_eq_mod, Nat.mod_eq_of_lt (hlt t List.mem_cons_self), hbytes]
    unfold totalSize
    rw [Shape.sizes]
    by_cases hover : total + t.size ≥ 2 ^ 64
    · exact Or.inr ⟨by omega, _, Cmd.run_bind_of_error (by rw [Cmd.failWhen, if_pos hover]; rfl)⟩
    · rw [Cmd.run_bind_of_ok (a := ()) (Cmd.run_failWhen_ok.2 ⟨hover, rfl⟩), hsize,
        ← Nat.add_assoc]
      exact totalSize_cases s hrest fun u hu => hlt u (List.mem_cons_of_mem _ hu)

theorem exactStep_fixedArray_none {stack : List Meaning}
    (h : ∀ count base rest, stack = .int count :: .type base :: rest → count < 0) :
    exactStep .typeFixedArray stack = none := by
  match stack, h with
  | .int count :: .type base :: rest, h => rw [exactStep, if_pos (h count base rest rfl)]
  | [], _ | .tag _ :: _, _ | .type _ :: _, _ | [.int _], _ | .int _ :: .int _ :: _, _
  | .int _ :: .tag _ :: _, _ => rfl

theorem opTypeFixedArray_follows {s : Vm} {stack : List Meaning} (hs : s.Represents stack)
    (hfits : Instr.Fits .typeFixedArray s) :
    Follows (opTypeFixedArray s) (exactStep .typeFixedArray stack) := by
  refine .popPositiveI64 hs (fun hneg => exactStep_fixedArray_none fun count _ _ => hneg count _) ?_
  rintro count rest stack₁ hcount rfl hneg hrest
  have hs₁ : Vm.Represents { s with stack := rest } stack₁ := hrest
  refine .popType hs₁ (fun hne => exactStep_fixedArray_none ?_) ?_
  · rintro count' base rest' heq
    cases heq
    exact (hne base rest' rfl).elim
  rintro t rest' shape stack₂ - rfl hbytes hwidth hrest'
  have hlt : count.toNat < 2 ^ 32 := by
    have := hfits count rest hcount
    omega
  have hwidth' : t.width * count.toNat = (Shape.array count.toNat shape).width := by
    rw [hwidth, Shape.width, Nat.mul_comm]
  rw [exactStep, if_neg hneg, Nat.mod_eq_of_lt hlt]
  refine .failWhen (fun hover => ?_) fun _ => .push ⟨?_, ?_⟩ hrest'
  · rintro _ ⟨⟩
    exact Or.inl (hwidth' ▸ hover)
  · change (t.withWidth (t.width * count.toNat)).bytes = count.toNat * shape.size
    rw [Ty.bytes_withWidth, hbytes]
  · rw [← hwidth']
    cases t <;> rfl

theorem exactStep_structure_none {stack : List Meaning}
    (h : ∀ count rest, stack = .int count :: rest → count < 0) :
    exactStep .typeStructure stack = none := by
  match stack, h with
  | .int count :: rest, h => rw [exactStep, if_pos (h count rest rfl)]
  | [], _ | .tag _ :: _, _ | .type _ :: _, _ => rfl

theorem opTypeStructure_follows {s : Vm} {stack : List Meaning} (hs : s.Represents stack)
    (hfits : Instr.Fits .typeStructure s) :
    Follows (opTypeStructure s) (exactStep .typeStructure stack) := by
  refine .popPositiveI64 hs exactStep_structure_none ?_
  rintro count rest stack₁ hcount rfl hneg hrest
  obtain ⟨halloc, hbytes⟩ := hfits count rest hcount
  rw [Cmd.run_get_bind, Cmd.run_modify_bind, exactStep, if_neg hneg]
  have hroom : structDataBytes count.toNat ≤ structAllocationSize count.toNat := by
    rw [structAllocationSize, Nat.mod_eq_of_lt halloc]
  have hs₁ : Vm.Represents { s with stack := rest, nextStructData := s.nextStructData + 1 }
    stack₁ := hrest
  rcases popMembers_cases hroom hs₁ List.Forall₂.nil
    with ⟨members, shapes, rest', stack₂, hpop, hexact, hrep, hall, hmem⟩ | ⟨hexact, e, s', hpop⟩
  · rw [hexact, Cmd.run_bind_of_ok hpop]
    have hlt : ∀ t ∈ members, t.bytes < 2 ^ 64 := by
      intro t ht
      rcases hmem t ht with ht | ht
      · cases ht
      · exact hbytes t ht
    rcases totalSize_cases _ hall hlt with htotal | ⟨hover, s', htotal⟩
    · rw [Cmd.run_bind_of_ok htotal]
      refine .push ⟨?_, rfl⟩ hrep
      change (0 + Shape.sizes shapes) * 1 = Shape.sizes shapes
      omega
    · rw [Nat.zero_add] at hover
      exact .of_overflow (Cmd.run_bind_of_error htotal) (Or.inr hover)
  · rw [hexact]
    exact .of_none (Cmd.run_bind_of_error hpop) rfl

theorem opTypeSizeof_follows {s : Vm} {stack : List Meaning} (hs : s.Represents stack)
    (hfits : Instr.Fits .typeSizeof s) :
    Follows (opTypeSizeof s) (exactStep .typeSizeof stack) := by
  refine .popType hs (fun hne => ?_) ?_
  · match stack, hne with
    | .type shape :: rest, hne => exact absurd rfl (hne shape rest)
    | [], _ | .tag _ :: _, _ | .int _ :: _, _ => rfl
  rintro t rest shape stack' ht rfl hbytes - hrest
  have hlt := hfits t rest ht
  refine .push ⟨?_, ?_⟩ hrest
  · rw [Ty.size_eq_mod, toI64_of_lt hlt, hbytes]
  · rw [Ty.size_eq_mod, toI64_of_lt hlt, inI64_iff]
    omega

/-! ## Instructions and sequences -/

theorem exec_follows {bytecode input : List UInt8} {instr : Instr} {s : Vm}
    {stack : List Meaning} (hinstr : instr.calculates) (hs : s.Represents stack)
    (hfits : instr.Fits s) : Follows (exec bytecode input instr s) (exactStep instr stack) := by
  cases instr with
  | push v =>
    cases v with
    | i64 val => exact .push ⟨rfl, hinstr⟩ hs
    | tag t => exact hinstr.elim
    | type t =>
      cases t with
      | primitive kind width =>
        have hwidth : width = 1 := hinstr
        subst hwidth
        exact .push ⟨Nat.mul_one _, rfl⟩ hs
      | struct => exact hinstr.elim
  | math op => exact opMath_follows hinstr hs hfits
  | stackDrop =>
    change Follows (opDrop s) _
    unfold opDrop pop
    cases hstack : s.stack with
    | nil =>
      unfold Vm.Represents at hs
      rw [hstack] at hs
      cases hs
      exact .of_none (by simp only [bind, Cmd.bind, Cmd.get, hstack]; rfl) rfl
    | cons v rest =>
      unfold Vm.Represents at hs
      rw [hstack] at hs
      obtain ⟨m, stack', -, hrest, rfl⟩ := List.forall₂_cons_left_iff.1 hs
      have hrun : opDrop s = some (.ok (), { s with stack := rest }) := by
        unfold opDrop pop
        simp only [bind, Cmd.bind, Cmd.get, hstack]
        rfl
      exact .of_ok hrun hrest
  | stackDup =>
    change Follows (opDup s) _
    unfold opDup
    rw [Cmd.run_get_bind]
    have hs' := hs
    unfold Vm.Represents at hs'
    cases hstack : s.stack with
    | nil =>
      rw [hstack] at hs'
      cases hs'
      exact .of_none rfl rfl
    | cons v rest =>
      rw [hstack] at hs'
      obtain ⟨m, stack', hv, hrest, rfl⟩ := List.forall₂_cons_left_iff.1 hs'
      exact .push hv hs
  | stackSwap =>
    change Follows (opSwap s) _
    unfold opSwap
    rw [Cmd.run_get_bind]
    unfold Vm.Represents at hs
    cases hstack : s.stack with
    | nil =>
      rw [hstack] at hs
      cases hs
      exact .of_none rfl rfl
    | cons v rest =>
      rw [hstack] at hs
      obtain ⟨m, stack', hv, hrest, rfl⟩ := List.forall₂_cons_left_iff.1 hs
      cases rest with
      | nil =>
        cases hrest
        exact .of_none rfl rfl
      | cons w rest =>
        obtain ⟨m', stack'', hw, hrest', rfl⟩ := List.forall₂_cons_left_iff.1 hrest
        exact .of_ok rfl (List.Forall₂.cons hw (List.Forall₂.cons hv hrest'))
  | typeFixedArray => exact opTypeFixedArray_follows hs hfits
  | typeStructure => exact opTypeStructure_follows hs hfits
  | typeSizeof => exact opTypeSizeof_follows hs hfits
  | _ => exact hinstr.elim

theorem forEach_follows {bytecode input : List UInt8} : ∀ {instrs : List Instr} {s : Vm}
    {stack : List Meaning}, (∀ instr ∈ instrs, instr.calculates) → s.Represents stack →
    AllFit bytecode input instrs s →
    ExactOrFails (Cmd.forEach (exec bytecode input) instrs s) (exactRun instrs stack)
      (RunsOut instrs stack)
  | [], s, stack, _, hs, _ => Or.inl ⟨s, stack, rfl, rfl, hs⟩
  | instr :: instrs, s, stack, hinstrs, hs, hfit => by
    rcases @exec_follows bytecode input _ _ _ (hinstrs instr List.mem_cons_self) hs hfit.1 with
      ⟨s', stack', hexec, hexact, hs'⟩ | ⟨e, s', hexec, hdue⟩
    · have hrun : Cmd.forEach (exec bytecode input) (instr :: instrs) s =
          Cmd.forEach (exec bytecode input) instrs s' := Cmd.run_bind_of_ok hexec
      have hlater := forEach_follows (fun i hi => hinstrs i (List.mem_cons_of_mem _ hi)) hs'
        (hfit.2 s' hexec)
      rw [hrun, exactRun, hexact]
      refine hlater.imp_right fun ⟨e, s'', hlast, hdue⟩ => ⟨e, s'', hlast, fun t ht => Or.inr ?_⟩
      rw [hexact] at ht
      exact Option.some.inj ht ▸ hdue
    · exact Or.inr ⟨e, s', Cmd.run_bind_of_error hexec, fun t ht => Or.inl (hdue t ht)⟩

theorem structAllocationSize_suffices_iff (memberCount : Nat) :
    structDataBytes memberCount ≤ structAllocationSize memberCount ↔
      structDataBytes memberCount < 2 ^ 64 := by
  unfold structAllocationSize
  omega

theorem opMath_undefined {op : MathOp} {s : Vm} (h : UndefinedMod op s) : opMath op s = none := by
  obtain ⟨rfl, rest, hstack⟩ := h
  rw [opMath, Cmd.run_bind_of_ok (popI64_of_stack hstack)]
  rfl

/-- **Integer instructions are exact or fail outside one pair of operands, sequences of
instructions are exact or fail while each fits, and the description of a structure has the room
it needs as long as that is below 2^64 bytes.** -/
theorem arithmetic_exact (s : Vm) (stack : List Meaning) :
    (∀ op : MathOp, op.isInteger = true → s.Represents stack →
      (ExactOrFails (opMath op s) (exactMath op stack) (NoRoom (exactMath op stack)) ↔
        ¬ UndefinedMod op s)) ∧
    (∀ (bytecode input : List UInt8) (instrs : List Instr),
      (∀ instr ∈ instrs, instr.calculates) → s.Represents stack → AllFit bytecode input instrs s →
      ExactOrFails (Cmd.forEach (exec bytecode input) instrs s) (exactRun instrs stack)
        (RunsOut instrs stack)) ∧
    ∀ memberCount, structDataBytes memberCount ≤ structAllocationSize memberCount ↔
      structDataBytes memberCount < 2 ^ 64 := by
  refine ⟨fun op hop hs => ⟨?_, opMath_follows hop hs⟩,
    fun _ _ _ => forEach_follows, structAllocationSize_suffices_iff⟩
  intro h hmod
  rw [opMath_undefined hmod] at h
  rcases h with ⟨_, _, hrun, -⟩ | ⟨_, _, hrun, -⟩
  · cases hrun
  · cases hrun

/-- `push.type.u16le`, an array of three, a structure of it alone, and its size. -/
def sizeofThree : List Instr :=
  [.push (.type (.primitive .u16le 1)), .push (.i64 3), .typeFixedArray, .push (.i64 1),
    .typeStructure, .typeSizeof]

/-- The size of a structure of three 16-bit integers is six. -/
theorem arithmetic_exact_sizeofThree :
    ExactOrFails (Cmd.forEach (exec [] []) sizeofThree Vm.init) (exactRun sizeofThree [])
      (RunsOut sizeofThree []) ∧
    exactRun sizeofThree [] = some [.int 6] ∧
    ∃ s', Cmd.forEach (exec [] []) sizeofThree Vm.init = some (.ok (), s') ∧
      s'.stack = [.i64 6] := by
  refine ⟨?_, rfl, _, rfl, rfl⟩
  refine (arithmetic_exact Vm.init []).2.1 [] [] sizeofThree ?_ List.Forall₂.nil ?_
  · simp only [sizeofThree, List.forall_mem_cons, Instr.calculates]
    exact ⟨trivial, ⟨by decide, by decide⟩, trivial, ⟨by decide, by decide⟩, trivial, trivial, by simp⟩
  · refine ⟨trivial, fun s h => ?_⟩
    obtain ⟨-, rfl⟩ := Prod.mk.inj (Option.some.inj h)
    refine ⟨trivial, fun s h => ?_⟩
    obtain ⟨-, rfl⟩ := Prod.mk.inj (Option.some.inj h)
    refine ⟨?_, fun s h => ?_⟩
    · rintro count rest ⟨⟩
      decide
    obtain ⟨-, rfl⟩ := Prod.mk.inj (Option.some.inj h)
    refine ⟨trivial, fun s h => ?_⟩
    obtain ⟨-, rfl⟩ := Prod.mk.inj (Option.some.inj h)
    refine ⟨?_, fun s h => ?_⟩
    · rintro count rest ⟨⟩
      refine ⟨by decide, fun type htype => ?_⟩
      have htype : Value.type type ∈ [Value.type (.primitive .u16le 3)] := htype
      obtain rfl : type = .primitive .u16le 3 := by simpa using htype
      decide
    obtain ⟨-, rfl⟩ := Prod.mk.inj (Option.some.inj h)
    refine ⟨?_, fun _ _ => trivial⟩
    rintro type rest ⟨⟩
    decide

/-- `push.type.u8`, an array of 2^32 + 1, and its size. -/
def sizeofCut : List Instr :=
  [.push (.type (.primitive .u8 1)), .push (.i64 4294967297), .typeFixedArray, .typeSizeof]

/-- The remainder of the smallest integer by `-1` is undefined; the size of 2^32 + 1 bytes is one;
2^60 - 1 members are given no room at all. -/
theorem arithmetic_notExact :
    opMath .mod { Vm.init with stack := [.i64 (-1), .i64 INT64_MIN] } = none ∧
    Cmd.forEach (exec [] []) sizeofCut Vm.init =
      some (.ok (), { Vm.init with stack := [.i64 1] }) ∧
    exactRun sizeofCut [] = some [.int 4294967297] ∧
    structAllocationSize (2 ^ 60 - 1) = 0 := by
  refine ⟨rfl, rfl, rfl, by decide⟩

end OpenZL.Sddl2
