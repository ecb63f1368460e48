import Mathlib.Data.Int.Bitwise
import OpenZL.Lib.Command
import OpenZL.Lib.LittleEndian

/-!
# The virtual machine of SDDL2 (`sddl2_vm.c`)

A stack of 256 values, as many registers, a cursor in the input, and the list of the segments cut so
far. The traces kept for the log are left out: no operation reads them.
-/

namespace OpenZL.Sddl2

open OpenZL.Lib

/-- `SDDL2_Error`. -/
inductive VmError
  | stackOverflow
  | stackUnderflow
  | mathOverflow
  | typeMismatch
  | loadBounds
  | segmentBounds
  | limitExceeded
  | divZero
  | allocationFailed
  | invalidBytecode
  | validationFailed
  deriving DecidableEq, Repr

/-- `SDDL2_Type_kind`, of the primitive types. -/
inductive TypeKind
  | bytes | u8 | i8 | u16le | u16be | i16le | i16be | u32le | u32be | i32le | i32be
  | u64le | u64be | i64le | i64be | f8 | f16le | f16be | bf16le | bf16be | f32le | f32be
  | f64le | f64be
  deriving DecidableEq, Repr

/-- `SDDL2_kind_size`. -/
def kindSize : TypeKind → Nat
  | .u8 | .i8 | .f8 => 1
  | .u16le | .u16be | .i16le | .i16be | .f16le | .f16be | .bf16le | .bf16be => 2
  | .u32le | .u32be | .i32le | .i32be | .f32le | .f32be => 4
  | .u64le | .u64be | .i64le | .i64be | .f64le | .f64be => 8
  | .bytes => 1

/-- `SDDL2_Type`: a primitive kind, or a structure with the address of its description and what is
stored there. -/
inductive Ty
  | primitive (kind : TypeKind) (width : Nat)
  | struct (structData : Nat) (members : List Ty) (totalSizeBytes : Nat) (width : Nat)

namespace Ty

/-- Unspecified data: `SDDL2_TYPE_BYTES`, one at a time. -/
def unspecified : Ty := .primitive .bytes 1

def width : Ty → Nat
  | .primitive _ width => width
  | .struct _ _ _ width => width

def withWidth : Ty → Nat → Ty
  | .primitive kind _, width => .primitive kind width
  | .struct structData members total _, width => .struct structData members total width

/-- `SDDL2_Type_size`; the product wraps around. -/
def size : Ty → Nat
  | .primitive kind width => kindSize kind * width % 2 ^ 64
  | .struct _ _ total width => total * width % 2 ^ 64

/-- `types_equal`: structures are compared by address. -/
def equal : Ty → Ty → Bool
  | .primitive kind width, .primitive kind' width' => kind = kind' ∧ width = width'
  | .struct structData _ _ width, .struct structData' _ _ width' =>
    structData = structData' ∧ width = width'
  | _, _ => false

theorem equal_refl (t : Ty) : t.equal t = true := by
  cases t <;> simp [equal]

theorem equal_symm {t u : Ty} (h : t.equal u = true) : u.equal t = true := by
  cases t <;> cases u <;> simp_all [equal]

theorem equal_trans {t u v : Ty} (h : t.equal u = true) (h' : u.equal v = true) :
    t.equal v = true := by
  cases t <;> cases u <;> cases v <;> simp_all [equal]

end Ty

/-- `SDDL2_Value`. -/
inductive Value
  | i64 (val : Int)
  | tag (tag : Nat)
  | type (type : Ty)

def INT64_MIN : Int := -2 ^ 63
def INT64_MAX : Int := 2 ^ 63 - 1

/-- The conversion of a 64-bit pattern to `int64_t`. -/
def toI64 (n : Nat) : Int := if n % 2 ^ 64 < 2 ^ 63 then n % 2 ^ 64 else n % 2 ^ 64 - 2 ^ 64

/-- `SDDL2_Segment`. -/
structure Segment where
  tag : Nat
  startPos : Nat
  sizeBytes : Nat
  type : Ty

/-- `SDDL2_Tag_entry`. -/
structure TagEntry where
  tag : Nat
  type : Ty

/-- The state of `SDDL2_execute_bytecode`; the stack is listed from its top, the registers as
stores, the last one first. -/
structure Vm where
  stack : List Value
  registers : List (Nat × Value)
  currentPos : Nat
  segments : List Segment
  registry : List TagEntry
  nextStructData : Nat
  pc : Nat
  halted : Bool

/-- The state before the first instruction. -/
def Vm.init : Vm := ⟨[], [], 0, [], [], 0, 0, false⟩

/-- Operations of the machine. -/
abbrev VmM := Cmd VmError Vm

/-- The capacity `SDDL2_execute_bytecode` gives to its stack. -/
def stackCapacity : Nat := 256

/-- `SDDL2_VAR_REGISTER_COUNT`, `SDDL2_SEGMENT_MAX_CAPACITY` and `SDDL2_TAG_MAX_CAPACITY`. -/
def varRegisterCount : Nat := 256
def segmentMaxCapacity : Nat := 524288
def tagMaxCapacity : Nat := 32768

/-- `SDDL2_Stack_push`. -/
def push (v : Value) : VmM Unit := do
  let s ← Cmd.get
  Cmd.failWhen (s.stack.length ≥ stackCapacity) .stackOverflow
  Cmd.modify fun s => { s with stack := v :: s.stack }

/-- `SDDL2_Stack_pop`. -/
def pop : VmM Value := do
  let s ← Cmd.get
  match s.stack with
  | [] => Cmd.fail .stackUnderflow
  | v :: stack =>
    Cmd.modify fun s => { s with stack }
    return v

/-- `pop_i64`. -/
def popI64 : VmM Int := do
  match ← pop with
  | .i64 val => return val
  | _ => Cmd.fail .typeMismatch

/-- `pop_positive_i64`. -/
def popPositiveI64 : VmM Nat := do
  let val ← popI64
  Cmd.failWhen (val < 0) .typeMismatch
  return val.toNat

/-- `pop_tag`. -/
def popTag : VmM Nat := do
  match ← pop with
  | .tag tag => return tag
  | _ => Cmd.fail .typeMismatch

/-- `pop_type`. -/
def popType : VmM Ty := do
  match ← pop with
  | .type type => return type
  | _ => Cmd.fail .typeMismatch

/-- `push_i64`. -/
def pushI64 (val : Int) : VmM Unit := push (.i64 val)

def opDrop : VmM Unit := do
  let _ ← pop
  return ()

def opDropIf : VmM Unit := do
  let condition ← popI64
  if condition ≠ 0 then opDrop else return ()

def opDup : VmM Unit := do
  let s ← Cmd.get
  match s.stack with
  | [] => Cmd.fail .stackUnderflow
  | v :: _ => push v

def opSwap : VmM Unit := do
  let s ← Cmd.get
  match s.stack with
  | a :: b :: stack => Cmd.modify fun s => { s with stack := b :: a :: stack }
  | _ => Cmd.fail .stackUnderflow

/-- The operations of the MATH family. -/
inductive MathOp
  | add | sub | mul | div | mod | abs | neg | bitAnd | bitOr | bitXor | bitNot
  deriving DecidableEq, Repr

/-- The operations of the CMP family. -/
inductive CmpOp
  | eq | ne | lt | le | gt | ge
  deriving DecidableEq, Repr

/-- The operations of the LOGIC family. -/
inductive LogicOp
  | and | or | xor | not
  deriving DecidableEq, Repr

/-- `add_would_overflow`. -/
def addWouldOverflow (a b : Int) : Bool := (b > 0 ∧ a > INT64_MAX - b) ∨ (b < 0 ∧ a < INT64_MIN - b)

/-- `sub_would_overflow`. -/
def subWouldOverflow (a b : Int) : Bool := (b < 0 ∧ a > INT64_MAX + b) ∨ (b > 0 ∧ a < INT64_MIN + b)

/-- `mul_would_overflow`; divisions of C round towards zero. -/
def mulWouldOverflow (a b : Int) : Bool :=
  if a = 0 ∨ b = 0 then false
  else if a = 1 ∨ b = 1 then false
  else if a = -1 then b = INT64_MIN
  else if b = -1 then a = INT64_MIN
  else if a > 0 then
    if b > 0 then a > INT64_MAX.tdiv b else b < INT64_MIN.tdiv a
  else
    if b > 0 then a < INT64_MIN.tdiv b else a < INT64_MAX.tdiv b

/-- `0` or `1`. -/
def ofBool (b : Bool) : Int := if b then 1 else 0

/-- The operations of the MATH family; the remainder of the smallest integer by `-1` is undefined
behaviour. -/
def opMath : MathOp → VmM Unit
  | .add => do
    let b ← popI64
    let a ← popI64
    Cmd.failWhen (addWouldOverflow a b = true) .mathOverflow
    pushI64 (a + b)
  | .sub => do
    let b ← popI64
    let a ← popI64
    Cmd.failWhen (subWouldOverflow a b = true) .mathOverflow
    pushI64 (a - b)
  | .mul => do
    let b ← popI64
    let a ← popI64
    Cmd.failWhen (mulWouldOverflow a b = true) .mathOverflow
    pushI64 (a * b)
  | .div => do
    let b ← popI64
    let a ← popI64
    Cmd.failWhen (b = 0) .divZero
    Cmd.failWhen (a = INT64_MIN ∧ b = -1) .mathOverflow
    pushI64 (a.tdiv b)
  | .mod => do
    let b ← popI64
    let a ← popI64
    Cmd.failWhen (b = 0) .divZero
    let r ← Cmd.expect (if a = INT64_MIN ∧ b = -1 then none else some (a.tmod b))
    pushI64 r
  | .abs => do
    let a ← popI64
    Cmd.failWhen (a = INT64_MIN) .mathOverflow
    pushI64 (if a < 0 then -a else a)
  | .neg => do
    let a ← popI64
    Cmd.failWhen (a = INT64_MIN) .mathOverflow
    pushI64 (-a)
  | .bitAnd => do
    let b ← popI64
    let a ← popI64
    pushI64 (Int.land a b)
  | .bitOr => do
    let b ← popI64
    let a ← popI64
    pushI64 (Int.lor a b)
  | .bitXor => do
    let b ← popI64
    let a ← popI64
    pushI64 (Int.xor a b)
  | .bitNot => do
    let a ← popI64
    pushI64 (Int.lnot a)

/-- The comparison of an operation of the CMP family. -/
def CmpOp.holds : CmpOp → Int → Int → Bool
  | .eq, a, b => a = b
  | .ne, a, b => a ≠ b
  | .lt, a, b => a < b
  | .le, a, b => a ≤ b
  | .gt, a, b => a > b
  | .ge, a, b => a ≥ b

def opCmp (op : CmpOp) : VmM Unit := do
  let b ← popI64
  let a ← popI64
  pushI64 (ofBool (op.holds a b))

def opLogic : LogicOp → VmM Unit
  | .and => do
    let b ← popI64
    let a ← popI64
    pushI64 (ofBool (a ≠ 0 ∧ b ≠ 0))
  | .or => do
    let b ← popI64
    let a ← popI64
    pushI64 (ofBool (a ≠ 0 ∨ b ≠ 0))
  | .xor => do
    let b ← popI64
    let a ← popI64
    pushI64 (ofBool ((a ≠ 0 ∧ b = 0) ∨ (a = 0 ∧ b ≠ 0)))
  | .not => do
    let a ← popI64
    pushI64 (ofBool (a = 0))

/-- `SDDL2_op_var_store`. -/
def opVarStore : VmM Unit := do
  let regIndex ← popI64
  Cmd.failWhen (regIndex < 0 ∨ regIndex ≥ varRegisterCount) .loadBounds
  let val ← pop
  Cmd.modify fun s => { s with registers := (regIndex.toNat, val) :: s.registers }

/-- `SDDL2_op_var_load`. -/
def opVarLoad : VmM Unit := do
  let regIndex ← popI64
  Cmd.failWhen (regIndex < 0 ∨ regIndex ≥ varRegisterCount) .loadBounds
  let s ← Cmd.get
  match s.registers.lookup regIndex.toNat with
  | none => Cmd.fail .loadBounds
  | some val => push val

/-- `SDDL2_op_expect_true`. -/
def opExpectTrue : VmM Unit := do
  let value ← popI64
  Cmd.failWhen (value = 0) .validationFailed

/-- `SDDL2_op_type_fixed_array`: the count is cut to 32 bits before the product is checked. -/
def opTypeFixedArray : VmM Unit := do
  let arrayCount ← popPositiveI64
  let baseType ← popType
  Cmd.failWhen (baseType.width * (arrayCount % 2 ^ 32) ≥ 2 ^ 32) .mathOverflow
  push (.type (baseType.withWidth (baseType.width * (arrayCount % 2 ^ 32))))

/-- `sizeof(SDDL2_Struct_data)`, without its members, and `sizeof(SDDL2_Type)`. -/
def sizeofStructData : Nat := 16
def sizeofType : Nat := 16

/-- What the description of a structure takes. -/
def structDataBytes (memberCount : Nat) : Nat := sizeofStructData + memberCount * sizeofType

/-- The `allocation_size` of `SDDL2_op_type_structure`, which wraps around. -/
def structAllocationSize (memberCount : Nat) : Nat := structDataBytes memberCount % 2 ^ 64

/-- The members of a structure, popped from the last one to the first; a write after the end of
the allocation is undefined. -/
def popMembers (allocationSize : Nat) : Nat → List Ty → VmM (List Ty)
  | 0, members => return members
  | n + 1, members => do
    let type ← popType
    Cmd.require (structDataBytes (n + 1) ≤ allocationSize)
    popMembers allocationSize n (type :: members)

/-- The sum of the member sizes, each addition checked. -/
def totalSize : List Ty → Nat → VmM Nat
  | [], total => return total
  | member :: members, total => do
    Cmd.failWhen (total + member.size ≥ 2 ^ 64) .mathOverflow
    totalSize members (total + member.size)

/-- `SDDL2_op_type_structure`. -/
def opTypeStructure : VmM Unit := do
  let memberCount ← popPositiveI64
  let structData := (← Cmd.get).nextStructData
  Cmd.modify fun s => { s with nextStructData := structData + 1 }
  let members ← popMembers (structAllocationSize memberCount) memberCount []
  let total ← totalSize members 0
  push (.type (.struct structData members total 1))

/-- `SDDL2_op_type_sizeof`. -/
def opTypeSizeof : VmM Unit := do
  let type ← popType
  pushI64 (toI64 type.size)

/-- The operations of the LOAD family. -/
inductive LoadOp
  | u8 | i8 | u16le | u16be | i16le | i16be | u32le | u32be | i32le | i32be | i64le | i64be
  deriving DecidableEq, Repr

namespace LoadOp

/-- The number of bytes loaded. -/
def size : LoadOp → Nat
  | .u8 | .i8 => 1
  | .u16le | .u16be | .i16le | .i16be => 2
  | .u32le | .u32be | .i32le | .i32be => 4
  | .i64le | .i64be => 8

/-- The value of the bytes loaded: byte order, then sign. -/
def value : LoadOp → List UInt8 → Int
  | .u8, bs | .u16le, bs | .u32le, bs => ofLE bs
  | .u16be, bs | .u32be, bs => ofLE bs.reverse
  | .i8, bs => signed 8 (ofLE bs)
  | .i16le, bs => signed 16 (ofLE bs)
  | .i32le, bs => signed 32 (ofLE bs)
  | .i64le, bs => signed 64 (ofLE bs)
  | .i16be, bs => signed 16 (ofLE bs.reverse)
  | .i32be, bs => signed 32 (ofLE bs.reverse)
  | .i64be, bs => signed 64 (ofLE bs.reverse)
where
  signed (bits n : Nat) : Int := if n < 2 ^ (bits - 1) then n else n - 2 ^ bits

end LoadOp

/-- The operations of `DEFINE_LOAD_OP`, after `check_load_bounds`. -/
def opLoad (input : List UInt8) (op : LoadOp) : VmM Unit := do
  let addr ← popI64
  Cmd.failWhen (addr < 0 ∨ addr.toNat + op.size > input.length) .loadBounds
  pushI64 (op.value ((input.drop addr.toNat).take op.size))

/-- `SDDL2_op_current_pos`. -/
def opCurrentPos : VmM Unit := do
  let s ← Cmd.get
  pushI64 (toI64 s.currentPos)

/-- `SDDL2_op_remaining`. -/
def opRemaining (input : List UInt8) : VmM Unit := do
  let s ← Cmd.get
  pushI64 (toI64 (input.length + 2 ^ 64 - s.currentPos))

/-- `SDDL2_op_push_stack_depth`. -/
def opPushStackDepth : VmM Unit := do
  let s ← Cmd.get
  pushI64 s.stack.length

/-- `tag_registry_register`; every way to fail is reported alike. -/
def tagRegistryRegister (tag : Nat) (type : Ty) : VmM Unit := do
  let s ← Cmd.get
  match s.registry.find? (·.tag = tag) with
  | some entry => Cmd.failWhen (entry.type.equal type = false) .typeMismatch
  | none =>
    Cmd.failWhen (s.registry.length ≥ tagMaxCapacity) .typeMismatch
    Cmd.modify fun s => { s with registry := s.registry ++ [⟨tag, type⟩] }

/-- The end of `segment_create_internal`: extend the last segment, or add one. -/
def appendSegment (tag : Nat) (type : Ty) (sizeBytes : Nat) : VmM Unit := do
  let s ← Cmd.get
  let newPos := (s.currentPos + sizeBytes) % 2 ^ 64
  match s.segments.getLast? with
  | some last =>
    if last.tag = tag ∧ (last.startPos + last.sizeBytes) % 2 ^ 64 = s.currentPos then
      Cmd.modify fun s => { s with
        segments := s.segments.dropLast ++
          [{ last with sizeBytes := (last.sizeBytes + sizeBytes) % 2 ^ 64 }]
        currentPos := newPos }
    else
      Cmd.failWhen (s.segments.length ≥ segmentMaxCapacity) .limitExceeded
      Cmd.modify fun s => { s with
        segments := s.segments ++ [⟨tag, s.currentPos, sizeBytes, type⟩], currentPos := newPos }
  | none =>
    Cmd.modify fun s => { s with
      segments := s.segments ++ [⟨tag, s.currentPos, sizeBytes, type⟩], currentPos := newPos }

/-- `segment_create_internal`; the sum of the bounds check wraps around. -/
def segmentCreateInternal (input : List UInt8) (tag : Nat) (type : Ty) (elementCount : Nat) :
    VmM Unit := do
  Cmd.failWhen (elementCount * type.size ≥ 2 ^ 64) .mathOverflow
  let s ← Cmd.get
  Cmd.failWhen ((s.currentPos + elementCount * type.size) % 2 ^ 64 > input.length) .segmentBounds
  if tag ≠ 0 then tagRegistryRegister tag type else pure ()
  appendSegment tag type (elementCount * type.size)

/-- `SDDL2_op_segment_create_unspecified`. -/
def opSegmentCreateUnspecified (input : List UInt8) : VmM Unit := do
  let size ← popI64
  Cmd.failWhen (size < 0) .typeMismatch
  segmentCreateInternal input 0 .unspecified size.toNat

/-- `SDDL2_op_segment_create_tagged`. -/
def opSegmentCreateTagged (input : List UInt8) : VmM Unit := do
  let size ← popI64
  let type ← popType
  let tag ← popTag
  Cmd.failWhen (size < 0) .typeMismatch
  segmentCreateInternal input tag type size.toNat

end OpenZL.Sddl2
