import OpenZL.Sddl2.Vm

/-!
# The interpreter of SDDL2 bytecode (`sddl2_interpreter.c`)

An instruction is a word of 32 bits, a family above an opcode, followed by an immediate value for
four instructions of the PUSH family.  `SDDL2_execute_bytecode` runs instructions until one fails,
one halts, or the bytecode ends.  There is one jump, and it goes forward, so that a run ends.

Principal results: `nextPc_le`, `execute_reached`.
-/

namespace OpenZL.Sddl2

open OpenZL.Lib

/-- The instructions, grouped by what `SDDL2_execute_bytecode` does with them. -/
inductive Instr
  | push (value : Value)
  | pushCurrentPos
  | pushRemaining
  | pushStackDepth
  | math (op : MathOp)
  | cmp (op : CmpOp)
  | logic (op : LogicOp)
  | halt
  | expectTrue
  | jumpIf
  | traceStart
  | load (op : LoadOp)
  | stackDrop
  | stackDropIf
  | stackDup
  | stackSwap
  | typeFixedArray
  | typeStructure
  | typeSizeof
  | varStore
  | varLoad
  | segmentCreateUnspecified
  | segmentCreateTagged
  /-- An opcode its family does not have, or the CALL family. -/
  | invalid
  /-- A family the dispatch does not know: nothing is done. -/
  | ignored

/-- The little-endian value of the `n` bytes at `pc`. -/
def readLE (bytecode : List UInt8) (pc n : Nat) : Nat := ofLE ((bytecode.drop pc).take n)

/-- The opcodes of `FOR_EACH_PUSH_TYPE_OP`. -/
def pushTypeKind : Nat → Option TypeKind
  | 0x0100 => some .bytes
  | 0x0110 => some .u8
  | 0x0111 => some .i8
  | 0x0112 => some .u16le
  | 0x0113 => some .u16be
  | 0x0114 => some .i16le
  | 0x0115 => some .i16be
  | 0x0116 => some .u32le
  | 0x0117 => some .u32be
  | 0x0118 => some .i32le
  | 0x0119 => some .i32be
  | 0x011A => some .u64le
  | 0x011B => some .u64be
  | 0x011C => some .i64le
  | 0x011D => some .i64be
  | 0x0130 => some .f8
  | 0x0131 => some .f16le
  | 0x0132 => some .f16be
  | 0x0133 => some .bf16le
  | 0x0134 => some .bf16be
  | 0x0135 => some .f32le
  | 0x0136 => some .f32be
  | 0x0137 => some .f64le
  | 0x0138 => some .f64be
  | _ => none

/-- The size of the immediate value after an instruction. -/
def immediateSize (family opcode : Nat) : Nat :=
  if family = 0x0001 then
    if opcode = 0x0002 ∨ opcode = 0x0003 ∨ opcode = 0x0005 then 4
    else if opcode = 0x0004 then 8
    else 0
  else 0

/-- The instructions of `handle_push_family`, with their immediate value. -/
def decodePush (opcode immediate : Nat) : Instr :=
  match opcode with
  | 0x0001 => .push (.i64 0)
  | 0x0002 => .push (.i64 immediate)
  | 0x0003 => .push (.i64 (LoadOp.value.signed 32 immediate))
  | 0x0004 => .push (.i64 (LoadOp.value.signed 64 immediate))
  | 0x0005 => .push (.tag immediate)
  | 0x0080 => .pushCurrentPos
  | 0x0081 => .pushRemaining
  | 0x0082 => .pushStackDepth
  | _ =>
    match pushTypeKind opcode with
    | some kind => .push (.type (.primitive kind 1))
    | none => .invalid

def decodeMath : Nat → Instr
  | 0x0001 => .math .add
  | 0x0002 => .math .sub
  | 0x0003 => .math .mul
  | 0x0004 => .math .div
  | 0x0005 => .math .mod
  | 0x0006 => .math .abs
  | 0x0007 => .math .neg
  | 0x0008 => .math .bitAnd
  | 0x0009 => .math .bitOr
  | 0x000A => .math .bitXor
  | 0x000B => .math .bitNot
  | _ => .invalid

def decodeCmp : Nat → Instr
  | 0x0001 => .cmp .eq
  | 0x0002 => .cmp .ne
  | 0x0003 => .cmp .lt
  | 0x0004 => .cmp .le
  | 0x0005 => .cmp .gt
  | 0x0006 => .cmp .ge
  | _ => .invalid

def decodeLogic : Nat → Instr
  | 0x0001 => .logic .and
  | 0x0002 => .logic .or
  | 0x0003 => .logic .xor
  | 0x0004 => .logic .not
  | _ => .invalid

def decodeControl : Nat → Instr
  | 0x0001 => .halt
  | 0x0002 => .expectTrue
  | 0x0003 => .jumpIf
  | 0x0004 => .traceStart
  | _ => .invalid

def decodeLoad : Nat → Instr
  | 0x0001 => .load .u8
  | 0x0002 => .load .i8
  | 0x0010 => .load .u16le
  | 0x0011 => .load .i16le
  | 0x0020 => .load .u32le
  | 0x0021 => .load .i32le
  | 0x0030 => .load .i64le
  | 0x0110 => .load .u16be
  | 0x0111 => .load .i16be
  | 0x0120 => .load .u32be
  | 0x0121 => .load .i32be
  | 0x0130 => .load .i64be
  | _ => .invalid

/-- `FOR_EACH_STACK_OP`: `OVER` and `ROT` have an opcode but no handler. -/
def decodeStack : Nat → Instr
  | 0x0001 => .stackDup
  | 0x0003 => .stackDrop
  | 0x0004 => .stackSwap
  | 0x0010 => .stackDropIf
  | _ => .invalid

def decodeType : Nat → Instr
  | 0x0001 => .typeFixedArray
  | 0x0002 => .typeStructure
  | 0x0010 => .typeSizeof
  | _ => .invalid

def decodeVar : Nat → Instr
  | 0x0001 => .varStore
  | 0x0002 => .varLoad
  | _ => .invalid

def decodeSegment : Nat → Instr
  | 0x0001 => .segmentCreateUnspecified
  | 0x0002 => .segmentCreateTagged
  | _ => .invalid

/-- The dispatch on the family. -/
def decode (family opcode immediate : Nat) : Instr :=
  match family with
  | 0x0001 => decodePush opcode immediate
  | 0x0002 => decodeMath opcode
  | 0x0003 => decodeCmp opcode
  | 0x0004 => decodeLogic opcode
  | 0x0005 => decodeControl opcode
  | 0x0006 => decodeLoad opcode
  | 0x0007 => decodeStack opcode
  | 0x0008 => decodeType opcode
  | 0x0009 => decodeVar opcode
  | 0x000B => .invalid
  | 0x000C => decodeSegment opcode
  | _ => .ignored

/-- The family and the opcode of the word at `pc`. -/
def family (bytecode : List UInt8) (pc : Nat) : Nat := readLE bytecode pc 4 / 2 ^ 16
def opcode (bytecode : List UInt8) (pc : Nat) : Nat := readLE bytecode pc 4 % 2 ^ 16

/-- The position after the instruction at `pc`; `none` when the bytecode ends before. -/
def nextPc (bytecode : List UInt8) (pc : Nat) : Option Nat :=
  if pc + 4 > bytecode.length then none
  else if pc + 4 + immediateSize (family bytecode pc) (opcode bytecode pc) > bytecode.length then none
  else some (pc + 4 + immediateSize (family bytecode pc) (opcode bytecode pc))

/-- The instruction at `pc`, once its bytes are known to be there. -/
def instrAt (bytecode : List UInt8) (pc : Nat) : Instr :=
  let family := family bytecode pc
  let opcode := opcode bytecode pc
  decode family opcode (readLE bytecode (pc + 4) (immediateSize family opcode))

/-- `SDDL2_skip`. -/
def skip (bytecode : List UInt8) : Nat → VmM Unit
  | 0 => return ()
  | skipCount + 1 => do
    match nextPc bytecode (← Cmd.get).pc with
    | none => Cmd.fail .invalidBytecode
    | some pc =>
      Cmd.modify fun s => { s with pc }
      skip bytecode skipCount

/-- `SDDL2_op_jump_if`, with the skip that follows it. -/
def opJumpIf (bytecode : List UInt8) : VmM Unit := do
  let condition ← popI64
  let n ← popPositiveI64
  skip bytecode (if condition ≠ 0 then n else 0)

/-- What an instruction does, after it was fetched. -/
def exec (bytecode input : List UInt8) : Instr → VmM Unit
  | .push value => push value
  | .pushCurrentPos => opCurrentPos
  | .pushRemaining => opRemaining input
  | .pushStackDepth => opPushStackDepth
  | .math op => opMath op
  | .cmp op => opCmp op
  | .logic op => opLogic op
  | .halt => Cmd.modify fun s => { s with halted := true }
  | .expectTrue => opExpectTrue
  | .jumpIf => opJumpIf bytecode
  | .traceStart => return ()
  | .load op => opLoad input op
  | .stackDrop => opDrop
  | .stackDropIf => opDropIf
  | .stackDup => opDup
  | .stackSwap => opSwap
  | .typeFixedArray => opTypeFixedArray
  | .typeStructure => opTypeStructure
  | .typeSizeof => opTypeSizeof
  | .varStore => opVarStore
  | .varLoad => opVarLoad
  | .segmentCreateUnspecified => opSegmentCreateUnspecified input
  | .segmentCreateTagged => opSegmentCreateTagged input
  | .invalid => Cmd.fail .invalidBytecode
  | .ignored => return ()

/-- One round of the loop of `SDDL2_execute_bytecode`. -/
def step (bytecode input : List UInt8) : VmM Unit := do
  let s ← Cmd.get
  match nextPc bytecode s.pc with
  | none => Cmd.fail .invalidBytecode
  | some pc =>
    Cmd.modify fun s => { s with pc }
    exec bytecode input (instrAt bytecode s.pc)

/-- The condition of the loop. -/
def Vm.running (bytecode : List UInt8) (s : Vm) : Prop :=
  s.pc < bytecode.length ∧ s.halted = false

instance (bytecode : List UInt8) (s : Vm) : Decidable (s.running bytecode) :=
  inferInstanceAs (Decidable (_ ∧ _))

/-- The loop of `SDDL2_execute_bytecode`, for at most the given number of rounds. -/
def runLoop (bytecode input : List UInt8) : Nat → VmM Unit
  | 0 => fun _ => none
  | fuel + 1 => do
    let s ← Cmd.get
    if s.running bytecode then do
      step bytecode input
      runLoop bytecode input fuel
    else return ()

/-- `SDDL2_execute_bytecode`: its result and its last state. -/
def executeBytecode (bytecode input : List UInt8) : Option (Except VmError Unit × Vm) :=
  if bytecode.length % 4 ≠ 0 then some (.error .invalidBytecode, Vm.init)
  else runLoop bytecode input (bytecode.length + 1) Vm.init

theorem nextPc_le {bytecode : List UInt8} {pc pc' : Nat} (h : nextPc bytecode pc = some pc') :
    pc + 4 ≤ pc' := by
  unfold nextPc at h
  split at h
  · cases h
  · split at h
    · cases h
    · obtain rfl := Option.some.inj h
      omega

/-- The states reached by the loop of `SDDL2_execute_bytecode`; the last one may be left by an
instruction that failed. -/
inductive Reached (bytecode input : List UInt8) : Option VmError → Vm → Prop
  | init : bytecode.length % 4 = 0 → Reached bytecode input none Vm.init
  | ok {s s' : Vm} : Reached bytecode input none s → s.running bytecode →
      step bytecode input s = some (.ok (), s') → Reached bytecode input none s'
  | error {s s' : Vm} {e : VmError} : Reached bytecode input none s → s.running bytecode →
      step bytecode input s = some (.error e, s') → Reached bytecode input (some e) s'

/-- The error of a result. -/
def errorOf : Except VmError Unit → Option VmError
  | .ok _ => none
  | .error e => some e

theorem runLoop_reached {bytecode input : List UInt8} : ∀ {fuel : Nat} {s s' : Vm}
    {r : Except VmError Unit}, Reached bytecode input none s →
    runLoop bytecode input fuel s = some (r, s') → Reached bytecode input (errorOf r) s'
  | 0, _, _, _, _, h => by cases h
  | fuel + 1, s, s', r, hs, h => by
    rw [runLoop, Cmd.run_get_bind] at h
    by_cases hrun : s.running bytecode
    · rw [if_pos hrun] at h
      rcases Cmd.run_bind_some h with ⟨e, he, rfl⟩ | ⟨u, t, hstep, hrest⟩
      · exact Reached.error hs hrun he
      · exact runLoop_reached (Reached.ok hs hrun hstep) hrest
    · rw [if_neg hrun] at h
      obtain ⟨rfl, rfl⟩ := Cmd.run_pure_iff.1 h
      exact hs

theorem execute_reached {bytecode input : List UInt8} {s : Vm} {r : Except VmError Unit}
    (hsize : bytecode.length % 4 = 0) (h : executeBytecode bytecode input = some (r, s)) :
    Reached bytecode input (errorOf r) s := by
  rw [executeBytecode, if_neg (by omega)] at h
  exact runLoop_reached (Reached.init hsize) h

end OpenZL.Sddl2
