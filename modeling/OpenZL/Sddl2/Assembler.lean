import OpenZL.Sddl2.Interpreter

/-!
# The assembler (`Assembler.cpp`, `OpcodesGenerated.cpp`)

The assembler writes one word for each instruction, then its parameter.
-/

namespace OpenZL.Sddl2

open OpenZL.Lib

/-- `opcodes::Family`. -/
inductive Family
  | PUSH | MATH | CMP | LOGIC | CONTROL | LOAD | STACK | TYPE | VAR | CALL | SEGMENT
  deriving DecidableEq, Repr

def Family.id : Family → Nat
  | .PUSH => 0x0001
  | .MATH => 0x0002
  | .CMP => 0x0003
  | .LOGIC => 0x0004
  | .CONTROL => 0x0005
  | .LOAD => 0x0006
  | .STACK => 0x0007
  | .TYPE => 0x0008
  | .VAR => 0x0009
  | .CALL => 0x000B
  | .SEGMENT => 0x000C

/-- `opcodes::ParamType`. -/
inductive ParamType
  | U32 | I32 | I64
  deriving DecidableEq, Repr

/-- The number of bytes of a parameter. -/
def ParamType.size : ParamType → Nat
  | .U32 | .I32 => 4
  | .I64 => 8

/-- `opcodes::Instruction`. -/
structure Instruction where
  family : Family
  opcode : Nat
  params : List ParamType
  deriving DecidableEq, Repr

/-- `INSTRUCTIONS`. -/
def INSTRUCTIONS : List (String × Instruction) :=
  [ ("halt", ⟨.CONTROL, 0x0001, []⟩),
    ("expect_true", ⟨.CONTROL, 0x0002, []⟩),
    ("jump_if", ⟨.CONTROL, 0x0003, []⟩),
    ("trace.start", ⟨.CONTROL, 0x0004, []⟩),
    ("push.zero", ⟨.PUSH, 0x0001, []⟩),
    ("push.u32", ⟨.PUSH, 0x0002, [.U32]⟩),
    ("push.i32", ⟨.PUSH, 0x0003, [.I32]⟩),
    ("push.i64", ⟨.PUSH, 0x0004, [.I64]⟩),
    ("push.tag", ⟨.PUSH, 0x0005, [.U32]⟩),
    ("push.current_pos", ⟨.PUSH, 0x0080, []⟩),
    ("push.remaining", ⟨.PUSH, 0x0081, []⟩),
    ("push.stack_depth", ⟨.PUSH, 0x0082, []⟩),
    ("push.type.bytes", ⟨.PUSH, 0x0100, []⟩),
    ("push.type.u8", ⟨.PUSH, 0x0110, []⟩),
    ("push.type.i8", ⟨.PUSH, 0x0111, []⟩),
    ("push.type.u16le", ⟨.PUSH, 0x0112, []⟩),
    ("push.type.u16be", ⟨.PUSH, 0x0113, []⟩),
    ("push.type.i16le", ⟨.PUSH, 0x0114, []⟩),
    ("push.type.i16be", ⟨.PUSH, 0x0115, []⟩),
    ("push.type.u32le", ⟨.PUSH, 0x0116, []⟩),
    ("push.type.u32be", ⟨.PUSH, 0x0117, []⟩),
    ("push.type.i32le", ⟨.PUSH, 0x0118, []⟩),
    ("push.type.i32be", ⟨.PUSH, 0x0119, []⟩),
    ("push.type.u64le", ⟨.PUSH, 0x011A, []⟩),
    ("push.type.u64be", ⟨.PUSH, 0x011B, []⟩),
    ("push.type.i64le", ⟨.PUSH, 0x011C, []⟩),
    ("push.type.i64be", ⟨.PUSH, 0x011D, []⟩),
    ("push.type.f8", ⟨.PUSH, 0x0130, []⟩),
    ("push.type.f16le", ⟨.PUSH, 0x0131, []⟩),
    ("push.type.f16be", ⟨.PUSH, 0x0132, []⟩),
    ("push.type.bf16le", ⟨.PUSH, 0x0133, []⟩),
    ("push.type.bf16be", ⟨.PUSH, 0x0134, []⟩),
    ("push.type.f32le", ⟨.PUSH, 0x0135, []⟩),
    ("push.type.f32be", ⟨.PUSH, 0x0136, []⟩),
    ("push.type.f64le", ⟨.PUSH, 0x0137, []⟩),
    ("push.type.f64be", ⟨.PUSH, 0x0138, []⟩),
    ("stack.dup", ⟨.STACK, 0x0001, []⟩),
    ("stack.over", ⟨.STACK, 0x0002, []⟩),
    ("stack.drop", ⟨.STACK, 0x0003, []⟩),
    ("stack.swap", ⟨.STACK, 0x0004, []⟩),
    ("stack.rot", ⟨.STACK, 0x0005, []⟩),
    ("stack.drop_if", ⟨.STACK, 0x0010, []⟩),
    ("math.add", ⟨.MATH, 0x0001, []⟩),
    ("math.sub", ⟨.MATH, 0x0002, []⟩),
    ("math.mul", ⟨.MATH, 0x0003, []⟩),
    ("math.div", ⟨.MATH, 0x0004, []⟩),
    ("math.mod", ⟨.MATH, 0x0005, []⟩),
    ("math.abs", ⟨.MATH, 0x0006, []⟩),
    ("math.neg", ⟨.MATH, 0x0007, []⟩),
    ("math.bit_and", ⟨.MATH, 0x0008, []⟩),
    ("math.bit_or", ⟨.MATH, 0x0009, []⟩),
    ("math.bit_xor", ⟨.MATH, 0x000A, []⟩),
    ("math.bit_not", ⟨.MATH, 0x000B, []⟩),
    ("cmp.eq", ⟨.CMP, 0x0001, []⟩),
    ("cmp.ne", ⟨.CMP, 0x0002, []⟩),
    ("cmp.lt", ⟨.CMP, 0x0003, []⟩),
    ("cmp.le", ⟨.CMP, 0x0004, []⟩),
    ("cmp.gt", ⟨.CMP, 0x0005, []⟩),
    ("cmp.ge", ⟨.CMP, 0x0006, []⟩),
    ("logic.and", ⟨.LOGIC, 0x0001, []⟩),
    ("logic.or", ⟨.LOGIC, 0x0002, []⟩),
    ("logic.xor", ⟨.LOGIC, 0x0003, []⟩),
    ("logic.not", ⟨.LOGIC, 0x0004, []⟩),
    ("load.u8", ⟨.LOAD, 0x0001, []⟩),
    ("load.i8", ⟨.LOAD, 0x0002, []⟩),
    ("load.u16le", ⟨.LOAD, 0x0010, []⟩),
    ("load.i16le", ⟨.LOAD, 0x0011, []⟩),
    ("load.u32le", ⟨.LOAD, 0x0020, []⟩),
    ("load.i32le", ⟨.LOAD, 0x0021, []⟩),
    ("load.i64le", ⟨.LOAD, 0x0030, []⟩),
    ("load.u16be", ⟨.LOAD, 0x0110, []⟩),
    ("load.i16be", ⟨.LOAD, 0x0111, []⟩),
    ("load.u32be", ⟨.LOAD, 0x0120, []⟩),
    ("load.i32be", ⟨.LOAD, 0x0121, []⟩),
    ("load.i64be", ⟨.LOAD, 0x0130, []⟩),
    ("type.fixed_array", ⟨.TYPE, 0x0001, []⟩),
    ("type.structure", ⟨.TYPE, 0x0002, []⟩),
    ("type.sizeof", ⟨.TYPE, 0x0010, []⟩),
    ("var.store", ⟨.VAR, 0x0001, []⟩),
    ("var.load", ⟨.VAR, 0x0002, []⟩),
    ("segment.create_unspecified", ⟨.SEGMENT, 0x0001, []⟩),
    ("segment.create_tagged", ⟨.SEGMENT, 0x0002, []⟩) ]

/-- `getInstruction`. -/
def getInstruction (mnemonic : String) : Option Instruction := INSTRUCTIONS.lookup mnemonic

/-- `ParsedInstruction`; its parameters are of type `int64_t`. -/
structure ParsedInstruction where
  mnemonic : String
  params : List Int
  int64 : ∀ val ∈ params, -2 ^ 63 ≤ val ∧ val < 2 ^ 63

/-- The values of a parameter, within the limits of `validateRange`. -/
def ParamType.InRange : ParamType → Int → Prop
  | .U32, val => 0 ≤ val ∧ val < 2 ^ 32
  | .I32, val => -2 ^ 31 ≤ val ∧ val < 2 ^ 31
  | .I64, val => -2 ^ 63 ≤ val ∧ val < 2 ^ 63

/-- `validateRange`; every `int64_t` is in the range of `I64`. -/
def validateRange (val : Int) : ParamType → Except String Unit
  | .U32 =>
    if val < 0 ∨ val > 2 ^ 32 - 1 then .error "Param value out of range for U32!" else .ok ()
  | .I32 =>
    if val < -2 ^ 31 ∨ val > 2 ^ 31 - 1 then .error "Param value out of range for I32!"
    else .ok ()
  | .I64 => .ok ()

/-- `writeNum`, of `width` bytes. -/
def writeNum (width : Nat) (val : Int) : List UInt8 := toLE width (val % 2 ^ (8 * width)).toNat

/-- `encodeParameter`. -/
def encodeParameter (value : Int) (type : ParamType) : Except String (List UInt8) := do
  validateRange value type
  return writeNum type.size value

/-- The loop of `assembleInstruction` over the parameters. -/
def encodeParameters : List Int → List ParamType → Except String (List UInt8)
  | value :: values, type :: types => do
    let bytes ← encodeParameter value type
    let rest ← encodeParameters values types
    return bytes ++ rest
  | _, _ => return []

/-- `assembleInstruction`: what it appends. -/
def assembleInstruction (parsed : ParsedInstruction) : Except String (List UInt8) :=
  match getInstruction parsed.mnemonic with
  | none => .error ("Unknown instruction: " ++ parsed.mnemonic)
  | some instr =>
    if instr.params.length ≠ parsed.params.length then
      .error "Wrong number of parameters for instruction!"
    else do
      let params ← encodeParameters parsed.params instr.params
      return writeNum 4 (instr.family.id * 2 ^ 16 + instr.opcode) ++ params

/-- `Assembler::assemble`, from the instructions of the text on. -/
def assemble : List ParsedInstruction → Except String (List UInt8)
  | [] => return []
  | instr :: instrs => do
    let bytes ← assembleInstruction instr
    let rest ← assemble instrs
    return bytes ++ rest

/-- The mnemonic exists, and its parameters are there and within their limits. -/
def ParsedInstruction.InRange (parsed : ParsedInstruction) : Prop :=
  ∃ instr, getInstruction parsed.mnemonic = some instr ∧
    List.Forall₂ ParamType.InRange instr.params parsed.params

/-- What an instruction does: always the same, or by its parameter; some have no counterpart in the
machine. -/
inductive Operation
  | plain (instr : Instr)
  | immediate (instr : Int → Instr)
  | missing

def OPERATIONS : List (String × Operation) :=
  [ ("halt", .plain .halt),
    ("expect_true", .plain .expectTrue),
    ("jump_if", .plain .jumpIf),
    ("trace.start", .plain .traceStart),
    ("push.zero", .plain (.push (.i64 0))),
    ("push.u32", .immediate fun v => .push (.i64 v)),
    ("push.i32", .immediate fun v => .push (.i64 v)),
    ("push.i64", .immediate fun v => .push (.i64 v)),
    ("push.tag", .immediate fun v => .push (.tag v.toNat)),
    ("push.current_pos", .plain .pushCurrentPos),
    ("push.remaining", .plain .pushRemaining),
    ("push.stack_depth", .plain .pushStackDepth),
    ("push.type.bytes", .plain (.push (.type (.primitive .bytes 1)))),
    ("push.type.u8", .plain (.push (.type (.primitive .u8 1)))),
    ("push.type.i8", .plain (.push (.type (.primitive .i8 1)))),
    ("push.type.u16le", .plain (.push (.type (.primitive .u16le 1)))),
    ("push.type.u16be", .plain (.push (.type (.primitive .u16be 1)))),
    ("push.type.i16le", .plain (.push (.type (.primitive .i16le 1)))),
    ("push.type.i16be", .plain (.push (.type (.primitive .i16be 1)))),
    ("push.type.u32le", .plain (.push (.type (.primitive .u32le 1)))),
    ("push.type.u32be", .plain (.push (.type (.primitive .u32be 1)))),
    ("push.type.i32le", .plain (.push (.type (.primitive .i32le 1)))),
    ("push.type.i32be", .plain (.push (.type (.primitive .i32be 1)))),
    ("push.type.u64le", .plain (.push (.type (.primitive .u64le 1)))),
    ("push.type.u64be", .plain (.push (.type (.primitive .u64be 1)))),
    ("push.type.i64le", .plain (.push (.type (.primitive .i64le 1)))),
    ("push.type.i64be", .plain (.push (.type (.primitive .i64be 1)))),
    ("push.type.f8", .plain (.push (.type (.primitive .f8 1)))),
    ("push.type.f16le", .plain (.push (.type (.primitive .f16le 1)))),
    ("push.type.f16be", .plain (.push (.type (.primitive .f16be 1)))),
    ("push.type.bf16le", .plain (.push (.type (.primitive .bf16le 1)))),
    ("push.type.bf16be", .plain (.push (.type (.primitive .bf16be 1)))),
    ("push.type.f32le", .plain (.push (.type (.primitive .f32le 1)))),
    ("push.type.f32be", .plain (.push (.type (.primitive .f32be 1)))),
    ("push.type.f64le", .plain (.push (.type (.primitive .f64le 1)))),
    ("push.type.f64be", .plain (.push (.type (.primitive .f64be 1)))),
    ("stack.dup", .plain .stackDup),
    ("stack.over", .missing),
    ("stack.drop", .plain .stackDrop),
    ("stack.swap", .plain .stackSwap),
    ("stack.rot", .missing),
    ("stack.drop_if", .plain .stackDropIf),
    ("math.add", .plain (.math .add)),
    ("math.sub", .plain (.math .sub)),
    ("math.mul", .plain (.math .mul)),
    ("math.div", .plain (.math .div)),
    ("math.mod", .plain (.math .mod)),
    ("math.abs", .plain (.math .abs)),
    ("math.neg", .plain (.math .neg)),
    ("math.bit_and", .plain (.math .bitAnd)),
    ("math.bit_or", .plain (.math .bitOr)),
    ("math.bit_xor", .plain (.math .bitXor)),
    ("math.bit_not", .plain (.math .bitNot)),
    ("cmp.eq", .plain (.cmp .eq)),
    ("cmp.ne", .plain (.cmp .ne)),
    ("cmp.lt", .plain (.cmp .lt)),
    ("cmp.le", .plain (.cmp .le)),
    ("cmp.gt", .plain (.cmp .gt)),
    ("cmp.ge", .plain (.cmp .ge)),
    ("logic.and", .plain (.logic .and)),
    ("logic.or", .plain (.logic .or)),
    ("logic.xor", .plain (.logic .xor)),
    ("logic.not", .plain (.logic .not)),
    ("load.u8", .plain (.load .u8)),
    ("load.i8", .plain (.load .i8)),
    ("load.u16le", .plain (.load .u16le)),
    ("load.i16le", .plain (.load .i16le)),
    ("load.u32le", .plain (.load .u32le)),
    ("load.i32le", .plain (.load .i32le)),
    ("load.i64le", .plain (.load .i64le)),
    ("load.u16be", .plain (.load .u16be)),
    ("load.i16be", .plain (.load .i16be)),
    ("load.u32be", .plain (.load .u32be)),
    ("load.i32be", .plain (.load .i32be)),
    ("load.i64be", .plain (.load .i64be)),
    ("type.fixed_array", .plain .typeFixedArray),
    ("type.structure", .plain .typeStructure),
    ("type.sizeof", .plain .typeSizeof),
    ("var.store", .plain .varStore),
    ("var.load", .plain .varLoad),
    ("segment.create_unspecified", .plain .segmentCreateUnspecified),
    ("segment.create_tagged", .plain .segmentCreateTagged) ]

def Operation.instr : Operation → List Int → Option Instr
  | .plain instr, [] => some instr
  | .immediate instr, [val] => some (instr val)
  | _, _ => none

/-- The instruction of the machine that is asked for. -/
def ParsedInstruction.meaning (parsed : ParsedInstruction) : Option Instr :=
  (OPERATIONS.lookup parsed.mnemonic).bind fun operation => operation.instr parsed.params

end OpenZL.Sddl2
