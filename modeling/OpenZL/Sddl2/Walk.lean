import OpenZL.Lib.Result
import OpenZL.Sddl2.Arithmetic
import OpenZL.Sddl2.Assembler

/-!
# Bytecode is walked on instruction boundaries

The length of an instruction is known in three places: the tables of the assembler, the handler of
the PUSH family and `SDDL2_skip`.

* `instrAt_assembled` — the machine reads back what was assembled.
* `assembled_stepsInside`, `step_jumpIf` — steps and jumps end on a boundary.
* `bytecode_walk` — the three agree, and which programs are undefined.
-/

namespace OpenZL.Sddl2

open OpenZL.Lib

variable {parsed : ParsedInstruction}

/-! ## The tables of the assembler -/

/-- The machine reads the word of an instruction, and the bytes of its parameter, as the operation
it stands for. -/
def Instruction.Matches (instr : Instruction) : Operation → Prop
  | .plain i => instr.params = [] ∧ decode instr.family.id instr.opcode 0 = i
  | .missing => instr.params = [] ∧ decode instr.family.id instr.opcode 0 = .invalid
  | .immediate f => ∃ type, instr.params = [type] ∧ ∀ val, type.InRange val →
      decode instr.family.id instr.opcode (val % 2 ^ (8 * type.size)).toNat = f val

theorem decodePush_u32 {val : Int} (h : ParamType.U32.InRange val) (opcode : Nat) :
    (opcode = 0x0002 → decodePush opcode (val % 2 ^ 32).toNat = .push (.i64 val)) ∧
      (opcode = 0x0005 → decodePush opcode (val % 2 ^ 32).toNat = .push (.tag val.toNat)) := by
  obtain ⟨hlow, hhigh⟩ := h
  have hmod : val % 2 ^ 32 = val := Int.emod_eq_of_lt hlow hhigh
  constructor
  · rintro rfl
    rw [decodePush, hmod, Int.toNat_of_nonneg hlow]
  · rintro rfl
    rw [decodePush, hmod]

theorem decodePush_i32 {val : Int} (h : ParamType.I32.InRange val) :
    decodePush 0x0003 (val % 2 ^ 32).toNat = .push (.i64 val) := by
  obtain ⟨hlow, hhigh⟩ := h
  have hsigned : LoadOp.value.signed 32 (val % 2 ^ 32).toNat = val := by
    unfold LoadOp.value.signed
    split <;> omega
  rw [decodePush, hsigned]

theorem decodePush_i64 {val : Int} (h : ParamType.I64.InRange val) :
    decodePush 0x0004 (val % 2 ^ 64).toNat = .push (.i64 val) := by
  obtain ⟨hlow, hhigh⟩ := h
  have hsigned : LoadOp.value.signed 64 (val % 2 ^ 64).toNat = val := by
    unfold LoadOp.value.signed
    split <;> omega
  rw [decodePush, hsigned]

theorem operations_match : List.Forall₂ (fun entry operation =>
    entry.1 = operation.1 ∧ entry.2.Matches operation.2) INSTRUCTIONS OPERATIONS := by
  have hU32 : Instruction.Matches ⟨.PUSH, 0x0002, [.U32]⟩
      (.immediate fun v => .push (.i64 v)) :=
    ⟨.U32, rfl, fun _ hval => (decodePush_u32 hval _).1 rfl⟩
  have hI32 : Instruction.Matches ⟨.PUSH, 0x0003, [.I32]⟩
      (.immediate fun v => .push (.i64 v)) := ⟨.I32, rfl, fun _ hval => decodePush_i32 hval⟩
  have hI64 : Instruction.Matches ⟨.PUSH, 0x0004, [.I64]⟩
      (.immediate fun v => .push (.i64 v)) := ⟨.I64, rfl, fun _ hval => decodePush_i64 hval⟩
  have htag : Instruction.Matches ⟨.PUSH, 0x0005, [.U32]⟩
      (.immediate fun v => .push (.tag v.toNat)) :=
    ⟨.U32, rfl, fun _ hval => (decodePush_u32 hval _).2 rfl⟩
  unfold INSTRUCTIONS OPERATIONS
  repeat' first
    | exact List.Forall₂.nil
    | refine List.Forall₂.cons ⟨rfl, ?_⟩ ?_
    | exact ⟨rfl, rfl⟩
    | assumption

theorem lookup_forall₂ {α β : Type} {R : α → β → Prop} {key : String} {a : α} :
    ∀ {as : List (String × α)} {bs : List (String × β)},
    List.Forall₂ (fun x y => x.1 = y.1 ∧ R x.2 y.2) as bs → as.lookup key = some a →
    ∃ b, bs.lookup key = some b ∧ R a b ∧ (key, a) ∈ as ∧ (key, b) ∈ bs
  | [], _, _, h => by cases h
  | (k, x) :: as, _, hall, h => by
    obtain ⟨⟨k', y⟩, bs, ⟨hkey, hxy⟩, hrest, rfl⟩ := List.forall₂_cons_left_iff.1 hall
    obtain rfl : k = k' := hkey
    rw [List.lookup_cons] at h
    by_cases hk : key = k
    · subst hk
      rw [beq_self_eq_true] at h
      obtain rfl := Option.some.inj h
      exact ⟨y, by rw [List.lookup_cons, beq_self_eq_true], hxy, List.mem_cons_self,
        List.mem_cons_self⟩
    · have hne : (key == k) = false := beq_eq_false_iff_ne.2 hk
      rw [hne] at h
      obtain ⟨b, hb, hab, hmem, hmem'⟩ := lookup_forall₂ hrest h
      exact ⟨b, by rw [List.lookup_cons, hne]; exact hb, hab, List.mem_cons_of_mem _ hmem,
        List.mem_cons_of_mem _ hmem'⟩

theorem instructions_wellFormed : ∀ entry ∈ INSTRUCTIONS,
    immediateSize entry.2.family.id entry.2.opcode = (entry.2.params.map ParamType.size).sum ∧
      entry.2.opcode < 2 ^ 16 := by
  decide

/-- The two instructions of the assembler that the machine does not have. -/
def unhandled : List String := ["stack.over", "stack.rot"]

def Operation.isMissing : Operation → Bool
  | .missing => true
  | _ => false

theorem isMissing_eq_unhandled : ∀ entry ∈ OPERATIONS,
    entry.2.isMissing = unhandled.contains entry.1 := by
  decide

/-! ## Assembled instructions -/

theorem validateRange_ok {value : Int} {type : ParamType}
    (hint64 : -2 ^ 63 ≤ value ∧ value < 2 ^ 63) :
    validateRange value type = .ok () ↔ type.InRange value := by
  cases type with
  | U32 =>
    change (if _ then _ else _) = Except.ok () ↔ 0 ≤ value ∧ value < 2 ^ 32
    by_cases hbad : value < 0 ∨ value > 2 ^ 32 - 1
    · rw [if_pos hbad]
      exact ⟨fun h => (nomatch h), fun h => by omega⟩
    · rw [if_neg hbad]
      exact ⟨fun _ => by omega, fun _ => rfl⟩
  | I32 =>
    change (if _ then _ else _) = Except.ok () ↔ -2 ^ 31 ≤ value ∧ value < 2 ^ 31
    by_cases hbad : value < -2 ^ 31 ∨ value > 2 ^ 31 - 1
    · rw [if_pos hbad]
      exact ⟨fun h => (nomatch h), fun h => by omega⟩
    · rw [if_neg hbad]
      exact ⟨fun _ => by omega, fun _ => rfl⟩
  | I64 => exact ⟨fun _ => hint64, fun _ => rfl⟩

theorem encodeParameter_ok {value : Int} {type : ParamType} {bytes : List UInt8}
    (hint64 : -2 ^ 63 ≤ value ∧ value < 2 ^ 63) :
    encodeParameter value type = .ok bytes ↔
      type.InRange value ∧ bytes = writeNum type.size value := by
  unfold encodeParameter
  rw [bind_eq_ok]
  constructor
  · rintro ⟨u, hu, h⟩
    exact ⟨(validateRange_ok hint64).1 hu, (Except.ok.inj h).symm⟩
  · rintro ⟨hrange, rfl⟩
    exact ⟨(), (validateRange_ok hint64).2 hrange, rfl⟩

/-- The bytes of the parameters. -/
def immediateBytes : List ParamType → List Int → List UInt8
  | type :: types, value :: values => writeNum type.size value ++ immediateBytes types values
  | _, _ => []

theorem encodeParameters_ok : ∀ {values : List Int} {types : List ParamType} {bytes : List UInt8},
    types.length = values.length → (∀ val ∈ values, -2 ^ 63 ≤ val ∧ val < 2 ^ 63) →
    (encodeParameters values types = .ok bytes ↔
      List.Forall₂ ParamType.InRange types values ∧ bytes = immediateBytes types values)
  | [], [], bytes, _, _ => by
    change Except.ok [] = Except.ok bytes ↔ _
    rw [Except.ok.injEq]
    exact ⟨fun h => ⟨List.Forall₂.nil, h.symm⟩, fun h => h.2.symm⟩
  | value :: values, type :: types, bytes, hlength, hint64 => by
    obtain ⟨hvalue, hvalues⟩ := List.forall_mem_cons.1 hint64
    have hrest : ∀ rest, encodeParameters values types = .ok rest ↔
        List.Forall₂ ParamType.InRange types values ∧ rest = immediateBytes types values :=
      fun rest => encodeParameters_ok (Nat.succ.inj hlength) hvalues
    rw [encodeParameters, bind_eq_ok, List.forall₂_cons]
    constructor
    · rintro ⟨first, hfirst, h⟩
      obtain ⟨rest, h₁, h₂⟩ := bind_eq_ok.1 h
      obtain ⟨hrange, rfl⟩ := (encodeParameter_ok hvalue).1 hfirst
      obtain ⟨hranges, rfl⟩ := (hrest _).1 h₁
      exact ⟨⟨hrange, hranges⟩, (Except.ok.inj h₂).symm⟩
    · rintro ⟨⟨hrange, hranges⟩, rfl⟩
      exact ⟨_, (encodeParameter_ok hvalue).2 ⟨hrange, rfl⟩,
        bind_eq_ok.2 ⟨_, (hrest _).2 ⟨hranges, rfl⟩, rfl⟩⟩

/-- The word of an instruction. -/
def Instruction.word (instr : Instruction) : Nat := instr.family.id * 2 ^ 16 + instr.opcode

theorem assembleInstruction_ok {bytes : List UInt8} :
    assembleInstruction parsed = .ok bytes ↔ ∃ instr, getInstruction parsed.mnemonic = some instr ∧
      List.Forall₂ ParamType.InRange instr.params parsed.params ∧
      bytes = writeNum 4 instr.word ++ immediateBytes instr.params parsed.params := by
  unfold assembleInstruction
  cases hget : getInstruction parsed.mnemonic with
  | none => exact ⟨fun h => (nomatch h), fun ⟨_, h, _⟩ => (nomatch h)⟩
  | some instr =>
    dsimp only
    by_cases hlength : instr.params.length = parsed.params.length
    · rw [if_neg (fun hne => hne hlength), bind_eq_ok]
      constructor
      · rintro ⟨params, hparams, h⟩
        obtain ⟨hranges, rfl⟩ := (encodeParameters_ok hlength parsed.int64).1 hparams
        exact ⟨instr, rfl, hranges, (Except.ok.inj h).symm⟩
      · rintro ⟨instr', hinstr, hranges, rfl⟩
        obtain rfl := Option.some.inj hinstr
        exact ⟨_, (encodeParameters_ok hlength parsed.int64).2 ⟨hranges, rfl⟩, rfl⟩
    · rw [if_pos hlength]
      constructor
      · exact fun h => (nomatch h)
      · rintro ⟨instr', hinstr, hranges, -⟩
        obtain rfl := Option.some.inj hinstr
        exact absurd hranges.length_eq hlength

theorem readLE_at {pre bytes post : List UInt8} {n : Nat} (h : bytes.length = n) :
    readLE (pre ++ (bytes ++ post)) pre.length n = ofLE bytes := by
  unfold readLE
  rw [List.drop_left, ← h, List.take_left]

theorem length_writeNum (width : Nat) (val : Int) : (writeNum width val).length = width :=
  length_toLE _ _

theorem ofLE_writeNum (width : Nat) (val : Int) :
    ofLE (writeNum width val) = (val % 2 ^ (8 * width)).toNat := by
  have hpos : (0 : Int) < 2 ^ (8 * width) := by positivity
  have hlt := Int.emod_lt_of_pos val hpos
  have hnonneg := Int.emod_nonneg val (Int.ne_of_gt hpos)
  have hpow : (256 : Nat) ^ width = 2 ^ (8 * width) := by rw [Nat.pow_mul]
  unfold writeNum
  rw [ofLE_toLE, hpow, Nat.mod_eq_of_lt]
  zify
  rwa [Int.toNat_of_nonneg hnonneg]

theorem Family.id_lt (family : Family) : family.id < 2 ^ 16 := by
  cases family <;> decide

theorem length_immediateBytes : ∀ {types : List ParamType} {values : List Int},
    List.Forall₂ ParamType.InRange types values →
    (immediateBytes types values).length = (types.map ParamType.size).sum
  | [], [], _ => rfl
  | type :: types, value :: values, h => by
    rw [immediateBytes, List.length_append, length_writeNum,
      length_immediateBytes (List.forall₂_cons.1 h).2]
    rfl

theorem decode_written {instr : Instruction} {values : List Int}
    (hsize : immediateSize instr.family.id instr.opcode = (instr.params.map ParamType.size).sum)
    (hopcode : instr.opcode < 2 ^ 16) (hranges : List.Forall₂ ParamType.InRange instr.params values)
    (pre post : List UInt8) {bytecode : List UInt8} (hbytecode : bytecode = pre ++
      ((writeNum 4 instr.word ++ immediateBytes instr.params values) ++ post)) :
    nextPc bytecode pre.length =
        some (pre.length + (writeNum 4 instr.word ++ immediateBytes instr.params values).length) ∧
      instrAt bytecode pre.length =
        decode instr.family.id instr.opcode (ofLE (immediateBytes instr.params values)) := by
  have hfamilyLt := instr.family.id_lt
  have hword : instr.word < 2 ^ 32 := by
    unfold Instruction.word
    omega
  have hread : readLE bytecode pre.length 4 = instr.word := by
    rw [hbytecode, List.append_assoc, readLE_at (length_writeNum 4 _), ofLE_writeNum]
    omega
  unfold Instruction.word at hread
  have hfamily : family bytecode pre.length = instr.family.id := by
    unfold family
    omega
  have hop : opcode bytecode pre.length = instr.opcode := by
    unfold opcode
    omega
  have himmediate : readLE bytecode (pre.length + 4)
      (immediateSize instr.family.id instr.opcode) = ofLE (immediateBytes instr.params values) := by
    have hsplit : bytecode = (pre ++ writeNum 4 instr.word) ++
        (immediateBytes instr.params values ++ post) := by
      simp only [hbytecode, List.append_assoc]
    rw [hsplit, hsize, ← length_immediateBytes hranges,
      show pre.length + 4 = (pre ++ writeNum 4 instr.word).length by
        rw [List.length_append, length_writeNum], readLE_at rfl]
  constructor
  · have hlength : bytecode.length = pre.length + (4 + (immediateBytes instr.params
        values).length + post.length) := by
      rw [hbytecode, List.length_append, List.length_append, List.length_append, length_writeNum]
    unfold nextPc
    rw [hfamily, hop, hsize, ← length_immediateBytes hranges, if_neg (by omega),
      if_neg (by omega), List.length_append, length_writeNum, Nat.add_assoc]
  · unfold instrAt
    dsimp only
    rw [hfamily, hop, himmediate]

theorem Instruction.Matches.meaning {instr : Instruction} {operation : Operation}
    {values : List Int} (h : instr.Matches operation)
    (hranges : List.Forall₂ ParamType.InRange instr.params values) :
    some (decode instr.family.id instr.opcode (ofLE (immediateBytes instr.params values))) =
      operation.instr values ↔ operation.isMissing = false := by
  cases operation with
  | plain i =>
    obtain ⟨hparams, rfl⟩ := h
    rw [hparams] at hranges ⊢
    cases hranges
    exact ⟨fun _ => rfl, fun _ => rfl⟩
  | missing => exact ⟨fun heq => (nomatch heq), fun hfalse => (nomatch hfalse)⟩
  | immediate f =>
    obtain ⟨type, hparams, hdecode⟩ := h
    rw [hparams] at hranges ⊢
    cases hranges with
    | @cons _ val _ _ hrange hnil =>
      cases hnil
      have hbytes : immediateBytes [type] [val] = writeNum type.size val := List.append_nil _
      rw [hbytes, ofLE_writeNum, hdecode val hrange]
      exact ⟨fun _ => rfl, fun _ => rfl⟩

theorem instrAt_assembled {bytes : List UInt8} (h : assembleInstruction parsed = .ok bytes)
    (pre post : List UInt8) :
    nextPc (pre ++ (bytes ++ post)) pre.length = some (pre.length + bytes.length) ∧
      (some (instrAt (pre ++ (bytes ++ post)) pre.length) = parsed.meaning ↔
        parsed.mnemonic ∉ unhandled) := by
  obtain ⟨instr, hget, hranges, rfl⟩ := assembleInstruction_ok.1 h
  obtain ⟨operation, hlookup, hmatches, hmem, hmem'⟩ := lookup_forall₂ operations_match hget
  obtain ⟨hsize, hopcode⟩ := instructions_wellFormed _ hmem
  have hmissing : operation.isMissing = unhandled.contains parsed.mnemonic :=
    isMissing_eq_unhandled _ hmem'
  obtain ⟨hnext, hinstr⟩ := decode_written hsize hopcode hranges pre post rfl
  refine ⟨hnext, ?_⟩
  rw [hinstr, ParsedInstruction.meaning, hlookup, Option.bind_some, hmatches.meaning hranges,
    hmissing, ← Bool.not_eq_true, List.contains_iff_mem]

/-- The number of bytes that the assembler writes for an instruction. -/
def ParsedInstruction.byteSize (parsed : ParsedInstruction) : Nat :=
  match assembleInstruction parsed with
  | .ok bytes => bytes.length
  | .error _ => 0

/-! ## Boundaries -/

/-- The start of instruction `i`; the one after the last is the end of the program. -/
def start (instrs : List ParsedInstruction) (i : Nat) : Nat :=
  ((instrs.take i).map ParsedInstruction.byteSize).sum

theorem assemble_split : ∀ {instrs : List ParsedInstruction} {bytecode : List UInt8} {i : Nat}
    {parsed : ParsedInstruction}, assemble instrs = .ok bytecode → instrs[i]? = some parsed →
    ∃ pre bytes post, bytecode = pre ++ (bytes ++ post) ∧ pre.length = start instrs i ∧
      assembleInstruction parsed = .ok bytes ∧ start instrs (i + 1) = start instrs i + bytes.length
  | instr :: instrs, bytecode, 0, parsed, h, hi => by
    obtain rfl := Option.some.inj hi
    obtain ⟨bytes, hbytes, h₁⟩ := bind_eq_ok.1 h
    obtain ⟨rest, -, h₂⟩ := bind_eq_ok.1 h₁
    obtain rfl := Except.ok.inj h₂
    refine ⟨[], bytes, rest, rfl, rfl, hbytes, ?_⟩
    simp [start, ParsedInstruction.byteSize, hbytes]
  | instr :: instrs, bytecode, i + 1, parsed, h, hi => by
    obtain ⟨first, hfirst, h₁⟩ := bind_eq_ok.1 h
    obtain ⟨rest, hrest, h₂⟩ := bind_eq_ok.1 h₁
    obtain rfl := Except.ok.inj h₂
    obtain ⟨pre, bytes, post, rfl, hpre, hbytes, hnext⟩ := assemble_split hrest hi
    have hstart : ∀ j, start (instr :: instrs) (j + 1) = first.length + start instrs j := by
      intro j
      simp [start, ParsedInstruction.byteSize, hfirst]
    refine ⟨first ++ pre, bytes, post, by simp, ?_, hbytes, ?_⟩
    · rw [List.length_append, hpre, hstart]
    · rw [hstart, hstart, hnext, Nat.add_assoc]

theorem assemble_length : ∀ {instrs : List ParsedInstruction} {bytecode : List UInt8},
    assemble instrs = .ok bytecode → bytecode.length = start instrs instrs.length
  | [], bytecode, h => by
    obtain rfl := Except.ok.inj h
    rfl
  | instr :: instrs, bytecode, h => by
    obtain ⟨first, hfirst, h₁⟩ := bind_eq_ok.1 h
    obtain ⟨rest, hrest, h₂⟩ := bind_eq_ok.1 h₁
    obtain rfl := Except.ok.inj h₂
    have hlength := assemble_length hrest
    simp only [start, List.length_cons, List.take_succ_cons, List.map_cons, List.sum_cons,
      ParsedInstruction.byteSize, hfirst, List.length_append] at hlength ⊢
    omega

theorem assemble_isOk_iff : ∀ {instrs : List ParsedInstruction},
    (∃ bytecode, assemble instrs = .ok bytecode) ↔ ∀ instr ∈ instrs, instr.InRange
  | [] => ⟨fun _ => by simp, fun _ => ⟨[], rfl⟩⟩
  | instr :: instrs => by
    rw [List.forall_mem_cons, ← assemble_isOk_iff]
    constructor
    · rintro ⟨bytecode, h⟩
      obtain ⟨first, hfirst, h₁⟩ := bind_eq_ok.1 h
      obtain ⟨rest, hrest, -⟩ := bind_eq_ok.1 h₁
      obtain ⟨i, hget, hranges, -⟩ := assembleInstruction_ok.1 hfirst
      exact ⟨⟨i, hget, hranges⟩, rest, hrest⟩
    · rintro ⟨⟨i, hget, hranges⟩, rest, hrest⟩
      exact ⟨_, bind_eq_ok.2 ⟨_, assembleInstruction_ok.2 ⟨i, hget, hranges, rfl⟩,
        bind_eq_ok.2 ⟨rest, hrest, rfl⟩⟩⟩

section assembled

variable {instrs : List ParsedInstruction} {bytecode input : List UInt8}

theorem nextPc_start (h : assemble instrs = .ok bytecode) {i : Nat} (hi : i < instrs.length) :
    nextPc bytecode (start instrs i) = some (start instrs (i + 1)) := by
  obtain ⟨pre, bytes, post, rfl, hpre, hbytes, hnext⟩ :=
    assemble_split h (List.getElem?_eq_getElem hi)
  rw [← hpre, (instrAt_assembled hbytes pre post).1, hnext, hpre]

theorem nextPc_end (h : assemble instrs = .ok bytecode) :
    nextPc bytecode (start instrs instrs.length) = none := by
  have hlength := assemble_length h
  unfold nextPc
  rw [if_pos (by omega)]

theorem assembled_stepsInside (h : assemble instrs = .ok bytecode) :
    StepsInside bytecode fun pc => ∃ i ≤ instrs.length, pc = start instrs i := by
  rintro pc pc' ⟨i, hi, rfl⟩ hnext
  rcases Nat.lt_or_eq_of_le hi with hlt | rfl
  · rw [nextPc_start h hlt] at hnext
    exact ⟨i + 1, hlt, (Option.some.inj hnext).symm⟩
  · rw [nextPc_end h] at hnext
    cases hnext

theorem step_inside {Q : Nat → Prop} (hQ : StepsInside bytecode Q) :
    Cmd.Preserves (fun s : Vm => Q s.pc) (step bytecode input) := by
  intro s r s' hs h
  unfold step at h
  rw [Cmd.run_get_bind] at h
  cases hpc : nextPc bytecode s.pc with
  | none =>
    rw [hpc] at h
    obtain ⟨-, rfl⟩ := Prod.mk.inj (Option.some.inj h)
    exact hs
  | some pc =>
    rw [hpc] at h
    exact exec_inside hQ _ { s with pc } r s' (hQ s.pc pc hs hpc) h

theorem Reached.inside {Q : Nat → Prop} (hQ : StepsInside bytecode Q) (hzero : Q 0)
    {e : Option VmError} {s : Vm} (h : Reached bytecode input e s) : Q s.pc := by
  induction h with
  | init => exact hzero
  | ok _ _ hstep ih => exact step_inside hQ _ _ _ ih hstep
  | error _ _ hstep ih => exact step_inside hQ _ _ _ ih hstep

theorem skip_assembled (h : assemble instrs = .ok bytecode) : ∀ (n : Nat) {i : Nat} (s : Vm),
    i ≤ instrs.length → s.pc = start instrs i →
    skip bytecode n s = if i + n ≤ instrs.length
      then some (.ok (), { s with pc := start instrs (i + n) })
      else some (.error .invalidBytecode, { s with pc := start instrs instrs.length })
  | 0, i, s, hi, hpc => by
    rw [Nat.add_zero, if_pos hi, ← hpc]
    rfl
  | n + 1, i, s, hi, hpc => by
    rw [skip, Cmd.run_get_bind, hpc]
    rcases Nat.lt_or_eq_of_le hi with hlt | rfl
    · rw [nextPc_start h hlt]
      change skip bytecode n { s with pc := start instrs (i + 1) } = _
      rw [skip_assembled h n { s with pc := start instrs (i + 1) } hlt rfl,
        show i + 1 + n = i + (n + 1) by omega]
    · rw [nextPc_end h, if_neg (by omega), ← hpc]
      rfl

theorem instrAt_jumpIf (h : assemble instrs = .ok bytecode) {i : Nat}
    (hi : instrs[i]? = some parsed) (hjump : parsed.mnemonic = "jump_if") :
    instrAt bytecode (start instrs i) = .jumpIf := by
  obtain ⟨pre, bytes, post, rfl, hpre, hbytes, -⟩ := assemble_split h hi
  obtain ⟨instr, hget, hranges, -⟩ := assembleInstruction_ok.1 hbytes
  have hparams : parsed.params = [] := by
    rw [hjump] at hget
    obtain rfl := Option.some.inj (hget.symm.trans (by decide :
      getInstruction "jump_if" = some ⟨.CONTROL, 0x0003, []⟩))
    exact List.forall₂_nil_left_iff.1 hranges
  have hmeaning : parsed.meaning = some .jumpIf := by
    rw [ParsedInstruction.meaning, hjump, hparams]
    rfl
  have hinstr := (instrAt_assembled hbytes pre post).2.2 (by rw [hjump]; decide)
  rw [hmeaning, hpre] at hinstr
  exact Option.some.inj hinstr

theorem step_jumpIf (h : assemble instrs = .ok bytecode) {i : Nat} (hi : instrs[i]? = some parsed)
    (hjump : parsed.mnemonic = "jump_if") {s : Vm} (hpc : s.pc = start instrs i) {condition n : Int}
    {rest : List Value} (hstack : s.stack = .i64 condition :: .i64 n :: rest) (hn : 0 ≤ n) :
    step bytecode input s =
      if i + 1 + (if condition ≠ 0 then n.toNat else 0) ≤ instrs.length
      then some (.ok (), { s with
        stack := rest, pc := start instrs (i + 1 + if condition ≠ 0 then n.toNat else 0) })
      else some (.error .invalidBytecode,
        { s with stack := rest, pc := start instrs instrs.length }) := by
  have hlt : i < instrs.length := (List.getElem?_eq_some_iff.1 hi).1
  have hpositive : popPositiveI64 { s with stack := .i64 n :: rest, pc := start instrs (i + 1) } =
      some (.ok n.toNat, { s with stack := rest, pc := start instrs (i + 1) }) :=
    Cmd.run_bind_ok.2 ⟨n, _, popI64_of_stack rfl, Cmd.run_failWhen_bind_ok.2 ⟨by omega, rfl⟩⟩
  have hpop : popI64 { s with pc := start instrs (i + 1) } =
      some (.ok condition, { s with stack := .i64 n :: rest, pc := start instrs (i + 1) }) :=
    popI64_of_stack hstack
  unfold step
  rw [Cmd.run_get_bind, hpc, nextPc_start h hlt]
  change exec bytecode input (instrAt bytecode (start instrs i))
    { s with pc := start instrs (i + 1) } = _
  rw [instrAt_jumpIf h hi hjump]
  change opJumpIf bytecode { s with pc := start instrs (i + 1) } = _
  unfold opJumpIf
  rw [Cmd.run_bind_of_ok hpop, Cmd.run_bind_of_ok hpositive]
  exact skip_assembled h _ _ hlt rfl

end assembled

/-! ## Instructions that are defined -/

theorem pop_total : Cmd.Total pop := by
  intro s h
  unfold pop at h
  rw [Cmd.run_get_bind] at h
  cases hstack : s.stack with
  | nil =>
    rw [hstack] at h
    cases h
  | cons v rest =>
    rw [hstack] at h
    cases h

theorem popI64_total : Cmd.Total popI64 := by
  refine pop_total.bind fun v => ?_
  cases v with
  | i64 val => exact Cmd.Total.pure val
  | tag t => exact Cmd.Total.fail _
  | type t => exact Cmd.Total.fail _

theorem popType_total : Cmd.Total popType := by
  refine pop_total.bind fun v => ?_
  cases v with
  | i64 val => exact Cmd.Total.fail _
  | tag t => exact Cmd.Total.fail _
  | type t => exact Cmd.Total.pure t

theorem popTag_total : Cmd.Total popTag := by
  refine pop_total.bind fun v => ?_
  cases v with
  | i64 val => exact Cmd.Total.fail _
  | tag t => exact Cmd.Total.pure t
  | type t => exact Cmd.Total.fail _

theorem popPositiveI64_total : Cmd.Total popPositiveI64 :=
  popI64_total.bind fun _ => (Cmd.Total.failWhen _).bind fun _ => Cmd.Total.pure _

theorem push_total (v : Value) : Cmd.Total (push v) :=
  Cmd.Total.get.bind fun _ => (Cmd.Total.failWhen _).bind fun _ => Cmd.Total.modify _

theorem segmentCreateInternal_total (input : List UInt8) (tag : Nat) (type : Ty)
    (elementCount : Nat) : Cmd.Total (segmentCreateInternal input tag type elementCount) := by
  have hregister : Cmd.Total (tagRegistryRegister tag type) := by
    refine Cmd.Total.get.bind fun s => ?_
    split
    · exact Cmd.Total.failWhen _
    · exact (Cmd.Total.failWhen _).bind fun _ => Cmd.Total.modify _
  have happend : Cmd.Total (appendSegment tag type (elementCount * type.size)) := by
    refine Cmd.Total.get.bind fun s => ?_
    split
    · split
      · exact Cmd.Total.modify _
      · exact (Cmd.Total.failWhen _).bind fun _ => Cmd.Total.modify _
    · exact Cmd.Total.modify _
  refine (Cmd.Total.failWhen _).bind fun _ => Cmd.Total.get.bind fun s =>
    (Cmd.Total.failWhen _).bind fun _ => ?_
  split
  · exact hregister.bind fun _ => happend
  · exact happend

theorem skip_total (bytecode : List UInt8) : ∀ n, Cmd.Total (skip bytecode n)
  | 0 => Cmd.Total.pure ()
  | n + 1 => by
    refine Cmd.Total.get.bind fun s => ?_
    split
    · exact Cmd.Total.fail _
    · exact (Cmd.Total.modify _).bind fun _ => skip_total bytecode n

theorem popMembers_total {allocationSize : Nat} : ∀ {n : Nat} {members : List Ty},
    structDataBytes n ≤ allocationSize → Cmd.Total (popMembers allocationSize n members)
  | 0, members, _ => Cmd.Total.pure members
  | n + 1, members, h => by
    have hless : structDataBytes n ≤ structDataBytes (n + 1) := by
      unfold structDataBytes sizeofType
      omega
    refine popType_total.bind fun t s hs => ?_
    rw [Cmd.require, if_pos h] at hs
    exact popMembers_total (hless.trans h) s hs

theorem totalSize_total : ∀ (members : List Ty) (total : Nat), Cmd.Total (totalSize members total)
  | [], total => Cmd.Total.pure total
  | _ :: members, _ => (Cmd.Total.failWhen _).bind fun _ => totalSize_total members _

theorem opMath_total {op : MathOp} (hop : op ≠ .mod) : Cmd.Total (opMath op) := by
  have hpush : ∀ val, Cmd.Total (pushI64 val) := fun val => push_total _
  cases op with
  | mod => exact absurd rfl hop
  | div =>
    exact popI64_total.bind fun _ => popI64_total.bind fun _ =>
      (Cmd.Total.failWhen _).bind fun _ => (Cmd.Total.failWhen _).bind fun _ => hpush _
  | abs => exact popI64_total.bind fun _ => (Cmd.Total.failWhen _).bind fun _ => hpush _
  | neg => exact popI64_total.bind fun _ => (Cmd.Total.failWhen _).bind fun _ => hpush _
  | bitAnd => exact popI64_total.bind fun _ => popI64_total.bind fun _ => hpush _
  | bitOr => exact popI64_total.bind fun _ => popI64_total.bind fun _ => hpush _
  | bitXor => exact popI64_total.bind fun _ => popI64_total.bind fun _ => hpush _
  | bitNot => exact popI64_total.bind fun _ => hpush _
  | _ =>
    exact popI64_total.bind fun _ => popI64_total.bind fun _ =>
      (Cmd.Total.failWhen _).bind fun _ => hpush _

/-! ## Undefined instructions -/

/-- The states in which an instruction has no defined behaviour: a remainder, or an allocation
whose size wraps around. -/
def Instr.Undefined : Instr → Vm → Prop
  | .math op, s => UndefinedMod op s
  | .typeStructure, s => ∃ count rest, s.stack = .i64 count :: rest ∧
      2 ^ 64 ≤ structDataBytes count.toNat
  | _, _ => False

theorem opMod_undefined {s : Vm} (h : opMath .mod s = none) : UndefinedMod .mod s := by
  rcases popI64_cases s with ⟨b, rest, hb, hpop⟩ | ⟨-, e, s', hpop⟩
  · rw [opMath, Cmd.run_bind_of_ok hpop] at h
    rcases popI64_cases { s with stack := rest } with ⟨a, rest', ha, hpop'⟩ | ⟨-, e, s', hpop'⟩
    · rw [Cmd.run_bind_of_ok hpop'] at h
      have ha : rest = .i64 a :: rest' := ha
      by_cases hcorner : a = INT64_MIN ∧ b = -1
      · obtain ⟨rfl, rfl⟩ := hcorner
        exact ⟨rfl, rest', by rw [hb, ha]⟩
      · rw [if_neg hcorner] at h
        refine absurd h (((Cmd.Total.failWhen _).bind fun _ => ?_) _)
        exact push_total (.i64 (a.tmod b))
    · rw [Cmd.run_bind_of_error hpop'] at h
      cases h
  · rw [opMath, Cmd.run_bind_of_error hpop] at h
    cases h

theorem opTypeStructure_undefined {s : Vm} (h : opTypeStructure s = none) :
    Instr.Undefined .typeStructure s := by
  rcases popPositiveI64_cases s with ⟨count, rest, hcount, hneg, hpop⟩ | ⟨-, e, s', hpop⟩
  · refine ⟨count, rest, hcount, Nat.not_lt.1 fun hlt => ?_⟩
    have hroom := (structAllocationSize_suffices_iff count.toNat).2 hlt
    unfold opTypeStructure at h
    rw [Cmd.run_bind_of_ok hpop] at h
    exact (Cmd.Total.get.bind fun _ => (Cmd.Total.modify _).bind fun _ =>
      (popMembers_total hroom).bind fun _ => (totalSize_total _ _).bind fun _ =>
        push_total _) _ h
  · unfold opTypeStructure at h
    rw [Cmd.run_bind_of_error hpop] at h
    cases h

theorem exec_undefined {bytecode input : List UInt8} {instr : Instr} {s : Vm}
    (h : exec bytecode input instr s = none) : instr.Undefined s := by
  have hpush : ∀ val, Cmd.Total (pushI64 val) := fun val => push_total _
  cases instr with
  | math op =>
    by_cases hop : op = .mod
    · subst hop
      exact opMod_undefined h
    · exact absurd h (opMath_total hop s)
  | typeStructure => exact opTypeStructure_undefined h
  | push v => exact absurd h (push_total v s)
  | pushCurrentPos => exact absurd h ((Cmd.Total.get.bind fun _ => hpush _) s)
  | pushRemaining => exact absurd h ((Cmd.Total.get.bind fun _ => hpush _) s)
  | pushStackDepth => exact absurd h ((Cmd.Total.get.bind fun _ => hpush _) s)
  | cmp op =>
    exact absurd h ((popI64_total.bind fun _ => popI64_total.bind fun _ => hpush _) s)
  | logic op =>
    cases op with
    | not => exact absurd h ((popI64_total.bind fun _ => hpush _) s)
    | _ => exact absurd h ((popI64_total.bind fun _ => popI64_total.bind fun _ => hpush _) s)
  | halt => cases h
  | expectTrue => exact absurd h ((popI64_total.bind fun _ => Cmd.Total.failWhen _) s)
  | jumpIf =>
    exact absurd h ((popI64_total.bind fun _ => popPositiveI64_total.bind fun _ =>
      skip_total _ _) s)
  | traceStart => cases h
  | load op =>
    exact absurd h ((popI64_total.bind fun _ => (Cmd.Total.failWhen _).bind fun _ => hpush _) s)
  | stackDrop => exact absurd h ((pop_total.bind fun _ => Cmd.Total.pure _) s)
  | stackDropIf =>
    refine absurd h ((popI64_total.bind fun condition => ?_) s)
    split
    · exact pop_total.bind fun _ => Cmd.Total.pure _
    · exact Cmd.Total.pure _
  | stackDup =>
    refine absurd h ((Cmd.Total.get.bind fun t => ?_) s)
    split
    · exact Cmd.Total.fail _
    · exact push_total _
  | stackSwap =>
    refine absurd h ((Cmd.Total.get.bind fun t => ?_) s)
    split
    · exact Cmd.Total.modify _
    · exact Cmd.Total.fail _
  | typeFixedArray =>
    exact absurd h ((popPositiveI64_total.bind fun _ => popType_total.bind fun _ =>
      (Cmd.Total.failWhen _).bind fun _ => push_total _) s)
  | typeSizeof => exact absurd h ((popType_total.bind fun _ => hpush _) s)
  | varStore =>
    exact absurd h ((popI64_total.bind fun _ => (Cmd.Total.failWhen _).bind fun _ =>
      pop_total.bind fun _ => Cmd.Total.modify _) s)
  | varLoad =>
    refine absurd h ((popI64_total.bind fun _ => (Cmd.Total.failWhen _).bind fun _ =>
      Cmd.Total.get.bind fun t => ?_) s)
    split
    · exact Cmd.Total.fail _
    · exact push_total _
  | segmentCreateUnspecified =>
    exact absurd h ((popI64_total.bind fun _ => (Cmd.Total.failWhen _).bind fun _ =>
      segmentCreateInternal_total _ _ _ _) s)
  | segmentCreateTagged =>
    exact absurd h ((popI64_total.bind fun _ => popType_total.bind fun _ =>
      popTag_total.bind fun _ => (Cmd.Total.failWhen _).bind fun _ =>
        segmentCreateInternal_total _ _ _ _) s)
  | invalid => cases h
  | ignored => cases h

theorem execute_undefined {bytecode input : List UInt8}
    (h : executeBytecode bytecode input = none) :
    ∃ s, Reached bytecode input none s ∧ s.running bytecode ∧
      (instrAt bytecode s.pc).Undefined s := by
  obtain ⟨s, hs, hrun, hstep⟩ := execute_total h
  refine ⟨s, hs, hrun, ?_⟩
  unfold step at hstep
  rw [Cmd.run_get_bind] at hstep
  cases hpc : nextPc bytecode s.pc with
  | none =>
    rw [hpc] at hstep
    cases hstep
  | some pc =>
    rw [hpc] at hstep
    have hundefined : (instrAt bytecode s.pc).Undefined { s with pc } := exec_undefined hstep
    cases hinstr : instrAt bytecode s.pc with
    | math op => rwa [hinstr] at hundefined
    | typeStructure => rwa [hinstr] at hundefined
    | _ => rw [hinstr] at hundefined; exact hundefined.elim

/-! ## Undefined words -/

/-- The words of `sddl2_opcodes.def`. -/
def DefinedWord (family opcode : Nat) : Prop :=
  (family, opcode) ∈ INSTRUCTIONS.map fun entry => (entry.2.family.id, entry.2.opcode)

instance (family opcode : Nat) : Decidable (DefinedWord family opcode) :=
  inferInstanceAs (Decidable (_ ∈ _))

/-- The families of `sddl2_opcodes.def`. -/
def familyIds : List Nat :=
  [0x0001, 0x0002, 0x0003, 0x0004, 0x0005, 0x0006, 0x0007, 0x0008, 0x0009, 0x000B, 0x000C]

theorem pushTypeKind_undefined {opcode : Nat} (h : ¬ DefinedWord 0x0001 opcode) :
    pushTypeKind opcode = none := by
  unfold pushTypeKind
  split <;> first | rfl | exact absurd (by decide) h

theorem decodePush_undefined {opcode immediate : Nat} (h : ¬ DefinedWord 0x0001 opcode) :
    decodePush opcode immediate = .invalid := by
  unfold decodePush
  split
  all_goals first
    | exact absurd (by decide) h
    | rw [pushTypeKind_undefined h]

theorem decode_undefined {family opcode immediate : Nat} (h : ¬ DefinedWord family opcode) :
    (family ∈ familyIds → decode family opcode immediate = .invalid) ∧
      (family ∉ familyIds → decode family opcode immediate = .ignored) := by
  unfold decode
  split
  · exact ⟨fun _ => decodePush_undefined h, fun hf => absurd (by decide) hf⟩
  · refine ⟨fun _ => ?_, fun hf => absurd (by decide) hf⟩
    unfold decodeMath
    split <;> first | rfl | exact absurd (by decide) h
  · refine ⟨fun _ => ?_, fun hf => absurd (by decide) hf⟩
    unfold decodeCmp
    split <;> first | rfl | exact absurd (by decide) h
  · refine ⟨fun _ => ?_, fun hf => absurd (by decide) hf⟩
    unfold decodeLogic
    split <;> first | rfl | exact absurd (by decide) h
  · refine ⟨fun _ => ?_, fun hf => absurd (by decide) hf⟩
    unfold decodeControl
    split <;> first | rfl | exact absurd (by decide) h
  · refine ⟨fun _ => ?_, fun hf => absurd (by decide) hf⟩
    unfold decodeLoad
    split <;> first | rfl | exact absurd (by decide) h
  · refine ⟨fun _ => ?_, fun hf => absurd (by decide) hf⟩
    unfold decodeStack
    split <;> first | rfl | exact absurd (by decide) h
  · refine ⟨fun _ => ?_, fun hf => absurd (by decide) hf⟩
    unfold decodeType
    split <;> first | rfl | exact absurd (by decide) h
  · refine ⟨fun _ => ?_, fun hf => absurd (by decide) hf⟩
    unfold decodeVar
    split <;> first | rfl | exact absurd (by decide) h
  · exact ⟨fun _ => rfl, fun hf => absurd (by decide) hf⟩
  · refine ⟨fun _ => ?_, fun hf => absurd (by decide) hf⟩
    unfold decodeSegment
    split <;> first | rfl | exact absurd (by decide) h
  · refine ⟨fun hf => ?_, fun _ => rfl⟩
    simp_all [familyIds]

theorem immediateSize_undefined {family opcode : Nat} (h : ¬ DefinedWord family opcode) :
    immediateSize family opcode = 0 := by
  unfold immediateSize
  split
  · rename_i hfamily
    subst hfamily
    split
    · rename_i hopcode
      rcases hopcode with rfl | rfl | rfl <;> exact absurd (by decide) h
    · split
      · rename_i hopcode
        subst hopcode
        exact absurd (by decide) h
      · rfl
  · rfl

/-! ## The walk -/

theorem stepsInside_four (bytecode : List UInt8) : StepsInside bytecode (4 ∣ ·) := by
  intro pc pc' hdvd h
  unfold nextPc at h
  split at h
  · cases h
  · split at h
    · cases h
    · obtain rfl := Option.some.inj h
      have hfour : 4 ∣ immediateSize (family bytecode pc) (opcode bytecode pc) := by
        unfold immediateSize
        split_ifs <;> decide
      omega

theorem step_undefined_iff {bytecode input : List UInt8} {s : Vm}
    (hs : Reached bytecode input none s) (hrun : s.running bytecode)
    (hword : ¬ DefinedWord (family bytecode s.pc) (opcode bytecode s.pc)) :
    (∃ s', step bytecode input s = some (.error .invalidBytecode, s')) ↔
      family bytecode s.pc ∈ familyIds := by
  have hsize : bytecode.length % 4 = 0 := by
    clear hrun hword
    generalize (none : Option VmError) = e at hs
    induction hs with
    | init h => exact h
    | ok _ _ _ ih => exact ih
    | error _ _ _ ih => exact ih
  have hfour : 4 ∣ s.pc := hs.inside (stepsInside_four bytecode) (by decide)
  have hlt := hrun.1
  have hnext : nextPc bytecode s.pc = some (s.pc + 4) := by
    unfold nextPc
    rw [immediateSize_undefined hword, if_neg (by omega), if_neg (by omega)]
  have hstep : step bytecode input s =
      exec bytecode input (instrAt bytecode s.pc) { s with pc := s.pc + 4 } := by
    unfold step
    rw [Cmd.run_get_bind, hnext]
    rfl
  rw [hstep]
  constructor
  · rintro ⟨s', h⟩
    by_contra hfamily
    have hignored : instrAt bytecode s.pc = .ignored := (decode_undefined hword).2 hfamily
    rw [hignored] at h
    cases h
  · intro hfamily
    have hinvalid : instrAt bytecode s.pc = .invalid := (decode_undefined hword).1 hfamily
    rw [hinvalid]
    exact ⟨_, rfl⟩

/-- **Bytecode is walked on instruction boundaries.**  A program whose parameters are in range is
assembled; its runs are on the starts of its instructions, each of which is read as the operation
it stands for, unless the machine has none; a jump skips as many instructions as it says.  A run of
any bytecode has an end, up to undefined behaviour, and a word that is not defined is rejected if
and only if its family is one of those there are. -/
theorem bytecode_walk (instrs : List ParsedInstruction) (code src : List UInt8) :
    ((∀ instr ∈ instrs, instr.InRange) →
      ∃ bytecode, assemble instrs = .ok bytecode ∧
      (∀ input e s, Reached bytecode input e s → ∃ i ≤ instrs.length, s.pc = start instrs i) ∧
      (∀ i parsed, instrs[i]? = some parsed →
        (some (instrAt bytecode (start instrs i)) = parsed.meaning ↔
          parsed.mnemonic ∉ unhandled)) ∧
      ∀ input i parsed s condition n rest, instrs[i]? = some parsed →
        parsed.mnemonic = "jump_if" → s.pc = start instrs i →
        s.stack = .i64 condition :: .i64 n :: rest → condition ≠ 0 → 0 ≤ n →
        step bytecode input s = if i + 1 + n.toNat ≤ instrs.length
          then some (.ok (), { s with stack := rest, pc := start instrs (i + 1 + n.toNat) })
          else some (.error .invalidBytecode,
            { s with stack := rest, pc := start instrs instrs.length })) ∧
    (executeBytecode code src = none → ∃ s, Reached code src none s ∧
      s.running code ∧ (instrAt code s.pc).Undefined s) ∧
    ∀ s, Reached code src none s → s.running code →
      ¬ DefinedWord (family code s.pc) (opcode code s.pc) →
      ((∃ s', step code src s = some (.error .invalidBytecode, s')) ↔
        family code s.pc ∈ familyIds) := by
  refine ⟨fun hrange => ?_, execute_undefined, fun s hs hrun hword =>
    step_undefined_iff hs hrun hword⟩
  obtain ⟨bytecode, h⟩ := assemble_isOk_iff.2 hrange
  refine ⟨bytecode, h, fun input e s hs => ?_, fun i parsed hi => ?_, ?_⟩
  · exact hs.inside (assembled_stepsInside h) ⟨0, Nat.zero_le _, rfl⟩
  · obtain ⟨pre, bytes, post, rfl, hpre, hbytes, -⟩ := assemble_split h hi
    rw [← hpre]
    exact (instrAt_assembled hbytes pre post).2
  · intro input i parsed s condition n rest hi hjump hpc hstack hcondition hn
    rw [step_jumpIf h hi hjump hpc hstack hn, if_pos hcondition]

/-- A condition and the length of a jump, over a push, to `halt`. -/
def jumpToHalt : List ParsedInstruction :=
  [⟨"push.i32", [1], by decide⟩, ⟨"push.i32", [5], by decide⟩, ⟨"jump_if", [], by decide⟩,
    ⟨"push.i32", [-7], by decide⟩, ⟨"halt", [], by decide⟩]

/-- The jump at byte 16 goes over the push to byte 28, where the program halts. -/
theorem bytecode_walk_jumpToHalt :
    (∀ instr ∈ jumpToHalt, instr.InRange) ∧ ∃ bytecode, assemble jumpToHalt = .ok bytecode ∧
      some (instrAt bytecode 28) = some .halt ∧
      ∀ input s, s.pc = 16 → s.stack = [.i64 5, .i64 1] →
        step bytecode input s = some (.ok (), { s with stack := [], pc := 28 }) := by
  have hpush : getInstruction "push.i32" = some ⟨.PUSH, 0x0003, [.I32]⟩ := by decide
  have hrange : ∀ instr ∈ jumpToHalt, instr.InRange := by
    simp only [jumpToHalt, List.forall_mem_cons]
    exact ⟨⟨_, hpush, .cons ⟨by decide, by decide⟩ .nil⟩,
      ⟨_, hpush, .cons ⟨by decide, by decide⟩ .nil⟩, ⟨⟨.CONTROL, 0x0003, []⟩, by decide, .nil⟩,
      ⟨_, hpush, .cons ⟨by decide, by decide⟩ .nil⟩, ⟨⟨.CONTROL, 0x0001, []⟩, by decide, .nil⟩,
      fun _ h => (List.not_mem_nil h).elim⟩
  obtain ⟨bytecode, h, -, hmeaning, hjump⟩ := (bytecode_walk jumpToHalt [] []).1 hrange
  refine ⟨hrange, bytecode, h, (hmeaning 4 _ rfl).2 (by decide), fun input s hpc hstack => ?_⟩
  exact hjump input 2 _ s 5 1 [] rfl rfl hpc hstack (by decide) (by decide)

/-- A word of family `0x000A` is stepped over, and `stack.over` is assembled but not run. -/
theorem bytecode_unknown_ignored :
    (¬ DefinedWord 0x000A 0x0001 ∧
      executeBytecode [1, 0, 0xA, 0] [] = some (.ok (), { Vm.init with pc := 4 })) ∧
    assemble [⟨"stack.over", [], by decide⟩] = .ok [2, 0, 7, 0] ∧
      instrAt [2, 0, 7, 0] 0 = .invalid ∧
      executeBytecode [2, 0, 7, 0] [] = some (.error .invalidBytecode, { Vm.init with pc := 4 }) :=
  ⟨⟨by decide, rfl⟩, by rfl, rfl, rfl⟩

end OpenZL.Sddl2
