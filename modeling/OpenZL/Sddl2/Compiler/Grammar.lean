import OpenZL.Sddl2.Compiler.Syntax

/-!
# SDDL2 compiler: grammar rules

`parser/Grammar.cpp`: the precedence levels and their associativities, the rules of every symbol
and of every list type, how a rule matches an argument (`GrammarRule.matchArg`) and what it
builds (`GrammarRule.gen`).

Principal results: `matchArg_converted`, `matchArg_paren`, `matchArg_sym`.
-/

namespace OpenZL.Sddl2.Compiler

/-- `Precedence`, tightest first. -/
inductive Precedence
  | nullary | access | unary | mulDivMod | addSub | relation | equality
  | bitAnd | bitXor | bitOr | logAnd | logOr | assignment
  deriving DecidableEq, Repr

/-- `Associativity`. -/
inductive Associativity
  | leftToRight | rightToLeft
  deriving DecidableEq, Repr

/-- The value of the enumerator. -/
def Precedence.rank : Precedence → Nat
  | nullary => 0
  | access => 1
  | unary => 2
  | mulDivMod => 3
  | addSub => 4
  | relation => 5
  | equality => 6
  | bitAnd => 7
  | bitXor => 8
  | bitOr => 9
  | logAnd => 10
  | logOr => 11
  | assignment => 12

/-- `associativities`. -/
def Precedence.associativity : Precedence → Associativity
  | unary => .rightToLeft
  | assignment => .rightToLeft
  | _ => .leftToRight

theorem Precedence.rank_injective {p q : Precedence} (h : p.rank = q.rank) : p = q := by
  cases p <;> cases q <;> first | rfl | exact absurd h (by decide)

/-- `ArgType`. -/
inductive ArgType
  | sym | listParen | listSquare | listCurly | expr
  deriving DecidableEq, Repr

/-- The subclasses of `GrammarRule` that differ in `do_gen`. -/
inductive RuleKind
  | builtInField
  | op
  | unaryAssume
  | negation
  | array
  | record
  | anonymousRecord
  | annotate
  | call
  | bytes
  | when
  | builtinFunc (resultOp : Op)
  | between
  deriving DecidableEq, Repr

/-- `GrammarRule`. -/
structure GrammarRule where
  kind : RuleKind
  sym : Symbol
  precedence : Precedence
  argTypes : List ArgType
  hasLhsArg : Bool
  deriving DecidableEq, Repr

namespace GrammarRule

/-- `num_args` -/
def numArgs (r : GrammarRule) : Nat := r.argTypes.length

/-- `num_rhs_args` -/
def numRhsArgs (r : GrammarRule) : Nat := r.numArgs - (if r.hasLhsArg then 1 else 0)

/-- `BuiltInFieldRule`. -/
def builtInField (s : Symbol) : GrammarRule := ⟨.builtInField, s, .nullary, [], false⟩

/-- `UnaryOpRule`. -/
def unaryOp (s : Symbol) (p : Precedence) : GrammarRule := ⟨.op, s, p, [.expr], false⟩

/-- `BinaryOpRule`. -/
def binaryOp (s : Symbol) (p : Precedence) : GrammarRule := ⟨.op, s, p, [.expr, .expr], true⟩

/-- `UnaryAssumeRule`. -/
def unaryAssume : GrammarRule := ⟨.unaryAssume, .assume, .assignment, [.expr], false⟩

/-- `NegationRule`. -/
def negation : GrammarRule := ⟨.negation, .sub, .unary, [.expr], false⟩

/-- `ArrayRule`. -/
def array : GrammarRule := ⟨.array, .parenOpen, .access, [.expr], true⟩

/-- `RecordRule`. -/
def record : GrammarRule :=
  ⟨.record, .record, .nullary, [.expr, .listParen, .listCurly], false⟩

/-- `AnonymousRecordRule`. -/
def anonymousRecord : GrammarRule :=
  ⟨.anonymousRecord, .record, .nullary, [.listParen, .listCurly], false⟩

/-- `AnnotationRule`. -/
def annotate : GrammarRule := ⟨.annotate, .at, .access, [.expr, .expr], true⟩

/-- `CallRule`. -/
def call : GrammarRule := ⟨.call, .parenOpen, .access, [.expr], true⟩

/-- `BytesRule`. -/
def bytes : GrammarRule := ⟨.bytes, .bytes, .nullary, [.listParen], false⟩

/-- `WhenRule`. -/
def when : GrammarRule := ⟨.when, .when, .nullary, [.expr, .listCurly], false⟩

/-- `BuiltinFuncRule`. -/
def builtinFunc (s : Symbol) (resultOp : Op) : GrammarRule :=
  ⟨.builtinFunc resultOp, s, .access, [.listParen], false⟩

/-- `BetweenRule`. -/
def between : GrammarRule := ⟨.between, .between, .access, [.listParen], false⟩

end GrammarRule

/-- `builtin_field_syms`. -/
def builtinFieldSyms : List Symbol :=
  [.byte, .u8, .i8, .u16le, .u16be, .i16le, .i16be, .u32le, .u32be, .i32le, .i32be,
   .u64le, .u64be, .i64le, .i64be, .f16le, .f16be, .f32le, .f32be, .f64le, .f64be,
   .bf16le, .bf16be]

/-- `syms_to_ops`. -/
def symsToOps : Symbol → Option Op
  | .expect => some .expect
  | .assign => some .assign
  | .sizeof => some .sizeof
  | .assume => some .assume
  | .member => some .member
  | .eq => some .eq
  | .ne => some .ne
  | .add => some .add
  | .sub => some .sub
  | .mul => some .mul
  | .div => some .div
  | .mod => some .mod
  | .abs => some .abs
  | .gt => some .gt
  | .ge => some .ge
  | .lt => some .lt
  | .le => some .le
  | .logAnd => some .logAnd
  | .logOr => some .logOr
  | .logNot => some .logNot
  | .bitAnd => some .bitAnd
  | .bitXor => some .bitXor
  | .bitOr => some .bitOr
  | .bitNot => some .bitNot
  | _ => none

/-- `grammar_rules`. -/
def grammarRules : List GrammarRule :=
  builtinFieldSyms.map .builtInField ++
  [.record, .anonymousRecord, .bytes,
   .annotate,
   .unaryOp .expect .assignment,
   .builtinFunc .sizeof .sizeof,
   .when,
   .builtinFunc .abs .abs,
   .between,
   .binaryOp .assign .assignment,
   .binaryOp .assume .assignment,
   .unaryAssume,
   .binaryOp .member .access,
   .binaryOp .eq .equality,
   .binaryOp .ne .equality,
   .binaryOp .gt .relation,
   .binaryOp .ge .relation,
   .binaryOp .lt .relation,
   .binaryOp .le .relation,
   .binaryOp .add .addSub,
   .binaryOp .sub .addSub,
   .negation,
   .binaryOp .mul .mulDivMod,
   .binaryOp .div .mulDivMod,
   .binaryOp .mod .mulDivMod,
   .binaryOp .bitAnd .bitAnd,
   .binaryOp .bitOr .bitOr,
   .binaryOp .bitXor .bitXor,
   .unaryOp .bitNot .unary,
   .binaryOp .logAnd .logAnd,
   .binaryOp .logOr .logOr,
   .unaryOp .logNot .unary]

/-- `sym_to_rules`; a symbol without rules is an `InvariantViolation`. -/
def symToRules (s : Symbol) : Except Error (List GrammarRule) :=
  match grammarRules.filter (fun r => decide (r.sym = s)) with
  | [] => .error (.invariantViolation (.noRules s))
  | rules => .ok rules

/-- `list_type_to_rules`. -/
def listTypeToRules : ListType → List GrammarRule
  | .paren => [.call]
  | .square => [.array]
  | .curly => []

theorem length_symToRules {s : Symbol} {rules : List GrammarRule}
    (h : symToRules s = .ok rules) : rules.length ≤ 2 := by
  have all : ∀ y : Symbol, (grammarRules.filter (fun r => decide (r.sym = y))).length ≤ 2 := by
    intro y
    cases y <;> decide
  unfold symToRules at h
  split at h
  · cases h
  · cases h
    exact all s

namespace GrammarRule

/-- `as_list() != nullptr` with the given type. -/
def hasListType (a : AST) (t : ListType) : Bool :=
  match a with
  | .list u _ => decide (u = t)
  | _ => false

/-- `GrammarRule::match_arg`, which no rule overrides further. -/
def matchArg (type : ArgType) (a : AST) : Option AST :=
  match type with
  | .listSquare => if hasListType a.unwrapParens .square then some a.unwrapParens else none
  | .listCurly => if hasListType a.unwrapParens .curly then some a.unwrapParens else none
  | .listParen => if hasListType a .paren then some a else none
  | .expr =>
      if a.isSym then none
      else if a.unwrapParens.isList then none
      else some a.unwrapParens
  | .sym => if a.isSym then some a else none

@[simp] theorem matchArg_sym (s : Symbol) : matchArg .expr (.sym s) = none := rfl

theorem matchArg_converted {a : AST} (h : a.Converted) : matchArg .expr a = some a := by
  simp only [matchArg, h.1, h.unwrapParens, h.2, Bool.false_eq_true, if_false]

theorem matchArg_paren {a : AST} (h : a.Converted) :
    matchArg .expr (.list .paren [a]) = some a := by
  simp only [matchArg, h.unwrapParens_paren, h.2, AST.isSym, Bool.false_eq_true, if_false]

/-- `toRecordFields` -/
def toRecordField : AST → Except Error AST
  | .recordField n t => .ok (.recordField n t)
  | .when c body => do .ok (.when c (← toRecordFieldsAux body))
  | .op o args =>
      if o = .assume then
        match args with
        | n :: t :: _ => .ok (.recordField n t)
        | _ => .error (.invariantViolation .argCount)
      else .error (.parseError .recordFieldNotAssume)
  | _ => .error (.parseError .recordFieldKind)
where
  /-- The loop of `toRecordFields`. -/
  toRecordFieldsAux : List AST → Except Error (List AST)
    | [] => .ok []
    | a :: as => do
        let f ← toRecordField a
        .ok (f :: (← toRecordFieldsAux as))

/-- `toRecordFields` -/
def toRecordFields : List AST → Except Error (List AST) := toRecordField.toRecordFieldsAux

/-- `ASTRecord::ASTRecord`: the parameters and fields out of their lists. -/
def newRecord (params fields : AST) (annotations : List String) : Except Error AST :=
  match params, fields with
  | .list .paren ps, .list .curly fs => do
      let fields ← toRecordFields fs
      .ok (.record (ps.map AST.unwrapParens) fields annotations)
  | _, _ => .error (.invariantViolation .expectedList)

/-- `expect_builtin_func_args` -/
def builtinFuncArgs (s : Symbol) (list : AST) (expected : Nat) : Except Error (List AST) :=
  match list with
  | .list _ nodes =>
      if nodes.length = expected then .ok nodes
      else .error (.parseError (.builtinFuncArity s expected))
  | _ => .error (.parseError .argsMismatch)

/-- `annotations.names.insert`, a set kept in the order of its names. -/
def insertName (name : String) : List String → List String
  | [] => [name]
  | n :: ns =>
      if name = n then n :: ns
      else if name < n then name :: n :: ns
      else n :: insertName name ns

/-- `AnnotationRule::do_gen`: on a record, or on the record that `RecordRule` assigned. -/
def attach (annotated nameNode : AST) : Except Error AST :=
  match nameNode with
  | .var name =>
      match annotated with
      | .op .assign [lhs, .record ps fs ns] => do
          .ok (.op .assign [lhs, .record ps (← toRecordFields fs) (insertName name ns)])
      | .record ps fs ns => do .ok (.record ps (← toRecordFields fs) (insertName name ns))
      | _ => .error (.parseError (.annotationTarget name))
  | _ => .error (.parseError .annotationName)

/-- `do_gen` of each subclass. -/
def doGen (r : GrammarRule) (op : AST) (args : List AST) : Except Error AST :=
  match r.kind, op, args with
  | .builtInField, .sym s, _ => .ok (.builtinField s)
  | .op, .sym s, args =>
      match symsToOps s with
      | some o => .ok (.op o args)
      | none => .error (.invariantViolation .expectedToken)
  | .unaryAssume, _, args => .ok (.op .consume args)
  | .negation, _, args => .ok (.op .neg args)
  | .array, .list .square [], [field] => .ok (.array field none)
  | .array, .list .square [len], [field] => .ok (.array field (some len))
  | .array, .list .square _, [_] => .error (.parseError .arrayLength)
  | .record, _, [name, params, fields] => do
      .ok (.op .assign [name, ← newRecord params fields []])
  | .anonymousRecord, _, [params, fields] => newRecord params fields []
  | .annotate, _, [annotated, name] => attach annotated name
  | .call, .list .paren nodes, [target] => .ok (.call target (nodes.map AST.unwrapParens))
  | .bytes, _, [.list .paren [len]] => .ok (.bytes len)
  | .bytes, _, _ => .error (.invariantViolation .bytesParams)
  | .when, _, [condition, .list .curly body] => .ok (.when condition body)
  | .builtinFunc o, _, [list] => do
      let inner ← builtinFuncArgs r.sym list 1
      .ok (.op o inner)
  | .between, _, [list] => do
      match ← builtinFuncArgs .between list 3 with
      | [low, value, high] => .ok (.op .logAnd [.op .le [low, value], .op .le [value, high]])
      | _ => .error (.invariantViolation .argCount)
  | _, _, _ => .error (.invariantViolation .expectedToken)

/-- The loop of `gen`: each argument has to match once more. -/
def rematch : List ArgType → List AST → Except Error (List AST)
  | [], [] => .ok []
  | t :: ts, a :: as =>
      match matchArg t a with
      | none => .error (.invariantViolation .regenMismatch)
      | some a' => do .ok (a' :: (← rematch ts as))
  | _, _ => .error (.invariantViolation .argCount)

/-- `GrammarRule::gen`. -/
def gen (r : GrammarRule) (op : AST) (args : List AST) : Except Error AST := do
  r.doGen op (← rematch r.argTypes args)

end GrammarRule

end OpenZL.Sddl2.Compiler
