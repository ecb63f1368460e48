import Mathlib.Data.List.Basic

/-!
# SDDL2 compiler: symbols, tokens, groups and syntax trees

The data that the stages of the SDDL2 compiler hand to each other (`Syntax.h`, `Token.h`,
`parser/Ops.h`, `grouper/Grouping.h`, `parser/AST.h`) and the grouper (`grouper/Grouper.cpp`),
which turns the token list of a program into one group for each statement.

Principal result: `AST.Converted.unwrapParens_paren`.
-/

namespace OpenZL.Sddl2.Compiler

/-- `Symbol`. -/
inductive Symbol
  | nl | comma | parenOpen | parenClose | curlyOpen | curlyClose | squareOpen | squareClose
  | expect | sizeof | assign | assume | member
  | eq | ne | gt | ge | lt | le | add | sub | mul | div | mod | abs | between
  | bitAnd | bitOr | bitXor | bitNot
  | logAnd | logOr | logNot
  | byte | u8 | i8 | u16le | u16be | i16le | i16be | u32le | u32be | i32le | i32be
  | u64le | u64be | i64le | i64be
  | f16le | f16be | f32le | f32be | f64le | f64be | bf16le | bf16be
  | bytes | record
  | when
  | at
  deriving DecidableEq, Repr

/-- `ListType`. -/
inductive ListType
  | paren | square | curly
  deriving DecidableEq, Repr

/-- `list_sym_sets`: the list type that a symbol opens. -/
def ListType.ofOpen : Symbol → Option ListType
  | .parenOpen => some .paren
  | .squareOpen => some .square
  | .curlyOpen => some .curly
  | _ => none

/-- `ListSymSet::open`. -/
def ListType.openSym : ListType → Symbol
  | .paren => .parenOpen
  | .square => .squareOpen
  | .curly => .curlyOpen

/-- `ListSymSet::close`. -/
def ListType.closeSym : ListType → Symbol
  | .paren => .parenClose
  | .square => .squareClose
  | .curly => .curlyClose

/-- `ListSymSet::sep`, the same symbol for every list. -/
def ListType.sep (_ : ListType) : Symbol := .comma

@[simp] theorem ListType.ofOpen_openSym (t : ListType) : ofOpen t.openSym = some t := by
  cases t <;> rfl

/-- `Op`. -/
inductive Op
  | expect | assign | sizeof | consume | assume | send | member
  | neg | add | sub | mul | div | mod | abs
  | eq | ne | gt | ge | lt | le
  | bitAnd | bitOr | bitXor | bitNot
  | logAnd | logOr | logNot
  deriving DecidableEq, Repr

/-- `Token`: a symbol, an integer or a word. -/
inductive Token
  | sym (s : Symbol)
  | num (val : Int)
  | word (name : String)
  deriving DecidableEq, Repr

/-- `GroupingNode`. The open and close tokens of a list and the terminator of an expression
only carry source locations. -/
inductive GroupingNode
  | token (t : Token)
  | list (type : ListType) (nodes : List GroupingNode)
  | expr (nodes : List GroupingNode)
  deriving Repr

/-- `ASTNode` and its subclasses. -/
inductive AST
  | sym (s : Symbol)
  | list (type : ListType) (nodes : List AST)
  | num (val : Int)
  | var (name : String)
  | builtinField (kw : Symbol)
  | bytes (len : AST)
  | array (field : AST) (len : Option AST)
  | record (params fields : List AST) (annotations : List String)
  | recordField (name type : AST)
  | call (target : AST) (args : List AST)
  | when (condition : AST) (body : List AST)
  | op (op : Op) (args : List AST)
  deriving Repr

namespace AST

/-- `as_sym() != nullptr`. -/
def isSym : AST → Bool
  | sym _ => true
  | _ => false

/-- `as_list() != nullptr`. -/
def isList : AST → Bool
  | list .. => true
  | _ => false

/-- `ASTConverted`: neither a symbol nor a list. -/
def Converted (a : AST) : Prop :=
  a.isSym = false ∧ a.isList = false

/-- `unwrap_parens`: step into parentheses around a single node. -/
def unwrapParens : AST → AST
  | list .paren [a] => a.unwrapParens
  | a => a

theorem Converted.unwrapParens {a : AST} (h : a.Converted) : a.unwrapParens = a := by
  cases a with
  | list => cases h.2
  | _ => simp [AST.unwrapParens]

theorem Converted.unwrapParens_paren {a : AST} (h : a.Converted) :
    (list .paren [a]).unwrapParens = a := by
  rw [AST.unwrapParens, h.unwrapParens]

end AST

/-- What a `ParseError` reports. -/
inductive ParseFailure
  | emptyExpression
  | lhsMissing
  | lhsPresent
  | rhsMissing (required found : Nat)
  | argsMismatch
  | arrayLength
  | annotationName
  | annotationTarget (name : String)
  | builtinFuncArity (sym : Symbol) (expected : Nat)
  | recordFieldNotAssume
  | recordFieldKind
  deriving DecidableEq, Repr

/-- What a `SyntaxError` reports. -/
inductive GroupFailure
  | unclosedList (type : ListType)
  | emptyListItem
  deriving DecidableEq, Repr

/-- What an `InvariantViolation` reports. -/
inductive Violation
  | operatorExpected
  | noRules (sym : Symbol)
  | groupNotAllowed
  | expectedToken
  | expectedList
  | bytesParams
  | regenMismatch
  | argCount
  deriving DecidableEq, Repr

/-- The exceptions of the grouper and the parser; `invalidIterator` is an operation on an
iterator whose node is no longer in the list. -/
inductive Error
  | syntaxError (why : GroupFailure)
  | parseError (why : ParseFailure)
  | invariantViolation (why : Violation)
  | invalidIterator
  deriving DecidableEq, Repr

/-- One call of `group_list_inner`: the list it reads, the groups it has finished and the nodes
of the current one. -/
structure GroupFrame where
  type : ListType
  groups : List GroupingNode
  cur : List GroupingNode

/-- The state of `group_stmts`: the finished statements, the nodes of the current statement and
the calls of `group_list_inner` under way, innermost first. -/
structure GroupState where
  stmts : List GroupingNode
  cur : List GroupingNode
  frames : List GroupFrame

namespace GroupState

/-- The state `group` starts from. -/
def empty : GroupState := ⟨[], [], []⟩

/-- `cur_group_nodes.push_back` of the innermost list, or of the statement. -/
def push (s : GroupState) (n : GroupingNode) : GroupState :=
  match s.frames with
  | [] => { s with cur := s.cur ++ [n] }
  | f :: fs => { s with frames := { f with cur := f.cur ++ [n] } :: fs }

/-- A new call of `group_list_inner`. -/
def enter (s : GroupState) (type : ListType) : GroupState :=
  { s with frames := ⟨type, [], []⟩ :: s.frames }

end GroupState

/-- `group_cur` -/
def GroupFrame.finish (f : GroupFrame) : GroupFrame :=
  { f with groups := f.groups ++ [.expr f.cur], cur := [] }

/-- The list node that a call of `group_list_inner` returns at its closing token. -/
def GroupFrame.close (f : GroupFrame) : GroupingNode :=
  .list f.type (if f.cur.isEmpty then f.groups else f.finish.groups)

/-- What the loops of `group_list_inner` and `group_stmts` do with one token. -/
def groupStep (s : GroupState) (t : Token) : Except Error GroupState :=
  match t with
  | .sym y =>
      match s.frames with
      | f :: fs =>
          if y = f.type.closeSym then .ok (({ s with frames := fs } : GroupState).push f.close)
          else match ListType.ofOpen y with
            | some type => .ok (s.enter type)
            | none =>
                if y = f.type.sep then
                  if f.cur.isEmpty then .error (.syntaxError .emptyListItem)
                  else .ok { s with frames := f.finish :: fs }
                else if y = .nl then .ok s
                else .ok (s.push (.token t))
      | [] =>
          if y = .nl then
            if s.cur.isEmpty then .ok s
            else .ok { s with stmts := s.stmts ++ [.expr s.cur], cur := [] }
          else match ListType.ofOpen y with
            | some type => .ok (s.enter type)
            | none => .ok (s.push (.token t))
  | _ => .ok (s.push (.token t))

/-- The end of `group_stmts`. A last statement without a newline is given to `group_expr` without
a terminator, which takes its last node for one. -/
def groupEnd (s : GroupState) : Except Error (List GroupingNode) :=
  match s.frames with
  | f :: _ => .error (.syntaxError (.unclosedList f.type))
  | [] => .ok (if s.cur.isEmpty then s.stmts else s.stmts ++ [.expr s.cur.dropLast])

/-- `Grouper::group`. -/
def group (tokens : List Token) : Except Error (List GroupingNode) := do
  groupEnd (← tokens.foldlM groupStep .empty)

end OpenZL.Sddl2.Compiler
