import Mathlib.Data.List.Sort
import OpenZL.Lib.Result
import OpenZL.Sddl2.Compiler.Grammar

/-!
# SDDL2 compiler: the parser

`parser/Parser.cpp`.

Principal results: `applyRules_isSome`, `applyRules_thrown`.
-/

namespace OpenZL.Sddl2.Compiler

open OpenZL.Lib

variable {pending pending' : List PendingOp}

/-! ## Order of operators -/

/-- `PendingOp`. -/
structure PendingOp where
  pos : Nat
  rule : GrammarRule
  deriving DecidableEq, Repr

/-- `PendingOp::operator<`; the associativity belongs to the precedence, so two of one precedence
never differ in it. -/
def PendingOp.lt (a b : PendingOp) : Bool :=
  if a.rule.precedence = b.rule.precedence then
    match a.rule.precedence.associativity with
    | .leftToRight => decide (a.pos < b.pos)
    | .rightToLeft => decide (b.pos < a.pos)
  else decide (a.rule.precedence.rank < b.rule.precedence.rank)

/-- Not after `b` in the order of `pending_ops.sort()`. -/
def PendingOp.le (a b : PendingOp) : Prop := b.lt a = false

instance : DecidableRel PendingOp.le := fun a b => inferInstanceAs (Decidable (b.lt a = false))

theorem PendingOp.le_total (a b : PendingOp) : a.le b ∨ b.le a := by
  unfold PendingOp.le PendingOp.lt
  by_cases h : a.rule.precedence = b.rule.precedence
  · simp only [h, if_true]
    cases b.rule.precedence.associativity <;> simp only [decide_eq_false_iff_not] <;> omega
  · simp only [h, Ne.symm h, if_false, decide_eq_false_iff_not]
    omega

instance : Std.Total PendingOp.le := ⟨PendingOp.le_total⟩

theorem PendingOp.rank_le {a b : PendingOp} (h : a.le b) :
    a.rule.precedence.rank ≤ b.rule.precedence.rank := by
  unfold PendingOp.le PendingOp.lt at h
  by_cases e : b.rule.precedence = a.rule.precedence
  · exact le_of_eq (by rw [e])
  · simp only [e, if_false, decide_eq_false_iff_not] at h
    omega

theorem PendingOp.le_trans {a b c : PendingOp} (hab : a.le b) (hbc : b.le c) : a.le c := by
  have h₁ := PendingOp.rank_le hab
  have h₂ := PendingOp.rank_le hbc
  unfold PendingOp.le PendingOp.lt at *
  by_cases e : c.rule.precedence = a.rule.precedence
  · have hrank : b.rule.precedence.rank = a.rule.precedence.rank := by
      have := congrArg Precedence.rank e
      omega
    have eb := Precedence.rank_injective hrank
    simp only [e, eb, if_true] at hab hbc ⊢
    cases ha : a.rule.precedence.associativity <;>
      simp only [ha, decide_eq_false_iff_not] at hab hbc ⊢ <;> omega
  · simp only [e, if_false, decide_eq_false_iff_not]
    omega

instance : IsTrans PendingOp PendingOp.le := ⟨fun _ _ _ => PendingOp.le_trans⟩

/-! ## Rules -/

/-- An element of the list of nodes: the position it had at first and what it holds now. -/
abbrev Node := Nat × AST

/-- The rules of a node: those of its symbol or of its list type. -/
def rulesOf : AST → Except Error (List GrammarRule)
  | .sym s => symToRules s
  | .list t _ => .ok (listTypeToRules t)
  | _ => .ok []

/-- The loop that finds all the symbols and lists and their rules. -/
def findOps : List Node → Except Error (List PendingOp)
  | [] => .ok []
  | (i, a) :: ns => do
      let rules ← rulesOf a
      .ok (rules.map (PendingOp.mk i) ++ (← findOps ns))

/-- The nodes before an iterator, the node and the nodes after it. -/
def splitAtNode (pos : Nat) : List Node → Option (List Node × AST × List Node)
  | [] => none
  | (i, a) :: ns =>
      if i = pos then some ([], a, ns)
      else match splitAtNode pos ns with
        | none => none
        | some (pre, b, post) => some ((i, a) :: pre, b, post)

/-- The loop over the arguments: each one that matches is replaced, up to the first that fails. -/
def matchArgs : List ArgType → List Node → List Node × Bool
  | [], args => (args, true)
  | _ :: _, [] => ([], false)
  | t :: ts, (i, a) :: args =>
      match GrammarRule.matchArg t a with
      | none => ((i, a) :: args, false)
      | some b => ((i, b) :: (matchArgs ts args).1, (matchArgs ts args).2)

/-- The iterator to the argument before the operator, if the rule has one. -/
def lhsNodes (rule : GrammarRule) (pre : List Node) : Except ParseFailure (List Node) :=
  if rule.hasLhsArg then
    match pre.getLast? with
    | none => .error .lhsMissing
    | some n => .ok [n]
  else .ok []

/-- The iterators to the arguments of a rule, or why there are none. -/
def argNodes (rule : GrammarRule) (pre post : List Node) : Except ParseFailure (List Node) := do
  let lhs ← lhsNodes rule pre
  if rule.numRhsArgs = 0 then .ok lhs
  else if rule.numArgs = 1 ∧ (pre.getLast?.any fun n => !n.2.isSym) then .error .lhsPresent
  else if post.length < rule.numRhsArgs then
    .error (.rhsMissing rule.numRhsArgs post.length)
  else .ok (lhs ++ post.take rule.numRhsArgs)

/-- The outcome of considering a rule. -/
inductive Considered
  | mismatch (why : ParseFailure) (nodes : List Node)
  | applied (nodes : List Node) (pending : List PendingOp)

/-- The nodes to the left of an operator that are not its argument. -/
def keptBefore (rule : GrammarRule) (pre : List Node) : List Node :=
  if rule.hasLhsArg then pre.dropLast else pre

/-- The body of the loop over `pending_ops`. -/
def consider (op : PendingOp) (nodes : List Node) (pending : List PendingOp) :
    Except Error Considered :=
  match splitAtNode op.pos nodes with
  | none => .error .invalidIterator
  | some (pre, node, post) =>
      match argNodes op.rule pre post with
      | .error why => .ok (.mismatch why nodes)
      | .ok args =>
          let left := keptBefore op.rule pre
          let right := post.drop op.rule.numRhsArgs
          let numLhs := args.length - op.rule.numRhsArgs
          match matchArgs op.rule.argTypes args with
          | (args, false) =>
              .ok (.mismatch .argsMismatch
                (left ++ args.take numLhs ++ (op.pos, node) :: args.drop numLhs ++ right))
          | (args, true) => do
              let result ← op.rule.gen node (args.map Prod.snd)
              .ok (.applied (left ++ (op.pos, result) :: right)
                (pending.filter fun p => decide (p.pos ≠ op.pos ∧ p.pos ∉ args.map Prod.fst)))

/-- One pass over the pending operators: the nodes and operators it leaves, and `changed`. -/
def tryOps (throwing : Bool) (pending : List PendingOp) :
    List Node → List PendingOp → Except Error (List Node × List PendingOp × Bool)
  | nodes, [] => .ok (nodes, pending, false)
  | nodes, op :: ops =>
      match consider op nodes pending with
      | .error e => .error e
      | .ok (.applied nodes pending) => .ok (nodes, pending, true)
      | .ok (.mismatch why nodes) =>
          if throwing then .error (.parseError why) else tryOps throwing pending nodes ops

/-- The loop of `parse_expr`, for at most `passes` passes. -/
def applyRules : Nat → Bool → List Node → List PendingOp → Option (Except Error (List Node))
  | _, _, nodes, [] => some (.ok nodes)
  | 0, _, _, _ :: _ => none
  | passes + 1, throwing, nodes, op :: ops =>
      match tryOps throwing (op :: ops) nodes (op :: ops) with
      | .error e => some (.error e)
      | .ok (nodes, pending, changed) => applyRules passes (!changed) nodes pending

/-! ## Groups -/

/-- The parser's results: `none` is a loop cut short. -/
abbrev Parsed (α : Type) := ExceptT Error Option α

/-- The nodes with their positions. -/
def locate (asts : List AST) : List Node :=
  asts.zipIdx.map Prod.swap

/-- The list of nodes when the loop has ended: one node is left. -/
def soleNode (nodes : List Node) : Except Error AST :=
  match nodes with
  | [n] => .ok n.2
  | _ => .error (.invariantViolation .operatorExpected)

/-- `parse_expr` from the nodes of its sub-expressions on. -/
def parseExpr (passes : Nat) (asts : List AST) : Parsed AST :=
  if asts.isEmpty then throw (.parseError .emptyExpression)
  else match findOps (locate asts) with
    | .error e => throw e
    | .ok ops => do
        let nodes ← ExceptT.mk
          (applyRules passes false (locate asts) (ops.insertionSort PendingOp.le))
        ExceptT.mk (some (soleNode nodes))

/-- `parse_token` -/
def parseToken : Token → AST
  | .sym s => .sym s
  | .num v => .num v
  | .word x => .var x

mutual

/-- `parse_node` where tokens and lists are allowed. -/
def parseItem (passes : Nat) : GroupingNode → Parsed AST
  | .token t => pure (parseToken t)
  | .list type nodes => do
      let nodes ← parseGroups passes nodes
      pure (.list type (nodes.map AST.unwrapParens))
  | .expr _ => throw (.invariantViolation .groupNotAllowed)

/-- `parse_node` over the nodes of an expression. -/
def parseItems (passes : Nat) : List GroupingNode → Parsed (List AST)
  | [] => pure []
  | n :: ns => do
      let a ← parseItem passes n
      let as ← parseItems passes ns
      pure (a :: as)

/-- `parse_node` where expressions are allowed. -/
def parseGroup (passes : Nat) : GroupingNode → Parsed AST
  | .expr nodes => do
      let asts ← parseItems passes nodes
      parseExpr passes asts
  | _ => throw (.invariantViolation .groupNotAllowed)

/-- `parse_node` over the nodes of a list. -/
def parseGroups (passes : Nat) : List GroupingNode → Parsed (List AST)
  | [] => pure []
  | n :: ns => do
      let a ← parseGroup passes n
      let as ← parseGroups passes ns
      pure (a :: as)

end

/-- `parse_stmts` -/
def parseStmts (passes : Nat) (groups : List GroupingNode) : Parsed (List AST) := do
  let nodes ← parseGroups passes groups
  pure (nodes.map AST.unwrapParens)

/-- The grouper and the parser on a program's tokens. -/
def parse (passes : Nat) (tokens : List Token) : Parsed (List AST) :=
  match group tokens with
  | .error e => throw e
  | .ok groups => parseStmts passes groups

/-! ## Progress -/

theorem consider_applied {op : PendingOp} {nodes nodes' : List Node}
    (h : consider op nodes pending = .ok (.applied nodes' pending')) (hmem : op ∈ pending) :
    pending'.length < pending.length := by
  unfold consider at h
  split at h
  · cases h
  · split at h
    · cases h
    · dsimp only at h
      split at h
      · cases h
      · rename_i args _
        obtain ⟨result, -, hr⟩ := bind_eq_ok.1 h
        cases hr
        refine List.length_filter_lt_length_iff_exists.mpr ⟨op, hmem, ?_⟩
        simp

theorem tryOps_length {throwing changed : Bool} :
    ∀ {nodes nodes' : List Node} {ops : List PendingOp}, (∀ o ∈ ops, o ∈ pending) →
      tryOps throwing pending nodes ops = .ok (nodes', pending', changed) →
      (changed = true ∧ pending'.length < pending.length) ∨
        (changed = false ∧ pending' = pending ∧ (throwing = true → ops = []))
  | nodes, nodes', [], _, h => by
      cases h
      exact .inr ⟨rfl, rfl, fun _ => rfl⟩
  | nodes, nodes', op :: ops, hops, h => by
      rw [tryOps] at h
      split at h
      · cases h
      · rename_i happ
        cases h
        exact .inl ⟨rfl, consider_applied happ (hops op (List.mem_cons_self ..))⟩
      · split at h
        · cases h
        · rename_i hthrow
          have ih := tryOps_length (fun o ho => hops o (List.mem_cons_of_mem _ ho)) h
          refine ih.imp id fun ⟨hc, hp, _⟩ => ⟨hc, hp, fun ht => absurd ht hthrow⟩

theorem applyRules_isSome : ∀ {passes : Nat} {throwing : Bool} {nodes : List Node}
    {pending : List PendingOp},
    2 * pending.length + (if throwing then 0 else 1) ≤ passes →
      (applyRules passes throwing nodes pending).isSome
  | _, _, _, [], _ => by simp [applyRules]
  | 0, throwing, _, op :: ops, h => by
      simp only [List.length_cons] at h
      omega
  | passes + 1, throwing, nodes, op :: ops, h => by
      rw [applyRules]
      split
      · rfl
      · rename_i nodes' pending' changed htry
        apply applyRules_isSome
        rcases tryOps_length (fun o ho => ho) htry with ⟨rfl, hlt⟩ | ⟨rfl, rfl, hthrow⟩
        · simp only [Bool.not_true, Bool.false_eq_true, if_false]
          split at h <;> omega
        · cases throwing with
          | true => exact absurd (hthrow rfl) (List.cons_ne_nil _ _)
          | false =>
              simp only [Bool.not_false, if_true, Bool.false_eq_true, if_false] at h ⊢
              omega

theorem length_rulesOf {a : AST} {rules : List GrammarRule} (h : rulesOf a = .ok rules) :
    rules.length ≤ 2 := by
  unfold rulesOf at h
  split at h
  · exact length_symToRules h
  · cases h
    rename_i t _
    cases t <;> decide
  · cases h
    decide

theorem length_findOps : ∀ {nodes : List Node} {ops : List PendingOp},
    findOps nodes = .ok ops → ops.length ≤ 2 * nodes.length
  | [], _, h => by
      cases h
      decide
  | (i, a) :: ns, ops, h => by
      obtain ⟨rules, hr, h⟩ := bind_eq_ok.1 h
      obtain ⟨rest, hrest, h⟩ := bind_eq_ok.1 h
      cases h
      have h₁ := length_rulesOf hr
      have h₂ := length_findOps hrest
      simp only [List.length_append, List.length_map, List.length_cons]
      omega

/-- The positions of the nodes. -/
def positions (nodes : List Node) : List Nat := nodes.map Prod.fst

@[simp] theorem positions_append (xs ys : List Node) :
    positions (xs ++ ys) = positions xs ++ positions ys := List.map_append

@[simp] theorem positions_cons (n : Node) (ns : List Node) :
    positions (n :: ns) = n.1 :: positions ns := rfl

/-- Every pending operator belongs to a node of the list, and no two nodes share a position. -/
structure Live (nodes : List Node) (pending : List PendingOp) : Prop where
  nodup : (positions nodes).Nodup
  mem : ∀ p ∈ pending, p.pos ∈ positions nodes

theorem splitAtNode_eq {pos : Nat} : ∀ {nodes pre post : List Node} {a : AST},
    splitAtNode pos nodes = some (pre, a, post) → nodes = pre ++ (pos, a) :: post
  | [], _, _, _, h => by cases h
  | (i, b) :: ns, pre, post, a, h => by
      rw [splitAtNode] at h
      split at h
      · rename_i hi
        cases h
        rw [hi, List.nil_append]
      · split at h
        · cases h
        · rename_i hs
          cases h
          rw [splitAtNode_eq hs, List.cons_append]

theorem splitAtNode_ne_none {pos : Nat} : ∀ {nodes : List Node},
    pos ∈ positions nodes → splitAtNode pos nodes ≠ none
  | (i, b) :: ns, h => by
      rw [splitAtNode]
      split
      · simp
      · rename_i hi
        have hm : pos ∈ positions ns := by
          rcases List.mem_cons.1 h with rfl | hm
          · exact absurd rfl hi
          · exact hm
        split
        · rename_i hn
          exact absurd hn (splitAtNode_ne_none hm)
        · simp

theorem splitAtNode_append {pos : Nat} {a : AST} {post : List Node} : ∀ {pre : List Node},
    pos ∉ positions pre → splitAtNode pos (pre ++ (pos, a) :: post) = some (pre, a, post)
  | [], _ => by simp [splitAtNode]
  | (i, b) :: pre, h => by
      rw [positions_cons, List.mem_cons, not_or] at h
      rw [List.cons_append, splitAtNode, if_neg (Ne.symm h.1), splitAtNode_append h.2]

theorem positions_matchArgs : ∀ (ts : List ArgType) (args : List Node),
    positions (matchArgs ts args).1 = positions args
  | [], _ => rfl
  | _ :: _, [] => rfl
  | t :: ts, (i, a) :: args => by
      rw [matchArgs]
      split
      · rfl
      · rw [positions_cons, positions_cons, positions_matchArgs ts args]

theorem lhsNodes_eq {rule : GrammarRule} {pre lhs : List Node}
    (h : lhsNodes rule pre = .ok lhs) :
    pre = keptBefore rule pre ++ lhs ∧ lhs.length = (if rule.hasLhsArg then 1 else 0) := by
  unfold lhsNodes at h
  unfold keptBefore
  split at h
  · rename_i hb
    split at h
    · cases h
    · rename_i n hg
      cases h
      obtain ⟨front, rfl⟩ := List.getLast?_eq_some_iff.1 hg
      simp [hb]
  · rename_i hb
    cases h
    simp [hb]

theorem argNodes_eq {rule : GrammarRule} {pre post args : List Node}
    (h : argNodes rule pre post = .ok args) :
    ∃ lhs, pre = keptBefore rule pre ++ lhs ∧ args = lhs ++ post.take rule.numRhsArgs ∧
      rule.numRhsArgs ≤ post.length := by
  obtain ⟨lhs, hl, h⟩ := bind_eq_ok.1 h
  have hpre := (lhsNodes_eq hl).1
  refine ⟨lhs, hpre, ?_⟩
  split at h
  · rename_i hz
    cases h
    simp [hz]
  · split at h
    · cases h
    · split at h
      · cases h
      · rename_i hlen
        cases h
        exact ⟨rfl, by omega⟩

theorem consider_mismatch {op : PendingOp} {nodes nodes' : List Node} {pending : List PendingOp}
    {why : ParseFailure} (h : consider op nodes pending = .ok (.mismatch why nodes')) :
    positions nodes' = positions nodes := by
  unfold consider at h
  split at h
  · cases h
  · rename_i pre node post hs
    split at h
    · cases h
      rfl
    · rename_i args ha
      obtain ⟨lhs, hpre, rfl, hlen⟩ := argNodes_eq ha
      dsimp only at h
      split at h
      · rename_i args' hm
        cases h
        have hpos := positions_matchArgs op.rule.argTypes (lhs ++ post.take op.rule.numRhsArgs)
        rw [hm] at hpos
        have hcount : (lhs ++ post.take op.rule.numRhsArgs).length - op.rule.numRhsArgs
            = lhs.length := by
          rw [List.length_append, List.length_take]
          omega
        have hsplit : positions (args'.take lhs.length) = positions lhs ∧
            positions (args'.drop lhs.length) = positions (post.take op.rule.numRhsArgs) := by
          unfold positions at hpos ⊢
          rw [List.map_take, List.map_drop, hpos, List.map_append]
          exact ⟨List.take_left' (List.length_map _), List.drop_left' (List.length_map _)⟩
        rw [splitAtNode_eq hs, hcount]
        conv_rhs => rw [hpre, ← List.take_append_drop op.rule.numRhsArgs post]
        simp only [positions_append, positions_cons, hsplit.1, hsplit.2, List.append_assoc,
          List.cons_append]
      · obtain ⟨result, -, hr⟩ := bind_eq_ok.1 h
        cases hr

theorem consider_live {op : PendingOp} {nodes nodes' : List Node} (hl : Live nodes pending)
    (h : consider op nodes pending = .ok (.applied nodes' pending')) : Live nodes' pending' := by
  unfold consider at h
  split at h
  · cases h
  · rename_i pre node post hs
    split at h
    · cases h
    · rename_i args ha
      obtain ⟨lhs, hpre, rfl, hlen⟩ := argNodes_eq ha
      dsimp only at h
      split at h
      · cases h
      · rename_i args' hm
        obtain ⟨result, -, hr⟩ := bind_eq_ok.1 h
        cases hr
        have hpos := positions_matchArgs op.rule.argTypes (lhs ++ post.take op.rule.numRhsArgs)
        rw [hm] at hpos
        have hnodes : positions nodes = positions (keptBefore op.rule pre) ++ positions lhs ++
            op.pos :: (positions (post.take op.rule.numRhsArgs) ++
              positions (post.drop op.rule.numRhsArgs)) := by
          rw [splitAtNode_eq hs, ← positions_append (post.take _), List.take_append_drop,
            ← positions_append, ← hpre, positions_append, positions_cons]
        have hnodup := hl.nodup
        rw [hnodes] at hnodup
        constructor
        · rw [positions_append, positions_cons]
          refine hnodup.sublist (List.Sublist.append ?_ (List.Sublist.cons_cons _ ?_))
          · exact List.sublist_append_left _ _
          · exact List.sublist_append_right _ _
        · intro p hp
          obtain ⟨hp, hkeep⟩ := List.mem_filter.1 hp
          have hkeep := of_decide_eq_true hkeep
          have hin := hl.mem p hp
          rw [hnodes] at hin
          change p.pos ≠ op.pos ∧ p.pos ∉ positions args' at hkeep
          rw [hpos, positions_append] at hkeep
          rw [positions_append, positions_cons]
          simp only [List.mem_append, List.mem_cons, not_or] at hin hkeep ⊢
          tauto

/-! ## Errors -/

/-- Errors other than the use of an iterator to an erased node. -/
def Error.Thrown (e : Error) : Prop := e ≠ .invalidIterator

namespace GrammarRule

mutual

theorem toRecordField_thrown : ∀ a : AST, FailsOnly Error.Thrown (toRecordField a)
  | .when c body => by
      rw [toRecordField]
      exact .bind (toRecordFieldsAux_thrown body) fun fs _ => .ok _
  | .recordField .. => by
      rw [toRecordField]
      exact .ok _
  | .op o args => by
      unfold toRecordField
      split
      · split
        · exact .ok _
        · exact .error (by simp [Error.Thrown])
      · exact .error (by simp [Error.Thrown])
  | .sym _ | .list .. | .num _ | .var _ | .builtinField _ | .bytes _ | .array .. | .record ..
  | .call .. => by
      simp only [toRecordField]
      exact .error (by simp [Error.Thrown])

theorem toRecordFieldsAux_thrown : ∀ as : List AST,
    FailsOnly Error.Thrown (toRecordField.toRecordFieldsAux as)
  | [] => by
      rw [toRecordField.toRecordFieldsAux]
      exact .ok _
  | a :: as => by
      rw [toRecordField.toRecordFieldsAux]
      exact .bind (toRecordField_thrown a) fun f _ =>
        .bind (toRecordFieldsAux_thrown as) fun fs _ => .ok _

end

theorem newRecord_thrown (params fields : AST) (names : List String) :
    FailsOnly Error.Thrown (newRecord params fields names) := by
  unfold newRecord
  split
  · exact .bind (toRecordFieldsAux_thrown _) fun fs _ => .ok _
  · exact .error (by simp [Error.Thrown])

theorem builtinFuncArgs_thrown (s : Symbol) (list : AST) (n : Nat) :
    FailsOnly Error.Thrown (builtinFuncArgs s list n) := by
  unfold builtinFuncArgs
  split
  · split
    · exact .ok _
    · exact .error (by simp [Error.Thrown])
  · exact .error (by simp [Error.Thrown])

theorem attach_thrown (annotated name : AST) : FailsOnly Error.Thrown (attach annotated name) := by
  unfold attach
  split
  · split
    · exact .bind (toRecordFieldsAux_thrown _) fun fs _ => .ok _
    · exact .bind (toRecordFieldsAux_thrown _) fun fs _ => .ok _
    · exact .error (by simp [Error.Thrown])
  · exact .error (by simp [Error.Thrown])

theorem doGen_thrown (r : GrammarRule) (op : AST) (args : List AST) :
    FailsOnly Error.Thrown (r.doGen op args) := by
  unfold doGen
  split
  all_goals first
    | exact .ok _
    | exact .error (by simp [Error.Thrown])
    | exact newRecord_thrown _ _ _
    | exact attach_thrown _ _
    | exact .bind (newRecord_thrown _ _ _) fun _ _ => .ok _
    | exact .bind (builtinFuncArgs_thrown _ _ _) fun _ _ => .ok _
    | refine .bind (builtinFuncArgs_thrown _ _ _) fun inner _ => ?_
    | skip
  all_goals
    split
    · exact .ok _
    · exact .error (by simp [Error.Thrown])

theorem rematch_thrown : ∀ (ts : List ArgType) (args : List AST),
    FailsOnly Error.Thrown (rematch ts args)
  | [], [] => .ok _
  | [], _ :: _ | _ :: _, [] => .error (by simp [Error.Thrown])
  | t :: ts, a :: args => by
      rw [rematch]
      split
      · exact .error (by simp [Error.Thrown])
      · exact .bind (rematch_thrown ts args) fun _ _ => .ok _

theorem gen_thrown (r : GrammarRule) (op : AST) (args : List AST) :
    FailsOnly Error.Thrown (r.gen op args) :=
  .bind (rematch_thrown _ _) fun _ _ => doGen_thrown _ _ _

end GrammarRule

theorem consider_thrown {op : PendingOp} {nodes : List Node} (pending : List PendingOp)
    (h : op.pos ∈ positions nodes) : FailsOnly Error.Thrown (consider op nodes pending) := by
  unfold consider
  split
  · rename_i hn
    exact absurd hn (splitAtNode_ne_none h)
  · split
    · exact .ok _
    · dsimp only
      split
      · exact .ok _
      · exact .bind (GrammarRule.gen_thrown _ _ _) fun _ _ => .ok _

theorem tryOps_live {throwing : Bool} {pending : List PendingOp} :
    ∀ {ops : List PendingOp} {nodes : List Node}, Live nodes pending →
      (∀ o ∈ ops, o ∈ pending) →
      FailsOnly Error.Thrown (tryOps throwing pending nodes ops) ∧
        ∀ nodes' pending' changed, tryOps throwing pending nodes ops
          = .ok (nodes', pending', changed) → Live nodes' pending'
  | [], nodes, hl, _ => by
      refine ⟨.ok _, fun nodes' pending' changed h => ?_⟩
      cases h
      exact hl
  | op :: ops, nodes, hl, hops => by
      have hop := hl.mem op (hops op (List.mem_cons_self ..))
      rw [tryOps]
      split
      · rename_i e he
        refine ⟨fun e' he' => ?_, fun _ _ _ h => by cases h⟩
        cases he'
        exact consider_thrown pending hop e he
      · rename_i happ
        refine ⟨.ok _, fun nodes' pending' changed h => ?_⟩
        cases h
        exact consider_live hl happ
      · rename_i hmis
        have hpos := consider_mismatch hmis
        have hl' : Live _ pending := ⟨hpos ▸ hl.nodup, fun p hp => hpos ▸ hl.mem p hp⟩
        split
        · exact ⟨.error (by simp [Error.Thrown]), fun _ _ _ h => by cases h⟩
        · exact tryOps_live hl' fun o ho => hops o (List.mem_cons_of_mem _ ho)

theorem applyRules_thrown : ∀ {passes : Nat} {throwing : Bool} {nodes : List Node}
    {pending : List PendingOp} {r : Except Error (List Node)}, Live nodes pending →
      applyRules passes throwing nodes pending = some r → FailsOnly Error.Thrown r
  | passes, _, _, [], _, _, h => by
      cases passes <;>
      · cases h
        exact .ok _
  | 0, _, _, _ :: _, _, _, h => by cases h
  | passes + 1, throwing, nodes, op :: ops, r, hl, h => by
      obtain ⟨hfail, hok⟩ : FailsOnly Error.Thrown
          (tryOps throwing (op :: ops) nodes (op :: ops)) ∧ _ := tryOps_live hl fun o ho => ho
      rw [applyRules] at h
      split at h
      · rename_i e he
        cases h
        intro e' he'
        cases he'
        exact hfail e he
      · rename_i nodes' pending' changed htry
        exact applyRules_thrown (hok _ _ _ htry) h

end OpenZL.Sddl2.Compiler
