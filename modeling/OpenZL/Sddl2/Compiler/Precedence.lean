import OpenZL.Sddl2.Compiler.Printing

/-!
# SDDL2 compiler: the parser follows the precedence levels

The nodes of a written expression form a flat list (`Flat`).  The parser orders the operators of the
list by precedence and applies the first that has its operands (`RedexAt`), pass after pass.

* `Flat.reduce` — the first ready operator of a flat list has single nodes as operands.
* `Stage.pass`, `applyRules_stage` — each pass applies one operator of an expression and leaves a flat
  list of the same tree; the loop ends with that tree.
* `parseExpr_asts` — `parse_expr` gives the tree of an expression, and throws on one that is a
  parenthesised expression as a whole.
* `parse_print`, `parse_print_iff` — the parser gives the tree of a printed statement exactly when no
  expression in it is one parenthesised expression, and it ends on every token list.
-/

namespace OpenZL.Sddl2.Compiler

open OpenZL.Lib

variable {ns : List Node} {t : AST} {pending : List PendingOp} {op : PendingOp} {a : AST}

/-! ## The rules of a node -/

/-- The rule of an operator between operands. -/
def BinaryOp.rule (o : BinaryOp) : GrammarRule := .binaryOp o.sym o.precedence

/-- The rule of an operator in front of an operand. -/
def UnaryOp.rule : UnaryOp → GrammarRule
  | .neg => .negation
  | .bitNot => .unaryOp .bitNot .unary
  | .logNot => .unaryOp .logNot .unary

/-- The rules of a node, none for a symbol that has none. -/
def rules (a : AST) : List GrammarRule :=
  match rulesOf a with
  | .ok rs => rs
  | .error _ => []

theorem rules_converted (h : a.Converted) : rules a = [] := by
  cases a with
  | sym => cases h.1
  | list => cases h.2
  | _ => rfl

theorem BinaryOp.rules_filter (o : BinaryOp) :
    (rules (.sym o.sym)).filter (fun r => decide (r.hasLhsArg = true)) = [o.rule] := by
  cases o <;> decide

theorem UnaryOp.rules_filter (o : UnaryOp) :
    (rules (.sym o.sym)).filter (fun r => decide (r.hasLhsArg = false)) = [o.rule] := by
  cases o <;> decide

theorem UnaryOp.precedence_rule (o : UnaryOp) : o.rule.precedence = .unary := by
  cases o <;> rfl

/-- A symbol of an expression: of an operator or of a built-in field. -/
def IsOpSym (s : Symbol) : Prop := (∃ o : BinaryOp, s = o.sym) ∨ ∃ o : UnaryOp, s = o.sym

theorem IsOpSym.rulesOf {s : Symbol} (h : IsOpSym s) : rulesOf (.sym s) = .ok (rules (.sym s)) := by
  rcases h with ⟨o, rfl⟩ | ⟨o, rfl⟩ <;> cases o <;> rfl

theorem IsOpSym.shape {s : Symbol} (h : IsOpSym s) {r : GrammarRule} (hr : r ∈ rules (.sym s)) :
    0 < r.precedence.rank ∧
      ((r.hasLhsArg = true ∧ ∃ ts, r.argTypes = .expr :: ts) ∨
        (r.hasLhsArg = false ∧ r.argTypes = [.expr])) := by
  have hb : ∀ o : BinaryOp, ∀ r ∈ rules (.sym o.sym), 0 < r.precedence.rank ∧
      ((r.hasLhsArg = true ∧ r.argTypes.head? = some .expr) ∨
        (r.hasLhsArg = false ∧ r.argTypes = [.expr])) := by
    intro o
    cases o <;> decide
  have hu : ∀ o : UnaryOp, ∀ r ∈ rules (.sym o.sym), 0 < r.precedence.rank ∧
      ((r.hasLhsArg = true ∧ r.argTypes.head? = some .expr) ∨
        (r.hasLhsArg = false ∧ r.argTypes = [.expr])) := by
    intro o
    cases o <;> decide
  have hall : 0 < r.precedence.rank ∧
      ((r.hasLhsArg = true ∧ r.argTypes.head? = some .expr) ∨
        (r.hasLhsArg = false ∧ r.argTypes = [.expr])) := by
    rcases h with ⟨o, rfl⟩ | ⟨o, rfl⟩
    · exact hb o r hr
    · exact hu o r hr
  refine ⟨hall.1, hall.2.imp (fun ⟨hl, ht⟩ => ⟨hl, ?_⟩) id⟩
  cases hts : r.argTypes with
  | nil =>
      rw [hts] at ht
      cases ht
  | cons t ts =>
      rw [hts] at ht
      cases ht
      exact ⟨ts, rfl⟩

theorem rulesOf_field (kw : FieldSym) :
    rulesOf (.sym kw.1) = .ok [.builtInField kw.1] := by
  have all : ∀ s ∈ builtinFieldSyms, rulesOf (.sym s) = .ok [.builtInField s] := by decide
  exact all kw.1 kw.2

/-! ## The order of the pending operators -/

theorem PendingOp.lt_or_lt {a b : PendingOp} (h : a.pos ≠ b.pos) :
    a.lt b = true ∨ b.lt a = true := by
  unfold PendingOp.lt
  by_cases e : a.rule.precedence = b.rule.precedence
  · simp only [e, if_true]
    cases b.rule.precedence.associativity <;> simp only [decide_eq_true_eq] <;> omega
  · have hr : a.rule.precedence.rank ≠ b.rule.precedence.rank :=
      fun hr => e (Precedence.rank_injective hr)
    simp only [e, Ne.symm e, if_false, decide_eq_true_eq]
    omega

theorem PendingOp.lt_trans {a b c : PendingOp} (hab : a.lt b = true) (hbc : b.lt c = true) :
    a.lt c = true := by
  unfold PendingOp.lt at *
  by_cases e₁ : a.rule.precedence = b.rule.precedence <;>
    by_cases e₂ : b.rule.precedence = c.rule.precedence
  · simp only [e₁, e₂, if_true] at *
    cases ha : c.rule.precedence.associativity <;>
      simp only [ha, decide_eq_true_eq] at hab hbc ⊢ <;> omega
  · simpa only [e₁, e₂, if_true, if_false] using hbc
  · simpa only [e₁, ← e₂, if_true, if_false] using hab
  · simp only [e₁, e₂, if_false, decide_eq_true_eq] at hab hbc
    have hne : a.rule.precedence ≠ c.rule.precedence := by
      intro e
      rw [e] at hab
      omega
    simp only [hne, if_false, decide_eq_true_eq]
    omega

theorem PendingOp.lt_of_fitsLeft {a b : PendingOp} {k : Nat} (hk : a.rule.precedence.rank ≤ k)
    (hf : b.rule.precedence.fitsLeft k) (hpos : a.pos < b.pos) : a.lt b = true := by
  unfold Precedence.fitsLeft at hf
  unfold PendingOp.lt
  by_cases e : a.rule.precedence = b.rule.precedence
  · rw [e] at hk
    rw [if_pos e, e]
    cases ha : b.rule.precedence.associativity <;> rw [ha] at hf <;> dsimp only at hf
    · exact decide_eq_true hpos
    · omega
  · have hr : a.rule.precedence.rank ≠ b.rule.precedence.rank :=
      fun hr => e (Precedence.rank_injective hr)
    rw [if_neg e]
    refine decide_eq_true ?_
    cases ha : b.rule.precedence.associativity <;> rw [ha] at hf <;> dsimp only at hf <;> omega

theorem PendingOp.lt_of_fitsRight {a b : PendingOp} {k : Nat} (hk : a.rule.precedence.rank ≤ k)
    (hf : b.rule.precedence.fitsRight k) (hpos : b.pos < a.pos) : a.lt b = true := by
  unfold Precedence.fitsRight at hf
  unfold PendingOp.lt
  by_cases e : a.rule.precedence = b.rule.precedence
  · rw [e] at hk
    rw [if_pos e, e]
    cases ha : b.rule.precedence.associativity <;> rw [ha] at hf <;> dsimp only at hf
    · omega
    · exact decide_eq_true hpos
  · have hr : a.rule.precedence.rank ≠ b.rule.precedence.rank :=
      fun hr => e (Precedence.rank_injective hr)
    rw [if_neg e]
    refine decide_eq_true ?_
    cases ha : b.rule.precedence.associativity <;> rw [ha] at hf <;> dsimp only at hf <;> omega

/-! ## Flat lists of nodes -/

/-- A node that matches as an operand: a converted expression or parentheses around one. -/
def Operand (t a : AST) : Prop := t.Converted ∧ (a = t ∨ a = .list .paren [t])

theorem Operand.isSym {t a : AST} (h : Operand t a) : a.isSym = false := by
  rcases h.2 with rfl | rfl
  · exact h.1.1
  · rfl

theorem Operand.matchArg {t a : AST} (h : Operand t a) :
    GrammarRule.matchArg .expr a = some t := by
  rcases h.2 with rfl | rfl
  · exact GrammarRule.matchArg_converted h.1
  · exact GrammarRule.matchArg_paren h.1

/-- Nodes that stand for a tree whose outermost operator has the given rank. -/
inductive Flat : Nat → AST → List Node → Prop
  | operand {i : Nat} {t a : AST} : Operand t a → Flat 0 t [(i, a)]
  | unary {m k : Nat} {t : AST} {ns : List Node} (o : UnaryOp) : Flat k t ns →
      Precedence.unary.fitsRight k →
      Flat Precedence.unary.rank (.op o.op [t]) ((m, .sym o.sym) :: ns)
  | binary {m k₁ k₂ : Nat} {t₁ t₂ : AST} {xs ys : List Node} (o : BinaryOp) : Flat k₁ t₁ xs →
      Flat k₂ t₂ ys → o.precedence.fitsLeft k₁ → o.precedence.fitsRight k₂ →
      Flat o.precedence.rank (.op o.op [t₁, t₂]) (xs ++ (m, .sym o.sym) :: ys)
  | call {m k : Nat} {t : AST} {xs : List Node} {args : List AST} : Flat k t xs →
      Precedence.access.fitsLeft k → args.map AST.unwrapParens = args →
      Flat Precedence.access.rank (.call t args) (xs ++ [(m, .list .paren args)])
  | array {m k : Nat} {t : AST} {xs : List Node} {len : Option AST} : Flat k t xs →
      Precedence.access.fitsLeft k →
      Flat Precedence.access.rank (.array t len) (xs ++ [(m, .list .square len.toList)])

/-- Whether the node before the next one is an operand. -/
def endsOperand (before : Bool) : List Node → Bool
  | [] => before
  | n :: ns => endsOperand (!n.2.isSym) ns

theorem endsOperand_append : ∀ (b : Bool) (xs ys : List Node),
    endsOperand b (xs ++ ys) = endsOperand (endsOperand b xs) ys
  | _, [], _ => rfl
  | b, x :: xs, ys => by
      rw [List.cons_append, endsOperand, endsOperand, endsOperand_append]

theorem endsOperand_eq : ∀ (b : Bool) (ns : List Node),
    endsOperand b ns = ((ns.getLast?.map fun n => !n.2.isSym).getD b)
  | _, [] => rfl
  | b, [n] => rfl
  | b, n :: m :: ns => by
      rw [endsOperand, endsOperand_eq, List.getLast?_cons_cons]
      cases h : (m :: ns).getLast? with
      | none => simp at h
      | some l => rfl

theorem Flat.endsOperand {k : Nat} (h : Flat k t ns) :
    ∀ b, endsOperand b ns = true := by
  induction h with
  | operand ho =>
      intro b
      simp [Compiler.endsOperand, ho.isSym]
  | unary o h hf ih =>
      intro b
      exact ih _
  | binary o hl hr hfl hfr ihl ihr =>
      intro b
      rw [endsOperand_append]
      exact ihr _
  | call h hf hargs ih | array h hf ih =>
      intro b
      rw [endsOperand_append]
      rfl

/-! ## Operators with their operands -/

/-- The operators whose rule wants a left operand exactly when there is one. -/
def readyOps (before : Bool) : List Node → List PendingOp
  | [] => []
  | (i, a) :: ns =>
      ((rules a).filter (fun r => decide (r.hasLhsArg = before))).map (PendingOp.mk i) ++
        readyOps (!a.isSym) ns

theorem readyOps_append : ∀ (b : Bool) (xs ys : List Node),
    readyOps b (xs ++ ys) = readyOps b xs ++ readyOps (endsOperand b xs) ys
  | _, [], _ => rfl
  | b, (i, a) :: xs, ys => by
      rw [List.cons_append, readyOps, readyOps, readyOps_append, endsOperand, List.append_assoc]

theorem readyOps_operand {i : Nat} {t a : AST} (h : Operand t a) :
    readyOps false [(i, a)] = [] := by
  rcases h.2 with rfl | rfl
  · rw [readyOps, rules_converted h.1]
    rfl
  · rfl

/-- An operator with its operands as single nodes, and what its rule builds; `before` tells whether
an operand stands in front of it. -/
inductive Redex (before : Bool) : PendingOp → List Node → AST → Prop
  | unary {m j : Nat} {t y : AST} (o : UnaryOp) : before = false → Operand t y →
      Redex before ⟨m, o.rule⟩ [(m, .sym o.sym), (j, y)] (.op o.op [t])
  | binary {i m j : Nat} {t₁ t₂ x y : AST} (o : BinaryOp) : Operand t₁ x → Operand t₂ y →
      Redex before ⟨m, o.rule⟩ [(i, x), (m, .sym o.sym), (j, y)] (.op o.op [t₁, t₂])
  | call {i m : Nat} {t x : AST} {args : List AST} : Operand t x →
      args.map AST.unwrapParens = args →
      Redex before ⟨m, .call⟩ [(i, x), (m, .list .paren args)] (.call t args)
  | array {i m : Nat} {t x : AST} {len : Option AST} : Operand t x →
      Redex before ⟨m, .array⟩ [(i, x), (m, .list .square len.toList)] (.array t len)

theorem Redex.pos_mem {b : Bool} {r : AST} (h : Redex b op ns r) : op.pos ∈ positions ns := by
  cases h <;> simp [positions]

theorem fitsLeft_mono {p : Precedence} {j k : Nat} (h : p.fitsLeft k) (hj : j ≤ k) :
    p.fitsLeft j := by
  unfold Precedence.fitsLeft at *
  split at h <;> omega

theorem fitsRight_mono {p : Precedence} {j k : Nat} (h : p.fitsRight k) (hj : j ≤ k) :
    p.fitsRight j := by
  unfold Precedence.fitsRight at *
  split at h <;> omega

/-- `op` is the first operator of the list that is ready, its operands are single nodes, and its
rule leaves a list of the same tree. -/
def RedexAt (k : Nat) (t : AST) (ns : List Node) (op : PendingOp) : Prop :=
  ∃ left redex right result, ns = left ++ redex ++ right ∧
    Redex (endsOperand false left) op redex result ∧ result.Converted ∧
    (∃ j ≤ k, Flat j t (left ++ (op.pos, result) :: right)) ∧ op.rule.precedence.rank ≤ k ∧
    op ∈ readyOps false ns ∧ ∀ p ∈ readyOps false ns, p = op ∨ op.lt p = true

theorem RedexAt.pos_mem {k : Nat} (h : RedexAt k t ns op) : op.pos ∈ positions ns := by
  obtain ⟨left, redex, right, result, rfl, hr, -⟩ := h
  simp [hr.pos_mem]

theorem RedexAt.rank_le {k : Nat} (h : RedexAt k t ns op) : op.rule.precedence.rank ≤ k := by
  obtain ⟨_, _, _, _, -, -, -, -, hk, -⟩ := h
  exact hk

theorem RedexAt.append_left {k k₁ : Nat} {t t₁ : AST} {xs rest : List Node}
    (h : RedexAt k₁ t₁ xs op) (hend : endsOperand false xs = true) (hk : k₁ ≤ k)
    (hbuild : ∀ j zs, j ≤ k₁ → Flat j t₁ zs → ∃ l ≤ k, Flat l t (zs ++ rest))
    (hfirst : ∀ p ∈ readyOps true rest, op.lt p = true) : RedexAt k t (xs ++ rest) op := by
  obtain ⟨left, redex, right, result, rfl, hr, hc, ⟨j, hj, hflat⟩, hrank, hmem, hall⟩ := h
  obtain ⟨l, hl, hflat⟩ := hbuild j _ hj hflat
  refine ⟨left, redex, right ++ rest, result, by simp only [List.append_assoc], hr, hc,
    ⟨l, hl, ?_⟩, hrank.trans hk, ?_, ?_⟩
  · simpa only [List.append_assoc, List.cons_append] using hflat
  · rw [readyOps_append]
    exact List.mem_append_left _ hmem
  · intro p hp
    rw [readyOps_append, hend] at hp
    rcases List.mem_append.1 hp with hp | hp
    · exact hall p hp
    · exact .inr (hfirst p hp)

theorem RedexAt.append_right {k k₂ : Nat} {t t₂ : AST} {front ys : List Node}
    (h : RedexAt k₂ t₂ ys op) (hend : endsOperand false front = false) (hk : k₂ ≤ k)
    (hbuild : ∀ j zs, j ≤ k₂ → Flat j t₂ zs → ∃ l ≤ k, Flat l t (front ++ zs))
    (hfirst : ∀ p ∈ readyOps false front, op.lt p = true) : RedexAt k t (front ++ ys) op := by
  obtain ⟨left, redex, right, result, rfl, hr, hc, ⟨j, hj, hflat⟩, hrank, hmem, hall⟩ := h
  obtain ⟨l, hl, hflat⟩ := hbuild j _ hj hflat
  refine ⟨front ++ left, redex, right, result, by simp only [List.append_assoc], ?_, hc,
    ⟨l, hl, ?_⟩, hrank.trans hk, ?_, ?_⟩
  · rwa [endsOperand_append, hend]
  · simpa only [List.append_assoc] using hflat
  · rw [readyOps_append, hend]
    exact List.mem_append_right _ hmem
  · intro p hp
    rw [readyOps_append, hend] at hp
    rcases List.mem_append.1 hp with hp | hp
    · exact .inr (hfirst p hp)
    · exact hall p hp

/-! ## The first ready operator -/

theorem readyOps_unarySym (m : Nat) (o : UnaryOp) :
    readyOps false [(m, .sym o.sym)] = [⟨m, o.rule⟩] := by
  rw [readyOps, o.rules_filter]
  rfl

theorem readyOps_binarySym (m : Nat) (o : BinaryOp) :
    readyOps true [(m, .sym o.sym)] = [⟨m, o.rule⟩] := by
  rw [readyOps, o.rules_filter]
  rfl

theorem reduce_list {k m : Nat} {t a result : AST} {xs : List Node} {rule : GrammarRule}
    (ih : (∃ i x, xs = [(i, x)] ∧ Operand t x) ∨ ∃ op, RedexAt k t xs op)
    (hxs : Flat k t xs) (hf : Precedence.access.fitsLeft k)
    (hrules : rules a = [rule]) (hlhs : rule.hasLhsArg = true)
    (hprec : rule.precedence = .access) (hresult : result.Converted)
    (hredex : ∀ i x, Operand t x → Redex false ⟨m, rule⟩ [(i, x), (m, a)] result)
    (hbuild : ∀ j zs, Flat j t zs → Precedence.access.fitsLeft j →
      Flat Precedence.access.rank result (zs ++ [(m, a)]))
    (hpos : (positions (xs ++ [(m, a)])).Pairwise (· < ·)) :
    (∃ i x, xs ++ [(m, a)] = [(i, x)] ∧ Operand result x) ∨
      ∃ op, RedexAt Precedence.access.rank result (xs ++ [(m, a)]) op := by
  have hready : readyOps true [(m, a)] = [⟨m, rule⟩] := by
    rw [readyOps, hrules]
    simp [hlhs, readyOps]
  right
  rcases ih with ⟨i, x, rfl, hx⟩ | ⟨op, hop⟩
  · refine ⟨⟨m, rule⟩, [], [(i, x), (m, a)], [], result, by simp, hredex i x hx, hresult,
      ⟨0, Nat.zero_le _, .operand ⟨hresult, .inl rfl⟩⟩, le_of_eq (by rw [hprec]), ?_⟩
    have hall : readyOps false ([(i, x)] ++ [(m, a)]) = [⟨m, rule⟩] := by
      rw [readyOps_append, readyOps_operand hx]
      rw [show endsOperand false [(i, x)] = !x.isSym from rfl, hx.isSym]
      exact hready
    rw [hall]
    exact ⟨List.mem_singleton.2 rfl, fun p hp => .inl (List.mem_singleton.1 hp)⟩
  · refine ⟨op, hop.append_left (hxs.endsOperand false) hf ?_ ?_⟩
    · intro j zs hj hz
      exact ⟨_, Nat.le_refl _, hbuild j zs hz (fitsLeft_mono hf hj)⟩
    · intro p hp
      rw [hready, List.mem_singleton] at hp
      subst hp
      rw [positions_append, List.pairwise_append] at hpos
      refine PendingOp.lt_of_fitsLeft hop.rank_le (b := ⟨m, rule⟩) (by rwa [hprec]) ?_
      exact hpos.2.2 _ hop.pos_mem _ (List.mem_singleton.2 rfl)

theorem reduce_binary {k₁ k₂ m : Nat} {t₁ t₂ : AST} {xs ys : List Node} (o : BinaryOp)
    (ihl : (∃ i x, xs = [(i, x)] ∧ Operand t₁ x) ∨ ∃ op, RedexAt k₁ t₁ xs op)
    (ihr : (∃ j y, ys = [(j, y)] ∧ Operand t₂ y) ∨ ∃ op, RedexAt k₂ t₂ ys op)
    (hxs : Flat k₁ t₁ xs) (hys : Flat k₂ t₂ ys) (hl : o.precedence.fitsLeft k₁)
    (hr : o.precedence.fitsRight k₂)
    (hpos : (positions (xs ++ (m, .sym o.sym) :: ys)).Pairwise (· < ·)) :
    ∃ op, RedexAt o.precedence.rank (.op o.op [t₁, t₂]) (xs ++ (m, .sym o.sym) :: ys) op := by
  rw [positions_append, positions_cons, List.pairwise_append, List.pairwise_cons] at hpos
  obtain ⟨-, ⟨hright, -⟩, hleft⟩ := hpos
  have hk₁ : k₁ ≤ o.precedence.rank := by
    unfold Precedence.fitsLeft at hl
    split at hl <;> omega
  have hk₂ : k₂ ≤ o.precedence.rank := by
    unfold Precedence.fitsRight at hr
    split at hr <;> omega
  have hend := hxs.endsOperand false
  have hfront : endsOperand false (xs ++ [(m, AST.sym o.sym)]) = false := by
    rw [endsOperand_append]
    rfl
  have hrest : readyOps true ((m, AST.sym o.sym) :: ys) = ⟨m, o.rule⟩ :: readyOps false ys := by
    change readyOps true ([(m, AST.sym o.sym)] ++ ys) = _
    rw [readyOps_append, readyOps_binarySym]
    rfl
  have hreadyFront : readyOps false (xs ++ [(m, AST.sym o.sym)])
      = readyOps false xs ++ [⟨m, o.rule⟩] := by
    rw [readyOps_append, hend, readyOps_binarySym]
  -- the operators of the left operand come before this one, and so do those of the right operand
  have hltL : ∀ op, RedexAt k₁ t₁ xs op → op.lt ⟨m, o.rule⟩ = true := fun op hop =>
    PendingOp.lt_of_fitsLeft hop.rank_le hl (hleft _ hop.pos_mem _ (List.mem_cons_self ..))
  have hltR : ∀ op, RedexAt k₂ t₂ ys op → op.lt ⟨m, o.rule⟩ = true := fun op hop =>
    PendingOp.lt_of_fitsRight hop.rank_le hr (hright _ hop.pos_mem)
  have buildL : ∀ j zs, j ≤ k₁ → Flat j t₁ zs → ∃ l ≤ o.precedence.rank,
      Flat l (.op o.op [t₁, t₂]) (zs ++ (m, .sym o.sym) :: ys) := fun j zs hj hz =>
    ⟨_, Nat.le_refl _, .binary o hz hys (fitsLeft_mono hl hj) hr⟩
  have buildR : ∀ j zs, j ≤ k₂ → Flat j t₂ zs → ∃ l ≤ o.precedence.rank,
      Flat l (.op o.op [t₁, t₂]) ((xs ++ [(m, .sym o.sym)]) ++ zs) := by
    intro j zs hj hz
    refine ⟨_, Nat.le_refl _, ?_⟩
    rw [List.append_assoc]
    exact .binary o hxs hz hl (fitsRight_mono hr hj)
  -- the left operand's operator comes first: then also before every operator on the right
  have goL : ∀ op, RedexAt k₁ t₁ xs op → (∀ p ∈ readyOps false ys, op.lt p = true) →
      RedexAt o.precedence.rank (.op o.op [t₁, t₂]) (xs ++ (m, .sym o.sym) :: ys) op := by
    intro op hop hys'
    refine hop.append_left hend hk₁ buildL fun p hp => ?_
    rw [hrest, List.mem_cons] at hp
    rcases hp with rfl | hp
    · exact hltL op hop
    · exact hys' p hp
  have goR : ∀ op, RedexAt k₂ t₂ ys op → (∀ p ∈ readyOps false xs, op.lt p = true) →
      RedexAt o.precedence.rank (.op o.op [t₁, t₂]) (xs ++ (m, .sym o.sym) :: ys) op := by
    intro op hop hxs'
    rw [List.append_cons]
    refine hop.append_right hfront hk₂ buildR fun p hp => ?_
    rw [hreadyFront] at hp
    rcases List.mem_append.1 hp with hp | hp
    · exact hxs' p hp
    · rw [List.mem_singleton.1 hp]
      exact hltR op hop
  rcases ihl with ⟨i, x, rfl, hx⟩ | ⟨opl, hopl⟩ <;> rcases ihr with ⟨j, y, rfl, hy⟩ | ⟨opr, hopr⟩
  · refine ⟨⟨m, o.rule⟩, [], [(i, x), (m, .sym o.sym), (j, y)], [], .op o.op [t₁, t₂], by simp,
      .binary o hx hy, ⟨rfl, rfl⟩, ⟨0, Nat.zero_le _, .operand ⟨⟨rfl, rfl⟩, .inl rfl⟩⟩,
      Nat.le_refl _, ?_⟩
    have hall : readyOps false ([(i, x)] ++ (m, AST.sym o.sym) :: [(j, y)]) = [⟨m, o.rule⟩] := by
      rw [readyOps_append, hend, hrest, readyOps_operand hx, readyOps_operand hy]
      rfl
    rw [hall]
    exact ⟨List.mem_singleton.2 rfl, fun p hp => .inl (List.mem_singleton.1 hp)⟩
  · refine ⟨opr, goR opr hopr fun p hp => ?_⟩
    rw [readyOps_operand hx] at hp
    cases hp
  · refine ⟨opl, goL opl hopl fun p hp => ?_⟩
    rw [readyOps_operand hy] at hp
    cases hp
  · have hne : opl.pos ≠ opr.pos := by
      have h₁ := hleft _ hopl.pos_mem _ (List.mem_cons_self ..)
      have h₂ := hright _ hopr.pos_mem
      omega
    rcases PendingOp.lt_or_lt hne with hlt | hlt
    · refine ⟨opl, goL opl hopl fun p hp => ?_⟩
      obtain ⟨_, _, _, _, -, -, -, -, -, -, hall⟩ := hopr
      rcases hall p hp with rfl | hp
      · exact hlt
      · exact PendingOp.lt_trans hlt hp
    · refine ⟨opr, goR opr hopr fun p hp => ?_⟩
      obtain ⟨_, _, _, _, -, -, -, -, -, -, hall⟩ := hopl
      rcases hall p hp with rfl | hp
      · exact hlt
      · exact PendingOp.lt_trans hlt hp

theorem reduce_unary {k m : Nat} {ys : List Node} (o : UnaryOp)
    (ih : (∃ j y, ys = [(j, y)] ∧ Operand t y) ∨ ∃ op, RedexAt k t ys op)
    (hf : Precedence.unary.fitsRight k)
    (hpos : (positions ((m, .sym o.sym) :: ys)).Pairwise (· < ·)) :
    ∃ op, RedexAt Precedence.unary.rank (.op o.op [t]) ((m, .sym o.sym) :: ys) op := by
  rw [positions_cons, List.pairwise_cons] at hpos
  have hp : o.rule.precedence.fitsRight k := o.precedence_rule ▸ hf
  rcases ih with ⟨j, y, rfl, hy⟩ | ⟨op, hop⟩
  · refine ⟨⟨m, o.rule⟩, [], [(m, .sym o.sym), (j, y)], [], .op o.op [t], by simp,
      .unary o rfl hy, ⟨rfl, rfl⟩, ⟨0, Nat.zero_le _, .operand ⟨⟨rfl, rfl⟩, .inl rfl⟩⟩,
      le_of_eq (by rw [o.precedence_rule]), ?_⟩
    have hall : readyOps false ([(m, AST.sym o.sym)] ++ [(j, y)]) = [⟨m, o.rule⟩] := by
      rw [readyOps_append, readyOps_unarySym]
      exact congrArg _ (readyOps_operand hy)
    change _ ∈ readyOps false ([(m, AST.sym o.sym)] ++ [(j, y)]) ∧
      ∀ p ∈ readyOps false ([(m, AST.sym o.sym)] ++ [(j, y)]), _
    rw [hall]
    exact ⟨List.mem_singleton.2 rfl, fun p hp => .inl (List.mem_singleton.1 hp)⟩
  · refine ⟨op, ?_⟩
    change RedexAt _ _ ([(m, AST.sym o.sym)] ++ ys) op
    refine hop.append_right rfl hf ?_ ?_
    · intro j zs hj hz
      exact ⟨_, Nat.le_refl _, .unary o hz (fitsRight_mono hf hj)⟩
    · intro p hmem
      rw [readyOps_unarySym, List.mem_singleton] at hmem
      rw [hmem]
      exact PendingOp.lt_of_fitsRight hop.rank_le hp (hpos.1 _ hop.pos_mem)

/-- **The first ready operator has single nodes as operands.** -/
theorem Flat.reduce {k : Nat} (h : Flat k t ns) (hpos : (positions ns).Pairwise (· < ·)) :
    (∃ i a, ns = [(i, a)] ∧ Operand t a) ∨ ∃ op, RedexAt k t ns op := by
  induction h with
  | @operand i t a ho => exact .inl ⟨i, a, rfl, ho⟩
  | unary o hys hf ih =>
      have hpos' := (List.pairwise_cons.1 hpos).2
      exact .inr (reduce_unary o (ih hpos') hf hpos)
  | binary o hxs hys hl hr ihl ihr =>
      have hpos' := hpos
      rw [positions_append, List.pairwise_append, positions_cons, List.pairwise_cons] at hpos'
      exact .inr (reduce_binary o (ihl hpos'.1) (ihr hpos'.2.1.2) hxs hys hl hr hpos)
  | call hxs hf hargs ih =>
      have hpos' := hpos
      rw [positions_append, List.pairwise_append] at hpos'
      refine reduce_list (ih hpos'.1) hxs hf ?_ ?_ ?_ ⟨rfl, rfl⟩ (fun i x hx => .call hx hargs)
        (fun j zs hz hj => .call hz hj hargs) hpos
      all_goals rfl
  | array hxs hf ih =>
      have hpos' := hpos
      rw [positions_append, List.pairwise_append] at hpos'
      refine reduce_list (ih hpos'.1) hxs hf ?_ ?_ ?_ ⟨rfl, rfl⟩ (fun i x hx => .array hx)
        (fun j zs hz hj => .array hz hj) hpos
      all_goals rfl

/-! ## Trying an operator -/

theorem argNodes_cons {rule : GrammarRule} {ts : List ArgType} (h : rule.argTypes = .expr :: ts)
    (hl : rule.hasLhsArg = true) (pre post : List Node) (n : Node) :
    argNodes rule (pre ++ [n]) post =
      if post.length < ts.length then .error (.rhsMissing ts.length post.length)
      else if ts = [] then .ok [n] else .ok (n :: post.take ts.length) := by
  have hnum : rule.numArgs = ts.length + 1 := by rw [GrammarRule.numArgs, h, List.length_cons]
  have hrhs : rule.numRhsArgs = ts.length := by
    rw [GrammarRule.numRhsArgs, hnum, hl]
    rfl
  unfold argNodes lhsNodes
  rw [hl, hrhs, hnum]
  simp only [if_true, List.getLast?_append, List.getLast?_singleton, Option.some_or, ok_bind]
  cases ts with
  | nil => simp
  | cons u us => simp

theorem consider_noLhs {rule : GrammarRule} {ts : List ArgType} {m : Nat} {pre post : List Node}
    (pending : List PendingOp) (h : rule.argTypes = .expr :: ts) (hl : rule.hasLhsArg = true)
    (hend : endsOperand false pre = false) (hm : m ∉ positions pre) :
    ∃ why, consider ⟨m, rule⟩ (pre ++ (m, a) :: post) pending
      = .ok (.mismatch why (pre ++ (m, a) :: post)) := by
  unfold consider
  rw [splitAtNode_append hm]
  dsimp only
  rcases List.eq_nil_or_concat pre with rfl | ⟨front, ⟨i, b⟩, rfl⟩
  · have hargs : argNodes rule [] post = .error .lhsMissing := by
      unfold argNodes lhsNodes
      rw [hl]
      rfl
    rw [hargs]
    exact ⟨_, rfl⟩
  · rw [List.concat_eq_append] at hend hm ⊢
    have hb : ∃ s, b = .sym s := by
      rw [endsOperand_append] at hend
      cases b with
      | sym s => exact ⟨s, rfl⟩
      | _ => cases hend
    obtain ⟨s, rfl⟩ := hb
    rw [argNodes_cons h hl]
    split
    · rename_i why hargs
      exact ⟨why, rfl⟩
    · rename_i args hargs
      have hrhs : rule.numRhsArgs = ts.length := by
        rw [GrammarRule.numRhsArgs, GrammarRule.numArgs, h, hl]
        rfl
      have hkept : keptBefore rule (front ++ [(i, AST.sym s)]) = front := by
        rw [keptBefore, hl, if_pos rfl, List.dropLast_concat]
      have hshape : args = (i, .sym s) :: post.take ts.length ∧ ts.length ≤ post.length := by
        split at hargs
        · cases hargs
        · rename_i hlen
          split at hargs
          · rename_i hts
            cases hargs
            rw [hts]
            exact ⟨rfl, Nat.zero_le _⟩
          · cases hargs
            exact ⟨rfl, by omega⟩
      obtain ⟨rfl, hlen⟩ := hshape
      rw [h, matchArgs, GrammarRule.matchArg_sym]
      refine ⟨.argsMismatch, ?_⟩
      have hnum : ((i, AST.sym s) :: post.take ts.length).length - rule.numRhsArgs = 1 := by
        rw [List.length_cons, List.length_take, hrhs]
        omega
      rw [hnum, hkept, hrhs]
      simp

theorem consider_skip {rule : GrammarRule} {m : Nat} {pre post : List Node}
    (pending : List PendingOp) (h : rule.argTypes = [.expr]) (hl : rule.hasLhsArg = false)
    (hend : endsOperand false pre = true) (hm : m ∉ positions pre) :
    ∃ why, consider ⟨m, rule⟩ (pre ++ (m, a) :: post) pending
      = .ok (.mismatch why (pre ++ (m, a) :: post)) := by
  have hlast : (pre.getLast?.any fun n => !n.2.isSym) = true := by
    rw [endsOperand_eq] at hend
    cases hg : pre.getLast? with
    | none =>
        rw [hg] at hend
        cases hend
    | some n =>
        rw [hg] at hend
        exact hend
  have hargs : argNodes rule pre post = .error .lhsPresent := by
    unfold argNodes lhsNodes
    rw [hl, hlast]
    simp [GrammarRule.numRhsArgs, GrammarRule.numArgs, h, hl]
  unfold consider
  rw [splitAtNode_append hm]
  dsimp only
  rw [hargs]
  exact ⟨_, rfl⟩

theorem gen_binary (o : BinaryOp) {t₁ t₂ : AST} (h₁ : t₁.Converted) (h₂ : t₂.Converted) :
    o.rule.gen (.sym o.sym) [t₁, t₂] = .ok (.op o.op [t₁, t₂]) := by
  have hre : GrammarRule.rematch o.rule.argTypes [t₁, t₂] = .ok [t₁, t₂] := by
    rw [show o.rule.argTypes = [.expr, .expr] from rfl, GrammarRule.rematch,
      GrammarRule.matchArg_converted h₁]
    rw [GrammarRule.rematch, GrammarRule.matchArg_converted h₂]
    rfl
  rw [GrammarRule.gen, hre, ok_bind]
  cases o <;> rfl

theorem gen_one {rule : GrammarRule} (h : rule.argTypes = [.expr]) (a : AST) (ht : t.Converted) :
    rule.gen a [t] = rule.doGen a [t] := by
  rw [GrammarRule.gen, h, GrammarRule.rematch, GrammarRule.matchArg_converted ht]
  rfl

theorem consider_lhs {rule : GrammarRule} {ts : List ArgType} {i m : Nat} {t x a result : AST}
    {left rhs rhs' right : List Node} (pending : List PendingOp)
    (h : rule.argTypes = .expr :: ts) (hl : rule.hasLhsArg = true) (hx : Operand t x)
    (hlen : rhs.length = ts.length) (hrhs : matchArgs ts rhs = (rhs', true))
    (hgen : rule.gen a (t :: rhs'.map Prod.snd) = .ok result)
    (hm : m ∉ positions (left ++ [(i, x)])) :
    consider ⟨m, rule⟩ (left ++ [(i, x)] ++ (m, a) :: (rhs ++ right)) pending
      = .ok (.applied (left ++ (m, result) :: right)
          (pending.filter fun p => decide (p.pos ≠ m ∧ p.pos ∉ i :: positions rhs'))) := by
  have hnum : rule.numRhsArgs = rhs.length := by
    rw [GrammarRule.numRhsArgs, GrammarRule.numArgs, h, hl, hlen]
    rfl
  have hargs : argNodes rule (left ++ [(i, x)]) (rhs ++ right) = .ok ((i, x) :: rhs) := by
    have hts : ¬(rhs ++ right).length < ts.length := by
      rw [List.length_append]
      omega
    rw [argNodes_cons h hl, if_neg hts]
    split
    · rename_i hnil
      rw [hnil] at hlen
      rw [List.length_eq_zero_iff.1 hlen]
    · rw [← hlen, List.take_left]
  unfold consider
  rw [splitAtNode_append hm]
  dsimp only
  rw [hargs]
  dsimp only
  rw [h, matchArgs, hx.matchArg, hrhs]
  dsimp only
  rw [List.map_cons, hgen, ok_bind, hnum, List.drop_left, keptBefore, hl, if_pos rfl,
    List.dropLast_concat]
  rfl

/-- An operator with a left operand is applied to the nodes around it. -/
theorem consider_around {rule : GrammarRule} {ts : List ArgType} {i m : Nat} {t x a result : AST}
    {left rhs rhs' right : List Node} (pending : List PendingOp)
    (h : rule.argTypes = .expr :: ts) (hl : rule.hasLhsArg = true) (hx : Operand t x)
    (hlen : rhs.length = ts.length) (hrhs : matchArgs ts rhs = (rhs', true))
    (hpos : positions rhs' = positions rhs)
    (hgen : rule.gen a (t :: rhs'.map Prod.snd) = .ok result)
    (hnodup : (positions (left ++ (i, x) :: (m, a) :: rhs ++ right)).Nodup) :
    ∃ f : PendingOp → Bool, (∀ p, f p = true ↔ p.pos ∉ positions ((i, x) :: (m, a) :: rhs)) ∧
      consider ⟨m, rule⟩ (left ++ (i, x) :: (m, a) :: rhs ++ right) pending
        = .ok (.applied (left ++ (m, result) :: right) (pending.filter f)) := by
  have hsplit : left ++ (i, x) :: (m, a) :: rhs ++ right =
      left ++ [(i, x)] ++ (m, a) :: (rhs ++ right) := by simp
  have hm : m ∉ positions (left ++ [(i, x)]) := by
    intro hin
    rw [hsplit, positions_append, List.nodup_append] at hnodup
    exact hnodup.2.2 _ hin m (by simp [positions]) rfl
  refine ⟨fun p => decide (p.pos ≠ m ∧ p.pos ∉ i :: positions rhs'), fun p => ?_, ?_⟩
  · rw [hpos]
    simp only [positions, List.map_cons, List.mem_cons, decide_eq_true_eq]
    tauto
  · rw [hsplit]
    exact consider_lhs pending h hl hx hlen hrhs hgen hm

theorem consider_redex {b : Bool} {redex left right : List Node} {result : AST}
    (pending : List PendingOp) (h : Redex b op redex result) (hb : endsOperand false left = b)
    (hnodup : (positions (left ++ redex ++ right)).Nodup) :
    ∃ f : PendingOp → Bool, (∀ p, f p = true ↔ p.pos ∉ positions redex) ∧
      consider op (left ++ redex ++ right) pending
        = .ok (.applied (left ++ (op.pos, result) :: right) (pending.filter f)) := by
  cases h with
  | @unary m j t y o hfalse hy =>
      have hm : m ∉ positions left := by
        intro hin
        rw [positions_append, positions_append, List.append_assoc, List.nodup_append] at hnodup
        exact hnodup.2.2 _ hin m (by simp [positions]) rfl
      have hrule : o.rule.hasLhsArg = false ∧ o.rule.argTypes = [.expr] := by
        cases o <;> exact ⟨rfl, rfl⟩
      have hlast : (left.getLast?.any fun n => !n.2.isSym) = false := by
        rw [endsOperand_eq, hfalse] at hb
        cases hg : left.getLast? with
        | none => rfl
        | some n =>
            rw [hg] at hb
            exact hb
      have hargs : argNodes o.rule left ((j, y) :: right) = .ok [(j, y)] := by
        unfold argNodes lhsNodes
        simp [hrule.1, hrule.2, GrammarRule.numRhsArgs, GrammarRule.numArgs, hlast]
      have hgen : o.rule.gen (.sym o.sym) [t] = .ok (.op o.op [t]) := by
        rw [gen_one hrule.2 _ hy.1]
        cases o <;> rfl
      refine ⟨fun p => decide (p.pos ≠ m ∧ p.pos ∉ [j]), fun p => by simp [positions], ?_⟩
      rw [List.append_assoc]
      change consider ⟨m, o.rule⟩ (left ++ (m, AST.sym o.sym) :: ((j, y) :: right)) pending = _
      unfold consider
      rw [splitAtNode_append hm]
      dsimp only
      rw [hargs]
      dsimp only
      rw [hrule.2, matchArgs, hy.matchArg, matchArgs]
      dsimp only
      rw [List.map_cons, List.map_nil, hgen, ok_bind]
      simp [keptBefore, hrule.1, hrule.2, GrammarRule.numRhsArgs, GrammarRule.numArgs]
  | @binary i m j t₁ t₂ x y o hx hy =>
      have hrhs : matchArgs [.expr] [(j, y)] = ([(j, t₂)], true) := by
        rw [matchArgs, hy.matchArg]
        rfl
      exact consider_around pending rfl rfl hx rfl hrhs rfl (gen_binary o hx.1 hy.1) hnodup
  | @call i m t x args hx hargs =>
      have hgen : GrammarRule.call.gen (.list .paren args) [t] = .ok (.call t args) := by
        rw [gen_one rfl _ hx.1]
        change Except.ok (AST.call t (args.map AST.unwrapParens)) = _
        rw [hargs]
      exact consider_around pending rfl rfl hx rfl rfl rfl hgen hnodup
  | @array i m t x len hx =>
      have hgen : GrammarRule.array.gen (.list .square len.toList) [t] = .ok (.array t len) := by
        rw [gen_one rfl _ hx.1]
        cases len <;> rfl
      exact consider_around pending rfl rfl hx rfl rfl rfl hgen hnodup

/-! ## Builtin fields -/

/-- What a field's symbol stands for; other nodes stand for themselves. -/
def resolve : AST → AST
  | .sym s => if s ∈ builtinFieldSyms then .builtinField s else .sym s
  | a => a

/-- `resolve` at a node. -/
def resolveNode (n : Node) : Node := (n.1, resolve n.2)

theorem resolve_field (kw : FieldSym) : resolve (.sym kw.1) = .builtinField kw.1 := by
  rw [resolve, if_pos kw.2]

theorem IsOpSym.not_field {s : Symbol} (h : IsOpSym s) : s ∉ builtinFieldSyms := by
  rcases h with ⟨o, rfl⟩ | ⟨o, rfl⟩ <;> cases o <;> decide

theorem resolve_opSym {s : Symbol} (h : IsOpSym s) : resolve (.sym s) = .sym s := by
  rw [resolve, if_neg h.not_field]

theorem resolve_converted (h : a.Converted) : resolve a = a := by
  cases a with
  | sym => cases h.1
  | _ => rfl

/-- The nodes of a flat list: expressions, lists in parentheses or brackets, operator symbols. -/
inductive FlatNode : AST → Prop
  | converted {a : AST} : a.Converted → FlatNode a
  | list {a : AST} (type : ListType) (nodes : List AST) : type ≠ .curly → a = .list type nodes →
      FlatNode a
  | sym {a : AST} (s : Symbol) : IsOpSym s → a = .sym s → FlatNode a

theorem Flat.node {k : Nat} (h : Flat k t ns) :
    ∀ n ∈ ns, FlatNode n.2 := by
  induction h with
  | operand ho =>
      intro n hn
      rw [List.mem_singleton.1 hn]
      rcases ho.2 with h | h
      · exact .converted (h ▸ ho.1)
      · exact .list .paren _ (by decide) h
  | unary o h hf ih =>
      intro n hn
      rcases List.mem_cons.1 hn with rfl | hn
      · exact .sym _ (.inr ⟨o, rfl⟩) rfl
      · exact ih n hn
  | binary o hl hr hfl hfr ihl ihr =>
      intro n hn
      rcases List.mem_append.1 hn with hn | hn
      · exact ihl n hn
      · rcases List.mem_cons.1 hn with rfl | hn
        · exact .sym _ (.inl ⟨o, rfl⟩) rfl
        · exact ihr n hn
  | call h hf hargs ih =>
      intro n hn
      rcases List.mem_append.1 hn with hn | hn
      · exact ih n hn
      · rw [List.mem_singleton.1 hn]
        exact .list .paren _ (by decide) rfl
  | array h hf ih =>
      intro n hn
      rcases List.mem_append.1 hn with hn | hn
      · exact ih n hn
      · rw [List.mem_singleton.1 hn]
        exact .list .square _ (by decide) rfl

theorem FlatNode.shape (h : FlatNode a) {r : GrammarRule} (hr : r ∈ rules a) :
    0 < r.precedence.rank ∧ ((r.hasLhsArg = true ∧ ∃ ts, r.argTypes = .expr :: ts) ∨
        (r.hasLhsArg = false ∧ r.argTypes = [.expr])) := by
  cases h with
  | converted hc =>
      rw [rules_converted hc] at hr
      cases hr
  | list type nodes hcurly ha =>
      subst ha
      cases type with
      | paren =>
          rw [List.mem_singleton.1 (show r ∈ [GrammarRule.call] from hr)]
          exact ⟨by decide, .inl ⟨rfl, [], rfl⟩⟩
      | square =>
          rw [List.mem_singleton.1 (show r ∈ [GrammarRule.array] from hr)]
          exact ⟨by decide, .inl ⟨rfl, [], rfl⟩⟩
      | curly => exact absurd rfl hcurly
  | sym s hs ha =>
      subst ha
      exact hs.shape hr

/-! ## The loop over the operators -/

/-- A moment of the loop of `parse_expr` on the nodes of an expression. -/
structure Stage (t : AST) (ns : List Node) (pending : List PendingOp) : Prop where
  flat : ∃ k, Flat k t (ns.map resolveNode)
  notParen : ∀ i, ns ≠ [(i, .list .paren [t])]
  sorted : (positions ns).Pairwise (· < ·)
  order : pending.Pairwise PendingOp.le
  ops : ∀ p, p ∈ pending ↔ ∃ n ∈ ns, p.pos = n.1 ∧ p.rule ∈ rules n.2

theorem Stage.replace {t result : AST} {left mid right : List Node} {i : Nat}
    (h : Stage t (left ++ mid ++ right) pending) (hi : i ∈ positions mid)
    (hresult : result.Converted)
    (hflat : ∃ k, Flat k t ((left ++ (i, result) :: right).map resolveNode)) {f : PendingOp → Bool}
    (hf : ∀ p, f p = true ↔ p.pos ∉ positions mid) :
    Stage t (left ++ (i, result) :: right) (pending.filter f) := by
  have hnodup : (positions (left ++ mid ++ right)).Nodup :=
    h.sorted.imp fun hlt => Nat.ne_of_lt hlt
  rw [positions_append, positions_append, List.nodup_append, List.nodup_append] at hnodup
  refine ⟨hflat, ?_, ?_, h.order.filter f, ?_⟩
  · intro j hj
    rcases left with _ | ⟨a, left⟩
    · cases hj
      cases hresult.2
    · cases left <;> cases hj
  · refine h.sorted.sublist ?_
    rw [positions_append, positions_append, positions_append, positions_cons, List.append_assoc]
    refine List.Sublist.append (List.Sublist.refl _) ?_
    exact List.Sublist.append (List.singleton_sublist.2 hi) (List.Sublist.refl _)
  · intro p
    rw [List.mem_filter, hf, h.ops]
    constructor
    · rintro ⟨⟨n, hn, hpos, hrule⟩, hout⟩
      refine ⟨n, ?_, hpos, hrule⟩
      rcases List.mem_append.1 hn with hn | hn
      · rcases List.mem_append.1 hn with hn | hn
        · exact List.mem_append_left _ hn
        · exact absurd (hpos ▸ List.mem_map_of_mem hn) hout
      · exact List.mem_append_right _ (List.mem_cons_of_mem _ hn)
    · rintro ⟨n, hn, hpos, hrule⟩
      rcases List.mem_append.1 hn with hn | hn
      · refine ⟨⟨n, by simp [hn], hpos, hrule⟩, fun hin => ?_⟩
        exact hnodup.1.2.2 _ (List.mem_map_of_mem hn) _ (hpos ▸ hin) rfl
      · rcases List.mem_cons.1 hn with rfl | hn
        · rw [rules_converted hresult] at hrule
          cases hrule
        · refine ⟨⟨n, by simp [hn], hpos, hrule⟩, fun hin => ?_⟩
          exact hnodup.2.2 _ (List.mem_append_right _ (hpos ▸ hin)) _ (List.mem_map_of_mem hn) rfl

theorem Stage.node (h : Stage t ns pending) {n : Node} (hn : n ∈ ns) :
    FlatNode n.2 ∨ ∃ kw : FieldSym, n.2 = .sym kw.1 := by
  obtain ⟨k, hflat⟩ := h.flat
  have hnode := hflat.node _ (List.mem_map_of_mem hn)
  obtain ⟨i, a⟩ := n
  by_cases hres : resolve a = a
  · exact .inl (by rwa [resolveNode, hres] at hnode)
  · right
    cases a with
    | sym s =>
        rw [resolve] at hres
        split at hres
        · rename_i hs
          exact ⟨⟨s, hs⟩, rfl⟩
        · exact absurd rfl hres
    | _ => exact absurd rfl hres

theorem Stage.field_first {p : PendingOp} {ps : List PendingOp} (h : Stage t ns (p :: ps))
    {n : Node} (hn : n ∈ ns) {kw : FieldSym} (hkw : n.2 = .sym kw.1) :
    ∃ i : Nat, ∃ w : FieldSym, (i, AST.sym w.1) ∈ ns ∧ p = ⟨i, .builtInField w.1⟩ := by
  have hrules : ∀ w : FieldSym, rules (.sym w.1) = [.builtInField w.1] := by
    intro w
    rw [rules, rulesOf_field]
  have hmem : (⟨n.1, .builtInField kw.1⟩ : PendingOp) ∈ p :: ps := by
    refine (h.ops _).2 ⟨n, hn, rfl, ?_⟩
    rw [hkw, hrules]
    exact List.mem_singleton.2 rfl
  have hrank : p.rule.precedence.rank ≤ 0 := by
    rcases List.mem_cons.1 hmem with heq | hin
    · rw [← heq]
      exact Nat.le_refl _
    · exact PendingOp.rank_le ((List.pairwise_cons.1 h.order).1 _ hin)
  obtain ⟨m, hm, hpos, hrule⟩ := (h.ops p).1 (List.mem_cons_self ..)
  rcases h.node hm with hflat | ⟨w, hw⟩
  · have := (hflat.shape hrule).1
    omega
  · rw [hw, hrules] at hrule
    refine ⟨m.1, w, ?_, ?_⟩
    · rwa [← hw]
    · cases p
      rw [List.mem_singleton] at hrule
      exact congrArg₂ PendingOp.mk hpos hrule

theorem consider_field {i : Nat} (kw : FieldSym) {left right : List Node}
    (pending : List PendingOp) (hi : i ∉ positions left) :
    consider ⟨i, .builtInField kw.1⟩ (left ++ (i, .sym kw.1) :: right) pending
      = .ok (.applied (left ++ (i, .builtinField kw.1) :: right)
          (pending.filter fun p => decide (p.pos ≠ i ∧ p.pos ∉ []))) := by
  have hargs : argNodes (.builtInField kw.1) left right = .ok [] := rfl
  unfold consider
  rw [splitAtNode_append hi]
  dsimp only
  rw [hargs]
  rfl

theorem Stage.resolved (h : Stage t ns pending) (hno : ∀ n ∈ ns, ∀ kw : FieldSym, n.2 ≠ .sym kw.1) :
    ns.map resolveNode = ns ∧ ∀ n ∈ ns, FlatNode n.2 := by
  have hflat : ∀ n ∈ ns, FlatNode n.2 := by
    intro n hn
    rcases h.node hn with hflat | ⟨kw, hkw⟩
    · exact hflat
    · exact absurd hkw (hno n hn kw)
  refine ⟨?_, hflat⟩
  conv_rhs => rw [← List.map_id ns]
  refine List.map_congr_left fun n hn => ?_
  obtain ⟨i, a⟩ := n
  cases hflat _ hn with
  | converted hc => rw [resolveNode, resolve_converted hc, id]
  | list type nodes _ ha =>
      dsimp only at ha
      rw [ha]
      rfl
  | sym s hs ha =>
      dsimp only at ha
      rw [resolveNode, ha, resolve_opSym hs, id]

theorem mem_readyOps {pre post : List Node} {n : Node} {p : PendingOp} (hpos : p.pos = n.1)
    (hrule : p.rule ∈ rules n.2) (hlhs : p.rule.hasLhsArg = endsOperand false pre) :
    p ∈ readyOps false (pre ++ n :: post) := by
  rw [readyOps_append]
  refine List.mem_append_right _ (List.mem_append_left _ ?_)
  refine List.mem_map.2 ⟨p.rule, List.mem_filter.2 ⟨hrule, decide_eq_true hlhs⟩, ?_⟩
  rw [← hpos]

theorem readyOps_mem_rules : ∀ (b : Bool) (ns : List Node), ∀ p ∈ readyOps b ns,
    ∃ n ∈ ns, p.pos = n.1 ∧ p.rule ∈ rules n.2
  | _, [], p, hp => by cases hp
  | b, (i, a) :: ns, p, hp => by
      rcases List.mem_append.1 hp with hp | hp
      · obtain ⟨r, hr, rfl⟩ := List.mem_map.1 hp
        exact ⟨(i, a), List.mem_cons_self .., rfl, (List.mem_filter.1 hr).1⟩
      · obtain ⟨n, hn, h⟩ := readyOps_mem_rules _ ns p hp
        exact ⟨n, List.mem_cons_of_mem _ hn, h⟩

theorem Stage.consider_unready (h : Stage t ns pending) (hflat : ∀ n ∈ ns, FlatNode n.2)
    {p : PendingOp} (hp : p ∈ pending) (hready : p ∉ readyOps false ns) :
    ∃ why, consider p ns pending = .ok (.mismatch why ns) := by
  obtain ⟨⟨i, a⟩, hn, hpos, hrule⟩ := (h.ops p).1 hp
  obtain ⟨m, rule⟩ := p
  dsimp only at hpos hrule
  subst hpos
  obtain ⟨pre, post, rfl⟩ := List.append_of_mem hn
  have hne : rule.hasLhsArg ≠ endsOperand false pre := fun he =>
    hready (mem_readyOps rfl hrule he)
  have hm : m ∉ positions pre := by
    intro hin
    have hsorted := h.sorted
    rw [positions_append, positions_cons, List.pairwise_append] at hsorted
    exact Nat.lt_irrefl _ (hsorted.2.2 _ hin _ (List.mem_cons_self ..))
  rcases ((hflat _ hn).shape hrule).2 with ⟨hl, ts, hts⟩ | ⟨hl, hts⟩
  · refine consider_noLhs pending hts hl ?_ hm
    cases he : endsOperand false pre with
    | false => rfl
    | true => exact absurd (hl.trans he.symm) hne
  · refine consider_skip pending hts hl ?_ hm
    cases he : endsOperand false pre with
    | false => exact absurd (hl.trans he.symm) hne
    | true => rfl

theorem tryOps_skip {pending rest : List PendingOp} :
    ∀ {ops : List PendingOp}, (∀ p ∈ ops, ∃ why, consider p ns pending = .ok (.mismatch why ns)) →
      tryOps false pending ns (ops ++ rest) = tryOps false pending ns rest
  | [], _ => rfl
  | p :: ops, h => by
      obtain ⟨why, hp⟩ := h p (List.mem_cons_self ..)
      rw [List.cons_append, tryOps, hp]
      exact tryOps_skip fun q hq => h q (List.mem_cons_of_mem _ hq)

/-- **Each pass over the operators of an expression applies one**, and leaves an earlier moment of
the same tree. -/
theorem Stage.pass {p : PendingOp} {ps : List PendingOp} (h : Stage t ns (p :: ps)) :
    ∃ ns' pending', tryOps false (p :: ps) ns (p :: ps) = .ok (ns', pending', true) ∧
      Stage t ns' pending' := by
  have hnodup : (positions ns).Nodup := h.sorted.imp fun hlt => Nat.ne_of_lt hlt
  obtain ⟨k, hflat⟩ := h.flat
  by_cases hfield : ∃ n ∈ ns, ∃ kw : FieldSym, n.2 = .sym kw.1
  · obtain ⟨n, hn, kw, hkw⟩ := hfield
    obtain ⟨i, w, hi, rfl⟩ := h.field_first hn hkw
    obtain ⟨left, right, rfl⟩ := List.append_of_mem hi
    have hleft : i ∉ positions left := by
      intro hin
      rw [positions_append, positions_cons, List.nodup_append] at hnodup
      exact hnodup.2.2 _ hin _ (List.mem_cons_self ..) rfl
    refine ⟨_, _, by rw [tryOps, consider_field w _ hleft], ?_⟩
    rw [List.append_cons] at h
    refine h.replace (List.mem_singleton.2 rfl) ⟨rfl, rfl⟩ ⟨k, ?_⟩ fun p => ?_
    · rw [List.map_append, List.map_cons] at hflat ⊢
      rwa [resolveNode, resolve_field] at hflat
    · simp [positions]
  · have hno : ∀ n ∈ ns, ∀ kw : FieldSym, n.2 ≠ .sym kw.1 :=
      fun n hn kw hkw => hfield ⟨n, hn, kw, hkw⟩
    obtain ⟨hres, hnodes⟩ := h.resolved hno
    rw [hres] at hflat
    rcases hflat.reduce h.sorted with ⟨i, a, rfl, ha⟩ | ⟨op, hop⟩
    · -- one node is left: it is the tree, which has no operators
      exfalso
      obtain ⟨n, hn, hpos, hrule⟩ := (h.ops p).1 (List.mem_cons_self ..)
      rw [List.mem_singleton.1 hn] at hrule
      rcases ha.2 with rfl | rfl
      · rw [rules_converted ha.1] at hrule
        cases hrule
      · exact h.notParen i rfl
    · obtain ⟨left, redex, right, result, rfl, hredex, hresult, ⟨j, -, hnew⟩, -, hmem, hfirst⟩ :=
        hop
      obtain ⟨n, hn, hpos, hrule⟩ := readyOps_mem_rules _ _ _ hmem
      have hpending := (h.ops op).2 ⟨n, hn, hpos, hrule⟩
      obtain ⟨before, after, hsplit, hbefore⟩ := List.eq_append_cons_of_mem hpending
      have hskip : ∀ q ∈ before, ∃ why, consider q (left ++ redex ++ right) (p :: ps)
          = .ok (.mismatch why (left ++ redex ++ right)) := by
        intro q hq
        refine h.consider_unready hnodes (hsplit ▸ List.mem_append_left _ hq) fun hr => ?_
        rcases hfirst q hr with rfl | hlt
        · exact hbefore hq
        · have hord := h.order
          rw [hsplit, List.pairwise_append] at hord
          have hle : q.le op := hord.2.2 _ hq _ (List.mem_cons_self ..)
          exact absurd hlt (by rw [hle]; decide)
      obtain ⟨f, hf, hcons⟩ := consider_redex (p :: ps) hredex rfl hnodup
      refine ⟨left ++ (op.pos, result) :: right, (p :: ps).filter f, ?_, ?_⟩
      · have hrun : tryOps false (p :: ps) (left ++ redex ++ right) (before ++ op :: after)
            = .ok (left ++ (op.pos, result) :: right, (p :: ps).filter f, true) := by
          rw [tryOps_skip hskip, tryOps, hcons]
        rwa [← hsplit] at hrun
      · refine h.replace hredex.pos_mem hresult ⟨j, ?_⟩ hf
        have hl : (left ++ (op.pos, result) :: right).map resolveNode
            = left ++ (op.pos, result) :: right := by
          have hmap := hres
          rw [List.map_append, List.map_append, List.append_assoc, List.append_assoc] at hmap
          have h₁ := List.append_inj hmap (List.length_map _)
          have h₂ := List.append_inj h₁.2 (List.length_map _)
          rw [List.map_append, List.map_cons, h₁.1, h₂.2, resolveNode, resolve_converted hresult]
        rwa [hl]

theorem Stage.done (h : Stage t ns []) : ∃ i, ns = [(i, t)] := by
  have hnone : ∀ n ∈ ns, rules n.2 = [] := by
    intro n hn
    refine List.eq_nil_iff_forall_not_mem.2 fun r hr => ?_
    exact List.not_mem_nil ((h.ops ⟨n.1, r⟩).2 ⟨n, hn, rfl, hr⟩)
  have hno : ∀ n ∈ ns, ∀ kw : FieldSym, n.2 ≠ .sym kw.1 := by
    intro n hn kw hkw
    have := hnone n hn
    rw [hkw, rules, rulesOf_field] at this
    cases this
  obtain ⟨hres, -⟩ := h.resolved hno
  obtain ⟨k, hflat⟩ := h.flat
  rw [hres] at hflat
  rcases hflat.reduce h.sorted with ⟨i, a, rfl, ha⟩ | ⟨op, hop⟩
  · rcases ha.2 with rfl | rfl
    · exact ⟨i, rfl⟩
    · exact absurd rfl (h.notParen i)
  · obtain ⟨_, _, _, _, -, -, -, -, -, hmem, -⟩ := hop
    obtain ⟨n, hn, -, hrule⟩ := readyOps_mem_rules _ _ _ hmem
    rw [hnone n hn] at hrule
    cases hrule

/-- **The loop on the nodes of an expression leaves its tree.** -/
theorem applyRules_stage : ∀ {passes : Nat} {ns : List Node} {pending : List PendingOp}
    {r : Except Error (List Node)}, Stage t ns pending →
      applyRules passes false ns pending = some r → ∃ i, r = .ok [(i, t)]
  | passes, ns, [], r, h, hr => by
      obtain ⟨i, rfl⟩ := h.done
      cases passes <;>
      · cases hr
        exact ⟨i, rfl⟩
  | 0, _, _ :: _, _, _, hr => by cases hr
  | passes + 1, ns, p :: ps, r, h, hr => by
      obtain ⟨ns', pending', htry, h'⟩ := h.pass
      rw [applyRules, htry] at hr
      exact applyRules_stage h' hr

namespace Concrete

/-! ## The nodes of an expression -/

/-- The nodes of an expression when its lists are parsed. -/
def asts : Concrete → List AST
  | num v => [.num v]
  | var x => [.var x]
  | field kw => [.sym kw.1]
  | paren e => [.list .paren [e.tree]]
  | unary o e => .sym o.sym :: e.asts
  | binary o l r => l.asts ++ .sym o.sym :: r.asts
  | call f args => f.asts ++ [.list .paren (trees args)]
  | autoArray f => f.asts ++ [.list .square []]
  | array f len => f.asts ++ [.list .square [len.tree]]

theorem eq_singleton_of_asts (h : ns.map Prod.snd = [a]) :
    ∃ i, ns = [(i, a)] := by
  obtain ⟨⟨i, b⟩, rfl⟩ := List.length_eq_one_iff.1
    (by simpa using congrArg List.length h : ns.length = 1)
  exact ⟨i, by simpa using h⟩

theorem eq_concat_of_asts {as : List AST} (h : ns.map Prod.snd = as ++ [a]) :
    ∃ xs m, ns = xs ++ [(m, a)] ∧ xs.map Prod.snd = as := by
  obtain ⟨xs, zs, rfl, hxs, hzs⟩ := List.map_eq_append_iff.1 h
  obtain ⟨m, rfl⟩ := eq_singleton_of_asts hzs
  exact ⟨xs, m, rfl, hxs⟩

theorem flat_asts : ∀ (c : Concrete), c.Fits → ∀ ns : List Node,
    ns.map Prod.snd = c.asts → Flat c.level c.tree (ns.map resolveNode)
  | num v, _, ns, h | var v, _, ns, h => by
      rw [asts] at h
      obtain ⟨i, rfl⟩ := eq_singleton_of_asts h
      rw [level, tree]
      exact .operand ⟨⟨rfl, rfl⟩, .inl rfl⟩
  | field kw, _, ns, h => by
      rw [asts] at h
      obtain ⟨i, rfl⟩ := eq_singleton_of_asts h
      rw [level, tree, List.map_cons, resolveNode, resolve_field]
      exact .operand ⟨⟨rfl, rfl⟩, .inl rfl⟩
  | paren e, _, ns, h => by
      rw [asts] at h
      obtain ⟨i, rfl⟩ := eq_singleton_of_asts h
      rw [level, tree]
      exact .operand ⟨tree_converted e, .inr rfl⟩
  | unary o e, hfits, ns, h => by
      rw [asts] at h
      rw [Fits] at hfits
      obtain ⟨⟨m, a⟩, ys, rfl, ha, hys⟩ := List.map_eq_cons_iff.1 h
      dsimp only at ha
      subst ha
      rw [level, tree, List.map_cons, resolveNode, resolve_opSym (.inr ⟨o, rfl⟩)]
      exact .unary o (flat_asts e hfits.1 ys hys) hfits.2
  | binary o l r, hfits, ns, h => by
      rw [asts] at h
      rw [Fits] at hfits
      obtain ⟨xs, zs, rfl, hxs, hzs⟩ := List.map_eq_append_iff.1 h
      obtain ⟨⟨m, a⟩, ys, rfl, ha, hys⟩ := List.map_eq_cons_iff.1 hzs
      dsimp only at ha
      subst ha
      rw [level, tree, List.map_append, List.map_cons, resolveNode,
        resolve_opSym (.inl ⟨o, rfl⟩)]
      exact .binary o (flat_asts l hfits.1 xs hxs) (flat_asts r hfits.2.1 ys hys) hfits.2.2.1
        hfits.2.2.2
  | call f args, hfits, ns, h => by
      rw [asts] at h
      rw [Fits] at hfits
      obtain ⟨xs, m, rfl, hxs⟩ := eq_concat_of_asts h
      rw [level, tree, List.map_append]
      exact .call (flat_asts f hfits.1 xs hxs) hfits.2.1 (map_unwrapParens_trees args)
  | autoArray f, hfits, ns, h => by
      rw [asts] at h
      rw [Fits] at hfits
      obtain ⟨xs, m, rfl, hxs⟩ := eq_concat_of_asts h
      rw [level, tree, List.map_append]
      exact @Flat.array m _ _ _ none (flat_asts f hfits.1 xs hxs) hfits.2
  | array f len, hfits, ns, h => by
      rw [asts] at h
      rw [Fits] at hfits
      obtain ⟨xs, m, rfl, hxs⟩ := eq_concat_of_asts h
      rw [level, tree, List.map_append]
      exact @Flat.array m _ _ _ (some len.tree) (flat_asts f hfits.1 xs hxs) hfits.2.1

theorem asts_ne_nil (c : Concrete) : c.asts ≠ [] := by
  cases c <;> simp [asts]

theorem asts_ne_paren : ∀ c : Concrete, c.isParen = false → ∀ t, c.asts ≠ [.list .paren [t]]
  | num _, _, t | var _, _, t | field _, _, t | unary .., _, t => by simp [asts]
  | paren _, h, _ => by cases h
  | binary o l r, _, t => by
      intro h
      rw [asts] at h
      have hlen := congrArg List.length h
      have hl := List.length_pos_of_ne_nil l.asts_ne_nil
      rw [List.length_append, List.length_cons, List.length_singleton] at hlen
      omega
  | call f _, _, t | autoArray f, _, t | array f _, _, t => by
      intro h
      rw [asts] at h
      have hlen := congrArg List.length h
      have hf := List.length_pos_of_ne_nil f.asts_ne_nil
      rw [List.length_append, List.length_singleton, List.length_singleton] at hlen
      omega

end Concrete

/-! ## `parse_expr` -/

theorem findOps_spec : ∀ {ns : List Node}, (∀ n ∈ ns, rulesOf n.2 = .ok (rules n.2)) →
    ∃ ops, findOps ns = .ok ops ∧ ∀ p, p ∈ ops ↔ ∃ n ∈ ns, p.pos = n.1 ∧ p.rule ∈ rules n.2
  | [], _ => ⟨[], rfl, by simp⟩
  | (i, a) :: ns, h => by
      obtain ⟨ops, hops, hmem⟩ := findOps_spec fun n hn => h n (List.mem_cons_of_mem _ hn)
      refine ⟨(rules a).map (PendingOp.mk i) ++ ops, ?_, fun p => ?_⟩
      · rw [findOps, h (i, a) (List.mem_cons_self ..), ok_bind, hops]
        rfl
      · rw [List.mem_append, hmem, List.mem_map]
        constructor
        · rintro (⟨r, hr, rfl⟩ | ⟨n, hn, hp⟩)
          · exact ⟨(i, a), List.mem_cons_self .., rfl, hr⟩
          · exact ⟨n, List.mem_cons_of_mem _ hn, hp⟩
        · rintro ⟨n, hn, hpos, hrule⟩
          rcases List.mem_cons.1 hn with rfl | hn
          · exact .inl ⟨p.rule, hrule, congrArg (PendingOp.mk · p.rule) hpos.symm⟩
          · exact .inr ⟨n, hn, hpos, hrule⟩

theorem FlatNode.rulesOf (h : FlatNode a) : rulesOf a = .ok (rules a) := by
  cases h with
  | converted hc =>
      rw [rules_converted hc]
      cases a with
      | sym => cases hc.1
      | list => cases hc.2
      | _ => rfl
  | list type nodes _ ha =>
      subst ha
      rfl
  | sym s hs ha =>
      subst ha
      exact hs.rulesOf

theorem map_snd_locate (as : List AST) : (locate as).map Prod.snd = as := by
  unfold locate
  rw [List.map_map]
  exact List.zipIdx_map_fst 0 as

theorem stage_asts {c : Concrete} (hfits : c.Fits) (hparen : c.isParen = false) :
    ∃ ops, findOps (locate c.asts) = .ok ops ∧
      Stage c.tree (locate c.asts) (ops.insertionSort PendingOp.le) := by
  have hflat := Concrete.flat_asts c hfits _ (map_snd_locate c.asts)
  have hnode : ∀ n ∈ locate c.asts, rulesOf n.2 = .ok (rules n.2) := by
    intro n hn
    have h := hflat.node _ (List.mem_map_of_mem hn)
    by_cases hres : resolve n.2 = n.2
    · rw [resolveNode, hres] at h
      exact h.rulesOf
    · obtain ⟨i, a⟩ := n
      cases a with
      | sym s =>
          dsimp only [resolve] at hres
          split at hres
          · rename_i hs
            have hr := rulesOf_field ⟨s, hs⟩
            rw [rules, hr]
          · exact absurd rfl hres
      | _ => exact absurd rfl hres
  obtain ⟨ops, hops, hmem⟩ := findOps_spec hnode
  refine ⟨ops, hops, ⟨_, hflat⟩, ?_, ?_, List.pairwise_insertionSort _ _, fun p => ?_⟩
  · intro i hi
    have := congrArg (List.map Prod.snd) hi
    rw [map_snd_locate] at this
    exact c.asts_ne_paren hparen _ this
  · rw [positions_locate]
    exact List.pairwise_lt_range
  · rw [List.mem_insertionSort, hmem]

/-- **`parse_expr` on the nodes of an expression** gives its tree, unless the expression is one
parenthesised expression: then no rule applies, and the second pass throws. -/
theorem parseExpr_asts {c : Concrete} (hfits : c.Fits) {passes : Nat} {r : Except Error AST}
    (h : (parseExpr passes c.asts).run = some r) :
    r = if c.isParen then .error (.parseError .lhsMissing) else .ok c.tree := by
  cases hp : c.isParen with
  | true =>
      obtain ⟨e, rfl⟩ : ∃ e, c = .paren e := by
        cases c with
        | paren e => exact ⟨e, rfl⟩
        | _ => cases hp
      rw [Concrete.asts] at h
      rcases passes with _ | _ | passes
      · cases h
      · cases h
      · cases h
        rfl
  | false =>
      obtain ⟨ops, hops, hstage⟩ := stage_asts hfits hp
      have hne : c.asts.isEmpty = false := by
        cases ha : c.asts with
        | nil => exact absurd ha c.asts_ne_nil
        | cons => rfl
      unfold parseExpr at h
      rw [hne, hops] at h
      change (applyRules passes false (locate c.asts) (ops.insertionSort PendingOp.le) >>=
        ExceptT.bindCont _) = some r at h
      cases ha : applyRules passes false (locate c.asts) (ops.insertionSort PendingOp.le) with
      | none =>
          rw [ha] at h
          cases h
      | some r' =>
          obtain ⟨i, rfl⟩ := applyRules_stage hstage ha
          rw [ha] at h
          cases h
          rfl

/-! ## Groups and arguments -/

/-- What a group is parsed to: a value, or the error of a lone parenthesised expression. -/
def orLoneParen {α : Type} (ok : Bool) (a : α) : Except Error α :=
  if ok then .ok a else .error (.parseError .lhsMissing)

/-- A computation that, if it ends, gives the value or that error. -/
def Gives {α : Type} (x : Parsed α) (ok : Bool) (a : α) : Prop :=
  ∀ r, x.run = some r → r = orLoneParen ok a

theorem Gives.pure {α : Type} (a : α) : Gives (Pure.pure a : Parsed α) true a := by
  intro r h
  cases h
  rfl

theorem Gives.bind {α β : Type} {x : Parsed α} {f : α → Parsed β} {p q : Bool} {a : α} {b : β}
    (hx : Gives x p a) (hf : Gives (f a) q b) : Gives (x >>= f) (p && q) b := by
  intro r h
  change (x.run >>= ExceptT.bindCont f) = some r at h
  cases hr : x.run with
  | none =>
      rw [hr] at h
      cases h
  | some r' =>
      rw [hr, hx r' hr] at h
      cases p with
      | true => exact hf r h
      | false =>
          cases h
          rfl

theorem Gives.of_eq {α : Type} {x : Parsed α} {p q : Bool} {a b : α} (h : Gives x p a)
    (hp : p = q) (ha : a = b) : Gives x q b := hp ▸ ha ▸ h

namespace Concrete

variable {passes : Nat}

theorem parseItems_append (passes : Nat) : ∀ xs ys : List GroupingNode,
    parseItems passes (xs ++ ys) = (do
      let as ← parseItems passes xs
      let bs ← parseItems passes ys
      pure (as ++ bs))
  | [], ys => by
      rw [List.nil_append, parseItems]
      simp
  | x :: xs, ys => by
      rw [List.cons_append, parseItems, parseItems, parseItems_append]
      simp

theorem gives_append {xs ys : List GroupingNode} {p q : Bool} {as bs : List AST}
    (hx : Gives (parseItems passes xs) p as) (hy : Gives (parseItems passes ys) q bs) :
    Gives (parseItems passes (xs ++ ys)) (p && q) (as ++ bs) := by
  rw [parseItems_append]
  exact Gives.of_eq (hx.bind (hy.bind (.pure _))) (by rw [Bool.and_true]) rfl

theorem gives_singleton {n : GroupingNode} {p : Bool} (hn : Gives (parseItem passes n) p a) :
    Gives (parseItems passes [n]) p [a] := by
  rw [parseItems, parseItems]
  exact Gives.of_eq (hn.bind (Gives.bind (.pure _) (.pure _))) (by simp) rfl

theorem gives_token (passes : Nat) (t : Token) :
    Gives (parseItem passes (.token t)) true (parseToken t) := by
  rw [parseItem]
  exact .pure _

theorem gives_list {type : ListType} {ns : List GroupingNode} {p : Bool} {as : List AST}
    (h : Gives (parseGroups passes ns) p as) (hu : as.map AST.unwrapParens = as) :
    Gives (parseItem passes (.list type ns)) p (.list type as) := by
  rw [parseItem]
  exact Gives.of_eq (h.bind (.pure _)) (by simp) (by rw [hu])

theorem gives_group {c : Concrete} (hfits : c.Fits)
    (h : Gives (parseItems passes c.nodes) c.clean c.asts) :
    Gives (parseGroup passes (.expr c.nodes)) c.groupOk c.tree := by
  rw [parseGroup]
  have hexpr : Gives (parseExpr passes c.asts) (!c.isParen) c.tree := by
    intro r hr
    rw [parseExpr_asts hfits hr]
    cases c.isParen <;> rfl
  exact Gives.of_eq (h.bind hexpr) (by rw [groupOk, Bool.and_comm]) rfl

mutual

theorem gives_nodes : ∀ c : Concrete, c.Fits →
    Gives (parseItems passes c.nodes) c.clean c.asts
  | num _, _ | var _, _ | field _, _ => by
      rw [nodes, clean, asts]
      exact gives_singleton (gives_token _ _)
  | paren e, h => by
      rw [Fits] at h
      rw [nodes, clean, asts]
      refine gives_singleton (gives_list ?_ ?_)
      · rw [parseGroups, parseGroups]
        exact Gives.of_eq ((gives_group h (gives_nodes e h)).bind
          (Gives.bind (.pure _) (.pure _))) (by simp [groupOk]) rfl
      · rw [List.map_cons, (tree_converted e).unwrapParens]
        rfl
  | unary o e, h => by
      rw [Fits] at h
      rw [nodes, clean, asts]
      exact gives_append (gives_singleton (gives_token passes (.sym o.sym))) (gives_nodes e h.1)
  | binary o l r, h => by
      rw [Fits] at h
      rw [nodes, clean, asts]
      exact gives_append (gives_nodes l h.1)
        (gives_append (gives_singleton (gives_token passes (.sym o.sym))) (gives_nodes r h.2.1))
  | call f args, h => by
      rw [Fits] at h
      rw [nodes, clean, asts]
      exact gives_append (gives_nodes f h.1)
        (gives_singleton (gives_list (gives_groups args h.2.2) (map_unwrapParens_trees args)))
  | autoArray f, h => by
      rw [Fits] at h
      rw [nodes, clean, asts]
      have hlist : Gives (parseItem passes (.list .square [])) true (.list .square []) := by
        refine gives_list ?_ rfl
        rw [parseGroups]
        exact .pure _
      exact Gives.of_eq (gives_append (gives_nodes f h.1) (gives_singleton hlist)) (by simp) rfl
  | array f len, h => by
      rw [Fits] at h
      rw [nodes, clean, asts]
      refine gives_append (gives_nodes f h.1) (gives_singleton (gives_list ?_ ?_))
      · rw [parseGroups, parseGroups]
        exact Gives.of_eq ((gives_group h.2.2 (gives_nodes len h.2.2)).bind
          (Gives.bind (.pure _) (.pure _))) (by simp [groupOk]) rfl
      · rw [List.map_cons, (tree_converted len).unwrapParens]
        rfl

theorem gives_groups : ∀ cs : List Concrete, AllFit cs →
    Gives (parseGroups passes (groups cs)) (allOk cs) (trees cs)
  | [], _ => by
      rw [groups, parseGroups, allOk, trees]
      exact .pure _
  | c :: cs, h => by
      rw [AllFit] at h
      rw [groups, parseGroups, allOk, trees]
      exact Gives.of_eq ((gives_group h.1 (gives_nodes c h.1)).bind
        ((gives_groups cs h.2).bind (.pure _))) (by simp [groupOk]) rfl

end

end Concrete

/-! ## Round trip -/

theorem gives_print {passes : Nat} {c : Concrete} (hfits : c.Fits) :
    Gives (parse passes c.print) c.groupOk [c.tree] := by
  have hg : Gives (parseGroup passes (.expr c.nodes)) c.groupOk c.tree :=
    Concrete.gives_group hfits (Concrete.gives_nodes c hfits)
  have hgs : Gives (parseGroups passes [.expr c.nodes]) c.groupOk [c.tree] := by
    rw [parseGroups, parseGroups]
    exact Gives.of_eq (hg.bind (Gives.bind (.pure _) (.pure _))) (by simp) rfl
  unfold parse
  rw [Concrete.group_print]
  unfold parseStmts
  refine Gives.of_eq (hgs.bind (.pure _)) (by simp) ?_
  rw [List.map_cons, (Concrete.tree_converted c).unwrapParens]
  rfl

/-- **The parser on a printed statement** gives its tree, unless some expression in it is one
parenthesised expression. -/
theorem parse_print {passes : Nat} {c : Concrete} (hfits : c.Fits)
    (hpasses : passBound c.print ≤ passes) :
    (parse passes c.print).run
      = some (if c.groupOk then .ok [c.tree] else .error (.parseError .lhsMissing)) := by
  obtain ⟨r, hr, -⟩ := parse_ends hpasses
  rw [hr, gives_print hfits r hr]
  rfl

/-- **SDDL2 expressions parse with C precedence, but for a lone parenthesised expression.** On the
printing of a tree with at least the parentheses that the precedence levels want, the parser
rebuilds the tree if and only if no expression of the printing — the statement, an argument, an
array length, the inside of parentheses — is one parenthesised expression; the printing with the
fewest parentheses always is of that kind; and on every token list the parser ends with trees or
an exception. -/
theorem parse_print_iff (c : Concrete) (tokens : List Token) (passes : Nat) :
    (c.Fits → passBound c.print ≤ passes →
      ((parse passes c.print).run = some (.ok [c.tree]) ↔ c.groupOk = true)) ∧
    (passBound c.minimal.print ≤ passes →
      c.minimal.Fits ∧ (parse passes c.minimal.print).run = some (.ok [c.tree])) ∧
    (passBound tokens ≤ passes → (parse passes tokens).Ends) := by
  refine ⟨fun hfits hpasses => ?_, fun hpasses => ⟨c.minimal_fits, ?_⟩, parse_ends⟩
  · rw [parse_print hfits hpasses]
    cases c.groupOk <;> simp
  · rw [parse_print c.minimal_fits hpasses, c.minimal_groupOk, Concrete.tree_minimal]
    rfl

/-- The printing `(a + b) * -c` and its tree. -/
theorem parse_print_product :
    let c : Concrete := .binary .mul (.paren (.binary .add (.var "a") (.var "b")))
      (.unary .neg (.var "c"))
    (parse (passBound c.print) c.print).run = some (.ok [.op .mul
      [.op .add [.var "a", .var "b"], .op .neg [.var "c"]]]) :=
  ((parse_print_iff _ [] _).1 (by simp [Concrete.Fits, Concrete.level, Precedence.fitsLeft,
    Precedence.fitsRight, Precedence.associativity, Precedence.rank, BinaryOp.precedence])
    (Nat.le_refl _)).2 rfl

/-- The statement `(a)` is refused: its one expression is the list of the parentheses, and the call
rule of that list finds no function in front of it. -/
theorem parse_lone_paren :
    ¬∀ (c : Concrete) (passes : Nat), c.Fits → passBound c.print ≤ passes →
      (parse passes c.print).run = some (.ok [c.tree]) := by
  intro h
  have hrun := h (.paren (.var "a")) (passBound (Concrete.paren (.var "a")).print)
    (by simp [Concrete.Fits]) (Nat.le_refl _)
  have hfail : (parse (passBound (Concrete.paren (.var "a")).print)
      (Concrete.paren (.var "a")).print).run = some (.error (.parseError .lhsMissing)) := rfl
  rw [hfail] at hrun
  cases hrun

end OpenZL.Sddl2.Compiler
