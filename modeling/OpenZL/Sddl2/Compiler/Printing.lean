import OpenZL.Sddl2.Compiler.ParserEnds

/-!
# SDDL2 compiler: printing expressions

The expressions over the binary operators, the operators `-`, `!` and `~` in front of an operand,
member access, calls, arrays and parentheses, as they are written (`Concrete`), with the tree that
each one stands for, its tokens, and the groups that the grouper makes of them.

Principal results: `group_print`, `minimal_fits`, `minimal_groupOk`, `tree_minimal`.
-/

namespace OpenZL.Sddl2.Compiler

open OpenZL.Lib

/-! ## Operators -/

/-- The operators with an operand on either side. -/
inductive BinaryOp
  | member
  | mul | div | mod
  | add | sub
  | gt | ge | lt | le
  | eq | ne
  | bitAnd | bitXor | bitOr
  | logAnd | logOr
  | assign | assume
  deriving DecidableEq, Repr

namespace BinaryOp

/-- The symbol of the operator. -/
def sym : BinaryOp → Symbol
  | member => .member
  | mul => .mul
  | div => .div
  | mod => .mod
  | add => .add
  | sub => .sub
  | gt => .gt
  | ge => .ge
  | lt => .lt
  | le => .le
  | eq => .eq
  | ne => .ne
  | bitAnd => .bitAnd
  | bitXor => .bitXor
  | bitOr => .bitOr
  | logAnd => .logAnd
  | logOr => .logOr
  | assign => .assign
  | assume => .assume

/-- The operation of the tree. -/
def op : BinaryOp → Op
  | member => .member
  | mul => .mul
  | div => .div
  | mod => .mod
  | add => .add
  | sub => .sub
  | gt => .gt
  | ge => .ge
  | lt => .lt
  | le => .le
  | eq => .eq
  | ne => .ne
  | bitAnd => .bitAnd
  | bitXor => .bitXor
  | bitOr => .bitOr
  | logAnd => .logAnd
  | logOr => .logOr
  | assign => .assign
  | assume => .assume

/-- The precedence level of the operator in C; the SDDL2 operator `:` has that of assignment. -/
def precedence : BinaryOp → Precedence
  | member => .access
  | mul | div | mod => .mulDivMod
  | add | sub => .addSub
  | gt | ge | lt | le => .relation
  | eq | ne => .equality
  | bitAnd => .bitAnd
  | bitXor => .bitXor
  | bitOr => .bitOr
  | logAnd => .logAnd
  | logOr => .logOr
  | assign | assume => .assignment

end BinaryOp

/-- The operators in front of an operand. -/
inductive UnaryOp
  | neg | bitNot | logNot
  deriving DecidableEq, Repr

namespace UnaryOp

/-- The symbol of the operator. -/
def sym : UnaryOp → Symbol
  | neg => .sub
  | bitNot => .bitNot
  | logNot => .logNot

/-- The operation of the tree. -/
def op : UnaryOp → Op
  | neg => .neg
  | bitNot => .bitNot
  | logNot => .logNot

end UnaryOp

/-- The left operand binds tightly enough to stand without parentheses. -/
def Precedence.fitsLeft (p : Precedence) (level : Nat) : Prop :=
  match p.associativity with
  | .leftToRight => level ≤ p.rank
  | .rightToLeft => level < p.rank

/-- The right operand binds tightly enough to stand without parentheses. -/
def Precedence.fitsRight (p : Precedence) (level : Nat) : Prop :=
  match p.associativity with
  | .leftToRight => level < p.rank
  | .rightToLeft => level ≤ p.rank

instance (p : Precedence) (level : Nat) : Decidable (p.fitsLeft level) := by
  unfold Precedence.fitsLeft
  split <;> infer_instance

instance (p : Precedence) (level : Nat) : Decidable (p.fitsRight level) := by
  unfold Precedence.fitsRight
  split <;> infer_instance

theorem Precedence.fitsLeft_zero {p : Precedence} (h : 0 < p.rank) : p.fitsLeft 0 := by
  unfold Precedence.fitsLeft
  split <;> omega

theorem Precedence.fitsRight_zero {p : Precedence} (h : 0 < p.rank) : p.fitsRight 0 := by
  unfold Precedence.fitsRight
  split <;> omega

theorem BinaryOp.rank_pos (o : BinaryOp) : 0 < o.precedence.rank := by
  cases o <;> decide

/-- A symbol of `builtin_field_syms`. -/
abbrev FieldSym := { s : Symbol // s ∈ builtinFieldSyms }

/-! ## Concrete trees -/

/-- An expression as it is written, with its parentheses. -/
inductive Concrete
  | num (val : Int)
  | var (name : String)
  | field (kw : FieldSym)
  | paren (e : Concrete)
  | unary (o : UnaryOp) (e : Concrete)
  | binary (o : BinaryOp) (l r : Concrete)
  | call (target : Concrete) (args : List Concrete)
  | autoArray (elem : Concrete)
  | array (elem len : Concrete)

namespace Concrete

mutual

/-- The tree that is written. -/
def tree : Concrete → AST
  | num v => .num v
  | var x => .var x
  | field kw => .builtinField kw.1
  | paren e => e.tree
  | unary o e => .op o.op [e.tree]
  | binary o l r => .op o.op [l.tree, r.tree]
  | call f args => .call f.tree (trees args)
  | autoArray f => .array f.tree none
  | array f len => .array f.tree (some len.tree)

/-- The trees of the arguments of a call. -/
def trees : List Concrete → List AST
  | [] => []
  | a :: as => a.tree :: trees as

end

theorem tree_converted : ∀ c : Concrete, c.tree.Converted
  | paren e => by
      rw [tree]
      exact tree_converted e
  | num _ | var _ | field _ | unary .. | binary .. | call .. | autoArray _ | array .. => by
      rw [tree]
      exact ⟨rfl, rfl⟩

theorem map_unwrapParens_trees : ∀ cs : List Concrete,
    (trees cs).map AST.unwrapParens = trees cs
  | [] => rfl
  | c :: cs => by
      rw [trees, List.map_cons, (tree_converted c).unwrapParens, map_unwrapParens_trees cs]

/-- How tightly the outermost operator binds. -/
def level : Concrete → Nat
  | num _ | var _ | field _ | paren _ => 0
  | unary .. => Precedence.unary.rank
  | binary o _ _ => o.precedence.rank
  | call .. | autoArray _ | array .. => Precedence.access.rank

mutual

/-- Every operand that would be parsed otherwise has its parentheses. -/
def Fits : Concrete → Prop
  | num _ | var _ | field _ => True
  | paren e => e.Fits
  | unary _ e => e.Fits ∧ Precedence.unary.fitsRight e.level
  | binary o l r => l.Fits ∧ r.Fits ∧ o.precedence.fitsLeft l.level ∧ o.precedence.fitsRight r.level
  | call f args => f.Fits ∧ Precedence.access.fitsLeft f.level ∧ AllFit args
  | autoArray f => f.Fits ∧ Precedence.access.fitsLeft f.level
  | array f len => f.Fits ∧ Precedence.access.fitsLeft f.level ∧ len.Fits

/-- `Fits` for the arguments of a call. -/
def AllFit : List Concrete → Prop
  | [] => True
  | a :: as => a.Fits ∧ AllFit as

end

/-- The expression is one parenthesised expression. -/
def isParen : Concrete → Bool
  | paren _ => true
  | _ => false

mutual

/-- No parentheses, argument or array length inside is one parenthesised expression. -/
def clean : Concrete → Bool
  | num _ | var _ | field _ => true
  | paren e => !e.isParen && e.clean
  | unary _ e => e.clean
  | binary _ l r => l.clean && r.clean
  | call f args => f.clean && allOk args
  | autoArray f => f.clean
  | array f len => f.clean && (!len.isParen && len.clean)

/-- The arguments of a call are no parenthesised expressions, and clean. -/
def allOk : List Concrete → Bool
  | [] => true
  | a :: as => (!a.isParen && a.clean) && allOk as

end

/-- No expression of the statement, of its lists and parentheses, is one parenthesised
expression. -/
def groupOk (c : Concrete) : Bool := !c.isParen && c.clean

mutual

/-- The tokens of an expression. -/
def tokens : Concrete → List Token
  | num v => [.num v]
  | var x => [.word x]
  | field kw => [.sym kw.1]
  | paren e => .sym .parenOpen :: (e.tokens ++ [.sym .parenClose])
  | unary o e => .sym o.sym :: e.tokens
  | binary o l r => l.tokens ++ .sym o.sym :: r.tokens
  | call f args => f.tokens ++ .sym .parenOpen :: (argTokens args ++ [.sym .parenClose])
  | autoArray f => f.tokens ++ [.sym .squareOpen, .sym .squareClose]
  | array f len => f.tokens ++ .sym .squareOpen :: (len.tokens ++ [.sym .squareClose])

/-- The arguments of a call, with commas between them. -/
def argTokens : List Concrete → List Token
  | [] => []
  | a :: as => a.tokens ++ moreTokens as

/-- Arguments after the first. -/
def moreTokens : List Concrete → List Token
  | [] => []
  | a :: as => .sym .comma :: (a.tokens ++ moreTokens as)

end

/-- A statement: the expression and a newline. -/
def print (c : Concrete) : List Token := c.tokens ++ [.sym .nl]

mutual

/-- The nodes of the group of an expression. -/
def nodes : Concrete → List GroupingNode
  | num v => [.token (.num v)]
  | var x => [.token (.word x)]
  | field kw => [.token (.sym kw.1)]
  | paren e => [.list .paren [.expr e.nodes]]
  | unary o e => .token (.sym o.sym) :: e.nodes
  | binary o l r => l.nodes ++ .token (.sym o.sym) :: r.nodes
  | call f args => f.nodes ++ [.list .paren (groups args)]
  | autoArray f => f.nodes ++ [.list .square []]
  | array f len => f.nodes ++ [.list .square [.expr len.nodes]]

/-- The groups of the arguments of a call. -/
def groups : List Concrete → List GroupingNode
  | [] => []
  | a :: as => .expr a.nodes :: groups as

end

theorem nodes_ne_nil : ∀ c : Concrete, c.nodes ≠ []
  | num _ | var _ | field _ | paren _ | unary .. => by simp [nodes]
  | binary .. | call .. | autoArray _ | array .. => by simp [nodes]

end Concrete

namespace GroupState

/-- `push` for some nodes in turn. -/
def pushAll (s : GroupState) (ns : List GroupingNode) : GroupState :=
  match s.frames with
  | [] => { s with cur := s.cur ++ ns }
  | f :: fs => { s with frames := { f with cur := f.cur ++ ns } :: fs }

theorem push_eq (s : GroupState) (n : GroupingNode) : s.push n = s.pushAll [n] := rfl

theorem pushAll_pushAll (s : GroupState) (xs ys : List GroupingNode) :
    (s.pushAll xs).pushAll ys = s.pushAll (xs ++ ys) := by
  unfold pushAll
  cases s.frames with
  | nil => simp
  | cons f fs => simp

end GroupState

/-- A symbol that the grouper takes for a part of an expression. -/
def Symbol.isPlain (y : Symbol) : Bool :=
  match y with
  | .nl | .comma | .parenOpen | .parenClose | .curlyOpen | .curlyClose | .squareOpen
  | .squareClose => false
  | _ => true

theorem groupStep_plain {y : Symbol} (h : y.isPlain = true) (s : GroupState) :
    groupStep s (.sym y) = .ok (s.pushAll [.token (.sym y)]) := by
  have hopen : ListType.ofOpen y = none := by cases y <;> first | rfl | cases h
  have hclose : ∀ t : ListType, y ≠ t.closeSym := by
    rintro t rfl
    cases t <;> cases h
  have hcomma : y ≠ .comma := by
    rintro rfl
    cases h
  have hnl : y ≠ .nl := by
    rintro rfl
    cases h
  rw [← GroupState.push_eq]
  unfold groupStep
  dsimp only
  split
  · simp only [hclose, hopen, ListType.sep, hcomma, hnl, if_false]
  · simp only [hopen, hnl, if_false]

theorem groupStep_open (t : ListType) (s : GroupState) :
    groupStep s (.sym t.openSym) = .ok (s.enter t) := by
  unfold groupStep
  dsimp only
  split
  · rename_i f fs hf
    have hne : t.openSym ≠ f.type.closeSym := by
      cases t <;> cases f.type <;> decide
    rw [if_neg hne, ListType.ofOpen_openSym]
  · have hne : t.openSym ≠ .nl := by cases t <;> decide
    rw [if_neg hne, ListType.ofOpen_openSym]

theorem groupStep_close (t : ListType) (s : GroupState) (gs cur : List GroupingNode) :
    groupStep { s with frames := ⟨t, gs, cur⟩ :: s.frames } (.sym t.closeSym)
      = .ok (s.pushAll [(GroupFrame.mk t gs cur).close]) := by
  unfold groupStep
  simp only [if_true]
  rfl

theorem groupStep_comma (t : ListType) (s : GroupState) (gs : List GroupingNode)
    {cur : List GroupingNode} (h : cur ≠ []) :
    groupStep { s with frames := ⟨t, gs, cur⟩ :: s.frames } (.sym .comma)
      = .ok { s with frames := ⟨t, gs ++ [.expr cur], []⟩ :: s.frames } := by
  have hc : Symbol.comma ≠ t.closeSym := by cases t <;> decide
  have he : cur.isEmpty = false := by
    cases cur with
    | nil => exact absurd rfl h
    | cons => rfl
  unfold groupStep
  simp only [hc, if_false, ListType.ofOpen, ListType.sep, if_true, he, Bool.false_eq_true]
  rfl

theorem close_nil (t : ListType) (gs : List GroupingNode) :
    (GroupFrame.mk t gs []).close = .list t gs := rfl

theorem close_cons (t : ListType) (gs : List GroupingNode) {cur : List GroupingNode}
    (h : cur ≠ []) : (GroupFrame.mk t gs cur).close = .list t (gs ++ [.expr cur]) := by
  cases cur with
  | nil => exact absurd rfl h
  | cons => rfl

theorem BinaryOp.isPlain_sym (o : BinaryOp) : o.sym.isPlain = true := by cases o <;> rfl

theorem UnaryOp.isPlain_sym (o : UnaryOp) : o.sym.isPlain = true := by cases o <;> rfl

theorem isPlain_field (kw : FieldSym) : kw.1.isPlain = true := by
  have all : ∀ y ∈ builtinFieldSyms, y.isPlain = true := by decide
  exact all kw.1 kw.2

namespace Concrete

mutual

theorem group_tokens : ∀ (c : Concrete) (s : GroupState),
    c.tokens.foldlM groupStep s = .ok (s.pushAll c.nodes)
  | num _, _ | var _, _ => by
      rw [tokens, nodes]
      rfl
  | field kw, s => by
      rw [tokens, nodes, List.foldlM_cons, groupStep_plain (isPlain_field kw)]
      rfl
  | paren e, s => by
      rw [tokens, nodes, List.foldlM_cons, show Symbol.parenOpen = ListType.paren.openSym from rfl,
        groupStep_open, ok_bind, List.foldlM_append, group_tokens e, ok_bind, List.foldlM_cons]
      change (groupStep { s with frames := ⟨.paren, [], [] ++ e.nodes⟩ :: s.frames }
        (.sym ListType.paren.closeSym) >>= _) = _
      rw [groupStep_close, List.nil_append, close_cons _ _ e.nodes_ne_nil]
      rfl
  | unary o e, s => by
      rw [tokens, nodes, List.foldlM_cons, groupStep_plain o.isPlain_sym, ok_bind, group_tokens e,
        GroupState.pushAll_pushAll]
      rfl
  | binary o l r, s => by
      rw [tokens, nodes, List.foldlM_append, group_tokens l, ok_bind, List.foldlM_cons,
        groupStep_plain o.isPlain_sym, ok_bind, group_tokens r, GroupState.pushAll_pushAll,
        GroupState.pushAll_pushAll]
      rfl
  | call f args, s => by
      rw [tokens, nodes, List.foldlM_append, group_tokens f, ok_bind, List.foldlM_cons,
        show Symbol.parenOpen = ListType.paren.openSym from rfl, groupStep_open, ok_bind,
        group_args args, GroupState.pushAll_pushAll]
  | autoArray f, s => by
      rw [tokens, nodes, List.foldlM_append, group_tokens f, ok_bind, List.foldlM_cons,
        show Symbol.squareOpen = ListType.square.openSym from rfl, groupStep_open, ok_bind,
        List.foldlM_cons]
      change (groupStep { s.pushAll f.nodes with
        frames := ⟨.square, [], []⟩ :: (s.pushAll f.nodes).frames }
        (.sym ListType.square.closeSym) >>= _) = _
      rw [groupStep_close, close_nil, GroupState.pushAll_pushAll]
      rfl
  | array f len, s => by
      rw [tokens, nodes, List.foldlM_append, group_tokens f, ok_bind, List.foldlM_cons,
        show Symbol.squareOpen = ListType.square.openSym from rfl, groupStep_open, ok_bind,
        List.foldlM_append, group_tokens len, ok_bind, List.foldlM_cons]
      change (groupStep { s.pushAll f.nodes with
        frames := ⟨.square, [], [] ++ len.nodes⟩ :: (s.pushAll f.nodes).frames }
        (.sym ListType.square.closeSym) >>= _) = _
      rw [groupStep_close, List.nil_append, close_cons _ _ len.nodes_ne_nil,
        GroupState.pushAll_pushAll]
      rfl

theorem group_args : ∀ (args : List Concrete) (s : GroupState),
    (argTokens args ++ [Token.sym .parenClose]).foldlM groupStep (s.enter .paren)
      = .ok (s.pushAll [.list .paren (groups args)])
  | [], s => by
      rw [argTokens, groups, List.nil_append, List.foldlM_cons]
      change (groupStep { s with frames := ⟨.paren, [], []⟩ :: s.frames }
        (.sym ListType.paren.closeSym) >>= _) = _
      rw [groupStep_close, close_nil]
      rfl
  | a :: as, s => by
      rw [argTokens, groups, List.append_assoc, List.foldlM_append, group_tokens a, ok_bind]
      exact group_more as s [] a.nodes_ne_nil

theorem group_more : ∀ (args : List Concrete) (s : GroupState) (gs : List GroupingNode)
    {cur : List GroupingNode}, cur ≠ [] →
    (moreTokens args ++ [Token.sym .parenClose]).foldlM groupStep
        { s with frames := ⟨.paren, gs, cur⟩ :: s.frames }
      = .ok (s.pushAll [.list .paren (gs ++ .expr cur :: groups args)])
  | [], s, gs, cur, h => by
      rw [moreTokens, groups, List.nil_append, List.foldlM_cons,
        show Symbol.parenClose = ListType.paren.closeSym from rfl, groupStep_close,
        close_cons _ _ h]
      rfl
  | a :: as, s, gs, cur, h => by
      rw [moreTokens, groups, List.cons_append, List.foldlM_cons, groupStep_comma _ _ _ h, ok_bind,
        List.append_assoc, List.foldlM_append, group_tokens a, ok_bind]
      have hmore := group_more as s (gs ++ [.expr cur]) a.nodes_ne_nil
      rw [List.append_assoc] at hmore
      exact hmore

end

theorem group_print (c : Concrete) : group c.print = .ok [.expr c.nodes] := by
  have he : c.nodes.isEmpty = false := by
    cases hn : c.nodes with
    | nil => exact absurd hn c.nodes_ne_nil
    | cons => rfl
  unfold group print
  rw [List.foldlM_append, group_tokens, ok_bind, List.foldlM_cons]
  have hnl : groupStep (GroupState.empty.pushAll c.nodes) (.sym .nl)
      = .ok ⟨[.expr c.nodes], [], []⟩ := by
    simp [groupStep, GroupState.pushAll, GroupState.empty, he]
  rw [hnl]
  rfl

/-! ## Minimal parentheses -/

/-- Parentheses unless the condition holds. -/
def wrapUnless (p : Prop) [Decidable p] (c : Concrete) : Concrete :=
  if p then c else paren c

mutual

/-- The same tree with no more parentheses than `Fits` wants. -/
def minimal : Concrete → Concrete
  | num v => num v
  | var x => var x
  | field kw => field kw
  | paren e => e.minimal
  | unary o e => unary o (wrapUnless (Precedence.unary.fitsRight e.minimal.level) e.minimal)
  | binary o l r =>
      binary o (wrapUnless (o.precedence.fitsLeft l.minimal.level) l.minimal)
        (wrapUnless (o.precedence.fitsRight r.minimal.level) r.minimal)
  | call f args =>
      call (wrapUnless (Precedence.access.fitsLeft f.minimal.level) f.minimal) (minimals args)
  | autoArray f => autoArray (wrapUnless (Precedence.access.fitsLeft f.minimal.level) f.minimal)
  | array f len =>
      array (wrapUnless (Precedence.access.fitsLeft f.minimal.level) f.minimal) len.minimal

/-- `minimal` for the arguments of a call. -/
def minimals : List Concrete → List Concrete
  | [] => []
  | a :: as => a.minimal :: minimals as

end

theorem tree_wrapUnless (p : Prop) [Decidable p] (c : Concrete) :
    (wrapUnless p c).tree = c.tree := by
  unfold wrapUnless
  split
  · rfl
  · rw [tree]

mutual

theorem tree_minimal : ∀ c : Concrete, c.minimal.tree = c.tree
  | num _ | var _ | field _ => by rw [minimal]
  | paren e => by rw [minimal, tree, tree_minimal e]
  | unary o e => by rw [minimal, tree, tree, tree_wrapUnless, tree_minimal e]
  | binary o l r => by
      rw [minimal, tree, tree, tree_wrapUnless, tree_wrapUnless, tree_minimal l, tree_minimal r]
  | call f args => by
      rw [minimal, tree, tree, tree_wrapUnless, tree_minimal f, trees_minimals args]
  | autoArray f => by rw [minimal, tree, tree, tree_wrapUnless, tree_minimal f]
  | array f len => by
      rw [minimal, tree, tree, tree_wrapUnless, tree_minimal f, tree_minimal len]

theorem trees_minimals : ∀ cs : List Concrete, trees (minimals cs) = trees cs
  | [] => by rw [minimals]
  | c :: cs => by rw [minimals, trees, trees, tree_minimal c, trees_minimals cs]

end

theorem isParen_minimal : ∀ c : Concrete, c.minimal.isParen = false
  | paren e => by
      rw [minimal]
      exact isParen_minimal e
  | num _ | var _ | field _ | unary .. | binary .. | call .. | autoArray _ | array .. => by
      rw [minimal]
      rfl

theorem wrapUnless_fits {p : Nat → Prop} [DecidablePred p] {c : Concrete} (hp : p 0)
    (hf : c.Fits) : (wrapUnless (p c.level) c).Fits ∧ p (wrapUnless (p c.level) c).level := by
  unfold wrapUnless
  split
  · exact ⟨hf, ‹_›⟩
  · exact ⟨by rwa [Fits], hp⟩

theorem clean_wrapUnless (p : Prop) [Decidable p] {c : Concrete} (hp : c.isParen = false)
    (hc : c.clean = true) : (wrapUnless p c).clean = true := by
  unfold wrapUnless
  split
  · exact hc
  · rw [clean, hp, hc]
    rfl

theorem access_fitsLeft_zero : Precedence.access.fitsLeft 0 := Precedence.fitsLeft_zero (by decide)

mutual

theorem minimal_fits : ∀ c : Concrete, c.minimal.Fits
  | num _ | var _ | field _ => by
      rw [minimal, Fits]
      trivial
  | paren e => by
      rw [minimal]
      exact minimal_fits e
  | unary o e => by
      rw [minimal, Fits]
      exact wrapUnless_fits (p := Precedence.unary.fitsRight)
        (Precedence.fitsRight_zero (by decide)) (minimal_fits e)
  | binary o l r => by
      rw [minimal, Fits]
      have hl := wrapUnless_fits (p := o.precedence.fitsLeft)
        (Precedence.fitsLeft_zero o.rank_pos) (minimal_fits l)
      have hr := wrapUnless_fits (p := o.precedence.fitsRight)
        (Precedence.fitsRight_zero o.rank_pos) (minimal_fits r)
      exact ⟨hl.1, hr.1, hl.2, hr.2⟩
  | call f args => by
      rw [minimal, Fits]
      have hf := wrapUnless_fits (p := Precedence.access.fitsLeft) access_fitsLeft_zero
        (minimal_fits f)
      exact ⟨hf.1, hf.2, minimals_fit args⟩
  | autoArray f => by
      rw [minimal, Fits]
      exact wrapUnless_fits (p := Precedence.access.fitsLeft) access_fitsLeft_zero (minimal_fits f)
  | array f len => by
      rw [minimal, Fits]
      have hf := wrapUnless_fits (p := Precedence.access.fitsLeft) access_fitsLeft_zero
        (minimal_fits f)
      exact ⟨hf.1, hf.2, minimal_fits len⟩

theorem minimals_fit : ∀ cs : List Concrete, AllFit (minimals cs)
  | [] => by
      rw [minimals, AllFit]
      trivial
  | c :: cs => by
      rw [minimals, AllFit]
      exact ⟨minimal_fits c, minimals_fit cs⟩

end

mutual

theorem clean_minimal : ∀ c : Concrete, c.minimal.clean = true
  | num _ | var _ | field _ => by rw [minimal, clean]
  | paren e => by
      rw [minimal]
      exact clean_minimal e
  | unary o e => by
      rw [minimal, clean]
      exact clean_wrapUnless _ (isParen_minimal e) (clean_minimal e)
  | binary o l r => by
      rw [minimal, clean, clean_wrapUnless _ (isParen_minimal l) (clean_minimal l),
        clean_wrapUnless _ (isParen_minimal r) (clean_minimal r)]
      rfl
  | call f args => by
      rw [minimal, clean, clean_wrapUnless _ (isParen_minimal f) (clean_minimal f),
        allOk_minimals args]
      rfl
  | autoArray f => by
      rw [minimal, clean]
      exact clean_wrapUnless _ (isParen_minimal f) (clean_minimal f)
  | array f len => by
      rw [minimal, clean, clean_wrapUnless _ (isParen_minimal f) (clean_minimal f),
        isParen_minimal len, clean_minimal len]
      rfl

theorem allOk_minimals : ∀ cs : List Concrete, allOk (minimals cs) = true
  | [] => by rw [minimals, allOk]
  | c :: cs => by
      rw [minimals, allOk, isParen_minimal c, clean_minimal c, allOk_minimals cs]
      rfl

end

theorem minimal_groupOk (c : Concrete) : c.minimal.groupOk = true := by
  rw [groupOk, isParen_minimal, clean_minimal]
  rfl

end Concrete

end OpenZL.Sddl2.Compiler
