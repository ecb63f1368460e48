import Mathlib.Algebra.GroupWithZero.Nat
import OpenZL.Sddl2.Compiler.Parser

/-!
# SDDL2 compiler: the parser ends

The loop of `parse_expr` needs at most four passes for each of its nodes, and the groups of a
token list hold no more nodes than the list has tokens.

Principal results: `weights_group`, `parse_ends`.
-/

namespace OpenZL.Sddl2.Compiler

open OpenZL.Lib

variable {passes : Nat}

theorem positions_locate (asts : List AST) : positions (locate asts) = List.range asts.length := by
  unfold positions locate
  rw [List.map_map, List.range_eq_range']
  exact List.zipIdx_map_snd 0 asts

theorem findOps_mem : ∀ {nodes : List Node} {ops : List PendingOp},
    findOps nodes = .ok ops → ∀ p ∈ ops, p.pos ∈ positions nodes
  | [], _, h, p, hp => by
      cases h
      cases hp
  | (i, a) :: ns, ops, h, p, hp => by
      obtain ⟨rules, hr, h⟩ := bind_eq_ok.1 h
      obtain ⟨rest, hrest, h⟩ := bind_eq_ok.1 h
      cases h
      rw [positions_cons, List.mem_cons]
      rcases List.mem_append.1 hp with hp | hp
      · obtain ⟨rule, -, rfl⟩ := List.mem_map.1 hp
        exact .inl rfl
      · exact .inr (findOps_mem hrest p hp)

theorem rulesOf_thrown (a : AST) : FailsOnly Error.Thrown (rulesOf a) := by
  unfold rulesOf
  split
  · unfold symToRules
    split
    · exact .error (by simp [Error.Thrown])
    · exact .ok _
  · exact .ok _
  · exact .ok _

theorem findOps_thrown : ∀ nodes : List Node, FailsOnly Error.Thrown (findOps nodes)
  | [] => .ok _
  | (_, a) :: ns => .bind (rulesOf_thrown a) fun _ _ => .bind (findOps_thrown ns) fun _ _ => .ok _

/-- The computation ends, with a value or with one of the exceptions of the source. -/
def Parsed.Ends {α : Type} (x : Parsed α) : Prop :=
  ∃ r : Except Error α, x.run = some r ∧ FailsOnly Error.Thrown r

namespace Parsed.Ends

variable {α β : Type}

theorem pure (a : α) : Ends (Pure.pure a : Parsed α) := ⟨.ok a, rfl, .ok a⟩

theorem throw {e : Error} (h : e.Thrown) : Ends (throw e : Parsed α) := ⟨.error e, rfl, .error h⟩

theorem bind {x : Parsed α} {f : α → Parsed β} (hx : Ends x)
    (hf : ∀ a, x.run = some (.ok a) → Ends (f a)) : Ends (x >>= f) := by
  obtain ⟨r, hr, hfail⟩ := hx
  change ∃ r, (x.run >>= ExceptT.bindCont f) = some r ∧ _
  rw [hr]
  cases r with
  | error e => exact ⟨.error e, rfl, .error (hfail e rfl)⟩
  | ok a => exact hf a hr

end Parsed.Ends

theorem parseExpr_ends {asts : List AST} (h : 4 * asts.length + 1 ≤ passes) :
    (parseExpr passes asts).Ends := by
  unfold parseExpr
  split
  · exact .throw (by simp [Error.Thrown])
  · split
    · rename_i e he
      exact .throw (findOps_thrown _ e he)
    · rename_i ops hops
      have hlen := length_findOps hops
      have hloc : (locate asts).length = asts.length := by simp [locate]
      have hsort : (ops.insertionSort PendingOp.le).length = ops.length :=
        List.length_insertionSort _ _
      have hlive : Live (locate asts) (ops.insertionSort PendingOp.le) := by
        refine ⟨?_, fun p hp => findOps_mem hops p ((List.mem_insertionSort _).1 hp)⟩
        rw [positions_locate]
        exact List.nodup_range
      have hsome : (applyRules passes false (locate asts)
          (ops.insertionSort PendingOp.le)).isSome := by
        refine applyRules_isSome ?_
        simp only [Bool.false_eq_true, if_false]
        omega
      obtain ⟨r, hr⟩ := Option.isSome_iff_exists.1 hsome
      refine .bind ⟨r, hr, applyRules_thrown hlive hr⟩ fun nodes _ => ?_
      refine ⟨soleNode nodes, rfl, ?_⟩
      unfold soleNode
      split
      · exact .ok _
      · exact .error (by simp [Error.Thrown])

mutual

/-- The tokens and lists of a group. -/
def GroupingNode.weight : GroupingNode → Nat
  | .token _ => 1
  | .list _ nodes => weights nodes + 1
  | .expr nodes => weights nodes

/-- The tokens and lists of some groups. -/
def weights : List GroupingNode → Nat
  | [] => 0
  | n :: ns => n.weight + weights ns

end

theorem run_bind_eq_ok {α β : Type} {x : Parsed α} {f : α → Parsed β} {b : β} :
    (x >>= f).run = some (.ok b) ↔ ∃ a, x.run = some (.ok a) ∧ (f a).run = some (.ok b) := by
  change (x.run >>= ExceptT.bindCont f) = _ ↔ _
  cases hx : x.run with
  | none => simp
  | some r =>
      cases r with
      | error e => simp [ExceptT.bindCont]
      | ok a => simp [ExceptT.bindCont, ExceptT.run]

theorem length_parseItems : ∀ {nodes : List GroupingNode} {asts : List AST},
    (parseItems passes nodes).run = some (.ok asts) → asts.length ≤ weights nodes
  | [], asts, h => by
      rw [parseItems] at h
      cases h
      exact Nat.zero_le _
  | n :: ns, asts, h => by
      rw [parseItems] at h
      obtain ⟨a, ha, h⟩ := run_bind_eq_ok.1 h
      obtain ⟨as, has, h⟩ := run_bind_eq_ok.1 h
      cases h
      have hn : 1 ≤ n.weight := by
        cases n with
        | token t => exact le_of_eq (by rw [GroupingNode.weight])
        | list type nodes =>
            rw [GroupingNode.weight]
            omega
        | expr nodes =>
            rw [parseItem] at ha
            cases ha
      have hns := length_parseItems has
      rw [List.length_cons, weights]
      omega

mutual

theorem parseItem_ends : ∀ n : GroupingNode, 4 * n.weight + 1 ≤ passes → (parseItem passes n).Ends
  | .token t, _ => by
      rw [parseItem]
      exact .pure _
  | .list type nodes, h => by
      rw [GroupingNode.weight] at h
      rw [parseItem]
      exact .bind (parseGroups_ends nodes (by omega)) fun _ _ => .pure _
  | .expr _, _ => by
      rw [parseItem]
      exact .throw (by simp [Error.Thrown])

theorem parseItems_ends : ∀ nodes : List GroupingNode,
    4 * weights nodes + 1 ≤ passes → (parseItems passes nodes).Ends
  | [], _ => by
      rw [parseItems]
      exact .pure _
  | n :: ns, h => by
      rw [weights] at h
      rw [parseItems]
      exact .bind (parseItem_ends n (by omega)) fun _ _ =>
        .bind (parseItems_ends ns (by omega)) fun _ _ => .pure _

theorem parseGroup_ends : ∀ n : GroupingNode, 4 * n.weight + 1 ≤ passes → (parseGroup passes n).Ends
  | .expr nodes, h => by
      rw [GroupingNode.weight] at h
      rw [parseGroup]
      refine .bind (parseItems_ends nodes h) fun asts hasts => parseExpr_ends ?_
      have := length_parseItems hasts
      omega
  | .token _, _ | .list _ _, _ => by
      simp only [parseGroup]
      exact .throw (by simp [Error.Thrown])

theorem parseGroups_ends : ∀ nodes : List GroupingNode,
    4 * weights nodes + 1 ≤ passes → (parseGroups passes nodes).Ends
  | [], _ => by
      rw [parseGroups]
      exact .pure _
  | n :: ns, h => by
      rw [weights] at h
      rw [parseGroups]
      exact .bind (parseGroup_ends n (by omega)) fun _ _ =>
        .bind (parseGroups_ends ns (by omega)) fun _ _ => .pure _

end

theorem weights_append : ∀ xs ys : List GroupingNode,
    weights (xs ++ ys) = weights xs + weights ys
  | [], ys => by simp [weights]
  | x :: xs, ys => by
      rw [List.cons_append, weights, weights, weights_append xs ys]
      omega

theorem weights_singleton (n : GroupingNode) : weights [n] = n.weight := by
  rw [weights, weights, Nat.add_zero]

/-- The tokens and lists of a list being read, with the list itself. -/
def GroupFrame.weight (f : GroupFrame) : Nat := weights f.groups + weights f.cur + 1

/-- The tokens and lists the grouper has read. -/
def GroupState.weight (s : GroupState) : Nat :=
  weights s.stmts + weights s.cur + (s.frames.map GroupFrame.weight).sum

theorem GroupFrame.weight_finish (f : GroupFrame) : f.finish.weight = f.weight := by
  simp only [GroupFrame.weight, GroupFrame.finish, weights_append, GroupingNode.weight, weights]
  omega

theorem GroupFrame.weight_close (f : GroupFrame) : f.close.weight = f.weight := by
  rw [GroupFrame.close, GroupingNode.weight]
  split
  · rename_i hc
    rw [GroupFrame.weight, List.isEmpty_iff.1 hc, weights, Nat.add_zero]
  · simp only [GroupFrame.weight, GroupFrame.finish, weights_append, weights_singleton,
      GroupingNode.weight]

theorem GroupState.weight_push (s : GroupState) (n : GroupingNode) :
    (s.push n).weight = s.weight + n.weight := by
  unfold GroupState.push
  split
  · rename_i hf
    simp only [GroupState.weight, weights_append, weights_singleton]
    omega
  · rename_i f fs hf
    simp only [GroupState.weight, GroupFrame.weight, hf, weights_append, weights_singleton,
      List.map_cons, List.sum_cons]
    omega

theorem weight_groupStep {s s' : GroupState} {t : Token} (h : groupStep s t = .ok s') :
    s'.weight ≤ s.weight + 1 := by
  have htoken : (GroupingNode.token t).weight = 1 := by rw [GroupingNode.weight]
  have henter : ∀ type, (s.enter type).weight = s.weight + 1 := by
    intro type
    simp only [GroupState.enter, GroupState.weight, List.map_cons, List.sum_cons,
      GroupFrame.weight, weights]
    omega
  unfold groupStep at h
  split at h
  · split at h
    · rename_i f fs hf
      have hs : s.weight = f.weight + GroupState.weight { s with frames := fs } := by
        simp only [GroupState.weight, hf, List.map_cons, List.sum_cons]
        omega
      split at h
      · cases h
        rw [GroupState.weight_push, GroupFrame.weight_close]
        omega
      · split at h
        · cases h
          exact le_of_eq (henter _)
        · split at h
          · split at h
            · cases h
            · cases h
              have hfin : GroupState.weight { s with frames := f.finish :: fs }
                  = f.finish.weight + GroupState.weight { s with frames := fs } := by
                simp only [GroupState.weight, List.map_cons, List.sum_cons]
                omega
              rw [hfin, GroupFrame.weight_finish]
              omega
          · split at h
            · cases h
              omega
            · cases h
              exact le_of_eq (by rw [GroupState.weight_push, htoken])
    · split at h
      · split at h
        · cases h
          omega
        · cases h
          simp only [GroupState.weight, weights_append, GroupingNode.weight, weights]
          omega
      · split at h
        · cases h
          exact le_of_eq (henter _)
        · cases h
          exact le_of_eq (by rw [GroupState.weight_push, htoken])
  · cases h
    exact le_of_eq (by rw [GroupState.weight_push, htoken])

theorem weight_groupSteps : ∀ {tokens : List Token} {s s' : GroupState},
    tokens.foldlM groupStep s = .ok s' → s'.weight ≤ s.weight + tokens.length
  | [], s, s', h => by
      cases h
      exact Nat.le_refl _
  | t :: ts, s, s', h => by
      rw [List.foldlM_cons] at h
      obtain ⟨s₁, h₁, h⟩ := bind_eq_ok.1 h
      have hone := weight_groupStep h₁
      have hrest := weight_groupSteps h
      rw [List.length_cons]
      omega

theorem weights_dropLast (xs : List GroupingNode) : weights xs.dropLast ≤ weights xs := by
  rcases List.eq_nil_or_concat xs with rfl | ⟨ys, y, rfl⟩
  · exact Nat.le_refl _
  · rw [List.concat_eq_append, List.dropLast_concat, weights_append]
    omega

theorem weights_group {tokens : List Token} {groups : List GroupingNode}
    (h : group tokens = .ok groups) : weights groups ≤ tokens.length := by
  obtain ⟨s, hs, h⟩ := bind_eq_ok.1 h
  have hw := weight_groupSteps hs
  rw [show GroupState.empty.weight = 0 from rfl, Nat.zero_add] at hw
  unfold groupEnd at h
  split at h
  · cases h
  · rename_i hf
    simp only [GroupState.weight, hf, List.map_nil, List.sum_nil] at hw
    cases h
    split
    · omega
    · have hdrop := weights_dropLast s.cur
      rw [weights_append, weights_singleton, GroupingNode.weight]
      omega

/-- The number of passes that the loops need on a token list of this length. -/
def passBound (tokens : List Token) : Nat := 4 * tokens.length + 1

theorem groupStep_thrown (s : GroupState) (t : Token) :
    FailsOnly Error.Thrown (groupStep s t) := by
  unfold groupStep
  split
  · split
    · split
      · exact .ok _
      · split
        · exact .ok _
        · split
          · split
            · exact .error (by simp [Error.Thrown])
            · exact .ok _
          · split <;> exact .ok _
    · split
      · split <;> exact .ok _
      · split <;> exact .ok _
  · exact .ok _

theorem groupSteps_thrown : ∀ (tokens : List Token) (s : GroupState),
    FailsOnly Error.Thrown (tokens.foldlM groupStep s)
  | [], s => .ok s
  | t :: ts, s => by
      rw [List.foldlM_cons]
      exact .bind (groupStep_thrown s t) fun s' _ => groupSteps_thrown ts s'

theorem groupEnd_thrown (s : GroupState) : FailsOnly Error.Thrown (groupEnd s) := by
  unfold groupEnd
  split
  · exact .error (by simp [Error.Thrown])
  · exact .ok _

/-- **Every finite token list is parsed to trees or an error.** No loop runs for more passes than
`passBound`, and none follows an iterator to an erased node. -/
theorem parse_ends {tokens : List Token} (h : passBound tokens ≤ passes) :
    (parse passes tokens).Ends := by
  unfold passBound at h
  unfold parse
  split
  · rename_i e he
    exact .throw ((FailsOnly.bind (groupSteps_thrown tokens .empty) fun s _ =>
      groupEnd_thrown s) e he)
  · rename_i groups hg
    have := weights_group hg
    exact .bind (parseGroups_ends groups (by omega)) fun _ _ => .pure _

end OpenZL.Sddl2.Compiler
