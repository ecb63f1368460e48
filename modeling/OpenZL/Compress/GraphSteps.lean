import Mathlib.Logic.Relation
import OpenZL.Compress.Frame

/-!
# What a run that succeeds has done

A run that ends well, with whatever it has undone on the way, leaves the graph as a sequence of
codecs that have run to their end and of streams stored, protected and freed would leave it.

Principal results: `Extends.layout`, `Extends.guardSlots`, `Extends.clearSlots`.
-/

namespace OpenZL.Compress

open OpenZL.Lib Relation

variable {ρ : Type}

/-- A command of the engine that changes the graph `g`, and succeeds. -/
inductive GraphStep (E : Engine ρ) (g : RTGraph) : RTGraph → Prop
  | runCNode {nodeid : NodeID} {cnode : CNode} {codec : Option ρ → Codec} {localParams : Option ρ}
      {rtsids : List Nat} {out : Nat × Nat} {g' : RTGraph} :
      E.nodes nodeid = some (cnode, codec) → rtsids ≠ [] →
      Compress.runCNode E.formatVersion (codec localParams) cnode rtsids g = some (.ok out, g') →
      GraphStep E g g'
  | storeStream {rtsid : Nat} : g.Alive rtsid →
      GraphStep E g ⟨g.nodes, g.streams.modify rtsid ({ · with toStore := true })⟩
  | guardRTStream (protectRank rtsid : Nat) :
      GraphStep E g ⟨g.nodes, g.streams.modify rtsid (guardSlot protectRank)⟩
  | clearRTStream (protectRank rtsid : Nat) :
      GraphStep E g ⟨g.nodes, g.streams.modify rtsid (RTGM.clearSlot protectRank)⟩

/-- `g` is `base` after some commands that have succeeded. -/
def Extends (E : Engine ρ) (base g : RTGraph) : Prop := ReflTransGen (GraphStep E) base g

namespace Extends

variable {E : Engine ρ} {base g g' : RTGraph}

theorem refl (E : Engine ρ) (g : RTGraph) : Extends E g g := ReflTransGen.refl

theorem trans (h : Extends E base g) (h' : Extends E g g') : Extends E base g' :=
  ReflTransGen.trans h h'

theorem tail (h : Extends E base g) (hstep : GraphStep E g g') : Extends E base g' :=
  ReflTransGen.tail h hstep

theorem guardSlots (protectRank : Nat) (rtsids : List Nat) (g : RTGraph) :
    Extends E g ⟨g.nodes, Compress.guardSlots protectRank rtsids g.streams⟩ := by
  induction rtsids generalizing g with
  | nil => exact refl E g
  | cons rtsid rtsids ih =>
    exact ((refl E g).tail (.guardRTStream protectRank rtsid)).trans
      (ih ⟨g.nodes, g.streams.modify rtsid (guardSlot protectRank)⟩)

theorem clearSlots (protectRank : Nat) (rtsids : List Nat) (g : RTGraph) :
    Extends E g ⟨g.nodes, Compress.clearSlots protectRank rtsids g.streams⟩ := by
  induction rtsids generalizing g with
  | nil => exact refl E g
  | cons rtsid rtsids ih =>
    exact ((refl E g).tail (.clearRTStream protectRank rtsid)).trans
      (ih ⟨g.nodes, g.streams.modify rtsid (RTGM.clearSlot protectRank)⟩)

/-- **Nodes stay laid out** one behind the other. -/
theorem layout (h : Extends E base g) {ins : List Data}
    (hbase : Layout E.formatVersion ins base) : Layout E.formatVersion ins g := by
  induction h with
  | refl => exact hbase
  | tail _ hstep ih =>
    cases hstep with
    | runCNode _ hne hrun =>
      rcases runCNode_some hrun with ⟨_, hr, -⟩ | ⟨node, tail, -, hnode⟩
      · cases hr
      · exact ih.runCNode hne hnode
    | storeStream halive => exact ih.storeStream halive
    | guardRTStream protectRank rtsid => exact ih.guardRTStream protectRank rtsid
    | clearRTStream protectRank rtsid => exact ih.clearRTStream protectRank rtsid

end Extends

theorem runNodeID_step {E : Engine ρ} {nodeid : NodeID} {localParams : Option ρ}
    {rtsids : List Nat} {g g' : RTGraph} {out : Nat × Nat} (hne : rtsids ≠ [])
    (h : GraphCtx.runNodeID E rtsids nodeid localParams g = some (.ok out, g')) :
    GraphStep E g g' := by
  unfold GraphCtx.runNodeID at h
  split at h
  · cases h
  · rename_i cnode codec hnode
    exact .runCNode hnode hne h

end OpenZL.Compress
