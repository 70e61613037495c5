import AdventureLogic.BlockGraph.Discovery
import AdventureLogic.Proofs.Behaviour.Blocks

/-!
# Leaving branches open changes no run

A branch that leads to the merge point of its block may be left open. The edge
stays, so where control can go does not change, and neither does the
post-dominator tree: the open branch still leads to the block it named.

Key definition: `Graph.SameShape`. Key theorems: `Graph.SameShape.dominators_eq`,
`BlockGraph.postDominators_openBranches`, `BlockGraph.ofGraph_openBranches`.
-/

namespace AdventureLogic

namespace Graph

/-- Graphs with the same root, nodes, edges and names. -/
structure SameShape (g h : Graph) : Prop where
  root : g.root = h.root
  size : g.size = h.size
  successors : g.successors = h.successors
  predecessors : g.predecessors = h.predecessors
  identity : g.identity = h.identity

theorem walkFrom_congr {g h : Graph} (hs : g.successors = h.successors)
    (unvisited : Std.TreeSet NodeId) (stack : List Visit) :
    g.walkFrom unvisited stack = h.walkFrom unvisited stack := by
  have hfan : g.fanOut = h.fanOut := by
    funext unvisited n
    simp only [fanOut, hs]
  fun_induction walkFrom g unvisited stack with
  | case1 => rw [walkFrom]
  | case2 unvisited v stack hv left ih => rw [walkFrom, if_pos hv, ih, hfan]
  | case3 unvisited v stack hv ih => rw [walkFrom, if_neg hv, ih]

namespace SameShape

variable {g h : Graph}

theorem walk_eq (hs : SameShape g h) : g.walk = h.walk := by
  rw [walk, walk, nodes, nodes, hs.size, hs.root, walkFrom_congr hs.successors]

open Dominance Numbering in
theorem settleDown_eq (hs : SameShape g h) (d : Numbering) (f : Forest) (n : Nat) :
    d.settleDown g f n = d.settleDown h f n := by
  induction n generalizing f with
  | zero => rfl
  | succ n ih =>
    have hsettle : d.settle g f (n + 1) = d.settle h f (n + 1) := by
      rw [settle, settle, Numbering.predecessors, Numbering.predecessors, hs.predecessors]
    rw [settleDown, settleDown, hsettle, ih]

/-- **The dominator tree depends on the shape only.** -/
theorem dominators_eq (hs : SameShape g h) : g.dominators = h.dominators := by
  have hnumbering : Dominance.Numbering.ofGraph g = Dominance.Numbering.ofGraph h := by
    simp only [Dominance.Numbering.ofGraph, hs.walk_eq]
  have hidom : ∀ d : Dominance.Numbering, d.immediateDominators g = d.immediateDominators h := by
    intro d
    rw [Dominance.Numbering.immediateDominators, Dominance.Numbering.immediateDominators,
      Dominance.Numbering.semidominators, Dominance.Numbering.semidominators, hs.settleDown_eq]
  simp only [dominators, hnumbering, hidom, nodes, hs.root, hs.size, hs.identity]

/-- Graphs of the same shape have reversals of the same shape. -/
theorem reversed (hs : SameShape g h) : SameShape g.reversed h.reversed := by
  obtain ⟨root, size, successors, predecessors, identity, _, _⟩ := g
  obtain ⟨_, _, _, _, _, _, _⟩ := h
  obtain ⟨rfl, rfl, rfl, rfl, rfl⟩ := hs
  exact ⟨rfl, rfl, rfl, rfl, rfl⟩

theorem postDominators_eq (hs : SameShape g h) : g.postDominators = h.postDominators :=
  hs.reversed.dominators_eq

end SameShape
end Graph

namespace BlockGraph

/-- Leaving the branch of an entry without extra edges open does not change where control can
go. -/
theorem successors_openBranch (tree : DominatorTree) (n : BlockId) {e : BlockEntry}
    (he : e.extra = []) : (openBranch tree n e).successors = e.successors := by
  unfold openBranch
  split
  · rename_i clauses yes no hexit
    split
    · rename_i merge _
      split
      · simp only [BlockEntry.successors, BlockEntry.addEdge, BlockEntry.join, Block.exitTargets,
          hexit, he]
        cases yes with
        | none => simp [BlockEntry.join]
        | some m =>
          by_cases hm : m = no
          · simp [BlockEntry.dropRepeats, BlockEntry.join, hm]
          · simp [BlockEntry.join, Ne.symm hm]
      · rfl
    · rfl
  · rfl

/-- A graph without extra edges, in which named branches lead to blocks. -/
structure Plain (g : BlockGraph) : Prop where
  extra : ∀ (n : BlockId) (e : BlockEntry), g.entries[n]? = some e → e.extra = []
  named : ∀ (n : BlockId) (b : Block), g.block? n = some b → ∀ clauses yes no, b.exit = .branch clauses yes (some no) →
    no < g.size

theorem getElem?_openBranches (g : BlockGraph) (n : BlockId) :
    g.openBranches.entries[n]? = g.entries[n]?.map (openBranch g.postDominators n) :=
  Array.getElem?_mapIdx

theorem size_openBranches (g : BlockGraph) : g.openBranches.size = g.size := Array.size_mapIdx

theorem successors_openBranches {g : BlockGraph} (hg : g.Plain) (n : BlockId) :
    g.openBranches.successors n = g.successors n := by
  rw [successors, successors, getElem?_openBranches]
  cases he : g.entries[n]? with
  | none => rfl
  | some e => exact successors_openBranch _ n (hg.extra n e he)

/-- **Leaving branches open does not change the post-dominator tree.** -/
theorem postDominators_openBranches {g : BlockGraph} (hg : g.Plain) :
    g.openBranches.postDominators = g.postDominators := by
  have hmap : g.openBranches.entries.map BlockEntry.successors =
      g.entries.map BlockEntry.successors := by
    refine Array.ext_getElem? fun n => ?_
    rw [Array.getElem?_map, Array.getElem?_map, getElem?_openBranches]
    cases he : g.entries[n]? with
    | none => rfl
    | some e => exact congrArg some (successors_openBranch _ n (hg.extra n e he))
  refine Graph.SameShape.postDominators_eq ⟨rfl, g.size_openBranches, ?_, ?_, rfl⟩
  · simp only [toGraph, hmap]
  · simp only [toGraph, numberedSuccessors, hmap, size_openBranches]

theorem block?_openBranches (g : BlockGraph) (n : BlockId) :
    g.openBranches.block? n =
      g.entries[n]?.map fun e => (openBranch g.postDominators n e).block := by
  rw [block?, getElem?_openBranches, Option.map_map]
  rfl

theorem commands_openBranch (tree : DominatorTree) (n : BlockId) (e : BlockEntry) :
    (openBranch tree n e).block.commands = e.block.commands := by
  unfold openBranch
  split
  · split
    · split <;> rfl
    · rfl
  · rfl

/-- An open branch shows what it showed before. -/
theorem effects_openBranch (tree : DominatorTree) (n : BlockId) (e : BlockEntry) :
    (openBranch tree n e).block.effects = e.block.effects := by
  unfold openBranch
  split
  · rename_i clauses yes no hexit
    split
    · split
      · simp only [Block.effects, BlockEntry.block_addEdge, hexit]
      · rfl
    · rfl
  · rfl

theorem exists_block?_of_openBranches {g : BlockGraph} {n : BlockId} {b : Block}
    (h : g.openBranches.block? n = some b) : ∃ b', g.block? n = some b' ∧ b'.effects = b.effects := by
  rw [block?_openBranches] at h
  obtain ⟨e, he, rfl⟩ := Option.map_eq_some_iff.1 h
  exact ⟨e.block, by rw [block?, he]; rfl, (effects_openBranch _ n e).symm⟩

theorem enter_openBranches (g : BlockGraph) (n : BlockId) :
    g.openBranches.enter n = g.enter n := by
  rw [enter, enter, block?_openBranches, block?]
  cases g.entries[n]? with
  | none => rfl
  | some e => exact congrArg (Place.inside n) (commands_openBranch _ n e)

theorem mergePoint_openBranches {g : BlockGraph} (hg : g.Plain) (n : BlockId) :
    Layout.mergePoint g.openBranches g.openBranches.postDominators n =
      Layout.mergePoint g g.postDominators n := by
  rw [postDominators_openBranches hg, Layout.mergePoint, Layout.mergePoint, exitNode, exitNode,
    size_openBranches]

theorem branchPlace_openBranches {g : BlockGraph} (hg : g.Plain) (n : BlockId)
    (named : Option BlockId) : g.openBranches.branchPlace n named = g.branchPlace n named := by
  have henter : g.openBranches.enter = g.enter := funext g.enter_openBranches
  rw [branchPlace, branchPlace, mergePoint_openBranches hg, henter]

/-- A branch is left open only if it leads to the merge point. -/
theorem exit_openBranch {g : BlockGraph} (hg : g.Plain) {n : BlockId} {e : BlockEntry}
    (he : g.entries[n]? = some e) :
    (openBranch g.postDominators n e).block.exit = e.block.exit ∨
      ∃ clauses yes no, e.block.exit = .branch clauses yes (some no) ∧
        (openBranch g.postDominators n e).block.exit = .branch clauses yes none ∧
        Layout.mergePoint g g.postDominators n = some no := by
  unfold openBranch
  split
  · rename_i clauses yes no hexit
    split
    · rename_i merge htree
      split
      · rename_i hmerge
        subst hmerge
        have hlt : merge < g.size :=
          hg.named n e.block (by rw [block?, he]; rfl) clauses yes merge hexit
        refine .inr ⟨clauses, yes, merge, hexit, rfl, ?_⟩
        rw [Layout.mergePoint, htree]
        exact if_neg (Nat.ne_of_lt hlt)
      · exact .inl rfl
    · exact .inl rfl
  · exact .inl rfl

/-- An open branch leads to the block that it named. -/
theorem exitMove_openBranch {g : BlockGraph} (hg : g.Plain) {n : BlockId} {e : BlockEntry}
    (he : g.entries[n]? = some e) :
    g.exitMove n (openBranch g.postDominators n e).block.exit = g.exitMove n e.block.exit := by
  rcases exit_openBranch hg he with hsame | ⟨clauses, yes, no, hexit, hopen, hmerge⟩
  · rw [hsame]
  · have hplace : g.branchPlace n none = g.branchPlace n (some no) := by
      rw [branchPlace, branchPlace, hmerge]
      rfl
    rw [hopen, hexit, exitMove, exitMove, hplace]

/-- **Leaving branches open changes no run.** -/
theorem ofGraph_openBranches {g : BlockGraph} (hg : g.Plain) :
    Machine.ofGraph g.openBranches = Machine.ofGraph g := by
  have hexit : ∀ n, g.openBranches.exitMove n = g.exitMove n := by
    intro n
    funext exit
    cases exit with
    | single next =>
      cases next with
      | none => rfl
      | some m => rw [exitMove, exitMove, enter_openBranches]
    | branch clauses yes no => simp only [exitMove, branchPlace_openBranches hg]
  have hmove : (Machine.ofGraph g.openBranches).move = (Machine.ofGraph g).move := by
    funext place
    cases place with
    | nowhere => rfl
    | inside n left =>
      cases left with
      | cons c left => rfl
      | nil =>
        simp only [Machine.ofGraph, hexit, block?, getElem?_openBranches]
        cases he : g.entries[n]? with
        | none => rfl
        | some e => exact exitMove_openBranch hg he
  exact Machine.ext (g.enter_openBranches g.root) hmove

end BlockGraph
end AdventureLogic
