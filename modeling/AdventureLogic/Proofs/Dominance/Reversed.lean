import AdventureLogic.Layout.Fragment
import AdventureLogic.Proofs.Dominance.Tree

/-!
# The edges of reversed graphs

A block graph tells the same edges from both ends, and so does its reversal if
all edges lead to blocks that exist. What the post-dominator tree says then
follows from the paths of the reversal; in particular the merge point of a
block is a block.

Key theorems: `Graph.converse_reversed`, `BlockGraph.mem_predecessors`,
`Layout.mergePoint_lt_size`.
-/

namespace AdventureLogic

open Dominance

namespace Graph

/-- **Turning the edges round keeps them the same from both ends**, with the virtual exit on the
far side of every exit. -/
theorem converse_reversed {g : Graph} (hg : g.Converse)
    (hsuccessors : ∀ n < g.size, ∀ m ∈ g.successors n, m < g.size)
    (hpredecessors : ∀ n < g.size, ∀ m ∈ g.predecessors n, m < g.size) : g.reversed.Converse := by
  intro u v hu hv
  have hu : u < g.size + 1 := hu
  have hv : v < g.size + 1 := hv
  show v ∈ (if u = g.size then g.exits else g.predecessors u) ↔
    u ∈ if v = g.size then [] else g.successors v ++ if g.isExit v then [g.size] else []
  have hexits : ∀ n ∈ g.exits, n < g.size := fun n hn => by
    have hexit := mem_exits.1 hn
    simp only [isExit, contains, Bool.and_eq_true, decide_eq_true_eq] at hexit
    exact hexit.1
  by_cases hvexit : v = g.size
  · -- no edge leads to the virtual exit
    have hnot : v ∉ if u = g.size then g.exits else g.predecessors u := by
      by_cases huexit : u = g.size
      · rw [if_pos huexit]
        exact fun hmem => Nat.ne_of_lt (hexits v hmem) hvexit
      · rw [if_neg huexit]
        exact fun hmem => Nat.ne_of_lt (hpredecessors u (by omega) v hmem) hvexit
    rw [if_pos hvexit]
    exact iff_of_false hnot List.not_mem_nil
  · have hlt : v < g.size := by omega
    rw [if_neg hvexit, List.mem_append]
    by_cases huexit : u = g.size
    · have hnot : u ∉ g.successors v := fun hmem =>
        Nat.ne_of_lt (hsuccessors v hlt u hmem) huexit
      rw [if_pos huexit, mem_exits, or_iff_right hnot]
      by_cases hexit : g.isExit v <;> simp [hexit, huexit]
    · rw [if_neg huexit, ← hg v u hlt (by omega)]
      by_cases hexit : g.isExit v <;> simp [hexit, huexit]

/-- An immediate dominator is a node. -/
theorem lt_size_of_immediateDominator {g : Graph} (hg : g.Converse) {n m : NodeId}
    (h : g.dominators.immediateDominator n = .ok (some m)) : m < g.size := by
  by_cases hn : g.Reachable n
  · obtain ⟨w, hw⟩ := exists_number_iff.2 hn
    obtain ⟨hc, rfl⟩ := Numbering.number?_ofGraph.1 hw
    rw [immediateDominator_dominators hc] at h
    by_cases hzero : w = 0
    · rw [if_pos hzero] at h
      cases h
    · rw [if_neg hzero] at h
      cases h
      have hlt := idom_lt hg (Nat.pos_of_ne_zero hzero)
      exact Numbering.vertexOf_lt_size (by omega)
  · rw [DominatorTree.immediateDominator, number_of_not_reachable hn] at h
    cases h

end Graph

namespace BlockGraph

variable {g : BlockGraph}

theorem lt_size_of_mem_successors {m n : BlockId} (h : n ∈ g.successors m) : m < g.size := by
  by_cases hm : m < g.size
  · exact hm
  · rw [successors, Array.getElem?_eq_none (Nat.le_of_not_lt hm)] at h
    cases h

theorem numberedSuccessors_eq (g : BlockGraph) :
    g.numberedSuccessors = (List.range g.size).map fun m => (g.successors m, m) := by
  apply List.ext_getElem?
  intro i
  by_cases hi : i < g.entries.size
  · simp [numberedSuccessors, successors, size, hi]
  · simp [numberedSuccessors, size, hi]

/-- The predecessors of a block stand in order. -/
theorem predecessors_eq_filter {n : BlockId} (hn : n < g.size) :
    g.predecessors n = (List.range g.size).filter fun m => n ∈ g.successors m := by
  rw [predecessors, if_pos hn, listing, numberedSuccessors_eq, List.filter_map, List.map_map]
  simp [Function.comp_def]

/-- Control can come to a block from where it can go to the block. -/
theorem mem_predecessors {m n : BlockId} :
    m ∈ g.predecessors n ↔ n < g.size ∧ n ∈ g.successors m := by
  by_cases hn : n < g.size
  · rw [predecessors_eq_filter hn, List.mem_filter, List.mem_range, decide_eq_true_eq]
    exact ⟨fun h => ⟨hn, h.2⟩, fun h => ⟨lt_size_of_mem_successors h.2, h.2⟩⟩
  · simp [predecessors, hn]

theorem converse_toGraph (g : BlockGraph) : g.toGraph.Converse := by
  intro u v _ hv
  have hv : v < g.size := hv
  rw [successors_toGraph, predecessors_toGraph, mem_predecessors]
  exact ⟨fun h => ⟨hv, h⟩, And.right⟩

theorem converse_reversed_toGraph (hg : ∀ n, ∀ m ∈ g.successors n, m < g.size) :
    g.toGraph.reversed.Converse := by
  refine Graph.converse_reversed g.converse_toGraph (fun n _ m hm => ?_) fun n _ m hm => ?_
  · rw [successors_toGraph] at hm
    exact hg n m hm
  · rw [predecessors_toGraph] at hm
    exact lt_size_of_mem_successors (mem_predecessors.1 hm).2

end BlockGraph

namespace Layout

/-- **The merge point of a block is a block.** The immediate post-dominator is a node of the
reversed graph, and the virtual exit is no merge point. -/
theorem mergePoint_lt_size {g : BlockGraph} (hg : ∀ n, ∀ m ∈ g.successors n, m < g.size)
    {n m : BlockId} (h : mergePoint g g.postDominators n = some m) : m < g.size := by
  have hconverse := BlockGraph.converse_reversed_toGraph hg
  unfold mergePoint at h
  split at h
  · rename_i k hidom
    by_cases hexit : k = g.exitNode
    · rw [if_pos hexit] at h
      cases h
    · rw [if_neg hexit] at h
      obtain rfl : k = m := Option.some.inj h
      have hlt : k < g.size + 1 := Graph.lt_size_of_immediateDominator hconverse hidom
      exact Nat.lt_of_le_of_ne (Nat.le_of_lt_succ hlt) hexit
  · cases h

end Layout
end AdventureLogic
