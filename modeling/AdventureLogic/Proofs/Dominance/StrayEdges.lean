import AdventureLogic.Proofs.Dominance.PostDominance
import Mathlib

/-!
# Edges that lead to no block

An edge of a block graph may name a block that does not exist. In the reversed
graph such an edge leads nowhere, and only keeps its block from being an end.
There is one exception: the virtual exit is numbered one past the last block,
so an edge that names this number is told by the block as an edge from the
virtual exit, which does not tell it.

The dominator tree needs the edges that the ends of edges tell to be a graph
that was walked depth first. An edge too many from the root does no harm to
that (`Graph.depthFirst_enters`). So the tree of the reversed graph is that of
the graph with the edge, and the virtual exit stands right above a block that
names its number.

Key definitions: `Graph.ConverseUpToRoot`, `BlockGraph.SameFlow`. Key theorems:
`Graph.dominators_eq`, `BlockGraph.postDominators_strayEdges`.
-/

namespace AdventureLogic

open Dominance

namespace Dominance

/-- The immediate dominators depend on which predecessors there are, not on their order. -/
theorem Numbering.immediateDominators_eq {edge : Nat → Nat → Prop} {d : Numbering} {g h : Graph}
    (hd : DepthFirst d.count edge d.parentOf)
    (hg : ∀ w < d.count, ∀ v, v ∈ d.predecessors g w ↔ edge v w)
    (hh : ∀ w < d.count, ∀ v, v ∈ d.predecessors h w ↔ edge v w) :
    d.immediateDominators h = d.immediateDominators g := by
  apply List.foldl_ext
  intro idom w hw
  have hrange := List.mem_range'_1.1 hw
  have hsemi : (d.semidominators h).semiOf w = (d.semidominators g).semiOf w :=
    IsSemi.eq ((Settled.semidominators hd hh).isSemi w (by omega) (by omega))
      ((Settled.semidominators hd hg).isSemi w (by omega) (by omega))
  rw [raise, raise, hsemi]

end Dominance

/-- A tree is given by its nodes and what stands above them. -/
theorem DominatorTree.eq_of_idom {s t : DominatorTree} (hroot : s.root = t.root)
    (hnames : s.names = t.names) (horder : s.order = t.order) (hidom : s.idom = t.idom) : s = t := by
  obtain ⟨root, names, order, idom, below, hbelow, tour, htour⟩ := s
  obtain ⟨root', names', order', idom', below', hbelow', tour', htour'⟩ := t
  cases hroot
  cases hnames
  cases horder
  cases hidom
  cases hbelow
  cases hbelow'
  cases htour
  cases htour'
  rfl

namespace Graph

variable {g h : Graph}

/-! ## The edges that their ends tell -/

/-- The ends of the edges tell the edges that the starts tell, and maybe some from the root. -/
structure ConverseUpToRoot (g : Graph) : Prop where
  told : ∀ u v, u < g.size → v < g.size → v ∈ g.successors u → u ∈ g.predecessors v
  back : ∀ u v, u < g.size → v < g.size → u ∈ g.predecessors v →
    v ∈ g.successors u ∨ u = g.root

/-- An edge from `u` to `v` that `v` tells. -/
def Enters (g : Graph) (u v : Nat) : Prop :=
  v < (Numbering.ofGraph g).count ∧ u ∈ (Numbering.ofGraph g).predecessors g v

theorem ConverseUpToRoot.enters_of_edge (hg : g.ConverseUpToRoot) {u v : Nat}
    (h : (Numbering.ofGraph g).Edge g u v) : g.Enters u v := by
  obtain ⟨hu, hv, hn⟩ := h
  have htold := hg.told _ _ (Numbering.vertexOf_lt_size hu) (Numbering.vertexOf_lt_size hv) hn
  exact ⟨hv, mem_predecessors_ofGraph.2 ⟨hu, htold⟩⟩

theorem ConverseUpToRoot.edge_or_zero (hg : g.ConverseUpToRoot) {u v : Nat} (h : g.Enters u v) :
    (Numbering.ofGraph g).Edge g u v ∨ u = 0 := by
  obtain ⟨hv, hmem⟩ := h
  obtain ⟨hu, hn⟩ := mem_predecessors_ofGraph.1 hmem
  rcases hg.back _ _ (Numbering.vertexOf_lt_size hu) (Numbering.vertexOf_lt_size hv) hn
    with hedge | hroot
  · exact .inl ⟨hu, hv, hedge⟩
  · exact .inr ((vertexOf_eq_root_iff hu).1 hroot)

/-- **More edges from the root leave a walk depth first,** for the root stands above all. -/
theorem depthFirst_enters (hg : g.ConverseUpToRoot) :
    DepthFirst (Numbering.ofGraph g).count g.Enters (Numbering.ofGraph g).parentOf where
  up_lt := g.depthFirst_ofGraph.up_lt
  edge_up w hw hc := hg.enters_of_edge (g.depthFirst_ofGraph.edge_up w hw hc)
  lt_count h := ⟨(mem_predecessors_ofGraph.1 h.2).1, h.1⟩
  above_last := g.depthFirst_ofGraph.above_last
  above_edge {u v} h hlt := by
    rcases hg.edge_or_zero h with hedge | rfl
    · exact g.depthFirst_ofGraph.above_edge hedge hlt
    · exact .root g.depthFirst_ofGraph.up_lt v

/-! ## The tree -/

theorem walkFrom_eq (hsuccessors : h.successors = g.successors) (unvisited : Std.TreeSet NodeId)
    (stack : List Visit) : h.walkFrom unvisited stack = g.walkFrom unvisited stack := by
  fun_induction walkFrom g unvisited stack with
  | case1 => rw [walkFrom]
  | case2 unvisited v stack hv left ih =>
    have hfan : h.fanOut left v.node = g.fanOut left v.node := by rw [fanOut, fanOut, hsuccessors]
    rw [walkFrom, if_pos hv]
    show v :: h.walkFrom left (h.fanOut left v.node ++ stack) = _
    rw [hfan, ih]
  | case3 unvisited v stack hv ih => rw [walkFrom, if_neg hv, ih]

/-- **What the dominator tree depends on:** the nodes and their names, the root, the edges in the
order in which their starts tell them, and which edges their ends tell. -/
theorem dominators_eq (hg : g.ConverseUpToRoot) (hroot : h.root = g.root) (hsize : h.size = g.size)
    (hidentity : h.identity = g.identity) (hsuccessors : h.successors = g.successors)
    (hpredecessors : ∀ u v, u < g.size → v < g.size →
      (u ∈ h.predecessors v ↔ u ∈ g.predecessors v)) : h.dominators = g.dominators := by
  have hnodes : h.nodes = g.nodes := by rw [nodes, nodes, hsize]
  have hwalk : h.walk = g.walk := by rw [walk, walk, hnodes, hroot, walkFrom_eq hsuccessors]
  have hnumbering : Numbering.ofGraph h = Numbering.ofGraph g := by
    simp only [Numbering.ofGraph, hwalk]
  have henters : ∀ w < (Numbering.ofGraph g).count, ∀ v,
      v ∈ (Numbering.ofGraph g).predecessors h w ↔ g.Enters v w := by
    intro w hw v
    rw [Enters, and_iff_right hw, mem_predecessors_ofGraph, ← hnumbering, mem_predecessors_ofGraph,
      hnumbering]
    refine and_congr_right fun hv => ?_
    exact hpredecessors _ _ (Numbering.vertexOf_lt_size hv) (Numbering.vertexOf_lt_size hw)
  refine DominatorTree.eq_of_idom hroot ?_ (congrArg Numbering.order hnumbering) ?_
  · show (h.nodes.map h.identity).toArray = (g.nodes.map g.identity).toArray
    rw [hnodes, hidentity]
  · show (Numbering.ofGraph h).immediateDominators h = (Numbering.ofGraph g).immediateDominators g
    rw [hnumbering]
    exact Numbering.immediateDominators_eq (depthFirst_enters hg)
      (fun _ hw _ => (and_iff_right hw).symm) henters

theorem raised_enters (hg : g.ConverseUpToRoot) :
    Raised g.Enters (.ofGraph g) (1 + ((Numbering.ofGraph g).count - 1)) g.dominators.idom :=
  Raised.immediateDominators (depthFirst_enters hg) g.size_parent_ofGraph
    fun _ hw _ => (and_iff_right hw).symm

/-- The edge from the root avoids whatever else might stand right above. -/
theorem idom_eq_zero (hg : g.ConverseUpToRoot) {w : Nat} (hw : 0 < w) (h : g.Enters 0 w) :
    g.dominators.idom.getD w 0 = 0 := by
  have hraised := raised_enters hg
  have hlt := hraised.lt w hw
  have hcount := h.1
  have habove := (hraised.above_iff w (by omega) hcount _).1 (.up hw .self)
  refine Decidable.byContradiction fun hne => habove ?_
  exact .step (.root hne) h (by omega)

/-- The root stands right above a node that tells of an edge from it. -/
theorem immediateDominator_of_root_mem (hg : g.ConverseUpToRoot) {n : NodeId} (hn : g.Reachable n)
    (hne : n ≠ g.root) (hmem : g.root ∈ g.predecessors n) :
    g.dominators.immediateDominator n = .ok (some g.root) := by
  obtain ⟨w, hw⟩ := exists_number_iff.2 hn
  obtain ⟨hc, rfl⟩ := Numbering.number?_ofGraph.1 hw
  have hzero : w ≠ 0 := mt (vertexOf_eq_root_iff hc).2 hne
  have hcount : 0 < (Numbering.ofGraph g).count := by omega
  have hvertex := vertexOf_zero (root_lt_size hcount)
  have henters : g.Enters 0 w :=
    ⟨hc, mem_predecessors_ofGraph.2 ⟨hcount, by rwa [hvertex]⟩⟩
  rw [immediateDominator_dominators hc, if_neg hzero,
    idom_eq_zero hg (Nat.pos_of_ne_zero hzero) henters, hvertex]

end Graph

namespace BlockGraph

variable {g h : BlockGraph}

instance (g : BlockGraph) (m n : BlockId) : Decidable (g.Edge m n) :=
  decidable_of_iff _ mem_successors_iff

instance (g : BlockGraph) (n : BlockId) : Decidable (g.IsEnd n) :=
  decidable_of_iff _ mem_exits_iff

/-- The graphs have the same number of blocks, the same edges between blocks, the same ends, and the
same blocks name the number of the virtual exit. -/
structure SameFlow (g h : BlockGraph) : Prop where
  size_eq : h.size = g.size
  edge_iff : ∀ m < g.size, ∀ n ≤ g.size, (h.Edge m n ↔ g.Edge m n)
  isEnd_iff : ∀ n < g.size, (h.IsEnd n ↔ g.IsEnd n)

instance (g h : BlockGraph) : Decidable (g.SameFlow h) :=
  decidable_of_iff (h.size = g.size ∧ (∀ m < g.size, ∀ n ≤ g.size, (h.Edge m n ↔ g.Edge m n)) ∧
      ∀ n < g.size, (h.IsEnd n ↔ g.IsEnd n))
    ⟨fun h => ⟨h.1, h.2.1, h.2.2⟩, fun h => ⟨h.size_eq, h.edge_iff, h.isEnd_iff⟩⟩

/-! ## The two views of the reversed graph -/

/-- From where the reversed graph comes to a node: along the edges of the node, and from the virtual
exit to an end. -/
theorem mem_predecessors_reversed {m n : NodeId} :
    m ∈ g.toGraph.reversed.predecessors n ↔ g.Edge n m ∨ g.IsEnd n ∧ m = g.exitNode := by
  show m ∈ (if n = g.size then [] else g.toGraph.successors n ++
    if g.toGraph.isExit n then [g.size] else []) ↔ _
  by_cases hn : n = g.size
  · have hedge : ¬g.Edge n m := fun h => Nat.ne_of_lt (lt_size_of_edge h) hn
    have hend : ¬g.IsEnd n := fun h => Nat.ne_of_lt h.1 hn
    rw [if_pos hn]
    simp [hedge, hend]
  · rw [if_neg hn, List.mem_append, successors_toGraph, mem_successors_iff, ← mem_exits_iff,
      Graph.mem_exits]
    by_cases hexit : g.toGraph.isExit n = true <;> simp [hexit, exitNode]

theorem converseUpToRoot_reversed (g : BlockGraph) : g.toGraph.reversed.ConverseUpToRoot where
  told u v _ _ h := by
    rcases mem_successors_reversed.1 h with ⟨rfl, hend⟩ | ⟨_, hedge⟩
    · exact mem_predecessors_reversed.2 (.inr ⟨hend, rfl⟩)
    · exact mem_predecessors_reversed.2 (.inl hedge)
  back u v hu _ h := by
    by_cases hroot : u = g.exitNode
    · exact .inr hroot
    · have hlt : u < g.size := Nat.lt_of_le_of_ne (Nat.le_of_lt_succ hu) hroot
      rcases mem_predecessors_reversed.1 h with hedge | ⟨_, rfl⟩
      · exact .inl (mem_successors_reversed.2 (.inr ⟨hlt, hedge⟩))
      · exact absurd rfl hroot

/-- The views differ in an edge to the number of the virtual exit, and in nothing else. -/
theorem views_agree_iff {u v : NodeId} (hu : u ≤ g.size) :
    (v ∈ g.toGraph.reversed.successors u ↔ u ∈ g.toGraph.reversed.predecessors v) ↔
      ¬(u = g.exitNode ∧ g.Edge v g.exitNode) := by
  rw [mem_successors_reversed, mem_predecessors_reversed]
  by_cases hroot : u = g.exitNode
  · subst hroot
    have hnot : ¬g.exitNode < g.size := Nat.lt_irrefl _
    by_cases hedge : g.Edge v g.exitNode
    · have hend : ¬g.IsEnd v := fun h => h.2 _ hedge
      simp [hedge, hnot, hend]
    · simp [hedge, hnot]
  · have hlt : u < g.size := Nat.lt_of_le_of_ne hu hroot
    simp [hroot, hlt]

/-! ## Graphs with the same flow -/

theorem SameFlow.edge_congr (hflow : g.SameFlow h) {m n : BlockId} (hn : n ≤ g.size) :
    h.Edge m n ↔ g.Edge m n := by
  by_cases hm : m < g.size
  · exact hflow.edge_iff m hm n hn
  · have hm' : ¬m < h.size := hflow.size_eq ▸ hm
    exact iff_of_false (mt lt_size_of_edge hm') (mt lt_size_of_edge hm)

theorem SameFlow.isEnd_congr (hflow : g.SameFlow h) {n : BlockId} : h.IsEnd n ↔ g.IsEnd n := by
  by_cases hn : n < g.size
  · exact hflow.isEnd_iff n hn
  · have hn' : ¬n < h.size := hflow.size_eq ▸ hn
    exact iff_of_false (mt And.left hn') (mt And.left hn)

theorem SameFlow.predecessors_eq (hflow : g.SameFlow h) (n : BlockId) :
    h.predecessors n = g.predecessors n := by
  by_cases hn : n < g.size
  · rw [predecessors_eq_filter hn, predecessors_eq_filter (hflow.size_eq.symm ▸ hn), hflow.size_eq]
    apply List.filter_congr
    intro m hm
    rw [decide_eq_decide, mem_successors_iff, mem_successors_iff, hflow.edge_congr (Nat.le_of_lt hn)]
  · rw [predecessors, predecessors, hflow.size_eq, if_neg hn, if_neg hn]

theorem SameFlow.exits_eq (hflow : g.SameFlow h) : h.toGraph.exits = g.toGraph.exits := by
  have hnodes : h.toGraph.nodes = g.toGraph.nodes := congrArg List.range hflow.size_eq
  rw [Graph.exits, Graph.exits, hnodes]
  apply List.filter_congr
  intro n _
  rw [Bool.eq_iff_iff, ← Graph.mem_exits, ← Graph.mem_exits, mem_exits_iff, mem_exits_iff]
  exact hflow.isEnd_congr

/-- **The same flow gives the same tree,** whatever else the edges name. -/
theorem SameFlow.postDominators_eq (hflow : g.SameFlow h) :
    h.postDominators = g.postDominators := by
  have hexit : h.exitNode = g.exitNode := hflow.size_eq
  refine Graph.dominators_eq g.converseUpToRoot_reversed hexit
    (congrArg Nat.succ hflow.size_eq) ?_ ?_ ?_
  · funext n
    show (if n = h.exitNode then "exit" else identity n) =
      if n = g.exitNode then "exit" else identity n
    rw [hexit]
  · funext n
    show (if n = h.exitNode then h.toGraph.exits else h.toGraph.predecessors n) =
      if n = g.exitNode then g.toGraph.exits else g.toGraph.predecessors n
    rw [hexit, hflow.exits_eq, predecessors_toGraph, predecessors_toGraph, hflow.predecessors_eq]
  · intro u v hu _
    have hu : u ≤ g.size := Nat.le_of_lt_succ hu
    rw [mem_predecessors_reversed, mem_predecessors_reversed, hexit, hflow.edge_congr hu,
      hflow.isEnd_congr]

/-- **Edges that lead to no block.** The reversed graph tells its edges the same from both ends,
except for the edges to the number of the virtual exit. Its tree depends on the edges between
blocks, on the ends, and on which blocks name that number; right above such a block stands the
virtual exit. -/
theorem postDominators_strayEdges (g : BlockGraph) :
    (∀ u v, u ≤ g.size → v ≤ g.size →
      ((v ∈ g.toGraph.reversed.successors u ↔ u ∈ g.toGraph.reversed.predecessors v) ↔
        ¬(u = g.exitNode ∧ g.Edge v g.exitNode))) ∧
    (∀ h, g.SameFlow h → h.postDominators = g.postDominators) ∧
    ∀ n, g.Edge n g.exitNode → g.postDominators.contains n = true →
      g.postDominators.immediateDominator n = .ok (some g.exitNode) := by
  refine ⟨fun u v hu _ => views_agree_iff hu, fun h => SameFlow.postDominators_eq, ?_⟩
  intro n hedge hn
  exact Graph.immediateDominator_of_root_mem g.converseUpToRoot_reversed
    (Graph.contains_dominators.1 hn) (Nat.ne_of_lt (lt_size_of_edge hedge))
    (mem_predecessors_reversed.2 (.inl hedge))

/-- A graph in which the first block names a number that no node has, and the third the number of
the virtual exit. -/
def strayGraph : BlockGraph where
  entries := #[
    .addEdge (.ofBlock { commands := [⟨12, [4]⟩]
                         exit := .branch [.test ⟨7, [5], false⟩] (some 1) (some 9) }) 2,
    .ofBlock { commands := [], exit := .single (some 3) },
    .addEdge (.ofBlock { commands := [], exit := .branch [.test ⟨7, [6], false⟩] (some 3) none }) 4,
    .ofBlock { commands := [], exit := .single none }]

/-- The same flow, with the edges in another order and other numbers that no node has. -/
def restrayedGraph : BlockGraph where
  entries := #[
    .ofBlock { commands := [], exit := .branch [] (some 2) (some 1) },
    .addEdge (.ofBlock { commands := [], exit := .single (some 5) }) 3,
    .addEdge (.addEdge (.ofBlock { commands := [], exit := .branch [] (some 4) (some 3) }) 7) 6,
    .ofBlock { commands := [], exit := .single none }]

theorem postDominators_strayEdges_strayGraph :
    (0 ∈ strayGraph.toGraph.reversed.successors 1 ↔
      1 ∈ strayGraph.toGraph.reversed.predecessors 0) ∧
    (strayGraph.SameFlow restrayedGraph ∧
      restrayedGraph.postDominators = strayGraph.postDominators) ∧
    strayGraph.Edge 2 strayGraph.exitNode ∧ strayGraph.postDominators.contains 2 = true ∧
      strayGraph.postDominators.immediateDominator 2 = .ok (some 4) := by
  have hflow : strayGraph.SameFlow restrayedGraph := by decide +kernel
  have hedge : strayGraph.Edge 2 strayGraph.exitNode := by decide
  have hmem : strayGraph.postDominators.contains 2 = true := by
    -- control leaves the third block through the fourth
    have hfourth : 3 ∈ strayGraph.toGraph.reversed.successors 4 := by decide +kernel
    have hthird : 2 ∈ strayGraph.toGraph.reversed.successors 3 := by decide +kernel
    exact Graph.contains_dominators.2
      ⟨_, .step (.step (.root (by decide)) hfourth (by decide)) hthird (by decide)⟩
  have hstray := postDominators_strayEdges strayGraph
  exact ⟨(hstray.1 1 0 (by decide) (by decide)).2 (by decide),
    ⟨hflow, hstray.2.1 _ hflow⟩, hedge, hmem, hstray.2.2 2 hedge hmem⟩

/-- A branch to the second block or to one that does not exist. -/
def forkGraph (missing : BlockId) : BlockGraph where
  entries := #[
    .ofBlock { commands := [], exit := .branch [] (some 1) (some missing) },
    .ofBlock { commands := [], exit := .single none }]

/-- Which block is missing makes a difference: if its number is that of the virtual exit, the two
views of the reversed graph differ, and the branch no longer comes together in the second block. -/
theorem postDominators_forkGraph :
    ((forkGraph 2).size = (forkGraph 7).size ∧
      (∀ m < 2, ∀ n < 2, ((forkGraph 2).Edge m n ↔ (forkGraph 7).Edge m n)) ∧
      ∀ n < 2, ((forkGraph 2).IsEnd n ↔ (forkGraph 7).IsEnd n)) ∧
    (0 ∉ (forkGraph 2).toGraph.reversed.successors 2 ∧
      2 ∈ (forkGraph 2).toGraph.reversed.predecessors 0) ∧
    (forkGraph 7).postDominators.immediateDominator 0 = .ok (some 1) ∧
    (forkGraph 2).postDominators.immediateDominator 0 = .ok (some 2) := by
  refine ⟨by decide +kernel, by decide +kernel, ?_, ?_⟩ <;> cbv

end BlockGraph
end AdventureLogic
