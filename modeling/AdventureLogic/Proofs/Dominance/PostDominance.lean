import AdventureLogic.Proofs.Dominance.Reversed

/-!
# The post-dominator tree of a block graph

A block post-dominates another if control that leaves the other cannot come to
an end without passing through it. Control ends at a block without edges, so
this is said with the paths from a block to such a block; a path that goes
round for ever ends nowhere and does not count. A block from which no end can
be reached is not in the tree.

Read from its end, a path to an end is a path of the reversed graph from the
virtual exit (`path_reversed_iff`). So what the tree says about the reversed
graph is what it has to say about the blocks.

Key definitions: `BlockGraph.Edge`, `BlockGraph.ExitPath`,
`BlockGraph.PostDominates`, `DominatorTree.DescribesExits`. Key theorems:
`BlockGraph.path_reversed_iff`, `BlockGraph.isImmediateDominator_reversed_iff`,
`BlockGraph.postDominators_describes`.
-/

namespace AdventureLogic

open Dominance

namespace Graph

/-- A node below the root stands right below its one immediate dominator. -/
theorem exists_immediateDominator {g : Graph} (hg : g.Converse) {b : NodeId} (hb : g.Reachable b)
    (hroot : b ≠ g.root) : ∃ d, g.dominators.immediateDominator b = .ok (some d) ∧
      ∀ d', g.IsImmediateDominator d' b ↔ d' = d := by
  obtain ⟨w, hw⟩ := exists_number_iff.2 hb
  obtain ⟨hc, rfl⟩ := Numbering.number?_ofGraph.1 hw
  have hpos : w ≠ 0 := mt (vertexOf_eq_root_iff hc).2 hroot
  refine ⟨_, ?_, isImmediateDominator_iff hg (Nat.pos_of_ne_zero hpos) hc⟩
  rw [immediateDominator_dominators hc, if_neg hpos]

theorem immediateDominator_root {g : Graph} (hr : g.root < g.size) :
    g.dominators.immediateDominator g.root = .ok none := by
  obtain ⟨hc, hzero⟩ := Numbering.number?_ofGraph.1 (number?_root hr)
  have hroot := immediateDominator_dominators hc
  rwa [hzero] at hroot

end Graph

namespace BlockGraph

variable {g : BlockGraph}

/-- An edge leads from `m` to `n`: the exit of `m` names `n`, or an extra edge does. -/
def Edge (g : BlockGraph) (m n : BlockId) : Prop :=
  ∃ e, g.entries[m]? = some e ∧ n ∈ e.block.exitTargets ++ e.extra

/-- Every edge leads to a block. -/
def EdgesLead (g : BlockGraph) : Prop :=
  ∀ e ∈ g.entries.toList, ∀ n ∈ e.block.exitTargets ++ e.extra, n < g.size

instance (g : BlockGraph) : Decidable g.EdgesLead :=
  inferInstanceAs (Decidable (∀ _ ∈ _, _))

/-- No edge leads from the block. -/
def IsEnd (g : BlockGraph) (n : BlockId) : Prop := n < g.size ∧ ∀ m, ¬g.Edge n m

/-- `p` holds the blocks of a path from a block to an end, in order. -/
inductive ExitPath (g : BlockGraph) : BlockId → List BlockId → Prop
  | last {n : BlockId} : g.IsEnd n → ExitPath g n [n]
  | step {m n : BlockId} {p : List BlockId} : g.Edge m n → ExitPath g n p → ExitPath g m (m :: p)

/-- An end can be reached from the block. -/
def ReachesEnd (g : BlockGraph) (n : BlockId) : Prop := ∃ p, g.ExitPath n p

/-- Every path from `b` to an end contains `a`. -/
def PostDominates (g : BlockGraph) (a b : BlockId) : Prop := ∀ p, g.ExitPath b p → a ∈ p

/-- `d` is the nearest of the blocks other than `b` that post-dominate `b`, which all post-dominate
`d`. If there are none, it is the virtual exit. -/
structure IsNearestPostDominator (g : BlockGraph) (d : NodeId) (b : BlockId) : Prop where
  exit_iff : d = g.exitNode ↔ ∀ a, g.PostDominates a b → a = b
  strict : d ≠ g.exitNode → g.PostDominates d b ∧ d ≠ b
  nearest : d ≠ g.exitNode → ∀ a, g.PostDominates a b → a ≠ b → g.PostDominates a d

/-! ## Edges -/

theorem mem_successors_iff {m n : BlockId} : n ∈ g.successors m ↔ g.Edge m n := by
  unfold successors Edge
  cases g.entries[m]? with
  | none => simp
  | some e =>
    simp only [Option.elim_some, BlockEntry.mem_successors, Option.some.injEq, exists_eq_left',
      List.mem_append]

theorem lt_size_of_edge {m n : BlockId} (h : g.Edge m n) : m < g.size :=
  lt_size_of_mem_successors (mem_successors_iff.2 h)

theorem EdgesLead.lt_size (hg : g.EdgesLead) {m n : BlockId} (h : g.Edge m n) : n < g.size := by
  obtain ⟨e, he, hn⟩ := h
  exact hg e (List.mem_of_getElem? (Array.getElem?_toList.trans he)) n hn

theorem mem_exits_iff {n : BlockId} : n ∈ g.toGraph.exits ↔ g.IsEnd n := by
  have hsize : g.toGraph.size = g.size := rfl
  rw [Graph.mem_exits, Graph.isExit, Graph.contains, IsEnd, successors_toGraph, hsize,
    Bool.and_eq_true, decide_eq_true_eq, List.isEmpty_iff, List.eq_nil_iff_forall_not_mem]
  simp only [mem_successors_iff]

theorem converse_of_edgesLead (hg : g.EdgesLead) : g.toGraph.reversed.Converse :=
  converse_reversed_toGraph fun _ _ hm => hg.lt_size (mem_successors_iff.1 hm)

/-- Where the reversed graph leads from a node: from the virtual exit to the ends, and from a block
back along its edges. -/
theorem mem_successors_reversed {m n : NodeId} :
    n ∈ g.toGraph.reversed.successors m ↔
      m = g.exitNode ∧ g.IsEnd n ∨ m < g.size ∧ g.Edge n m := by
  show n ∈ (if m = g.size then g.toGraph.exits else g.toGraph.predecessors m) ↔ _
  by_cases hm : m = g.size
  · rw [if_pos hm, mem_exits_iff]
    simp [exitNode, hm]
  · rw [if_neg hm, predecessors_toGraph, mem_predecessors, mem_successors_iff]
    simp [exitNode, hm]

/-! ## Paths -/

theorem ExitPath.lt_size {n : BlockId} {p : List BlockId} (h : g.ExitPath n p) :
    ∀ m ∈ p, m < g.size := by
  induction h with
  | last hend => exact fun m hm => List.mem_singleton.1 hm ▸ hend.1
  | step he _ ih =>
    intro m hm
    rcases List.mem_cons.1 hm with rfl | hm
    · exact lt_size_of_edge he
    · exact ih m hm

theorem ExitPath.start_mem {n : BlockId} {p : List BlockId} (h : g.ExitPath n p) : n ∈ p := by
  cases h with
  | last => exact List.mem_singleton_self n
  | step => exact List.mem_cons_self

theorem ReachesEnd.lt_size {n : BlockId} (h : g.ReachesEnd n) : n < g.size := by
  obtain ⟨p, hp⟩ := h
  exact hp.lt_size n hp.start_mem

theorem ReachesEnd.ne_exitNode {n : BlockId} (h : g.ReachesEnd n) : n ≠ g.exitNode :=
  Nat.ne_of_lt h.lt_size

/-- A post-dominator is a block from which an end can be reached, too. -/
theorem ReachesEnd.of_postDominates {a b : BlockId} (hb : g.ReachesEnd b)
    (h : g.PostDominates a b) : g.ReachesEnd a := by
  obtain ⟨p, hp⟩ := hb
  have ha := h p hp
  clear h
  induction hp with
  | last hend =>
    obtain rfl := List.mem_singleton.1 ha
    exact ⟨_, .last hend⟩
  | step he hp ih =>
    rcases List.mem_cons.1 ha with rfl | ha
    · exact ⟨_, .step he hp⟩
    · exact ih ha

theorem exitPath_of_path {q : List NodeId} {n : NodeId}
    (h : g.toGraph.reversed.Path q n) :
    q = [g.exitNode] ∧ n = g.exitNode ∨ ∃ p, g.ExitPath n p ∧ q = p ++ [g.exitNode] := by
  induction h with
  | root => exact .inl ⟨rfl, rfl⟩
  | @step q m n hq hn hlt ih =>
    right
    rcases mem_successors_reversed.1 hn with ⟨rfl, hend⟩ | ⟨hm, he⟩
    · rcases ih with ⟨rfl, _⟩ | ⟨p, hp, _⟩
      · exact ⟨[n], .last hend, rfl⟩
      · exact absurd rfl (ReachesEnd.ne_exitNode ⟨p, hp⟩)
    · rcases ih with ⟨_, rfl⟩ | ⟨p, hp, rfl⟩
      · exact absurd hm (Nat.lt_irrefl _)
      · exact ⟨n :: p, .step he hp, rfl⟩

theorem path_of_exitPath (hg : g.EdgesLead) {n : BlockId} {p : List BlockId}
    (h : g.ExitPath n p) : g.toGraph.reversed.Path (p ++ [g.exitNode]) n := by
  induction h with
  | last hend =>
    refine .step (.root (Nat.lt_succ_self _)) ?_ (Nat.lt_succ_of_lt hend.1)
    exact mem_successors_reversed.2 (.inl ⟨rfl, hend⟩)
  | step he hp ih =>
    have hlt := lt_size_of_edge he
    refine .step ih ?_ (Nat.lt_succ_of_lt hlt)
    exact mem_successors_reversed.2 (.inr ⟨hg.lt_size he, he⟩)

/-- **The paths of the reversed graph are the paths to an end,** read from the virtual exit. -/
theorem path_reversed_iff (hg : g.EdgesLead) {q : List NodeId} {n : NodeId} :
    g.toGraph.reversed.Path q n ↔
      q = [g.exitNode] ∧ n = g.exitNode ∨ ∃ p, g.ExitPath n p ∧ q = p ++ [g.exitNode] := by
  constructor
  · exact exitPath_of_path
  · rintro (⟨rfl, rfl⟩ | ⟨p, hp, rfl⟩)
    · exact .root (Nat.lt_succ_self _)
    · exact path_of_exitPath hg hp

theorem reachable_reversed_iff (hg : g.EdgesLead) {n : NodeId} :
    g.toGraph.reversed.Reachable n ↔ n = g.exitNode ∨ g.ReachesEnd n := by
  constructor
  · rintro ⟨q, hq⟩
    rcases (path_reversed_iff hg).1 hq with ⟨_, hn⟩ | ⟨p, hp, _⟩
    · exact .inl hn
    · exact .inr ⟨p, hp⟩
  · rintro (rfl | ⟨p, hp⟩)
    · exact ⟨_, .root (Nat.lt_succ_self _)⟩
    · exact ⟨_, path_of_exitPath hg hp⟩

/-! ## Post-dominance -/

/-- Every path of the reversed graph starts at the virtual exit. -/
theorem exitNode_dominates (hg : g.EdgesLead) (n : NodeId) :
    g.toGraph.reversed.Dominates g.exitNode n := by
  intro q hq
  rcases (path_reversed_iff hg).1 hq with ⟨rfl, _⟩ | ⟨p, _, rfl⟩
  · exact List.mem_singleton_self _
  · exact List.mem_append_right _ (List.mem_singleton_self _)

theorem dominates_reversed_iff (hg : g.EdgesLead) {a b : BlockId} (ha : a ≠ g.exitNode)
    (hb : b ≠ g.exitNode) : g.toGraph.reversed.Dominates a b ↔ g.PostDominates a b := by
  constructor
  · intro h p hp
    have hmem := h _ (path_of_exitPath hg hp)
    exact (List.mem_append.1 hmem).resolve_right fun hexit => ha (List.mem_singleton.1 hexit)
  · intro h q hq
    rcases (path_reversed_iff hg).1 hq with ⟨_, rfl⟩ | ⟨p, hp, rfl⟩
    · exact absurd rfl hb
    · exact List.mem_append_left _ (h p hp)

/-- **The immediate dominator in the reversed graph is the nearest post-dominator.** -/
theorem isImmediateDominator_reversed_iff (hg : g.EdgesLead) {d : NodeId} {b : BlockId}
    (hb : g.ReachesEnd b) :
    g.toGraph.reversed.IsImmediateDominator d b ↔ g.IsNearestPostDominator d b := by
  have hbexit := hb.ne_exitNode
  have hblock : ∀ {a}, g.PostDominates a b → a ≠ g.exitNode := fun h =>
    (hb.of_postDominates h).ne_exitNode
  constructor
  · rintro ⟨⟨hdom, hne⟩, hleast⟩
    have hstrict : d ≠ g.exitNode → g.PostDominates d b := fun hd =>
      (dominates_reversed_iff hg hd hbexit).1 hdom
    refine ⟨⟨?_, ?_⟩, fun hd => ⟨hstrict hd, hne⟩, ?_⟩
    · -- nothing but the virtual exit itself dominates the virtual exit
      rintro rfl a ha
      refine Decidable.byContradiction fun hab => ?_
      have haexit := hblock ha
      have hdom := hleast a ⟨(dominates_reversed_iff hg haexit hbexit).2 ha, hab⟩ haexit
      exact haexit (List.mem_singleton.1 (hdom _ (.root (Nat.lt_succ_self _))))
    · intro hnone
      refine Decidable.byContradiction fun hd => ?_
      exact hne (hnone d (hstrict hd))
    · intro hd a ha hab
      by_cases had : a = d
      · subst had
        exact fun p hp => hp.start_mem
      · have hdom := hleast a ⟨(dominates_reversed_iff hg (hblock ha) hbexit).2 ha, hab⟩ had
        exact (dominates_reversed_iff hg (hblock ha) hd).1 hdom
  · intro h
    by_cases hd : d = g.exitNode
    · subst hd
      refine ⟨⟨exitNode_dominates hg b, hbexit.symm⟩, fun a ha haexit => ?_⟩
      have hpost := (dominates_reversed_iff hg haexit hbexit).1 ha.1
      exact absurd (h.exit_iff.1 rfl a hpost) ha.2
    · obtain ⟨hpost, hne⟩ := h.strict hd
      refine ⟨⟨(dominates_reversed_iff hg hd hbexit).2 hpost, hne⟩, fun a ha _ => ?_⟩
      by_cases haexit : a = g.exitNode
      · exact haexit ▸ exitNode_dominates hg d
      · have hpost := (dominates_reversed_iff hg haexit hbexit).1 ha.1
        exact (dominates_reversed_iff hg haexit hd).2 (h.nearest hd a hpost ha.2)

end BlockGraph

/-! ## Questions -/

namespace DominatorTree

/-- What a post-dominator tree has to answer about a block graph. -/
structure DescribesExits (t : DominatorTree) (g : BlockGraph) : Prop where
  contains_iff : ∀ n, t.contains n = true ↔ n = g.exitNode ∨ g.ReachesEnd n
  mem_nodes_iff : ∀ n, n ∈ t.nodes ↔ n = g.exitNode ∨ g.ReachesEnd n
  dominates_true : ∀ a b, g.ReachesEnd a → g.ReachesEnd b →
    (t.dominates a b = .ok true ↔ g.PostDominates a b)
  dominates_false : ∀ a b, g.ReachesEnd a → g.ReachesEnd b →
    (t.dominates a b = .ok false ↔ ¬g.PostDominates a b)
  exit_dominates : ∀ n, t.contains n = true → t.dominates g.exitNode n = .ok true
  immediateDominator_exit : t.immediateDominator g.exitNode = .ok none
  immediateDominator : ∀ b, g.ReachesEnd b → ∃ d, t.immediateDominator b = .ok (some d) ∧
    ∀ d', g.IsNearestPostDominator d' b ↔ d' = d

end DominatorTree

namespace BlockGraph

variable {g : BlockGraph}

theorem contains_postDominators (hg : g.EdgesLead) {n : NodeId} :
    g.postDominators.contains n = true ↔ n = g.exitNode ∨ g.ReachesEnd n :=
  Graph.contains_dominators.trans (reachable_reversed_iff hg)

theorem mem_nodes_postDominators (hg : g.EdgesLead) {n : NodeId} :
    n ∈ g.postDominators.nodes ↔ n = g.exitNode ∨ g.ReachesEnd n := by
  have hnames : g.postDominators.names.size = g.size + 1 := by
    simp [postDominators, Graph.postDominators, Graph.dominators, Graph.nodes, Graph.reversed,
      toGraph]
  rw [DominatorTree.nodes, List.mem_filter, List.mem_range, hnames, contains_postDominators hg]
  apply and_iff_right_of_imp
  rintro (rfl | hn)
  · exact Nat.lt_succ_self _
  · exact Nat.lt_succ_of_lt hn.lt_size

theorem dominates_postDominators (hg : g.EdgesLead) {a b : BlockId} (ha : g.ReachesEnd a)
    (hb : g.ReachesEnd b) : ∃ answer, g.postDominators.dominates a b = .ok answer ∧
      (answer = true ↔ g.PostDominates a b) := by
  have ha' := (reachable_reversed_iff hg).2 (.inr ha)
  have hb' := (reachable_reversed_iff hg).2 (.inr hb)
  obtain ⟨answer, hanswer, htrue⟩ := Graph.dominates_dominators (converse_of_edgesLead hg) ha' hb'
  rw [dominates_reversed_iff hg ha.ne_exitNode hb.ne_exitNode] at htrue
  exact ⟨answer, hanswer, htrue⟩

/-- A graph with two ends, one of which control does not reach from the root. From the third block
control goes to the first end, along an extra edge, or into a loop that has no end. -/
def endlessGraph : BlockGraph where
  entries := #[
    .ofBlock { commands := [], exit := .branch [.test ⟨7, [5], false⟩] (some 1) (some 2) },
    .ofBlock { commands := [⟨12, [4]⟩], exit := .single (some 3) },
    .addEdge (.ofBlock { commands := [], exit := .branch [.test ⟨7, [6], false⟩] (some 4) none }) 3,
    .ofBlock { commands := [⟨12, [5]⟩], exit := .single none },
    .ofBlock { commands := [⟨12, [6]⟩], exit := .single (some 4) },
    .ofBlock { commands := [⟨12, [7]⟩], exit := .single none }]

end BlockGraph
end AdventureLogic
