import AdventureLogic.Proofs.Dominance.Climb
import AdventureLogic.Proofs.Dominance.Paths
import AdventureLogic.Proofs.Dominance.Tour

/-!
# The dominator tree of a graph

The tree answers every question with what the paths of the graph say, if the
graph tells the same edges from both ends (`Graph.Converse`). It holds the
reachable nodes; above a node stand its dominators, right above it the
immediate one, right below it the nodes that it dominates immediately. A
question about any other node names it in the fault.

Key definitions: `Graph.Converse`, `DominatorTree.Describes`. Key theorems:
`Graph.above_iff_dominates`, `Graph.isImmediateDominator_iff`,
`Graph.dominators_describes`.
-/

namespace AdventureLogic

open Dominance

namespace Graph

/-- The nodes that exist have the same edges as seen from their start and from their end. -/
def Converse (g : Graph) : Prop :=
  ∀ u v, u < g.size → v < g.size → (v ∈ g.successors u ↔ u ∈ g.predecessors v)

/-- A graph given by its edges knows them from both ends. -/
theorem converse_ofEdges (size : Nat) (edges : List (NodeId × NodeId)) (names : List String)
    (root : NodeId) : (ofEdges size edges names root).Converse := by
  intro u v hu hv
  have hu : u < size := hu
  have hv : v < size := hv
  rw [successors_ofEdges hu, predecessors_ofEdges hv]
  simp

variable {g : Graph}

theorem mem_predecessors_ofGraph {v w : Nat} :
    v ∈ (Numbering.ofGraph g).predecessors g w ↔ v < (Numbering.ofGraph g).count ∧
      (Numbering.ofGraph g).vertexOf v ∈ g.predecessors ((Numbering.ofGraph g).vertexOf w) := by
  rw [Numbering.predecessors, List.mem_filterMap]
  constructor
  · rintro ⟨n, hn, hv⟩
    obtain ⟨hc, rfl⟩ := Numbering.number?_ofGraph.1 hv
    exact ⟨hc, hn⟩
  · rintro ⟨hc, hn⟩
    exact ⟨_, hn, Numbering.number?_ofGraph.2 ⟨hc, rfl⟩⟩

/-- The predecessors on the numbers are the starts of the edges. -/
theorem mem_predecessors (hg : g.Converse) {w : Nat} (hw : w < (Numbering.ofGraph g).count)
    (v : Nat) : v ∈ (Numbering.ofGraph g).predecessors g w ↔ (Numbering.ofGraph g).Edge g v w := by
  rw [mem_predecessors_ofGraph, Numbering.Edge, and_iff_right hw]
  refine and_congr_right fun hv => ?_
  exact (hg _ _ (Numbering.vertexOf_lt_size hv) (Numbering.vertexOf_lt_size hw)).symm

theorem size_parent_ofGraph (g : Graph) :
    (Numbering.ofGraph g).parent.size = (Numbering.ofGraph g).count := by
  rw [Numbering.count_ofGraph]
  simp [Numbering.ofGraph]

theorem raised_dominators (hg : g.Converse) :
    Raised ((Numbering.ofGraph g).Edge g) (.ofGraph g) (1 + ((Numbering.ofGraph g).count - 1))
      g.dominators.idom :=
  Raised.immediateDominators g.depthFirst_ofGraph g.size_parent_ofGraph
    fun _ hw v => mem_predecessors hg hw v

/-! ## Above and below -/

theorem idom_lt (hg : g.Converse) {w : Nat} (hw : 0 < w) : g.dominators.idom.getD w 0 < w :=
  (raised_dominators hg).lt w hw

/-- On the tree a number is above another exactly if its node dominates the other's. -/
theorem above_iff_dominates (hg : g.Converse) {a b : NodeId} {v w : Nat}
    (ha : (Numbering.ofGraph g).number? a = some v) (hb : (Numbering.ofGraph g).number? b = some w) :
    Above (g.dominators.idom.getD · 0) v w ↔ g.Dominates a b := by
  have hw := (Numbering.number?_ofGraph.1 hb).1
  rw [dominates_iff ha hb]
  exact (raised_dominators hg).above_iff w (by omega) hw v

/-- Of two nodes that dominate each other there is only one. -/
theorem dominates_antisymm (hg : g.Converse) {a b : NodeId} (ha : g.Reachable a)
    (hb : g.Reachable b) (hab : g.Dominates a b) (hba : g.Dominates b a) : a = b := by
  obtain ⟨v, hv⟩ := exists_number_iff.2 ha
  obtain ⟨w, hw⟩ := exists_number_iff.2 hb
  have hvw := ((above_iff_dominates hg hv hw).2 hab).le fun _ h => idom_lt hg h
  have hwv := ((above_iff_dominates hg hw hv).2 hba).le fun _ h => idom_lt hg h
  obtain rfl : v = w := by omega
  rw [← (Numbering.number?_ofGraph.1 hv).2, ← (Numbering.number?_ofGraph.1 hw).2]

/-- The root has no strict dominators. -/
theorem not_strictlyDominates_root (hr : g.root < g.size) (a : NodeId) :
    ¬g.StrictlyDominates a g.root := fun h =>
  h.2 (List.mem_singleton.1 (h.1 _ (.root hr)))

/-- **Right above a number stands its immediate dominator,** and it has no other. -/
theorem isImmediateDominator_iff (hg : g.Converse) {w : Nat} (hw : 0 < w)
    (hc : w < (Numbering.ofGraph g).count) (a : NodeId) :
    g.IsImmediateDominator a ((Numbering.ofGraph g).vertexOf w) ↔
      a = (Numbering.ofGraph g).vertexOf (g.dominators.idom.getD w 0) := by
  have hlt := idom_lt hg hw
  have hnumber : ∀ {v}, v < (Numbering.ofGraph g).count →
      (Numbering.ofGraph g).number? ((Numbering.ofGraph g).vertexOf v) = some v :=
    fun hv => Numbering.number?_ofGraph.2 ⟨hv, rfl⟩
  have hidom : g.IsImmediateDominator
      ((Numbering.ofGraph g).vertexOf (g.dominators.idom.getD w 0))
      ((Numbering.ofGraph g).vertexOf w) := by
    refine ⟨⟨(above_iff_dominates hg (hnumber (by omega)) (hnumber hc)).1 (.up hw .self), ?_⟩, ?_⟩
    · intro heq
      have := Numbering.vertexOf_inj (by omega) hc heq
      omega
    · intro x hx _
      obtain ⟨v, hv⟩ := exists_number_iff.2 (reachable_of_dominates (reachable_vertexOf hc) hx.1)
      have hvw := (above_iff_dominates hg hv (hnumber hc)).2 hx.1
      have hne : v ≠ w := by
        rintro rfl
        exact hx.2 (Numbering.number?_ofGraph.1 hv).2.symm
      exact (above_iff_dominates hg hv (hnumber (by omega))).1 (hvw.of_ne hne).2
  constructor
  · intro ha
    by_cases heq : a = (Numbering.ofGraph g).vertexOf (g.dominators.idom.getD w 0)
    · exact heq
    · have hr := reachable_vertexOf hc
      exact dominates_antisymm hg (reachable_of_dominates hr ha.strict.1)
        (reachable_of_dominates hr hidom.strict.1) (hidom.least a ha.strict heq)
        (ha.least _ hidom.strict (Ne.symm heq))
  · rintro rfl
    exact hidom

end Graph

/-! ## Questions -/

namespace DominatorTree

/-- What a dominator tree has to answer about a graph. -/
structure Describes (t : DominatorTree) (g : Graph) : Prop where
  contains_iff : ∀ n, t.contains n = true ↔ g.Reachable n
  dominates_true : ∀ a b, g.Reachable a → g.Reachable b → g.Dominates a b →
    t.dominates a b = .ok true
  dominates_false : ∀ a b, g.Reachable a → g.Reachable b → ¬g.Dominates a b →
    t.dominates a b = .ok false
  immediateDominator_root : ∀ b, g.Reachable b →
    (t.immediateDominator b = .ok none ↔ b = g.root)
  immediateDominator : ∀ b, g.Reachable b → b ≠ g.root → ∃ d,
    t.immediateDominator b = .ok (some d) ∧ g.IsImmediateDominator d b ∧
      ∀ d', g.IsImmediateDominator d' b → d' = d
  children : ∀ a, g.Reachable a → ∃ below, t.children a = .ok below ∧ below.Nodup ∧
    ∀ n, n ∈ below ↔ g.Reachable n ∧ g.IsImmediateDominator a n
  unknown : ∀ n, ¬g.Reachable n →
    t.immediateDominator n = .error (.unknownNode (t.nameOf n)) ∧
    t.children n = .error (.unknownNode (t.nameOf n)) ∧
    (∀ m, t.dominates n m = .error (.unknownNode (t.nameOf n)) ∧
      t.immediatelyDominates n m = .error (.unknownNode (t.nameOf n))) ∧
    ∀ m, g.Reachable m → t.dominates m n = .error (.unknownNode (t.nameOf n)) ∧
      t.immediatelyDominates m n = .error (.unknownNode (t.nameOf n))
  unknown_name : ∀ name, (∀ n < g.size, g.identity n = name → ¬g.Reachable n) →
    t.lookup name = .error (.unknownNode name)

end DominatorTree

namespace Graph

variable {g : Graph}

theorem number_dominators {n : NodeId} {w : Nat} (h : (Numbering.ofGraph g).number? n = some w) :
    g.dominators.number n = .ok w := by
  have hn : g.dominators.number? n = some w := h
  rw [DominatorTree.number, hn]

theorem contains_dominators {n : NodeId} : g.dominators.contains n = true ↔ g.Reachable n := by
  rw [DominatorTree.contains, Option.isSome_iff_exists]
  exact exists_number_iff

/-- A node that cannot be reached has no number, and the fault names it. -/
theorem number_of_not_reachable {n : NodeId} (h : ¬g.Reachable n) :
    g.dominators.number n = .error (.unknownNode (g.dominators.nameOf n)) := by
  have hn : g.dominators.number? n = none := by
    simpa [DominatorTree.contains] using mt contains_dominators.1 h
  rw [DominatorTree.number, hn]

/-- The nodes of the tree hang below their immediate dominators. -/
theorem hangs_dominators (hg : g.Converse) :
    Tour.Hangs g.dominators.order g.dominators.below (g.dominators.idom.getD · 0) where
  place _ hw := Numbering.number?_ofGraph.2 ⟨hw, rfl⟩
  below w hw := by
    have hsize : g.dominators.size - 1 = w + (g.dominators.order.size - (w + 1)) := by
      have : g.dominators.size = g.dominators.order.size := rfl
      omega
    -- no number up to `w` hangs below `w`
    have hsmall : (List.range' 1 w).filter (fun v => g.dominators.idom.getD v 0 = w) = [] := by
      refine List.filter_eq_nil_iff.2 fun v hv => ?_
      rw [List.mem_range'_1] at hv
      have := idom_lt hg (show 0 < v by omega)
      rw [decide_eq_true_eq]
      omega
    have hchildren := DominatorTree.childrenOf_eq g.dominators hw
    rw [hsize, ← List.range'_append_1, List.filter_append, hsmall, List.nil_append,
      Nat.add_comm 1 w] at hchildren
    exact hchildren
  up_lt _ hw := idom_lt hg hw

theorem dominates_dominators (hg : g.Converse) {a b : NodeId} (ha : g.Reachable a)
    (hb : g.Reachable b) :
    ∃ answer, g.dominators.dominates a b = .ok answer ∧ (answer = true ↔ g.Dominates a b) := by
  obtain ⟨v, hv⟩ := exists_number_iff.2 ha
  obtain ⟨w, hw⟩ := exists_number_iff.2 hb
  have hvc := (Numbering.number?_ofGraph.1 hv).1
  have hwc := (Numbering.number?_ofGraph.1 hw).1
  have hroot : g.dominators.root = g.dominators.order.nodeAt 0 :=
    (vertexOf_zero (root_lt_size (by omega))).symm
  refine ⟨g.dominators.tour.encloses v w, ?_, ?_⟩
  · rw [DominatorTree.dominates, number_dominators hv, number_dominators hw]
    rfl
  · rw [g.dominators.tour_eq, hroot, Tour.encloses_iff (hangs_dominators hg) hvc hwc]
    exact above_iff_dominates hg hv hw

theorem vertexOf_eq_root_iff {w : Nat} (hc : w < (Numbering.ofGraph g).count) :
    (Numbering.ofGraph g).vertexOf w = g.root ↔ w = 0 := by
  have hzero : 0 < (Numbering.ofGraph g).count := by omega
  rw [← vertexOf_zero (root_lt_size hzero)]
  exact ⟨Numbering.vertexOf_inj hc hzero, fun h => h ▸ rfl⟩

theorem immediateDominator_dominators {w : Nat} (hc : w < (Numbering.ofGraph g).count) :
    g.dominators.immediateDominator ((Numbering.ofGraph g).vertexOf w) =
      .ok (if w = 0 then none
        else some ((Numbering.ofGraph g).vertexOf (g.dominators.idom.getD w 0))) := by
  rw [DominatorTree.immediateDominator, number_dominators (Numbering.number?_ofGraph.2 ⟨hc, rfl⟩)]
  rfl

theorem mem_childrenOf {w : Nat} (hc : w < (Numbering.ofGraph g).count) {n : NodeId} :
    n ∈ g.dominators.childrenOf w ↔ ∃ v, 0 < v ∧ v < (Numbering.ofGraph g).count ∧
      g.dominators.idom.getD v 0 = w ∧ (Numbering.ofGraph g).vertexOf v = n := by
  rw [DominatorTree.childrenOf_eq _ hc, List.mem_map]
  refine exists_congr fun v => ?_
  rw [List.mem_filter, List.mem_range'_1, decide_eq_true_eq]
  have hsize : g.dominators.size = (Numbering.ofGraph g).count := rfl
  rw [hsize, and_assoc]
  constructor
  · rintro ⟨hv, hidom, hn⟩
    exact ⟨hv.1, by omega, hidom, hn⟩
  · rintro ⟨hv, hvc, hidom, hn⟩
    exact ⟨⟨hv, by omega⟩, hidom, hn⟩

theorem nodup_childrenOf {w : Nat} (hc : w < (Numbering.ofGraph g).count) :
    (g.dominators.childrenOf w).Nodup := by
  rw [DominatorTree.childrenOf_eq _ hc, List.Nodup, List.pairwise_map]
  refine List.Pairwise.imp_of_mem ?_ (List.Pairwise.filter _ List.nodup_range')
  intro u v hu hv hne heq
  have hsize : g.dominators.size = (Numbering.ofGraph g).count := rfl
  have hu := List.mem_range'_1.1 (List.mem_filter.1 hu).1
  have hv := List.mem_range'_1.1 (List.mem_filter.1 hv).1
  exact hne (Numbering.vertexOf_inj (by omega) (by omega) heq)

theorem children_dominators (hg : g.Converse) {a : NodeId} (ha : g.Reachable a) :
    ∃ below, g.dominators.children a = .ok below ∧ below.Nodup ∧
      ∀ n, n ∈ below ↔ g.Reachable n ∧ g.IsImmediateDominator a n := by
  obtain ⟨w, hw⟩ := exists_number_iff.2 ha
  obtain ⟨hc, rfl⟩ := Numbering.number?_ofGraph.1 hw
  refine ⟨g.dominators.childrenOf w, ?_, nodup_childrenOf hc, fun n => ?_⟩
  · rw [DominatorTree.children, number_dominators hw]
    rfl
  · rw [mem_childrenOf hc]
    constructor
    · rintro ⟨v, hv, hvc, rfl, rfl⟩
      exact ⟨reachable_vertexOf hvc, (isImmediateDominator_iff hg hv hvc _).2 rfl⟩
    · rintro ⟨hn, hi⟩
      obtain ⟨v, hv⟩ := exists_number_iff.2 hn
      obtain ⟨hvc, rfl⟩ := Numbering.number?_ofGraph.1 hv
      have hv0 : 0 < v := by
        apply Nat.pos_of_ne_zero
        rintro rfl
        have hr := root_lt_size hvc
        exact not_strictlyDominates_root hr _ (vertexOf_zero hr ▸ hi.strict)
      have heq := (isImmediateDominator_iff hg hv0 hvc _).1 hi
      have hlt := idom_lt hg hv0
      exact ⟨v, hv0, hvc, (Numbering.vertexOf_inj hc (by omega) heq).symm, rfl⟩

theorem lookup_dominators {name : String}
    (h : ∀ n < g.size, g.identity n = name → ¬g.Reachable n) :
    g.dominators.lookup name = .error (.unknownNode name) := by
  have hnames : g.dominators.names.idxOf? name = (g.nodes.map g.identity).idxOf? name :=
    List.idxOf?_toArray name _
  rw [DominatorTree.lookup, hnames]
  cases hn : (g.nodes.map g.identity).idxOf? name with
  | none => rfl
  | some n =>
    obtain ⟨hlt, hname, -⟩ := List.idxOf?_eq_some_iff.1 hn
    have hsize : n < g.size := by simpa [nodes] using hlt
    have hid : g.identity n = name := by simpa [nodes] using hname
    simp [contains_dominators, h n hsize hid]

/-- **The dominator tree tells dominance.** For every graph that knows its edges from both ends, the
tree answers every question with what the paths from the root say. -/
theorem dominators_describes (hg : g.Converse) : g.dominators.Describes g where
  contains_iff _ := contains_dominators
  dominates_true a b ha hb hd := by
    obtain ⟨answer, heq, hiff⟩ := dominates_dominators hg ha hb
    rw [heq, hiff.2 hd]
  dominates_false a b ha hb hd := by
    obtain ⟨answer, heq, hiff⟩ := dominates_dominators hg ha hb
    rw [heq, Bool.eq_false_iff.2 (mt hiff.1 hd)]
  immediateDominator_root b hb := by
    obtain ⟨w, hw⟩ := exists_number_iff.2 hb
    obtain ⟨hc, rfl⟩ := Numbering.number?_ofGraph.1 hw
    rw [immediateDominator_dominators hc, vertexOf_eq_root_iff hc]
    by_cases hw0 : w = 0 <;> simp [hw0]
  immediateDominator b hb hr := by
    obtain ⟨w, hw⟩ := exists_number_iff.2 hb
    obtain ⟨hc, rfl⟩ := Numbering.number?_ofGraph.1 hw
    have hw0 : w ≠ 0 := mt (vertexOf_eq_root_iff hc).2 hr
    have hidom := isImmediateDominator_iff hg (Nat.pos_of_ne_zero hw0) hc
    refine ⟨_, ?_, (hidom _).2 rfl, fun d hd => (hidom d).1 hd⟩
    rw [immediateDominator_dominators hc, if_neg hw0]
  children a ha := children_dominators hg ha
  unknown n hn := by
    have hnumber := number_of_not_reachable hn
    refine ⟨?_, ?_, fun m => ⟨?_, ?_⟩, fun m hm => ?_⟩
    · rw [DominatorTree.immediateDominator, hnumber]
      rfl
    · rw [DominatorTree.children, hnumber]
      rfl
    · rw [DominatorTree.dominates, hnumber]
      rfl
    · rw [DominatorTree.immediatelyDominates, hnumber]
      rfl
    · obtain ⟨v, hv⟩ := exists_number_iff.2 hm
      constructor
      · rw [DominatorTree.dominates, number_dominators hv, hnumber]
        rfl
      · rw [DominatorTree.immediatelyDominates, DominatorTree.immediateDominator,
          number_dominators hv, hnumber]
        rfl
  unknown_name name h := lookup_dominators h

/-- A loop with two entries, of which neither dominates the other. An edge is repeated, one leads
back to where it starts, one comes from a node that cannot be reached and one leads nowhere. -/
def twoEntryLoop : Graph :=
  ofEdges 5 [(0, 1), (0, 2), (1, 2), (2, 1), (2, 3), (1, 3), (1, 3), (3, 3), (4, 3), (3, 9)] [] 0

theorem dominators_describes_twoEntryLoop :
    twoEntryLoop.Converse ∧ twoEntryLoop.dominators.Describes twoEntryLoop :=
  ⟨converse_ofEdges _ _ _ _, dominators_describes (converse_ofEdges _ _ _ _)⟩

example : twoEntryLoop.dominators.immediateDominator 3 = .ok (some 0) := by cbv

end Graph
end AdventureLogic
