import AdventureLogic.Proofs.Dominance.Walk

/-!
# Paths of a graph and paths of its numbering

Dominance is said with the paths of a graph: a node dominates another if every
path from the root to the other passes through it. An edge that names a node
that does not exist is on no path. The walk numbers exactly the nodes to which
a path leads (`Graph.exists_number_iff`), and a path avoids a node exactly if
it does on the numbers (`Graph.dominates_iff`).

Key definitions: `Graph.Path`, `Graph.Reachable`, `Graph.Dominates`,
`Graph.IsImmediateDominator`. Key theorems: `Graph.exists_number_iff`,
`Graph.dominates_iff`.
-/

namespace AdventureLogic

open Dominance

namespace Graph

/-- `p` holds the nodes of a path from the root to a node, the last one first. -/
inductive Path (g : Graph) : List NodeId → NodeId → Prop
  | root : g.root < g.size → Path g [g.root] g.root
  | step {p : List NodeId} {m n : NodeId} :
    Path g p m → n ∈ g.successors m → n < g.size → Path g (n :: p) n

/-- A path leads from the root to the node. -/
def Reachable (g : Graph) (n : NodeId) : Prop := ∃ p, g.Path p n

/-- Every path from the root to `b` contains `a`. -/
def Dominates (g : Graph) (a b : NodeId) : Prop := ∀ p, g.Path p b → a ∈ p

/-- `a` dominates `b` and is another node. -/
def StrictlyDominates (g : Graph) (a b : NodeId) : Prop := g.Dominates a b ∧ a ≠ b

/-- `d` dominates `b` strictly, and every other node that does dominates `d`. -/
structure IsImmediateDominator (g : Graph) (d b : NodeId) : Prop where
  strict : g.StrictlyDominates d b
  least : ∀ a, g.StrictlyDominates a b → a ≠ d → g.Dominates a d

variable {g : Graph}

/-- Every node on a path can be reached. -/
theorem Path.reachable {p : List NodeId} {n a : NodeId} (h : g.Path p n) (ha : a ∈ p) :
    g.Reachable a := by
  induction h with
  | root hr =>
    obtain rfl := List.mem_singleton.1 ha
    exact ⟨_, .root hr⟩
  | @step p m n hp hn hs ih =>
    rcases List.mem_cons.1 ha with rfl | ha
    · exact ⟨_, .step hp hn hs⟩
    · exact ih ha

theorem reachable_of_dominates {a b : NodeId} (hb : g.Reachable b) (h : g.Dominates a b) :
    g.Reachable a := by
  obtain ⟨p, hp⟩ := hb
  exact hp.reachable (h p hp)

/-! ## Numbers -/

theorem vertexOf_zero (h : g.root < g.size) : (Numbering.ofGraph g).vertexOf 0 = g.root :=
  (Numbering.number?_ofGraph.1 (number?_root h)).2

theorem reachable_vertexOf {w : Nat} (hw : w < (Numbering.ofGraph g).count) :
    g.Reachable ((Numbering.ofGraph g).vertexOf w) := by
  induction w using Nat.strongRecOn with
  | ind w ih =>
    by_cases h0 : w = 0
    · subst h0
      have hroot := root_lt_size hw
      rw [vertexOf_zero hroot]
      exact ⟨_, .root hroot⟩
    · have hlt := g.depthFirst_ofGraph.up_lt w (by omega)
      have hedge := g.depthFirst_ofGraph.edge_up w (by omega) hw
      obtain ⟨p, hp⟩ := ih _ hlt (by omega)
      exact ⟨_, .step hp hedge.2.2 (Numbering.vertexOf_lt_size hw)⟩

/-- **The walk numbers exactly the reachable nodes.** -/
theorem exists_number_iff {n : NodeId} :
    (∃ w, (Numbering.ofGraph g).number? n = some w) ↔ g.Reachable n := by
  constructor
  · rintro ⟨w, hw⟩
    obtain ⟨hc, rfl⟩ := Numbering.number?_ofGraph.1 hw
    exact reachable_vertexOf hc
  · rintro ⟨p, hp⟩
    induction hp with
    | root hr => exact ⟨0, number?_root hr⟩
    | step _ hn hs ih =>
      obtain ⟨w, hw⟩ := ih
      obtain ⟨hc, rfl⟩ := Numbering.number?_ofGraph.1 hw
      obtain ⟨i, hi, rfl⟩ := walk_closed hc hn hs
      exact ⟨i, Numbering.number?_ofGraph.2 ⟨hi, rfl⟩⟩

/-- The walk visits exactly the nodes that can be reached. -/
theorem mem_preorder_iff {n : NodeId} : n ∈ g.preorder ↔ g.Reachable n := by
  rw [← exists_number_iff, preorder, List.mem_iff_getElem?]
  refine exists_congr fun w => ?_
  rw [Numbering.number?_ofGraph, Numbering.count_ofGraph, List.getElem?_map]
  by_cases hw : w < g.walk.length
  · have hget := List.getElem?_eq_getElem hw
    simp [Numbering.vertexOf_ofGraph hget, hw]
  · simp [hw]

theorem avoids_of_path {x : Nat} (hx : x < (Numbering.ofGraph g).count) {p : List NodeId}
    {n : NodeId} (hp : g.Path p n) (hmem : (Numbering.ofGraph g).vertexOf x ∉ p) :
    ∀ w, (Numbering.ofGraph g).number? n = some w → Avoids ((Numbering.ofGraph g).Edge g) x w := by
  induction hp with
  | root hr =>
    intro w hw
    rw [number?_root hr] at hw
    obtain rfl := Option.some.inj hw
    refine .root ?_
    rintro rfl
    exact hmem (List.mem_singleton.2 (vertexOf_zero hr))
  | @step p m n hp hn hs ih =>
    intro w hw
    obtain ⟨hmn, hmp⟩ := not_or.1 (mt List.mem_cons.2 hmem)
    obtain ⟨v, hv⟩ := exists_number_iff.2 ⟨p, hp⟩
    obtain ⟨hwc, rfl⟩ := Numbering.number?_ofGraph.1 hw
    refine .step (ih hmp v hv) ?_ ?_
    · obtain ⟨hvc, rfl⟩ := Numbering.number?_ofGraph.1 hv
      exact ⟨hvc, hwc, hn⟩
    · rintro rfl
      exact hmn rfl

theorem path_of_avoids {x w : Nat} (hx : x < (Numbering.ofGraph g).count)
    (hw : w < (Numbering.ofGraph g).count) (h : Avoids ((Numbering.ofGraph g).Edge g) x w) :
    ∃ p, g.Path p ((Numbering.ofGraph g).vertexOf w) ∧ (Numbering.ofGraph g).vertexOf x ∉ p := by
  induction h with
  | root h0 =>
    have hroot := root_lt_size hw
    have hzero := vertexOf_zero hroot
    rw [hzero]
    refine ⟨_, .root hroot, fun hmem => h0 ?_⟩
    exact Numbering.vertexOf_inj hx hw ((List.mem_singleton.1 hmem).trans hzero.symm)
  | step h e hne ih =>
    obtain ⟨p, hp, hmem⟩ := ih e.1
    refine ⟨_, .step hp e.2.2 (Numbering.vertexOf_lt_size hw), fun hx' => ?_⟩
    rcases List.mem_cons.1 hx' with heq | hx'
    · exact hne (Numbering.vertexOf_inj hx hw heq).symm
    · exact hmem hx'

/-- A node dominates another exactly if on the numbers no path avoids it. -/
theorem dominates_iff {a b : NodeId} {v w : Nat} (ha : (Numbering.ofGraph g).number? a = some v)
    (hb : (Numbering.ofGraph g).number? b = some w) :
    g.Dominates a b ↔ ¬Avoids ((Numbering.ofGraph g).Edge g) v w := by
  obtain ⟨hv, rfl⟩ := Numbering.number?_ofGraph.1 ha
  constructor
  · intro hd hav
    obtain ⟨hw, rfl⟩ := Numbering.number?_ofGraph.1 hb
    obtain ⟨p, hp, hmem⟩ := path_of_avoids hv hw hav
    exact hmem (hd p hp)
  · intro hav p hp
    by_cases hmem : (Numbering.ofGraph g).vertexOf v ∈ p
    · exact hmem
    · exact absurd (avoids_of_path hv hp hmem w hb) hav

end Graph
end AdventureLogic
