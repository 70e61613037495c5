import Mathlib
import AdventureLogic.Proofs.Dominance.RecursiveSearch
import AdventureLogic.Proofs.Dominance.Tree

/-!
# Semidominators as paths of the graph

What the forest holds after the last number is settled, said on the paths of the
graph. A path that passes only numbers larger than that of its end is given by
its start and the list of its inner numbers (`Dominance.HighRoute`). The
semidominator of a number is the least start of such a path. It stands above the
number in the tree of the walk: a path from a smaller number that passes no
smaller number than its end can only lead down the tree
(`Dominance.DepthFirst.above_isSemi`).

Key definitions: `Dominance.HighRoute`, `Graph.IsSemidominator`. Key theorems:
`Dominance.highPath_iff_route`, `Graph.semi_isSemidominator`.
-/

namespace AdventureLogic

open Dominance

namespace Dominance

/-- The edges lead from `v` over the numbers of `inner`, all of them larger than `w`, to `w`. -/
structure HighRoute (edge : Nat → Nat → Prop) (v : Nat) (inner : List Nat) (w : Nat) : Prop where
  chain : (v :: (inner ++ [w])).IsChain edge
  high : ∀ u ∈ inner, w < u

variable {edge : Nat → Nat → Prop} {v w : Nat}

namespace HighRoute

theorem nil_iff : HighRoute edge v [] w ↔ edge v w := by
  constructor
  · exact fun h => List.isChain_pair.1 h.chain
  · exact fun e => ⟨List.isChain_pair.2 e, fun u hu => absurd hu List.not_mem_nil⟩

/-- The first inner number splits a route into an edge and a shorter route. -/
theorem cons_iff {u : Nat} {inner : List Nat} :
    HighRoute edge v (u :: inner) w ↔ edge v u ∧ w < u ∧ HighRoute edge u inner w := by
  constructor
  · intro h
    obtain ⟨e, chain⟩ := List.isChain_cons_cons.1 h.chain
    obtain ⟨hu, high⟩ := List.forall_mem_cons.1 h.high
    exact ⟨e, hu, chain, high⟩
  · rintro ⟨e, hu, h⟩
    exact ⟨List.isChain_cons_cons.2 ⟨e, h.chain⟩, List.forall_mem_cons.2 ⟨hu, h.high⟩⟩

end HighRoute

theorem highPath_iff_route : HighPath edge w v ↔ ∃ inner, HighRoute edge v inner w := by
  constructor
  · intro h
    induction h with
    | edge e => exact ⟨[], HighRoute.nil_iff.2 e⟩
    | @step y u e hu _ ih =>
      obtain ⟨inner, route⟩ := ih
      exact ⟨u :: inner, HighRoute.cons_iff.2 ⟨e, hu, route⟩⟩
  · rintro ⟨inner, route⟩
    induction inner generalizing v with
    | nil => exact .edge (HighRoute.nil_iff.1 route)
    | cons u inner ih =>
      obtain ⟨e, hu, route⟩ := HighRoute.cons_iff.1 route
      exact .step e hu (ih route)

/-- The semidominator of a number stands above it in the tree. -/
theorem DepthFirst.above_isSemi {count : Nat} {up : Nat → Nat} {s : Nat}
    (h : DepthFirst count edge up) (hs : IsSemi edge w s) (hw : 0 < w) (hc : w < count) :
    Above up s w :=
  h.above_highPath hs.path .self (Nat.le_of_lt (h.isSemi_lt hs hw hc))

end Dominance

namespace Graph

variable {g : Graph}

/-- `s` is the semidominator of the number `w` in the order of the walk: the least number from
which a path leads to `w` over larger numbers only. It is a proper ancestor of `w` in the tree of
the walk. -/
structure IsSemidominator (g : Graph) (w s : Nat) : Prop where
  path : ∃ inner, HighRoute ((Numbering.ofGraph g).Edge g) s inner w
  least : ∀ v inner, HighRoute ((Numbering.ofGraph g).Edge g) v inner w → s ≤ v
  ancestor : Ancestor g.walk ((Numbering.ofGraph g).vertexOf s) ((Numbering.ofGraph g).vertexOf w)
  proper : (Numbering.ofGraph g).vertexOf s ≠ (Numbering.ofGraph g).vertexOf w

theorem settled_semidominators (hg : g.Converse) :
    Settled ((Numbering.ofGraph g).Edge g) (.ofGraph g) 0 ((Numbering.ofGraph g).semidominators g) :=
  Settled.semidominators g.depthFirst_ofGraph fun _ hw v => mem_predecessors hg hw v

theorem semi_getElem? (hg : g.Converse) {w : Nat} (hc : w < (Numbering.ofGraph g).count) :
    ((Numbering.ofGraph g).semidominators g).semi[w]? =
      some (((Numbering.ofGraph g).semidominators g).semiOf w) := by
  rw [← (settled_semidominators hg).linked.size_semi] at hc
  simp [Forest.semiOf, hc]

/-- **The forest holds the semidominators.** If a graph tells the same edges from both ends, then,
when all numbers are settled, the forest has for each number but the root's the least start of a
path that passes only larger numbers, and this is a proper ancestor. -/
theorem semi_isSemidominator (hg : g.Converse) {w : Nat} (hw : 0 < w)
    (hc : w < (Numbering.ofGraph g).count) :
    ∃ s, ((Numbering.ofGraph g).semidominators g).semi[w]? = some s ∧ g.IsSemidominator w s := by
  have hs := (settled_semidominators hg).isSemi w hw hc
  have hlt := g.depthFirst_ofGraph.isSemi_lt hs hw hc
  refine ⟨_, semi_getElem? hg hc, ?_⟩
  constructor
  case path => exact highPath_iff_route.1 hs.path
  case least => exact fun v inner route => hs.least v (highPath_iff_route.2 ⟨inner, route⟩)
  case ancestor => exact ancestor_of_above (g.depthFirst_ofGraph.above_isSemi hs hw hc) hc
  case proper =>
    intro heq
    exact Nat.ne_of_lt hlt (Numbering.vertexOf_inj (Nat.lt_trans hlt hc) hc heq)

/-- An edge leads from 1 past the chain 2, 3 to 4, so 1 is the semidominator of 4. It does not
dominate 4: from 0 a way round it leads over 5 into the chain, but this way passes 3. -/
def bypassedChain : Graph :=
  ofEdges 6 [(0, 1), (1, 2), (2, 3), (3, 4), (0, 5), (5, 3), (1, 4)] [] 0

theorem semi_isSemidominator_bypassedChain :
    bypassedChain.Converse ∧ 4 < (Numbering.ofGraph bypassedChain).count ∧
      ((Numbering.ofGraph bypassedChain).semidominators bypassedChain).semi[4]? = some 1 ∧
      bypassedChain.IsSemidominator 4 1 := by
  have hg : bypassedChain.Converse := converse_ofEdges _ _ _ _
  have hc : 4 < (Numbering.ofGraph bypassedChain).count := by cbv
  have hsemi : ((Numbering.ofGraph bypassedChain).semidominators bypassedChain).semi[4]? =
      some 1 := by
    cbv
  obtain ⟨s, hs, hsemidominator⟩ := semi_isSemidominator hg (by decide) hc
  obtain rfl : 1 = s := Option.some.inj (hsemi.symm.trans hs)
  exact ⟨hg, hc, hsemi, hsemidominator⟩

end Graph
end AdventureLogic
