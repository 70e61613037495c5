import Mathlib.Logic.Relation
import AdventureLogic.Proofs.BlockGraph.Outline
import AdventureLogic.Proofs.Dominance.Reversed

/-!
# Graphs whose exits lead to blocks

Control goes from a block where its exit says; a branch that is left open leads
to the merge point. In the graph of some code this is along the edges, every
exit leads to a block, and every block is on the way of control from the root.

Key definitions: `BlockGraph.LeadsTo`, `BlockGraph.Passes`, `BlockGraph.Resolved`. Key
theorem: `BlockGraph.resolved_ofInstructions`.
-/

namespace AdventureLogic

open Program (addresses)
open Layout (mergePoint)

namespace BlockGraph

/-- The exit of a block leads to another. -/
inductive LeadsTo (g : BlockGraph) (n m : BlockId) : Prop where
  | next {b : Block} (hb : g.block? n = some b) (hexit : b.exit = .single (some m))
  | yes {b : Block} {clauses : List Clause} {yes no : Option BlockId} (hb : g.block? n = some b)
    (hexit : b.exit = .branch clauses yes no)
    (hm : yes.or (mergePoint g g.postDominators n) = some m)
  | no {b : Block} {clauses : List Clause} {yes no : Option BlockId} (hb : g.block? n = some b)
    (hexit : b.exit = .branch clauses yes no)
    (hm : no.or (mergePoint g g.postDominators n) = some m)

/-- Control passes from a block without commands straight on to another one. -/
def Passes (g : BlockGraph) (n m : BlockId) : Prop :=
  ∃ b, g.block? n = some b ∧ b.commands = [] ∧ b.exit = .single (some m)

/-- Every exit leads to blocks, a block that leads nowhere has a command, and control can go from
the root to every block. -/
structure Resolved (g : BlockGraph) : Prop where
  root : g.root < g.size
  leadsTo : ∀ n m, g.LeadsTo n m → m < g.size
  merge : ∀ n m, mergePoint g g.postDominators n = some m → m < g.size
  branch : ∀ n b clauses yes no, g.block? n = some b → b.exit = .branch clauses yes no →
    (∃ m, yes.or (mergePoint g g.postDominators n) = some m) ∧
      ∃ m, no.or (mergePoint g g.postDominators n) = some m
  leave : ∀ n b, g.block? n = some b → b.exit = .single none → b.commands ≠ []
  reachable : ∀ n < g.size, g.toGraph.Reachable n
  live : ∀ n < g.size, Relation.ReflTransGen g.LeadsTo g.root n

theorem exists_block {g : BlockGraph} {n : BlockId} (hn : n < g.size) :
    ∃ b, g.block? n = some b := by
  rw [block?, Array.getElem?_eq_getElem hn]
  exact ⟨_, rfl⟩

theorem lt_size_of_block? {g : BlockGraph} {n : BlockId} {b : Block} (hb : g.block? n = some b) :
    n < g.size := by
  obtain ⟨e, he, _⟩ := Option.map_eq_some_iff.1 hb
  exact (Array.getElem?_eq_some_iff.1 he).1

namespace Outlines

variable {code : List Instruction} {g : BlockGraph} {start : BlockId → Nat}

/-- Exits lead along the edges. -/
theorem leadsTo_iff (h : Outlines code g start) {n m : BlockId} :
    g.LeadsTo n m ↔ m ∈ g.successors n := by
  constructor
  · intro hm
    cases hm with
    | next hb hexit =>
      cases (h.block n _ hb).ends with
      | branch _ hexit' | leave _ hexit' =>
        rw [hexit] at hexit'
        cases hexit'
      | goto _ hexit' _ hsuccessors | next _ hexit' _ hsuccessors =>
        rw [hexit] at hexit'
        cases hexit'
        exact (hsuccessors m).2 rfl
    | yes hb hexit hm =>
      cases (h.block n _ hb).ends with
      | branch _ hexit' _ _ _ hsuccessors =>
        rw [hexit] at hexit'
        cases hexit'
        exact (hsuccessors m).2 (.inl (Option.some.inj hm).symm)
      | goto _ hexit' | next _ hexit' | leave _ hexit' =>
        rw [hexit] at hexit'
        cases hexit'
    | no hb hexit hm =>
      cases (h.block n _ hb).ends with
      | branch _ hexit' hno _ _ hsuccessors =>
        rw [hexit] at hexit'
        cases hexit'
        exact (hsuccessors m).2 (.inr (Option.some.inj (hm.symm.trans hno)))
      | goto _ hexit' | next _ hexit' | leave _ hexit' =>
        rw [hexit] at hexit'
        cases hexit'
  · intro hm
    obtain ⟨b, hb⟩ := exists_block (lt_size_of_mem_successors hm)
    cases (h.block n b hb).ends with
    | branch _ hexit hno _ _ hsuccessors =>
      rcases (hsuccessors m).1 hm with rfl | rfl
      · exact .yes hb hexit rfl
      · exact .no hb hexit hno
    | goto _ hexit _ hsuccessors | next _ hexit _ hsuccessors =>
      obtain rfl := (hsuccessors m).1 hm
      exact .next hb hexit
    | leave _ _ _ hsuccessors => exact absurd hm (hsuccessors m)

theorem lt_size_of_successor (h : Outlines code g start) {n m : BlockId}
    (hm : m ∈ g.successors n) : m < g.size := by
  obtain ⟨b, hb⟩ := exists_block (lt_size_of_mem_successors hm)
  cases (h.block n b hb).ends with
  | branch _ _ _ hnext hskip hsuccessors =>
    rcases (hsuccessors m).1 hm with rfl | rfl
    · exact hnext.1
    · exact hskip.1
  | goto _ _ htarget hsuccessors =>
    obtain rfl := (hsuccessors m).1 hm
    exact htarget.1
  | next _ _ hnext hsuccessors =>
    obtain rfl := (hsuccessors m).1 hm
    exact hnext.1
  | leave _ _ _ hsuccessors => exact absurd hm (hsuccessors m)

/-- The way from the root along the edges is a way of control. -/
theorem live (h : Outlines code g start) {n : BlockId} (hn : g.toGraph.Reachable n) :
    Relation.ReflTransGen g.LeadsTo g.root n := by
  obtain ⟨path, hpath⟩ := hn
  induction hpath with
  | root => exact .refl
  | step _ hm _ ih =>
    rw [successors_toGraph] at hm
    exact ih.tail (h.leadsTo_iff.2 hm)

theorem resolved (h : Outlines code g start) (hreachable : ∀ n < g.size, g.toGraph.Reachable n) :
    g.Resolved where
  root := h.root.1
  leadsTo n m hm := h.lt_size_of_successor (h.leadsTo_iff.1 hm)
  merge n m hm := Layout.mergePoint_lt_size (fun _ _ hk => h.lt_size_of_successor hk) hm
  branch n b clauses yes no hb hexit := by
    cases (h.block n b hb).ends with
    | branch _ hexit' hno =>
      rw [hexit] at hexit'
      cases hexit'
      exact ⟨⟨_, rfl⟩, _, hno⟩
    | goto _ hexit' | next _ hexit' | leave _ hexit' =>
      rw [hexit] at hexit'
      cases hexit'
  leave n b hb hexit := by
    cases (h.block n b hb).ends with
    | leave hne => exact hne
    | branch _ hexit' | goto _ hexit' | next _ hexit' =>
      rw [hexit] at hexit'
      cases hexit'
  reachable := hreachable
  live n hn := h.live (hreachable n hn)

end Outlines

/-- **The graph of some code leads to its blocks.** -/
theorem resolved_ofInstructions {code : List Instruction} {labels : LabelTable} {g : BlockGraph}
    (hn : (addresses code).Nodup) (h : (ofInstructions code labels).result = .ok g) :
    g.Resolved := by
  obtain ⟨⟨start, hout⟩, hreachable⟩ := exists_outlines hn h
  exact hout.resolved hreachable

end BlockGraph
end AdventureLogic
