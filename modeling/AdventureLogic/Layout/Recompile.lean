import AdventureLogic.Layout.Stitch
import AdventureLogic.Program.Normalize

/-!
# From blocks to code

A block graph becomes linear code in three steps: every block that can be
reached becomes a fragment, the fragments are laid out, and the code is brought
into normal form.

Key definition: `BlockGraph.recompile`.
-/

namespace AdventureLogic

namespace Program
namespace Outcome

/-- The program that a step leaves if it succeeds. -/
def toLogged {α : Type} (o : Outcome α) : Logged Program :=
  ⟨o.result.map fun _ => o.program, o.events⟩

end Outcome
end Program

namespace BlockGraph

open Layout

/-- The fragments of the blocks that can be reached from the root, with the pool of their
addresses. -/
def compile (g : BlockGraph) : Logged (Fragments × AddressPool) :=
  compileBlocks g g.postDominators ∅ AddressPool.empty g.toGraph.preorder

/-- The code of a block graph before it is brought into normal form. -/
def layOut (g : BlockGraph) : Logged Layout.State := do
  Logged.report g.postDominatorsEvent
  let (fragments, pool) ← g.compile
  Logged.report (.compiled fragments.size g.size)
  let plan : Plan := { graph := g, fragments := fragments }
  let final ← plan.run (plan.start pool)
  Logged.report (.stitched (fragments.size - final.unplaced.size) final.output.length)
  return final

/-- The normal form of the code of a block graph. -/
def recompile (g : BlockGraph) (selfContained : Bool) : Logged Listing := do
  let final ← g.layOut
  let program ← Program.ofCode final.output final.labels
  let normal ← (program.normalize selfContained).toLogged
  Logged.report (.recompiled g.toGraph.preorder.length normal.code.length normal.labels.size)
  return normal.listing

theorem recompile_eq_ok_iff {g : BlockGraph} {selfContained : Bool} {listing : Listing} :
    (g.recompile selfContained).result = .ok listing ↔
      ∃ final p, g.layOut.result = .ok final ∧ Program.ofCode final.output final.labels = .ok p ∧
        (p.normalize selfContained).result = .ok () ∧
        listing = (p.normalize selfContained).program.listing := by
  constructor
  · intro h
    obtain ⟨final, hfinal, h⟩ := Logged.result_bind_eq_ok.1 h
    obtain ⟨p, hp, h⟩ := Logged.result_bind_eq_ok.1 h
    obtain ⟨normal, hnormal, h⟩ := Logged.result_bind_eq_ok.1 h
    obtain ⟨_, _, h⟩ := Logged.result_bind_eq_ok.1 h
    cases h
    obtain ⟨_, hok, rfl⟩ := Result.map_eq_ok.1 hnormal
    exact ⟨final, p, hfinal, hp, hok, rfl⟩
  · rintro ⟨final, p, hfinal, hp, hok, rfl⟩
    have hnormal : (p.normalize selfContained).toLogged.result =
        .ok (p.normalize selfContained).program := Result.map_eq_ok.2 ⟨(), hok, rfl⟩
    exact Logged.result_bind_eq_ok.2 ⟨final, hfinal, Logged.result_bind_eq_ok.2 ⟨p, hp,
      Logged.result_bind_eq_ok.2 ⟨_, hnormal, Logged.result_bind_eq_ok.2 ⟨(), rfl, rfl⟩⟩⟩⟩

end BlockGraph
end AdventureLogic
