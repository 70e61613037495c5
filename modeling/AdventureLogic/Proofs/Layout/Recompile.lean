import Mathlib
import AdventureLogic.Proofs.Layout.Complete
import AdventureLogic.Proofs.Program.Normalize

/-!
# Recompiled graphs run as before

The code of a block graph runs like the graph: laying out the fragments gives
code that does, and bringing the code into normal form changes no run. All
jumps of the code lead to its instructions, and it shows nothing but what the
blocks show, returns apart.

Key definition: `BlockGraph.Realized`. Key theorems: `BlockGraph.complete_run`,
`BlockGraph.realized_recompile`, `BlockGraph.recompile_equivalent`.
-/

namespace AdventureLogic

open Layout

namespace Layout

theorem effectsOf_of_commands : ∀ {code : List Instruction} {commands : List Command},
    code.map Instruction.command? = commands.map some → effectsOf code = commands.map .command
  | [], [], _ => rfl
  | i :: code, c :: commands, h => by
    obtain ⟨hi, hrest⟩ := List.cons.inj h
    obtain ⟨a, rfl⟩ := Instruction.eq_command_of_command? hi
    rw [List.map_cons, ← effectsOf_of_commands hrest]
    rfl

theorem FragmentOf.effects_eq {g : BlockGraph} {n : BlockId} {b : Block} {f : Fragment}
    (h : FragmentOf g n b f) : f.effects = b.effects := by
  rw [Fragment.effects, Block.effects, effectsOf_of_commands h.commands]
  cases he : b.exit with
  | single next => rw [h.straight next he]
  | branch clauses yes no =>
    obtain ⟨a, yes', skip, hf, _⟩ := h.branch clauses yes no he
    rw [hf]

end Layout

namespace BlockGraph

/-- The code does what the graph does. -/
structure Realized (g : BlockGraph) (code : List Instruction) : Prop where
  equivalent : (Machine.ofGraph g).Equivalent (Machine.ofCode code)
  closed : Closed code
  effects : ∀ e ∈ effectsOf code, e = .command Command.ret ∨
    ∃ n b, g.block? n = some b ∧ e ∈ b.effects

/-- A layout is that of a plan. -/
theorem exists_plan {g : BlockGraph} {final : Layout.State} (h : g.layOut.result = .ok final) :
    ∃ (plan : Plan) (pool : AddressPool), plan.graph = g ∧
      g.compile.result = .ok (plan.fragments, pool) ∧
      (plan.run (plan.start pool)).result = .ok final := by
  obtain ⟨_, _, h⟩ := Logged.result_bind_eq_ok.1 h
  obtain ⟨⟨fragments, pool⟩, hcompile, h⟩ := Logged.result_bind_eq_ok.1 h
  obtain ⟨_, _, h⟩ := Logged.result_bind_eq_ok.1 h
  obtain ⟨state, hrun, h⟩ := Logged.result_bind_eq_ok.1 h
  obtain ⟨_, _, h⟩ := Logged.result_bind_eq_ok.1 h
  cases h
  exact ⟨_, pool, rfl, hcompile, hrun⟩

/-- A run that carries out all tasks leaves none. -/
theorem complete_run {plan : Plan} {pool : AddressPool} {final : Layout.State}
    (hcompile : plan.graph.compile.result = .ok (plan.fragments, pool))
    (hrun : (plan.run (plan.start pool)).result = .ok final)
    (hn : (Program.addresses final.output).Nodup) : Complete plan final := by
  obtain ⟨hinv, hwork⟩ := Plan.invariant_run (Plan.invariant_start pool) hrun
  exact ⟨hinv, hwork, hn, fun n f hf => fragmentOf_compile hcompile hf⟩

/-- **The code of a graph does what the graph does.** -/
theorem realized_recompile {g : BlockGraph} {selfContained : Bool} {listing : Listing}
    (h : (g.recompile selfContained).result = .ok listing) : g.Realized listing.code := by
  obtain ⟨final, program, hfinal, hprogram, hok, rfl⟩ := recompile_eq_ok_iff.1 h
  obtain ⟨hsound, hcode⟩ := Program.sound_ofCode hprogram
  obtain ⟨hrefined, hsound'⟩ := Program.refined_normalize hsound hok
  obtain ⟨plan, pool, rfl, hcompile, hrun⟩ := exists_plan hfinal
  have hcomplete := complete_run hcompile hrun (hcode ▸ hsound.closed.nodup)
  refine ⟨?_, hsound'.closed, fun e he => ?_⟩
  · exact (hcode ▸ hcomplete.equivalent).trans hrefined.equivalent
  · rcases List.mem_cons.1 (hrefined.effects he) with he | he
    · exact .inl he
    · rw [hcode] at he
      refine (hcomplete.invariant.sourced e he).imp_right ?_
      rintro ⟨n, f, hf, hmem⟩
      obtain ⟨b, hb⟩ := hcomplete.fragmentOf n f hf
      exact ⟨n, b, hb.block, hb.effects_eq ▸ hmem⟩

/-- **Recompiling a graph changes no run.** For every sequence of decisions, the runs of the graph
and of its code have the same effects and agree on whether they have halted. -/
theorem recompile_equivalent (g : BlockGraph) (selfContained : Bool) (listing : Listing)
    (h : (g.recompile selfContained).result = .ok listing) :
    (Machine.ofGraph g).Equivalent (Machine.ofCode listing.code) :=
  (realized_recompile h).equivalent

/-- A graph with a loop, a branch left open and a block without commands. -/
def loopGraph : BlockGraph where
  entries := #[
    .addEdge (.ofBlock { commands := [⟨12, [1]⟩]
                         exit := .branch [.test ⟨7, [5], false⟩] (some 1) none }) 2,
    .ofBlock { commands := [], exit := .single (some 2) },
    .ofBlock { commands := [⟨13, [2]⟩], exit := .branch [.test ⟨7, [6], true⟩] (some 0) (some 3) },
    .ofBlock { commands := [⟨12, [3]⟩], exit := .single none }]

theorem recompile_loopGraph : ∃ listing, (loopGraph.recompile false).result = .ok listing ∧
    listing.code = [.command 0 ⟨12, [1]⟩, .condition 1 [.test ⟨7, [5], false⟩] (some 2),
      .command 2 ⟨13, [2]⟩, .condition 3 [.test ⟨7, [6], true⟩] (some 4), .goto 5 0,
      .command 4 ⟨12, [3]⟩] ∧
    (Machine.ofGraph loopGraph).Equivalent (Machine.ofCode listing.code) := by
  have hcode : (loopGraph.recompile false).result.map Listing.code =
      .ok [.command 0 ⟨12, [1]⟩, .condition 1 [.test ⟨7, [5], false⟩] (some 2),
        .command 2 ⟨13, [2]⟩, .condition 3 [.test ⟨7, [6], true⟩] (some 4), .goto 5 0,
        .command 4 ⟨12, [3]⟩] := by cbv
  obtain ⟨listing, h, hcode⟩ := Result.map_eq_ok.1 hcode
  exact ⟨listing, h, hcode, recompile_equivalent _ _ _ h⟩

end BlockGraph
end AdventureLogic
