import AdventureLogic.Layout.Recompile
import AdventureLogic.Proofs.BlockGraph.Resolved
import AdventureLogic.Proofs.OrderedMap

/-!
# Fragments are those of their blocks

The fragment of a block has the commands of the block, and it ends like the
block; branches that the block leaves open are named.

Key definition: `Layout.FragmentOf`. Key theorem: `Layout.fragmentOf_compile`.
-/

namespace AdventureLogic
namespace Layout

/-- The fragment `f` is that of the block `b` with number `n`. -/
structure FragmentOf (g : BlockGraph) (n : BlockId) (b : Block) (f : Fragment) : Prop where
  block : g.block? n = some b
  commands : f.code.map Instruction.command? = b.commands.map some
  straight : ∀ next, b.exit = .single next → f.ending = .straight next
  branch : ∀ clauses yes no, b.exit = .branch clauses yes no →
    ∃ a yes' skip, f.ending = .branch clauses a yes' skip (mergePoint g g.postDominators n) ∧
      yes.or (mergePoint g g.postDominators n) = some yes' ∧
      no.or (mergePoint g g.postDominators n) = some skip

/-- The code of a fragment consists of commands. -/
theorem FragmentOf.eq_command {g : BlockGraph} {n : BlockId} {b : Block} {f : Fragment}
    (h : FragmentOf g n b f) {i : Instruction} (hi : i ∈ f.code) : ∃ a c, i = .command a c := by
  have hmem : i.command? ∈ b.commands.map some := h.commands ▸ List.mem_map_of_mem hi
  obtain ⟨c, _, hc⟩ := List.mem_map.1 hmem
  cases i with
  | command a c => exact ⟨a, c, rfl⟩
  | condition => cases hc
  | goto => cases hc

/-- The fragment of a block ends where the block leads. -/
theorem FragmentOf.ending_of_leadsTo {g : BlockGraph} {n m : BlockId} {b : Block} {f : Fragment}
    (h : FragmentOf g n b f) (hm : g.LeadsTo n m) : f.ending = .straight (some m) ∨
      ∃ clauses a yes skip merge, f.ending = .branch clauses a yes skip merge ∧
        (m = yes ∨ m = skip) := by
  cases hm with
  | next hb hexit =>
    rw [h.block] at hb
    cases hb
    exact .inl (h.straight _ hexit)
  | yes hb hexit hm =>
    rw [h.block] at hb
    cases hb
    obtain ⟨a, yes, skip, hending, hyes, _⟩ := h.branch _ _ _ hexit
    exact .inr ⟨_, a, yes, skip, _, hending, .inl (Option.some.inj (hm.symm.trans hyes))⟩
  | no hb hexit hm =>
    rw [h.block] at hb
    cases hb
    obtain ⟨a, yes, skip, hending, _, hno⟩ := h.branch _ _ _ hexit
    exact .inr ⟨_, a, yes, skip, _, hending, .inr (Option.some.inj (hm.symm.trans hno))⟩

theorem branchTarget_eq_ok {g : BlockGraph} {n m : BlockId} {merge named : Option BlockId}
    (h : branchTarget g n merge named = .ok m) : named.or merge = some m := by
  unfold branchTarget at h
  cases named with
  | some k =>
    cases h
    rfl
  | none =>
    cases merge with
    | some k =>
      cases h
      rfl
    | none => cases h

theorem map_command?_compileCommands : ∀ {commands : List Command} {pool : AddressPool}
    {code : List Instruction} {pool' : AddressPool},
    compileCommands pool commands = .ok (code, pool') →
      code.map Instruction.command? = commands.map some
  | [], _, _, _, h => by
    cases h
    rfl
  | c :: rest, pool, code, pool', h => by
    obtain ⟨⟨a, pool₁⟩, _, h⟩ := Result.bind_eq_ok.1 h
    obtain ⟨⟨code₁, pool₂⟩, hrest, h⟩ := Result.bind_eq_ok.1 h
    cases h
    rw [List.map_cons, List.map_cons, map_command?_compileCommands hrest]
    rfl

theorem block_eq_ok {g : BlockGraph} {n : BlockId} {b : Block} (h : g.block n = .ok b) :
    g.block? n = some b := by
  unfold BlockGraph.block at h
  cases hb : g.block? n with
  | none =>
    rw [hb] at h
    cases h
  | some b' =>
    rw [hb] at h
    cases h
    rfl

theorem fragmentOf_compileBlock {g : BlockGraph} {pool pool' : AddressPool} {n : BlockId}
    {f : Fragment} (h : (compileBlock g g.postDominators pool n).result = .ok (f, pool')) :
    ∃ b, FragmentOf g n b f := by
  unfold compileBlock at h
  obtain ⟨b, hb, h⟩ := Logged.result_bind_eq_ok.1 h
  obtain ⟨⟨code, pool₁⟩, hcode, h⟩ := Logged.result_bind_eq_ok.1 h
  have hb' := block_eq_ok hb
  have hcode' := map_command?_compileCommands hcode
  dsimp only at h
  split at h
  · rename_i next hexit
    cases h
    refine ⟨b, hb', hcode', ?_, ?_⟩
    · intro next' hexit'
      rw [hexit] at hexit'
      cases hexit'
      rfl
    · intro clauses yes no hexit'
      rw [hexit] at hexit'
      cases hexit'
  · rename_i clauses yes no hexit
    obtain ⟨skip, hskip, h⟩ := Logged.result_bind_eq_ok.1 h
    obtain ⟨next, hnext, h⟩ := Logged.result_bind_eq_ok.1 h
    obtain ⟨⟨a, pool₂⟩, _, h⟩ := Logged.result_bind_eq_ok.1 h
    obtain ⟨_, _, h⟩ := Logged.result_bind_eq_ok.1 h
    cases h
    refine ⟨b, hb', hcode', ?_, ?_⟩
    · intro next' hexit'
      rw [hexit] at hexit'
      cases hexit'
    · intro clauses' yes' no' hexit'
      rw [hexit] at hexit'
      cases hexit'
      exact ⟨a, next, skip, rfl, branchTarget_eq_ok hnext, branchTarget_eq_ok hskip⟩

theorem fragmentOf_compileBlocks {g : BlockGraph} : ∀ {blocks : List BlockId} {done : Fragments}
    {pool : AddressPool} {fragments : Fragments} {pool' : AddressPool},
    (compileBlocks g g.postDominators done pool blocks).result = .ok (fragments, pool') →
    (∀ n f, done.get? n = some f → ∃ b, FragmentOf g n b f) →
      ∀ n f, fragments.get? n = some f → ∃ b, FragmentOf g n b f
  | [], done, pool, fragments, pool', h, hdone => by
    cases h
    exact hdone
  | m :: rest, done, pool, fragments, pool', h, hdone => by
    obtain ⟨⟨f, pool₁⟩, hf, h⟩ := Logged.result_bind_eq_ok.1 h
    refine fragmentOf_compileBlocks h fun n f' hget => ?_
    rw [OrderedMap.get?_insert] at hget
    split at hget
    · rename_i heq
      cases hget
      exact heq ▸ fragmentOf_compileBlock hf
    · exact hdone n f' hget

/-- **Compiling gives the fragments of blocks.** -/
theorem fragmentOf_compile {g : BlockGraph} {fragments : Fragments} {pool : AddressPool}
    (h : g.compile.result = .ok (fragments, pool)) {n : BlockId} {f : Fragment}
    (hf : fragments.get? n = some f) : ∃ b, FragmentOf g n b f :=
  fragmentOf_compileBlocks h (fun n f hn => by simp at hn) n f hf

end Layout
end AdventureLogic
