import Mathlib
import AdventureLogic.Proofs.AddressPool
import AdventureLogic.Proofs.BlockGraph.Resolved
import AdventureLogic.Proofs.Layout.Fragment
import AdventureLogic.Proofs.Result

/-!
# The addresses of fragments

Compiling a block takes an address for each of its commands and one for its
condition. So the fragments of a graph have distinct addresses. If every exit
leads to a block, then compiling fails only if the addresses run out, and not
before as many have been taken as the blocks need.

Key definitions: `Layout.Fragment.addresses`, `Layout.addressBound`,
`Layout.Compiled`. Key theorems: `Layout.compiled_compileBlocks`,
`BlockGraph.compiled_compile`, `BlockGraph.compile_eq_error`.
-/

namespace AdventureLogic

open Program (addresses)

namespace Layout

/-- The addresses of the instructions of a fragment and of its condition. -/
def Fragment.addresses (f : Fragment) : List Address :=
  Program.addresses f.code ++
    match f.ending with
    | .straight _ => []
    | .branch _ a _ _ _ => [a]

/-- The number of addresses that a block needs at most. -/
def addressBound (g : BlockGraph) (n : BlockId) : Nat :=
  (g.block? n).elim 0 fun b => b.commands.length + 1

theorem addressBound_of_block? {g : BlockGraph} {n : BlockId} {b : Block}
    (hb : g.block? n = some b) : addressBound g n = b.commands.length + 1 := by
  rw [addressBound, hb]
  rfl

theorem FragmentOf.length_addresses_le {g : BlockGraph} {n : BlockId} {b : Block} {f : Fragment}
    (h : FragmentOf g n b f) : f.addresses.length ≤ addressBound g n := by
  have hcommands := congrArg List.length h.commands
  rw [List.length_map, List.length_map] at hcommands
  rw [addressBound_of_block? h.block, Fragment.addresses, Program.addresses, List.length_append,
    List.length_map, hcommands]
  split <;> simp

/-! ## One block -/

theorem takes_compileCommands : ∀ {commands : List Command} {pool pool' : AddressPool}
    {code : List Instruction}, pool.Ascending → compileCommands pool commands = .ok (code, pool') →
      pool.Takes pool' (addresses code)
  | [], pool, pool', code, hp, h => by
    cases h
    exact .nil hp
  | c :: rest, pool, pool', code, hp, h => by
    obtain ⟨⟨a, pool₁⟩, hfresh, h⟩ := Result.bind_eq_ok.1 h
    obtain ⟨⟨code₁, pool₂⟩, hrest, h⟩ := Result.bind_eq_ok.1 h
    cases h
    have hfirst := AddressPool.Takes.fresh hp hfresh
    exact hfirst.append (takes_compileCommands hfirst.ascending hrest)

theorem compileCommands_eq_error : ∀ {commands : List Command} {pool : AddressPool} {e : Error},
    pool.Ascending → compileCommands pool commands = .error e →
      e = .conflictingAddress Address.last ∧ pool.room < commands.length
  | [], pool, e, hp, h => by cases h
  | c :: rest, pool, e, hp, h => by
    rw [List.length_cons]
    rcases Result.bind_eq_error.1 h with h | ⟨⟨a, pool₁⟩, hfresh, h⟩
    · obtain ⟨he, hroom⟩ := AddressPool.fresh_eq_error hp h
      exact ⟨he, by omega⟩
    · have hroom := (AddressPool.Takes.fresh hp hfresh).room
      rcases Result.bind_eq_error.1 h with h | ⟨_, _, h⟩
      · obtain ⟨he, hrest⟩ := compileCommands_eq_error (AddressPool.ascending_fresh hp hfresh) h
        rw [List.length_singleton] at hroom
        exact ⟨he, by omega⟩
      · cases h

theorem takes_compileBlock {g : BlockGraph} {tree : DominatorTree} {pool pool' : AddressPool}
    {n : BlockId} {f : Fragment} (hp : pool.Ascending)
    (h : (compileBlock g tree pool n).result = .ok (f, pool')) : pool.Takes pool' f.addresses := by
  unfold compileBlock at h
  obtain ⟨b, hb, h⟩ := Logged.result_bind_eq_ok.1 h
  obtain ⟨⟨code, pool₁⟩, hcode, h⟩ := Logged.result_bind_eq_ok.1 h
  have htakes := takes_compileCommands hp hcode
  dsimp only at h
  split at h
  · cases h
    rwa [Fragment.addresses, List.append_nil]
  · obtain ⟨skip, hskip, h⟩ := Logged.result_bind_eq_ok.1 h
    obtain ⟨next, hnext, h⟩ := Logged.result_bind_eq_ok.1 h
    obtain ⟨⟨a, pool₂⟩, hfresh, h⟩ := Logged.result_bind_eq_ok.1 h
    obtain ⟨_, _, h⟩ := Logged.result_bind_eq_ok.1 h
    cases h
    exact htakes.append (.fresh htakes.ascending hfresh)

theorem branchTarget_of_or {g : BlockGraph} {n m : BlockId} {merge named : Option BlockId}
    (h : named.or merge = some m) : branchTarget g n merge named = .ok m := by
  unfold branchTarget
  cases named with
  | some k =>
    cases h
    rfl
  | none =>
    rw [Option.none_or] at h
    rw [h]

/-- A block whose exit leads to blocks can be compiled unless the addresses run out. -/
theorem compileBlock_eq_error {g : BlockGraph} (hg : g.Resolved) {pool : AddressPool}
    {n : BlockId} {e : Error} (hp : pool.Ascending) (hn : n < g.size)
    (h : (compileBlock g g.postDominators pool n).result = .error e) :
    e = .conflictingAddress Address.last ∧ pool.room < addressBound g n := by
  obtain ⟨b, hb⟩ := BlockGraph.exists_block hn
  have hblock : g.block n = .ok b := by rw [BlockGraph.block, hb]
  rw [addressBound_of_block? hb]
  unfold compileBlock at h
  rcases Logged.result_bind_eq_error.1 h with h | ⟨b', hb', h⟩
  · cases hblock.symm.trans h
  obtain rfl : b = b' := Except.ok.inj (hblock.symm.trans hb')
  rcases Logged.result_bind_eq_error.1 h with h | ⟨⟨code, pool₁⟩, hcode, h⟩
  · obtain ⟨he, hroom⟩ := compileCommands_eq_error hp h
    exact ⟨he, by omega⟩
  have htakes := takes_compileCommands hp hcode
  have hlength : (addresses code).length = b.commands.length := by
    have hlength := congrArg List.length (map_command?_compileCommands hcode)
    simpa [addresses] using hlength
  dsimp only at h
  split at h
  · cases h
  · rename_i clauses yes no hexit
    obtain ⟨⟨m, hm⟩, m', hm'⟩ := hg.branch n b clauses yes no hb hexit
    rcases Logged.result_bind_eq_error.1 h with h | ⟨skip, _, h⟩
    · cases (branchTarget_of_or hm').symm.trans h
    rcases Logged.result_bind_eq_error.1 h with h | ⟨next, _, h⟩
    · cases (branchTarget_of_or hm).symm.trans h
    rcases Logged.result_bind_eq_error.1 h with h | ⟨⟨a, pool₂⟩, _, h⟩
    · obtain ⟨he, hroom⟩ := AddressPool.fresh_eq_error htakes.ascending h
      have htaken := htakes.room
      exact ⟨he, by omega⟩
    · cases h

/-! ## All blocks -/

/-- The addresses of the fragments are distinct, and taken. -/
structure Apart (fragments : Fragments) (pool : AddressPool) : Prop where
  nodup : ∀ n f, fragments.get? n = some f → f.addresses.Nodup
  apart : ∀ n m f f', fragments.get? n = some f → fragments.get? m = some f' → n ≠ m →
    ∀ a ∈ f.addresses, a ∉ f'.addresses
  used : ∀ n f, fragments.get? n = some f → ∀ a ∈ f.addresses, pool.isUsed a

theorem Apart.insert {fragments : Fragments} {pool pool' : AddressPool} {n : BlockId} {f : Fragment}
    (h : Apart fragments pool) (htakes : pool.Takes pool' f.addresses) :
    Apart (fragments.insert n f) pool' := by
  have hget : ∀ {m f'}, (fragments.insert n f).get? m = some f' →
      m = n ∧ f' = f ∨ m ≠ n ∧ fragments.get? m = some f' := by
    intro m f' hm
    rw [OrderedMap.get?_insert] at hm
    by_cases heq : n = m
    · rw [if_pos heq] at hm
      exact .inl ⟨heq.symm, (Option.some.inj hm).symm⟩
    · rw [if_neg heq] at hm
      exact .inr ⟨Ne.symm heq, hm⟩
  refine ⟨fun m f' hm => ?_, fun m k f₁ f₂ hm hk hne a ha hmem => ?_, fun m f' hm a ha => ?_⟩
  · rcases hget hm with ⟨_, rfl⟩ | ⟨_, hm⟩
    · exact htakes.nodup
    · exact h.nodup m f' hm
  · rcases hget hm with ⟨rfl, rfl⟩ | ⟨_, hold⟩
    · rcases hget hk with ⟨rfl, _⟩ | ⟨_, hold⟩
      · exact hne rfl
      · exact htakes.not_mem_of_used (h.used k f₂ hold a hmem) ha
    · rcases hget hk with ⟨_, rfl⟩ | ⟨_, hold'⟩
      · exact htakes.not_mem_of_used (h.used m f₁ hold a ha) hmem
      · exact h.apart m k f₁ f₂ hold hold' hne a ha hmem
  · rcases hget hm with ⟨_, rfl⟩ | ⟨_, hm⟩
    · exact (htakes.used a).2 (.inl ha)
    · exact (htakes.used a).2 (.inr (h.used m f' hm a ha))

/-- Blocks have been compiled with the addresses of a pool. -/
structure Compiled (g : BlockGraph) (blocks : List BlockId) (pool : AddressPool)
    (fragments : Fragments) (pool' : AddressPool) : Prop where
  ascending : pool'.Ascending
  apart : Apart fragments pool'
  room : pool.room ≤ pool'.room + (blocks.map (addressBound g)).sum
  found : ∀ n ∈ blocks, ∃ f, fragments.get? n = some f

theorem compiled_compileBlocks {g : BlockGraph} : ∀ {blocks : List BlockId} {done : Fragments}
    {pool : AddressPool} {fragments : Fragments} {pool' : AddressPool}, pool.Ascending →
    Apart done pool →
    (compileBlocks g g.postDominators done pool blocks).result = .ok (fragments, pool') →
      Compiled g blocks pool fragments pool' ∧
        ∀ n f, done.get? n = some f → ∃ f', fragments.get? n = some f'
  | [], done, pool, fragments, pool', hp, hdone, h => by
    cases h
    exact ⟨⟨hp, hdone, Nat.le_refl _, fun n hn => (by cases hn)⟩, fun n f hf => ⟨f, hf⟩⟩
  | m :: rest, done, pool, fragments, pool', hp, hdone, h => by
    obtain ⟨⟨f, pool₁⟩, hf, h⟩ := Logged.result_bind_eq_ok.1 h
    have htakes := takes_compileBlock hp hf
    obtain ⟨b, hb⟩ := fragmentOf_compileBlock hf
    obtain ⟨hrest, hkept⟩ := compiled_compileBlocks htakes.ascending (hdone.insert htakes) h
    have hinserted : ∀ n f', (n = m ∨ done.get? n = some f') →
        ∃ f'', (done.insert m f).get? n = some f'' := by
      intro n f' hn
      rw [OrderedMap.get?_insert]
      by_cases heq : m = n
      · rw [if_pos heq]
        exact ⟨f, rfl⟩
      · rw [if_neg heq]
        exact ⟨f', hn.resolve_left (Ne.symm heq)⟩
    refine ⟨⟨hrest.ascending, hrest.apart, ?_, ?_⟩, fun n f' hn => ?_⟩
    · have hroom := htakes.room
      have hlength := hb.length_addresses_le
      have hrestRoom := hrest.room
      rw [List.map_cons, List.sum_cons]
      omega
    · refine List.forall_mem_cons.2 ⟨?_, hrest.found⟩
      obtain ⟨f', hf'⟩ := hinserted m f (.inl rfl)
      exact hkept m f' hf'
    · obtain ⟨f'', hf''⟩ := hinserted n f' (.inr hn)
      exact hkept n f'' hf''

theorem compileBlocks_eq_error {g : BlockGraph} (hg : g.Resolved) : ∀ {blocks : List BlockId}
    {done : Fragments} {pool : AddressPool} {e : Error}, pool.Ascending →
    (∀ n ∈ blocks, n < g.size) →
    (compileBlocks g g.postDominators done pool blocks).result = .error e →
      e = .conflictingAddress Address.last ∧ pool.room < (blocks.map (addressBound g)).sum
  | [], done, pool, e, hp, _, h => by cases h
  | m :: rest, done, pool, e, hp, hblocks, h => by
    obtain ⟨hm, hblocks⟩ := List.forall_mem_cons.1 hblocks
    rw [List.map_cons, List.sum_cons]
    rcases Logged.result_bind_eq_error.1 h with h | ⟨⟨f, pool₁⟩, hf, h⟩
    · obtain ⟨he, hroom⟩ := compileBlock_eq_error hg hp hm h
      exact ⟨he, by omega⟩
    · have htakes := takes_compileBlock hp hf
      obtain ⟨b, hb⟩ := fragmentOf_compileBlock hf
      obtain ⟨he, hrest⟩ := compileBlocks_eq_error hg htakes.ascending hblocks h
      have hroom := htakes.room
      have hlength := hb.length_addresses_le
      exact ⟨he, by omega⟩

end Layout

namespace BlockGraph

open Layout

variable {g : BlockGraph}

/-- **The fragments of a graph have distinct addresses**, and every block that can be reached has
one. -/
theorem compiled_compile {fragments : Fragments} {pool : AddressPool}
    (h : g.compile.result = .ok (fragments, pool)) :
    Compiled g g.toGraph.preorder .empty fragments pool := by
  refine (compiled_compileBlocks AddressPool.ascending_empty ⟨?_, ?_, ?_⟩ h).1 <;> simp

/-- **Compiling a graph whose exits lead to blocks** fails only if the addresses run out. -/
theorem compile_eq_error (hg : g.Resolved) {e : Error} (h : g.compile.result = .error e) :
    e = .conflictingAddress Address.last ∧
      AddressPool.empty.room < (g.toGraph.preorder.map (addressBound g)).sum :=
  compileBlocks_eq_error hg AddressPool.ascending_empty
    (fun _ hn => Graph.lt_size_of_mem_walk hn) h

end BlockGraph
end AdventureLogic
