import AdventureLogic.Proofs.Behaviour.Blocks
import AdventureLogic.Proofs.Layout.Fragment
import AdventureLogic.Proofs.Layout.Stitch

/-!
# A complete layout runs like its graph

When all tasks are done, every block that control can enter has been laid out.
A run of the graph and a run of the output then go together (`Stands`): both are
in the same block with the same commands left, or the output has a goto on the
way to where the graph stands, or the graph is about to leave a block that has
nothing left to do in the output.

Key definitions: `Layout.Complete`, `Layout.Stands`. Key theorem:
`Layout.Complete.equivalent`.
-/

namespace AdventureLogic
namespace Layout

open Program (addresses)

/-- A layout with no task left. -/
structure Complete (plan : Plan) (s : State) : Prop where
  invariant : Invariant plan s
  work : s.work = []
  nodup : (addresses s.output).Nodup
  fragmentOf : ∀ n f, plan.fragments.get? n = some f → ∃ b, FragmentOf plan.graph n b f

/-- A place in a run of the graph and the code where a run of the output stands then. The number
bounds the moves that only one of them has to make. -/
inductive Stands (plan : Plan) (s : State) :
    Nat → BlockGraph.Place → List Instruction → Prop where
  /-- Both are in a block, with the same commands left. -/
  | inside {n : BlockId} {b : Block} {f : Fragment} {p : Nat} {i : Instruction}
    {left : List Instruction} {commands : List Command} (hb : FragmentOf plan.graph n b f)
    (hl : Laid plan s p f) (hleft : i :: left <:+ f.code)
    (hc : (i :: left).map Instruction.command? = commands.map some) :
    Stands plan s 0 (.inside n commands) (i :: left ++ s.output.drop (p + f.code.length))
  /-- Both are at the condition of a block. -/
  | asking {n : BlockId} {b : Block} {f : Fragment} {p : Nat} {clauses : List Clause} {a : Address}
    {yes skip : BlockId} {merge : Option BlockId} (hb : FragmentOf plan.graph n b f)
    (hl : Laid plan s p f) (he : f.ending = .branch clauses a yes skip merge) :
    Stands plan s 0 (.inside n []) (s.output.drop (p + f.code.length))
  /-- Both are about to end. -/
  | ended {n : BlockId} {b : Block} {code : List Instruction} (hb : plan.graph.block? n = some b)
    (he : b.exit = .single none) (hm : (Machine.ofCode s.output).move code = .halt) :
    Stands plan s 0 (.inside n []) code
  /-- The output has to take a goto first. -/
  | hop {k : Nat} {place : BlockGraph.Place} {a t : Address} {rest : List Instruction}
    (h : Stands plan s k place (codeFrom s.output t)) :
    Stands plan s (k + 1) place (.goto a t :: rest)
  /-- The graph has to leave a block first. -/
  | leaving {k : Nat} {n next : BlockId} {b : Block} {code : List Instruction}
    (hb : plan.graph.block? n = some b) (he : b.exit = .single (some next))
    (h : Stands plan s k (plan.graph.enter next) code) : Stands plan s (k + 1) (.inside n []) code

namespace FragmentOf

variable {g : BlockGraph} {n : BlockId} {b : Block} {f : Fragment}

theorem exit_straight (h : FragmentOf g n b f) {next : Option BlockId}
    (he : f.ending = .straight next) : b.exit = .single next := by
  cases hb : b.exit with
  | single m =>
    have hm := h.straight m hb
    rw [he] at hm
    cases hm
    rfl
  | branch clauses yes no =>
    obtain ⟨_, _, _, hm, _⟩ := h.branch clauses yes no hb
    rw [he] at hm
    cases hm

theorem exit_branch (h : FragmentOf g n b f) {clauses : List Clause} {a : Address}
    {yes skip : BlockId} {merge : Option BlockId} (he : f.ending = .branch clauses a yes skip merge) :
    merge = mergePoint g g.postDominators n ∧ ∃ yes' no', b.exit = .branch clauses yes' no' ∧
      yes'.or merge = some yes ∧ no'.or merge = some skip := by
  cases hb : b.exit with
  | single m =>
    have hm := h.straight m hb
    rw [he] at hm
    cases hm
  | branch clauses' yes' no' =>
    obtain ⟨_, _, _, hm, hyes, hno⟩ := h.branch clauses' yes' no' hb
    rw [he] at hm
    cases hm
    exact ⟨rfl, yes', no', rfl, hyes, hno⟩

theorem exitMove_branch (h : FragmentOf g n b f) {clauses : List Clause} {a : Address}
    {yes skip : BlockId} {merge : Option BlockId} (he : f.ending = .branch clauses a yes skip merge) :
    g.exitMove n b.exit = .ask clauses (g.enter yes) (g.enter skip) := by
  obtain ⟨rfl, yes', no', hb, hyes, hno⟩ := h.exit_branch he
  rw [hb, BlockGraph.exitMove, BlockGraph.branchPlace_of_or hyes, BlockGraph.branchPlace_of_or hno]

theorem enter_eq (h : FragmentOf g n b f) : g.enter n = .inside n b.commands :=
  BlockGraph.enter_of_block? h.block

theorem commands_of_nil (h : FragmentOf g n b f) (hcode : f.code = []) : b.commands = [] := by
  have hc := h.commands
  rw [hcode] at hc
  exact List.map_eq_nil_iff.1 hc.symm

end FragmentOf

/-- Where a fragment stands that control stops at, the instruction it stops at stands. -/
theorem Laid.address_of_stop {plan : Plan} {s : State} {p : Nat} {f : Fragment} {a : Address}
    (hl : Laid plan s p f) (he : f.entrance = .stop a) :
    s.output[p]?.map Instruction.address = some a := by
  rcases Plan.entrance_eq_stop he with ⟨i, left, hcode, rfl⟩ | ⟨hcode, clauses, yes, skip, merge, hend⟩
  · rw [← List.head?_drop, hl.code, hcode]
    rfl
  · have hleaves := hl.leaves
    rw [Leaves, hend, hcode] at hleaves
    obtain ⟨t, k, hcond, _⟩ := hleaves
    rw [List.length_nil, Nat.add_zero] at hcond
    rw [hcond]
    rfl

/-- When no task is left, an instruction stands where a block lands that is laid out. -/
theorem Invariant.mem_addresses_of_lands {plan : Plan} {s : State} (h : Invariant plan s)
    (hw : s.work = []) {k : Nat} {n : BlockId} {a : Address} (hl : Lands plan.fragments k n a)
    (hn : n ∉ s.unplaced) : a ∈ addresses s.output := by
  induction hl with
  | @stop n f a hf he =>
    obtain ⟨p, hlaid⟩ := h.laid n f hf hn
    obtain ⟨i, hi, rfl⟩ := Option.map_eq_some_iff.1 (hlaid.address_of_stop he)
    exact List.mem_map_of_mem (List.mem_of_getElem? hi)
  | @pass _ n next f a hf he _ ih =>
    obtain ⟨_, hend⟩ := Plan.entrance_eq_pass he
    obtain ⟨p, hlaid⟩ := h.laid n f hf hn
    have hleaves := hlaid.leaves
    rw [Leaves, hend] at hleaves
    exact ih (hleaves.placed hw)

namespace Complete

variable {plan : Plan} {s : State}

/-- Control that stops at the start of a block stands where the block is laid out. -/
theorem stands_of_stop (h : Complete plan s) {n : BlockId} {f : Fragment} {a : Address}
    (hf : plan.fragments.get? n = some f) (he : f.entrance = .stop a) (hn : n ∉ s.unplaced) :
    Stands plan s 0 (plan.graph.enter n) (codeFrom s.output a) := by
  obtain ⟨b, hb⟩ := h.fragmentOf n f hf
  obtain ⟨p, hl⟩ := h.invariant.laid n f hf hn
  rw [hb.enter_eq, codeFrom_eq_drop h.nodup (hl.address_of_stop he), hl.code]
  rcases Plan.entrance_eq_stop he with ⟨i, left, hcode, _⟩ | ⟨hcode, clauses, yes, skip, merge, hend⟩
  · have hc := hb.commands
    rw [hcode] at hc
    nth_rewrite 1 [hcode]
    exact .inside hb hl (hcode ▸ List.suffix_refl _) hc
  · nth_rewrite 1 [hcode]
    rw [hb.commands_of_nil hcode, List.nil_append]
    exact .asking hb hl hend

/-- Control that enters a block stands where it lands. -/
theorem stands_of_lands (h : Complete plan s) {k : Nat} {n : BlockId} {a : Address}
    (hl : Lands plan.fragments k n a) (hn : n ∉ s.unplaced) :
    ∃ j, Stands plan s j (plan.graph.enter n) (codeFrom s.output a) := by
  induction hl with
  | stop hf he => exact ⟨0, h.stands_of_stop hf he hn⟩
  | @pass _ n next f a hf he _ ih =>
    obtain ⟨hcode, hend⟩ := Plan.entrance_eq_pass he
    obtain ⟨b, hb⟩ := h.fragmentOf n f hf
    obtain ⟨p, hl⟩ := h.invariant.laid n f hf hn
    have hleaves := hl.leaves
    rw [Leaves, hend] at hleaves
    obtain ⟨j, hj⟩ := ih (hleaves.placed h.work)
    rw [hb.enter_eq, hb.commands_of_nil hcode]
    exact ⟨j + 1, .leaving hb.block (hb.exit_straight hend) hj⟩

/-- Where control enters a block in the output, the graph stands at the start of the block. -/
theorem stands_of_enters (h : Complete plan s) {p : Nat} {n : BlockId} (he : Enters plan s p n) :
    ∃ j, Stands plan s j (plan.graph.enter n) (s.output.drop p) := by
  induction he with
  | stop hf he hn hp => exact ⟨0, codeFrom_eq_drop h.nodup hp ▸ h.stands_of_stop hf he hn⟩
  | @jump p k n a t hp hl hn =>
    obtain ⟨j, hj⟩ := h.stands_of_lands hl (hn.placed h.work)
    obtain ⟨hlt, hgoto⟩ := List.getElem?_eq_some_iff.1 hp
    rw [List.drop_eq_getElem_cons hlt, hgoto]
    exact ⟨j + 1, .hop hj⟩
  | @pass p n m f hf he hn _ ih =>
    obtain ⟨j, hj⟩ := ih
    obtain ⟨hcode, hend⟩ := Plan.entrance_eq_pass he
    obtain ⟨b, hb⟩ := h.fragmentOf n f hf
    rw [hb.enter_eq, hb.commands_of_nil hcode]
    exact ⟨j + 1, .leaving hb.block (hb.exit_straight hend) hj⟩
  | next hw =>
    rw [h.work] at hw
    cases hw

/-- At the end of a block that has not returned, the graph stands there too. -/
theorem stands_of_laid (h : Complete plan s) {p : Nat} {n : BlockId} {b : Block} {f : Fragment}
    (hb : FragmentOf plan.graph n b f) (hl : Laid plan s p f)
    (hlast : ∀ i, f.code.getLast? = some i → i.isReturn = false) :
    ∃ j, Stands plan s j (.inside n []) (s.output.drop (p + f.code.length)) := by
  have hleaves := hl.leaves
  unfold Leaves at hleaves
  split at hleaves
  · rename_i next hend
    obtain ⟨j, hj⟩ := h.stands_of_enters hleaves
    exact ⟨j + 1, .leaving hb.block (hb.exit_straight hend) hj⟩
  · rename_i hend
    refine ⟨0, .ended hb.block (hb.exit_straight hend) ?_⟩
    rcases hleaves with ⟨a, ha⟩ | ⟨i, hi, hr⟩ | ⟨hq, _⟩
    · obtain ⟨hlt, hret⟩ := List.getElem?_eq_some_iff.1 ha
      rw [List.drop_eq_getElem_cons hlt, hret]
      rfl
    · rw [hlast i hi] at hr
      cases hr
    · rw [hq, List.drop_length]
      rfl
  · rename_i hend
    exact ⟨0, .asking hb hl hend⟩

/-- After a command of a block that is no return, both have the same commands left. -/
theorem stands_of_suffix (h : Complete plan s) {p : Nat} {n : BlockId} {b : Block} {f : Fragment}
    {a : Address} {c : Command} {left : List Instruction} {commands : List Command}
    (hb : FragmentOf plan.graph n b f) (hl : Laid plan s p f)
    (hleft : .command a c :: left <:+ f.code)
    (hc : left.map Instruction.command? = commands.map some) (hr : c.isReturn = false) :
    ∃ j, Stands plan s j (.inside n commands) (left ++ s.output.drop (p + f.code.length)) := by
  cases left with
  | nil =>
    rw [List.map_eq_nil_iff.1 hc.symm]
    refine h.stands_of_laid hb hl fun i hi => ?_
    obtain ⟨front, hfront⟩ := hleft
    rw [← hfront, List.getLast?_concat] at hi
    cases hi
    exact hr
  | cons i left => exact ⟨0, .inside hb hl ((List.suffix_cons _ _).trans hleft) hc⟩

/-- **Both make the same moves.** -/
theorem matched (h : Complete plan s) {k : Nat} {place : BlockGraph.Place}
    {code : List Instruction} (hs : Stands plan s k place code) :
    (Machine.ofGraph plan.graph).Matched (Machine.ofCode s.output) (Stands plan s) k place code := by
  cases hs with
  | @inside n b f p i left commands hb hl hleft hc =>
    cases commands with
    | nil => cases hc
    | cons c commands =>
      obtain ⟨hi, hrest⟩ := List.cons.inj hc
      obtain ⟨a, rfl⟩ := Instruction.eq_command_of_command? hi
      refine .both ?_
      simp only [Machine.ofGraph, Machine.ofCode, List.cons_append]
      cases hr : c.isReturn with
      | true => exact .halt
      | false => exact .act c (h.stands_of_suffix hb hl hleft hrest hr)
  | @asking n b f p clauses a yes skip merge hb hl he =>
    have hleaves := hl.leaves
    rw [Leaves, he] at hleaves
    obtain ⟨t, k, hcond, hlands, hskip, hyes⟩ := hleaves
    obtain ⟨hlt, hcond⟩ := List.getElem?_eq_some_iff.1 hcond
    refine .both ?_
    rw [BlockGraph.move_inside_nil hb.block, hb.exitMove_branch he, List.drop_eq_getElem_cons hlt, hcond]
    exact .ask clauses (h.stands_of_enters hyes)
      (h.stands_of_lands hlands (hskip.placed h.work))
  | ended hb he hm =>
    refine .both ?_
    rw [BlockGraph.move_inside_nil hb, he, hm]
    exact .halt
  | hop hs => exact .right rfl hs (Nat.lt_succ_self _)
  | leaving hb he hs =>
    refine .left ?_ hs (Nat.lt_succ_self _)
    rw [BlockGraph.move_inside_nil hb, he]
    rfl

/-- **A complete layout runs like its graph.** -/
theorem equivalent (h : Complete plan s) :
    (Machine.ofGraph plan.graph).Equivalent (Machine.ofCode s.output) := by
  obtain ⟨k, hk⟩ := h.stands_of_enters h.invariant.root
  exact Machine.equivalent_of_matched (Stands plan s) hk fun _ _ _ => h.matched

end Complete
end Layout
end AdventureLogic
