import Mathlib
import AdventureLogic.Proofs.Layout.Progress
import AdventureLogic.Proofs.Layout.Recompile

/-!
# Where control falls between two tasks

A layout takes one task after the other off its stack. A task may end without a
trace, because it has come to the block where it stops. Control then falls off
the end of the output, and it depends on the tasks below where it falls. They
are in order in every state that a layout reaches (`Layout.Grounded`): every
stop is the block of a deeper task, of the one right below if no goto is put
out, and the last task has no stop.

So control falls right. As long as nothing has been put out, the next task is
for a block that the stop passes control on to (`Layout.Falls`). A turn keeps
this until it puts something out, and that is the first instruction of such a
block or a goto to where the stop lands.

Key definitions: `Plan.turn`, `Plan.after`, `Layout.Grounded`, `Plan.Opens`,
`Layout.Falls`. Key theorems: `Plan.run_eq_ok_iff`, `Layout.Falls.turn`,
`Plan.falls_after`, `BlockGraph.stack_knows_where_control_falls`.
-/

namespace AdventureLogic
namespace Layout

open Program (addresses)
open Relation (ReflTransGen)

/-- What the stack of a layout knows of the blocks where its tasks stop. -/
structure Grounded (work : List Task) : Prop where
  /-- The last task does not stop at a block. -/
  bottom : ∀ task, work.getLast? = some task → task.stop = none
  /-- A task that stops at a block has a task for it below. -/
  deeper : ∀ above task below n, work = above ++ task :: below → task.stop = some n →
    ∃ u ∈ below, u.block = n
  /-- If it stops without a goto, that is the next one. -/
  beneath : ∀ above task below n, work = above ++ task :: below → task.stop = some n →
    task.jumpAtStop = false → ∃ u rest, below = u :: rest ∧ u.block = n

theorem Stacked.of_append : ∀ {above below : List Task}, Stacked (above ++ below) → Stacked below
  | [], _, h => h
  | _ :: _, _, h => of_append h.2

/-- Tasks that are in order are so all the way down. -/
theorem Stacked.grounded {work : List Task} (h : Stacked work) : Grounded work where
  bottom task hlast := by
    obtain ⟨above, rfl⟩ := List.getLast?_eq_some_iff.1 hlast
    have hstop := h.of_append.1
    cases hs : task.stop with
    | none => rfl
    | some n =>
      obtain ⟨⟨u, hu, _⟩, _⟩ := hstop n hs
      cases hu
  deeper above task below n hwork hn := by
    subst hwork
    exact (h.of_append.1 n hn).1
  beneath above task below n hwork hn hjump := by
    subst hwork
    obtain ⟨u, hu, hblock⟩ := Option.map_eq_some_iff.1 ((h.of_append.1 n hn).2 hjump)
    obtain ⟨rest, hrest⟩ := List.head?_eq_some_iff.1 hu
    exact ⟨u, rest, hrest, hblock⟩

/-! ## Turns -/

namespace Plan

/-- Takes the next task and carries it out, if there is one and it does not fail. -/
def turn (plan : Plan) (s : State) : Option State :=
  match s.work with
  | [] => none
  | task :: rest => (plan.next s task rest).result.toOption

/-- The state after some turns, if there are as many. -/
def after (plan : Plan) : Nat → State → Option State
  | 0, s => some s
  | n + 1, s => (plan.turn s).bind (plan.after n)

variable {plan : Plan} {s t : State}

theorem turn_eq_some_iff : plan.turn s = some t ↔
    ∃ task rest, s.work = task :: rest ∧ (plan.next s task rest).result = .ok t := by
  unfold turn
  cases hw : s.work with
  | nil => simp
  | cons task rest =>
    cases hr : (plan.next s task rest).result with
    | error e => simp [hr, Except.toOption]
    | ok u => simp [hr, Except.toOption]

/-- What every turn keeps holds after any number of them. -/
theorem after_induction {P : State → Prop} (hturn : ∀ {s t}, plan.turn s = some t → P s → P t) :
    ∀ {n s t}, plan.after n s = some t → P s → P t
  | 0, s, t, h, hs => by
    cases h
    exact hs
  | n + 1, s, t, h, hs => by
    obtain ⟨u, hu, h⟩ := Option.bind_eq_some_iff.1 h
    exact after_induction hturn h (hturn hu hs)

theorem after_trans {u : State} {n : Nat} (h' : plan.after n t = some u) :
    ∀ {m : Nat} {s : State}, plan.after m s = some t → plan.after (m + n) s = some u
  | 0, s, h => by
    cases h
    rwa [Nat.zero_add]
  | m + 1, s, h => by
    obtain ⟨v, hv, h⟩ := Option.bind_eq_some_iff.1 h
    rw [Nat.succ_add, after, hv, Option.bind_some, after_trans h' h]

/-- A state that is reached is the first one, or it is reached from the one after a turn. -/
theorem exists_after_iff : (∃ n, plan.after n s = some t) ↔
    s = t ∨ ∃ u, plan.turn s = some u ∧ ∃ n, plan.after n u = some t := by
  constructor
  · rintro ⟨n, h⟩
    cases n with
    | zero => exact .inl (Option.some.inj h)
    | succ n =>
      obtain ⟨u, hu, h⟩ := Option.bind_eq_some_iff.1 h
      exact .inr ⟨u, hu, n, h⟩
  · rintro (rfl | ⟨u, hu, n, h⟩)
    · exact ⟨0, rfl⟩
    · exact ⟨n + 1, by rw [after, hu, Option.bind_some, h]⟩

/-- **A run makes turns until no task is left.** -/
theorem run_eq_ok_iff :
    (plan.run s).result = .ok t ↔ t.work = [] ∧ ∃ n, plan.after n s = some t := by
  fun_induction run plan s with
  | case1 s hw =>
    have hturn : plan.turn s = none := by rw [turn, hw]
    rw [exists_after_iff, hturn]
    constructor
    · intro h
      cases h
      exact ⟨hw, .inl rfl⟩
    · rintro ⟨_, rfl | ⟨u, hu, _⟩⟩
      · rfl
      · cases hu
  | case2 s task rest hw e events hu =>
    have hturn : plan.turn s = none := by
      rw [turn, hw]
      simp only [hu, Except.toOption]
    rw [exists_after_iff, hturn]
    constructor
    · intro h
      cases h
    · rintro ⟨hnil, rfl | ⟨u, hu, _⟩⟩
      · cases hw.symm.trans hnil
      · cases hu
  | case3 s task rest hw u events hu final ih =>
    have hturn : plan.turn s = some u := turn_eq_some_iff.2 ⟨task, rest, hw, by rw [hu]⟩
    rw [exists_after_iff, hturn]
    refine ih.trans (and_congr_right fun hnil => ⟨fun h => .inr ⟨u, rfl, h⟩, ?_⟩)
    rintro (rfl | ⟨u', hu', h⟩)
    · cases hw.symm.trans hnil
    · cases hu'
      exact h

theorem invariant_after {n : Nat} (h : plan.after n s = some t) (hs : Invariant plan s) :
    Invariant plan t := by
  refine after_induction (fun hturn hs => ?_) h hs
  obtain ⟨task, rest, hw, hnext⟩ := turn_eq_some_iff.1 hturn
  exact invariant_step hs hw hnext

end Plan

/-! ## The next instruction -/

/-- The instruction that control meets first in a fragment. -/
def Fragment.Begins (f : Fragment) (i : Instruction) : Prop :=
  f.code.head? = some i ∨ f.code = [] ∧ ∃ clauses a yes skip merge target,
    f.ending = .branch clauses a yes skip merge ∧ i = .condition a clauses target

theorem Fragment.Begins.entrance {f : Fragment} {i : Instruction} (h : f.Begins i) :
    f.entrance = .stop i.address := by
  rcases h with hhead | ⟨hcode, clauses, a, yes, skip, merge, target, hending, rfl⟩
  · obtain ⟨more, hcode⟩ := List.head?_eq_some_iff.1 hhead
    rw [Fragment.entrance, hcode]
  · rw [Fragment.entrance, hcode, hending]
    rfl

/-- Control lands where it lands after it has been passed on. -/
theorem Lands.of_passesOn {fragments : Fragments} {n m : BlockId} {a : Address}
    (h : ReflTransGen (PassesOn fragments) n m) {k : Nat} (hl : Lands fragments k m a) :
    ∃ j, Lands fragments j n a := by
  induction h using ReflTransGen.head_induction_on with
  | refl => exact ⟨k, hl⟩
  | head hpass _ ih =>
    obtain ⟨f, hf, he⟩ := hpass
    obtain ⟨j, hj⟩ := ih
    exact ⟨j + 1, .pass hf he hj⟩

namespace Plan

/-- The instruction is the first of the block, or of the one that the block passes control on
to. -/
def Opens (plan : Plan) (n : BlockId) (i : Instruction) : Prop :=
  ∃ m f, ReflTransGen (PassesOn plan.fragments) n m ∧ plan.fragments.get? m = some f ∧ f.Begins i

/-- A block opens with the instruction at its entry. -/
theorem Opens.entry {plan : Plan} {n : BlockId} {i : Instruction} (h : plan.Opens n i) :
    plan.entry n = .ok i.address := by
  obtain ⟨m, f, hpass, hf, hbegins⟩ := h
  exact plan.entry_eq_ok_iff.2 (Lands.of_passesOn hpass (.stop hf hbegins.entrance))

end Plan

/-- Control that falls off the end of some output falls into a block, as far as a state shows that
has put out more since. -/
inductive Falls (plan : Plan) (output : List Instruction) (s : State) (n : BlockId) : Prop where
  /-- Nothing more has been put out, and the next task is for the block or for one that the block
  passes control on to. -/
  | pending {task : Task} {rest : List Task} (same : s.output = output)
    (work : s.work = task :: rest) (passes : ReflTransGen (PassesOn plan.fragments) n task.block)
  /-- The block has been put out. -/
  | code {i : Instruction} {more : List Instruction} (grown : s.output = output ++ i :: more)
    (opens : plan.Opens n i) (entry : plan.entry n = .ok i.address)
  /-- A goto to the block has been put out. -/
  | jump {a target : Address} {more : List Instruction}
    (grown : s.output = output ++ .goto a target :: more) (entry : plan.entry n = .ok target)

namespace Falls

variable {plan : Plan} {s t : State} {n : BlockId}

/-- Laying out the next block puts out its first instruction, unless it passes control on. -/
theorem lay {task : Task} {f : Fragment}
    (hpass : ReflTransGen (PassesOn plan.fragments) n task.block)
    (hf : plan.fragments.get? task.block = some f)
    (hlands : ∃ k a, Lands plan.fragments k task.block a) (h : Plan.Lays plan s t task f) :
    Falls plan s.output t n := by
  have hopens : ∀ {i}, f.Begins i → plan.Opens n i := fun hi => ⟨task.block, f, hpass, hf, hi⟩
  cases hcode : f.code with
  | cons i more =>
    -- However the fragment ends, its code comes first.
    have hi := hopens (.inl (by rw [hcode, List.head?_cons]))
    cases h with
    | straight _ _ hout _ | leave _ _ hout _ _ => exact .code (hcode ▸ hout) hi hi.entry
    | ret _ _ hout _ | branch _ _ _ hout _ =>
      rw [hcode, List.cons_append] at hout
      exact .code hout hi hi.entry
  | nil =>
    cases h with
    | @straight next hending hwork hout _ =>
      rw [hcode, List.append_nil] at hout
      have hnext : f.entrance = .pass next := by rw [Fragment.entrance, hcode, hending]
      exact .pending hout hwork (hpass.tail ⟨f, hf, hnext⟩)
    | leave hending _ _ _ _ | ret hending _ _ _ =>
      obtain ⟨k, a, hl⟩ := hlands
      exact absurd (Plan.entrance_eq_leave_iff.2 ⟨hcode, hending⟩) (Plan.entrance_of_lands hf hl)
    | @branch clauses a target yes skip merge k hending _ _ hout _ =>
      rw [hcode, List.nil_append] at hout
      have hi := hopens (.inr ⟨hcode, clauses, a, yes, skip, merge, some target, hending, rfl⟩)
      exact .code hout hi hi.entry

/-- **A turn lets control fall where it fell before.** -/
theorem turn {output : List Instruction} (h : Falls plan output s n) (hstack : Stacked s.work)
    (hturn : plan.turn s = some t) : Falls plan output t n := by
  obtain ⟨task, rest, hw, hnext⟩ := Plan.turn_eq_some_iff.1 hturn
  obtain ⟨new, hnew, _⟩ := (Plan.advances_step hstack hw hnext).1.output
  cases h with
  | code hgrown hopens hentry =>
    rw [hgrown, List.append_assoc, List.cons_append] at hnew
    exact .code hnew hopens hentry
  | jump hgrown hentry =>
    rw [hgrown, List.append_assoc, List.cons_append] at hnew
    exact .jump hnew hentry
  | pending hsame hwork hpass =>
    cases hw.symm.trans hwork
    subst hsame
    rw [hw] at hstack
    rcases Plan.stepped_of_step hnext with ⟨hstop, hjump, rfl⟩ | ⟨_, h⟩ | ⟨f, hf, _, hlands, h⟩
    · -- The task below is for the same block.
      obtain ⟨u, more, hmore, hblock⟩ := hstack.grounded.beneath [] _ _ _ rfl hstop hjump
      exact .pending rfl hmore (hblock ▸ hpass)
    · obtain ⟨_, _, a, target, k, hgoto, hk, _⟩ := Plan.jumpTo_eq_ok h
      exact .jump hgoto (plan.entry_eq_ok_iff.2 (Lands.of_passesOn hpass hk))
    · exact lay (s := { s with work := rest }) hpass hf hlands (Plan.lays_of_lay h).2

/-- When no task is left, control has fallen somewhere. -/
theorem output_ne {output : List Instruction} (h : Falls plan output s n) (hw : s.work = []) :
    s.output ≠ output := by
  intro hsame
  cases h with
  | pending _ hwork _ =>
    rw [hw] at hwork
    cases hwork
  | code hgrown _ _ | jump hgrown _ =>
    rw [hsame] at hgrown
    simp at hgrown

end Falls

namespace Plan

variable {plan : Plan} {s t : State}

/-- A task that has come to its stop leaves no trace, unless it needs a goto. -/
theorem turn_of_stop {task : Task} {rest : List Task} (hw : s.work = task :: rest)
    (hstop : task.stop = some task.block) (hjump : task.jumpAtStop = false) :
    plan.turn s = some { s with work := rest } := by
  refine turn_eq_some_iff.2 ⟨task, rest, hw, ?_⟩
  rw [next, step, if_pos hstop, hjump]
  rfl

theorem stacked_turn (h : Stacked s.work) (hturn : plan.turn s = some t) : Stacked t.work := by
  obtain ⟨task, rest, hw, hnext⟩ := turn_eq_some_iff.1 hturn
  exact (advances_step h hw hnext).2

/-- **Control falls into the next task's block**, however many turns are made. -/
theorem falls_after {task : Task} {rest : List Task} (hstack : Stacked s.work)
    (hw : s.work = task :: rest) {n : Nat} (h : plan.after n s = some t) :
    Falls plan s.output t task.block := by
  have hstart : Falls plan s.output s task.block := .pending rfl hw .refl
  refine (after_induction (P := fun t => Stacked t.work ∧ Falls plan s.output t task.block)
    (fun hturn hs => ?_) h ⟨hstack, hstart⟩).2
  exact ⟨stacked_turn hs.1 hturn, hs.2.turn hs.1 hturn⟩

/-- **All jumps lead to where scheduled blocks land**, in every state that is reached. -/
theorem sent_after
    (hcommands : ∀ n f, plan.fragments.get? n = some f → ∀ i ∈ f.code, ∃ a c, i = .command a c)
    {pool : AddressPool} {n : Nat} (h : plan.after n (plan.start pool) = some s) :
    ∀ i ∈ s.output, Sent plan s i := by
  refine (after_induction (P := fun s => Stacked s.work ∧ ∀ i ∈ s.output, Sent plan s i)
    (fun {s t} hturn hs => ⟨stacked_turn hs.1 hturn, fun i hi => ?_⟩) h
      ⟨(invariant_start pool).stacked, List.forall_mem_nil _⟩).2
  obtain ⟨task, rest, hw, hnext⟩ := turn_eq_some_iff.1 hturn
  obtain ⟨hadv, _⟩ := advances_step hs.1 hw hnext
  obtain ⟨new, hnew, _⟩ := hadv.output
  rw [hnew] at hi
  rcases List.mem_append.1 hi with hi | hi
  · exact (hs.2 i hi).mono hadv
  · exact sent_step hcommands hadv hnext hnew i hi

end Plan
end Layout

namespace BlockGraph

open Layout
open Program (addresses)

/-- **The tasks of a layout know where control falls.** In every state that is reached, a stop is
the block of a deeper task, of the one right below if no goto is put out there, and the last task
has no stop. A task that has come to its stop and needs no goto ends without a trace. What is put
out next is its block or a goto to it, as for any other task, and that comes before the tasks are
done. When they are done, all jumps lead to instructions. -/
theorem stack_knows_where_control_falls (g : BlockGraph) :
    (∀ (plan : Plan) (pool : AddressPool) (n : Nat) (s : State),
      plan.after n (plan.start pool) = some s →
        Grounded s.work ∧
        ∀ task rest, s.work = task :: rest →
          (task.stop = some task.block → task.jumpAtStop = false →
            plan.turn s = some { s with work := rest }) ∧
          ∀ k t, plan.after k s = some t →
            Falls plan s.output t task.block ∧ (t.work = [] → t.output ≠ s.output)) ∧
    ∀ final, g.layOut.result = .ok final →
      (∃ (plan : Plan) (pool : AddressPool) (n : Nat), plan.graph = g ∧
        g.compile.result = .ok (plan.fragments, pool) ∧
        plan.after n (plan.start pool) = some final ∧ final.work = []) ∧
      ∀ i ∈ final.output, ∀ a, i.target? = some a → a ∈ addresses final.output := by
  refine ⟨fun plan pool n s hs => ?_, fun final hfinal => ?_⟩
  · have hstack := (Plan.invariant_after hs (Plan.invariant_start pool)).stacked
    refine ⟨hstack.grounded, fun task rest hw => ⟨Plan.turn_of_stop hw, fun k t ht => ?_⟩⟩
    have hfalls := Plan.falls_after hstack hw ht
    exact ⟨hfalls, hfalls.output_ne⟩
  · obtain ⟨plan, pool, hplan, hcompile, hrun⟩ := exists_plan hfinal
    obtain ⟨hwork, n, hn⟩ := Plan.run_eq_ok_iff.1 hrun
    refine ⟨⟨plan, pool, n, hplan, hcompile, hn, hwork⟩, fun i hi a ha => ?_⟩
    have hinv := Plan.invariant_after hn (Plan.invariant_start pool)
    refine (Plan.sent_after (fun m f hf i hi => ?_) hn i hi).target_mem hinv hwork ha
    obtain ⟨b, hb⟩ := fragmentOf_compile hcompile hf
    exact hb.eq_command hi

/-- A condition within a branch of another. The branches all end at the last block, and one has no
commands. -/
def nestedGraph : BlockGraph where
  entries := #[
    .ofBlock { commands := [⟨12, [1]⟩], exit := .branch [.test ⟨7, [5], false⟩] (some 1) (some 2) },
    .ofBlock { commands := [⟨12, [2]⟩], exit := .branch [.test ⟨7, [6], false⟩] (some 3) (some 4) },
    .ofBlock { commands := [], exit := .single (some 4) },
    .ofBlock { commands := [⟨12, [3]⟩], exit := .single (some 4) },
    .ofBlock { commands := [⟨12, [4]⟩], exit := .single none }]

theorem stack_knows_where_control_falls_nestedGraph :
    ∃ (plan : Plan) (pool : AddressPool) (s t u final : State),
      nestedGraph.compile.result = .ok (plan.fragments, pool) ∧
      (plan.after 3 (plan.start pool) = some s ∧ Grounded s.work ∧
        s.work = [⟨4, some 4, false⟩, ⟨4, some 4, true⟩, ⟨2, some 4, false⟩, ⟨4, none, false⟩] ∧
        plan.turn s = some { s with work := s.work.tail } ∧
        plan.after 2 s = some t ∧ t.output = s.output ++ [.goto 6 5] ∧
        Falls plan s.output t 4) ∧
      (plan.after 6 (plan.start pool) = some u ∧ Grounded u.work ∧
        u.work = [⟨4, some 4, false⟩, ⟨4, none, false⟩] ∧
        plan.turn u = some { u with work := u.work.tail } ∧
        plan.after 2 u = some final ∧ final.work = [] ∧
        final.output = u.output ++ [.command 5 ⟨12, [4]⟩] ∧
        Falls plan u.output final 4 ∧ final.output ≠ u.output) ∧
      nestedGraph.layOut.result = .ok final ∧ .goto 6 5 ∈ final.output ∧
        5 ∈ addresses final.output := by
  have hrun : (nestedGraph.compile.result.toOption.bind fun compiled =>
      let plan : Plan := { graph := nestedGraph, fragments := compiled.1 }
      (plan.after 3 (plan.start compiled.2)).bind fun s => (plan.after 2 s).bind fun t =>
      (plan.after 1 t).bind fun u => (plan.after 2 u).map fun final =>
        (s.work, decide (t.output = s.output ++ [.goto 6 5]), u.work, final.work,
          decide (final.output = u.output ++ [.command 5 ⟨12, [4]⟩]),
          decide (.goto 6 5 ∈ final.output))) =
      some ([⟨4, some 4, false⟩, ⟨4, some 4, true⟩, ⟨2, some 4, false⟩, ⟨4, none, false⟩], true,
        [⟨4, some 4, false⟩, ⟨4, none, false⟩], [], true, true) := by cbv
  obtain ⟨⟨fragments, pool⟩, hcompile, hrun⟩ := Option.bind_eq_some_iff.1 hrun
  obtain ⟨s, hs, hrun⟩ := Option.bind_eq_some_iff.1 hrun
  obtain ⟨t, ht, hrun⟩ := Option.bind_eq_some_iff.1 hrun
  obtain ⟨u, htu, hrun⟩ := Option.bind_eq_some_iff.1 hrun
  obtain ⟨final, hu, hrun⟩ := Option.map_eq_some_iff.1 hrun
  simp only [Prod.mk.injEq, decide_eq_true_eq] at hrun
  obtain ⟨hworkS, hgoto, hworkU, hdone, hcode, hmem⟩ := hrun
  have hcompile := Result.eq_ok_of_toOption hcompile
  have hsu := Plan.after_trans htu (Plan.after_trans ht hs)
  have hfinal : nestedGraph.layOut.result = .ok final := by
    have hrun := Plan.run_eq_ok_iff.2 ⟨hdone, _, Plan.after_trans hu hsu⟩
    exact Logged.result_bind_eq_ok.2 ⟨(), rfl, Logged.result_bind_eq_ok.2 ⟨_, hcompile,
      Logged.result_bind_eq_ok.2 ⟨(), rfl, Logged.result_bind_eq_ok.2 ⟨final, hrun,
        Logged.result_bind_eq_ok.2 ⟨(), rfl, rfl⟩⟩⟩⟩⟩
  obtain ⟨hstack, hlayout⟩ := stack_knows_where_control_falls nestedGraph
  obtain ⟨hgroundedS, hnextS⟩ := hstack _ _ _ _ hs
  obtain ⟨hsilentS, hfallsS⟩ := hnextS _ _ hworkS
  obtain ⟨hgroundedU, hnextU⟩ := hstack _ _ _ _ hsu
  obtain ⟨hsilentU, hfallsU⟩ := hnextU _ _ hworkU
  refine ⟨{ graph := nestedGraph, fragments := fragments }, pool, s, t, u, final, hcompile,
    ⟨hs, hgroundedS, hworkS, ?_, ht, hgoto, (hfallsS _ _ ht).1⟩,
    ⟨hsu, hgroundedU, hworkU, ?_, hu, hdone, hcode, (hfallsU _ _ hu).1,
      (hfallsU _ _ hu).2 hdone⟩,
    hfinal, hmem, (hlayout final hfinal).2 _ hmem 5 rfl⟩
  · rw [hsilentS rfl rfl, hworkS, List.tail_cons]
  · rw [hsilentU rfl rfl, hworkU, List.tail_cons]

end BlockGraph
end AdventureLogic
