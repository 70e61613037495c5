import AdventureLogic.Layout.Stitch
import AdventureLogic.Proofs.Behaviour.Code

/-!
# Where control goes while fragments are laid out

The output grows at its end, and what has been put out does not change. Each
position where control may enter a block is one of four: the first instruction
of the block stands there, a goto to where the block lands stands there, the
block is empty and control enters the next one there, or it is the end of the
output and the next task is to lay out the block (`Enters`). The last case is a
promise. Every task keeps it: it puts out the block or a goto to it, or it stops
silently at a block that the task below it is about to lay out (`Stacked`). When
no task is left, all promises are kept.

Key definitions: `Layout.Enters`, `Layout.Laid`, `Layout.Stacked`,
`Layout.Invariant`, `Plan.Stepped`, `Plan.Lays`. Key theorems:
`Plan.invariant_step`, `Plan.invariant_run`.
-/

namespace AdventureLogic
namespace Layout

/-- What a fragment can show when it runs. -/
def Fragment.effects (f : Fragment) : List Effect :=
  effectsOf f.code ++
    match f.ending with
    | .straight _ => []
    | .branch clauses _ _ _ _ => [.test clauses]

/-- Code that shows nothing but what fragments show, and returns. -/
def Sourced (plan : Plan) (code : List Instruction) : Prop :=
  ∀ e ∈ effectsOf code, e = .command Command.ret ∨
    ∃ n f, plan.fragments.get? n = some f ∧ e ∈ f.effects

theorem Sourced.append {plan : Plan} {code code' : List Instruction} (h : Sourced plan code)
    (h' : Sourced plan code') : Sourced plan (code ++ code') := by
  intro e he
  rw [effectsOf_append, List.mem_append] at he
  exact he.elim (h e) (h' e)

/-- The block has been laid out, or a task is going to see to it. -/
def Scheduled (s : State) (n : BlockId) : Prop := n ∉ s.unplaced ∨ ∃ task ∈ s.work, task.block = n

/-- Control at a position of the output enters a block. -/
inductive Enters (plan : Plan) (s : State) : Nat → BlockId → Prop where
  /-- The block starts there. -/
  | stop {p : Nat} {n : BlockId} {f : Fragment} {a : Address}
    (hf : plan.fragments.get? n = some f) (he : f.entrance = .stop a) (hn : n ∉ s.unplaced)
    (hp : s.output[p]?.map Instruction.address = some a) : Enters plan s p n
  /-- A goto to the block stands there. -/
  | jump {p k : Nat} {n : BlockId} {a t : Address} (hp : s.output[p]? = some (.goto a t))
    (hl : Lands plan.fragments k n t) (hn : Scheduled s n) : Enters plan s p n
  /-- The block is empty, and control enters the next one there. -/
  | pass {p : Nat} {n m : BlockId} {f : Fragment} (hf : plan.fragments.get? n = some f)
    (he : f.entrance = .pass m) (hn : n ∉ s.unplaced) (h : Enters plan s p m) : Enters plan s p n
  /-- The block is the next to be laid out. -/
  | next {task : Task} {rest : List Task} (hw : s.work = task :: rest) :
    Enters plan s s.output.length task.block

/-- When no task is left, what was scheduled is laid out. -/
theorem Scheduled.placed {s : State} {n : BlockId} (hn : Scheduled s n) (hw : s.work = []) :
    n ∉ s.unplaced := by
  rcases hn with hn | ⟨task, ht, _⟩
  · exact hn
  · rw [hw] at ht
    cases ht

theorem Enters.placed {plan : Plan} {s : State} {p : Nat} {n : BlockId} (he : Enters plan s p n)
    (hw : s.work = []) : n ∉ s.unplaced := by
  cases he with
  | stop _ _ hn _ => exact hn
  | jump _ _ hn => exact hn.placed hw
  | pass _ _ hn _ => exact hn
  | next hw' =>
    rw [hw] at hw'
    cases hw'

/-- Control at a position of the output, after the code of a fragment, does what the fragment
does. -/
def Leaves (plan : Plan) (s : State) (q : Nat) (f : Fragment) : Prop :=
  match f.ending with
  | .straight (some next) => Enters plan s q next
  | .straight none =>
    (∃ a, s.output[q]? = some (.command a Command.ret)) ∨
      (∃ i, f.code.getLast? = some i ∧ i.isReturn) ∨ q = s.output.length ∧ s.work = []
  | .branch clauses a yes skip _ =>
    ∃ t k, s.output[q]? = some (.condition a clauses (some t)) ∧ Lands plan.fragments k skip t ∧
      Scheduled s skip ∧ Enters plan s (q + 1) yes

/-- A fragment stands at a position of the output. -/
structure Laid (plan : Plan) (s : State) (p : Nat) (f : Fragment) : Prop where
  bound : p + f.code.length ≤ s.output.length
  code : s.output.drop p = f.code ++ s.output.drop (p + f.code.length)
  leaves : Leaves plan s (p + f.code.length) f

/-- A task that stops at a block has a task for that block below it, and right below it if it stops
without a goto. -/
def Stacked : List Task → Prop
  | [] => True
  | task :: rest =>
    (∀ m, task.stop = some m → (∃ u ∈ rest, u.block = m) ∧
      (task.jumpAtStop = false → rest.head?.map Task.block = some m)) ∧ Stacked rest

/-- What holds before and after every step. -/
structure Invariant (plan : Plan) (s : State) : Prop where
  laid : ∀ n f, plan.fragments.get? n = some f → n ∉ s.unplaced → ∃ p, Laid plan s p f
  root : Enters plan s 0 plan.graph.root
  sourced : Sourced plan s.output
  stacked : Stacked s.work

/-- The state `t` comes from `s` by a step that carries out the next task. -/
structure Advances (plan : Plan) (s t : State) (task : Task) (rest : List Task) : Prop where
  work : s.work = task :: rest
  output : ∃ new, t.output = s.output ++ new ∧ Sourced plan new
  placed : ∀ n, n ∉ s.unplaced → n ∉ t.unplaced
  kept : ∀ u ∈ rest, u ∈ t.work
  scheduled : Scheduled t task.block
  /-- The promise of the task is kept, or passed on. -/
  enters : Enters plan t s.output.length task.block

namespace Advances

variable {plan : Plan} {s t : State} {task : Task} {rest : List Task}

theorem getElem?_output (h : Advances plan s t task rest) {p : Nat} {i : Instruction}
    (hp : s.output[p]? = some i) : t.output[p]? = some i := by
  obtain ⟨new, hnew, _⟩ := h.output
  rw [hnew, List.getElem?_append_left (List.getElem?_eq_some_iff.1 hp).1, hp]

theorem scheduled_mono (h : Advances plan s t task rest) {n : BlockId} (hn : Scheduled s n) :
    Scheduled t n := by
  rcases hn with hn | ⟨u, hu, rfl⟩
  · exact .inl (h.placed n hn)
  · rw [h.work] at hu
    rcases List.mem_cons.1 hu with rfl | hu
    · exact h.scheduled
    · exact .inr ⟨u, h.kept u hu, rfl⟩

theorem enters_mono (h : Advances plan s t task rest) {p : Nat} {n : BlockId}
    (he : Enters plan s p n) : Enters plan t p n := by
  induction he with
  | stop hf he hn hp =>
    obtain ⟨i, hi, ha⟩ := Option.map_eq_some_iff.1 hp
    exact .stop hf he (h.placed _ hn) (by rw [h.getElem?_output hi, Option.map_some, ha])
  | jump hp hl hn => exact .jump (h.getElem?_output hp) hl (h.scheduled_mono hn)
  | pass hf he hn _ ih => exact .pass hf he (h.placed _ hn) ih
  | next hw =>
    rw [h.work] at hw
    cases hw
    exact h.enters

theorem laid_mono (h : Advances plan s t task rest) {p : Nat} {f : Fragment}
    (hl : Laid plan s p f) : Laid plan t p f := by
  obtain ⟨new, hnew, _⟩ := h.output
  have hbound := hl.bound
  refine ⟨?_, ?_, ?_⟩
  · rw [hnew, List.length_append]
    omega
  · rw [hnew, List.drop_append_of_le_length (by omega), List.drop_append_of_le_length hbound,
      hl.code, List.append_assoc]
  · have hleaves := hl.leaves
    unfold Leaves at hleaves ⊢
    split at hleaves
    · exact h.enters_mono hleaves
    · rcases hleaves with ⟨a, ha⟩ | hlast | ⟨_, hnil⟩
      · exact .inl ⟨a, h.getElem?_output ha⟩
      · exact .inr (.inl hlast)
      · rw [h.work] at hnil
        cases hnil
    · obtain ⟨t', k, hc, hlands, hs, he⟩ := hleaves
      exact ⟨t', k, h.getElem?_output hc, hlands, h.scheduled_mono hs, h.enters_mono he⟩

/-- The invariant after a step, if the step keeps the stack in order and what it has placed is laid
out. -/
theorem invariant (h : Advances plan s t task rest) (hs : Invariant plan s)
    (hstack : Stacked t.work)
    (hnew : ∀ n f, plan.fragments.get? n = some f → n ∈ s.unplaced → n ∉ t.unplaced →
      ∃ p, Laid plan t p f) : Invariant plan t where
  laid n f hf hn := by
    by_cases hold : n ∈ s.unplaced
    · exact hnew n f hf hold hn
    · obtain ⟨p, hp⟩ := hs.laid n f hf hold
      exact ⟨p, h.laid_mono hp⟩
  root := h.enters_mono hs.root
  sourced := by
    obtain ⟨new, hnew, hsourced⟩ := h.output
    rw [hnew]
    exact hs.sourced.append hsourced
  stacked := hstack

end Advances

/-- An empty fragment lands where the next one does. -/
theorem Lands.of_pass {fragments : Fragments} {k : Nat} {n m : BlockId} {f : Fragment} {a : Address}
    (hl : Lands fragments k n a) (hf : fragments.get? n = some f) (he : f.entrance = .pass m) :
    ∃ j < k, Lands fragments j m a := by
  cases hl with
  | stop hf' he' =>
    rw [hf] at hf'
    cases hf'
    rw [he] at he'
    cases he'
  | pass hf' he' hm =>
    rw [hf] at hf'
    cases hf'
    rw [he] at he'
    cases he'
    exact ⟨_, Nat.lt_succ_self _, hm⟩

namespace Plan

variable {plan : Plan} {s t : State}

/-- A goto to a block leads to where the block lands. -/
theorem jumpTo_eq_ok {n : BlockId} (h : (plan.jumpTo s n).result = .ok t) :
    t.work = s.work ∧ t.unplaced = s.unplaced ∧ ∃ a target k,
      t.output = s.output ++ [.goto a target] ∧ Lands plan.fragments k n target ∧
      s.pool.fresh = .ok (a, t.pool) := by
  obtain ⟨target, htarget, h⟩ := Logged.result_bind_eq_ok.1 h
  obtain ⟨⟨a, pool⟩, hfresh, h⟩ := Logged.result_bind_eq_ok.1 h
  obtain ⟨_, _, h⟩ := Logged.result_bind_eq_ok.1 h
  cases h
  obtain ⟨k, hk⟩ := plan.entry_eq_ok_iff.1 htarget
  exact ⟨rfl, rfl, a, target, k, s.output_emit _, hk, hfresh⟩

/-- After a block that leaves the logic nothing is put out, or a return. -/
theorem leave_eq_ok {n : BlockId} (h : (plan.leave s n).result = .ok t) :
    t.work = s.work ∧ t.unplaced = s.unplaced ∧
      (t.output = s.output ∧ t.pool = s.pool ∧
          (s.work = [] ∨ ∃ i, s.output.getLast? = some i ∧ i.isReturn) ∨
        ∃ a, t.output = s.output ++ [.command a Command.ret] ∧
          s.pool.fresh = .ok (a, t.pool)) := by
  unfold leave at h
  split at h
  · rename_i hcond
    cases h
    refine ⟨rfl, rfl, .inl ⟨rfl, rfl, ?_⟩⟩
    rw [Bool.or_eq_true, List.isEmpty_iff, Option.any_eq_true] at hcond
    refine hcond.imp_right ?_
    rintro ⟨i, hi, hr⟩
    exact ⟨i, by rw [State.output, List.getLast?_reverse, hi], hr⟩
  · obtain ⟨⟨a, pool⟩, hfresh, h⟩ := Logged.result_bind_eq_ok.1 h
    obtain ⟨_, _, h⟩ := Logged.result_bind_eq_ok.1 h
    cases h
    exact ⟨rfl, rfl, .inr ⟨a, s.output_emit _, hfresh⟩⟩

/-- The ways in which a fragment can be laid out. -/
inductive Lays (plan : Plan) (s t : State) (task : Task) (f : Fragment) : Prop where
  /-- The next block is left to do. -/
  | straight {next : BlockId} (hending : f.ending = .straight (some next))
    (hwork : t.work = { task with block := next } :: s.work) (hout : t.output = s.output ++ f.code)
    (hpool : t.pool = s.pool)
  /-- It leaves the logic, by a return of its own or because nothing follows. -/
  | leave (hending : f.ending = .straight none) (hwork : t.work = s.work)
    (hout : t.output = s.output ++ f.code) (hpool : t.pool = s.pool)
    (hend : s.work = [] ∨ ∃ i, (s.output ++ f.code).getLast? = some i ∧ i.isReturn)
  /-- It leaves the logic by a return that is put out after it. -/
  | ret {a : Address} (hending : f.ending = .straight none) (hwork : t.work = s.work)
    (hout : t.output = s.output ++ (f.code ++ [.command a Command.ret]))
    (hfresh : s.pool.fresh = .ok (a, t.pool))
  /-- Its condition is put out, and the branches are left to do. -/
  | branch {clauses : List Clause} {a target : Address} {yes skip : BlockId}
    {merge : Option BlockId} {k : Nat} (hending : f.ending = .branch clauses a yes skip merge)
    (hlands : Lands plan.fragments k skip target)
    (hwork : t.work = task.ofBranch yes skip merge ++ s.work)
    (hout : t.output = s.output ++ (f.code ++ [.condition a clauses (some target)]))
    (hpool : t.pool = s.pool)

theorem lays_of_lay {task : Task} {f : Fragment} (h : (plan.lay s task f).result = .ok t) :
    t.unplaced = s.unplaced.erase task.block ∧ Lays plan s t task f := by
  have hcode : ((s.place task.block).emit f.code).output = s.output ++ f.code :=
    State.output_emit _ _
  unfold lay at h
  dsimp only at h
  split at h
  · rename_i next hending
    cases h
    exact ⟨rfl, .straight hending rfl hcode rfl⟩
  · rename_i hending
    obtain ⟨hwork, hunplaced, hout⟩ := leave_eq_ok h
    rw [hcode] at hout
    refine ⟨hunplaced, ?_⟩
    rcases hout with ⟨hout, hpool, hend⟩ | ⟨a, hout, hfresh⟩
    · exact .leave hending hwork hout hpool hend
    · exact .ret hending hwork (by rw [hout, List.append_assoc]) hfresh
  · rename_i clauses a yes skip merge hending
    obtain ⟨target, htarget, h⟩ := Logged.result_bind_eq_ok.1 h
    cases h
    obtain ⟨k, hk⟩ := plan.entry_eq_ok_iff.1 htarget
    refine ⟨rfl, .branch hending hk rfl ((State.output_emit _ _).trans ?_) rfl⟩
    rw [hcode, List.append_assoc]

/-- The ways in which a step can carry out a task. -/
inductive Stepped (plan : Plan) (s t : State) (task : Task) : Prop where
  /-- It stops without a trace. -/
  | silent (hstop : task.stop = some task.block) (hjump : task.jumpAtStop = false) (h : t = s)
  /-- It puts out a goto, because the block is laid out elsewhere. -/
  | jump (hwhere : task.stop = some task.block ∨ task.block ∉ s.unplaced)
    (h : (plan.jumpTo s task.block).result = .ok t)
  /-- It lays out the block. -/
  | lay (f : Fragment) (hf : plan.fragments.get? task.block = some f)
    (hn : task.block ∈ s.unplaced) (hlands : ∃ k a, Lands plan.fragments k task.block a)
    (h : (plan.lay s task f).result = .ok t)

theorem stepped_of_step {task : Task} (h : (plan.step s task).result = .ok t) :
    Stepped plan s t task := by
  unfold step at h
  split at h
  · rename_i hstop
    split at h
    · exact .jump (.inl hstop) h
    · rename_i hjump
      cases h
      exact .silent hstop (by simpa using hjump) rfl
  · obtain ⟨f, hf, h⟩ := Logged.result_bind_eq_ok.1 h
    split at h
    · rename_i hn
      obtain ⟨a, ha, h⟩ := Logged.result_bind_eq_ok.1 h
      obtain ⟨k, hk⟩ := plan.entry_eq_ok_iff.1 ha
      exact .lay f (plan.fragment_eq_ok_iff.1 hf) hn ⟨k, a, hk⟩ h
    · rename_i hn
      exact .jump (.inr hn) h

/-- A fragment that lands is entered at its first instruction, or is empty and leads on. -/
theorem entrance_of_lands {n k : Nat} {a : Address} {f : Fragment}
    (hf : plan.fragments.get? n = some f) (h : Lands plan.fragments k n a) :
    f.entrance ≠ .leave := by
  intro hl
  cases h with
  | stop hf' he =>
    rw [hf] at hf'
    cases hf'
    rw [hl] at he
    cases he
  | pass hf' he _ =>
    rw [hf] at hf'
    cases hf'
    rw [hl] at he
    cases he

theorem entrance_eq_pass {f : Fragment} {m : BlockId} (h : f.entrance = .pass m) :
    f.code = [] ∧ f.ending = .straight (some m) := by
  unfold Fragment.entrance at h
  split at h
  · cases h
  · rename_i hcode
    split at h
    · cases h
    · rename_i hending
      cases h
      exact ⟨hcode, hending⟩
    · cases h

theorem entrance_eq_stop {f : Fragment} {a : Address} (h : f.entrance = .stop a) :
    (∃ i rest, f.code = i :: rest ∧ i.address = a) ∨
      f.code = [] ∧ ∃ clauses yes skip merge, f.ending = .branch clauses a yes skip merge := by
  unfold Fragment.entrance at h
  split at h
  · rename_i i rest hcode
    cases h
    exact .inl ⟨i, rest, hcode, rfl⟩
  · rename_i hcode
    split at h
    · rename_i clauses a' yes skip merge hending
      cases h
      exact .inr ⟨hcode, clauses, yes, skip, merge, hending⟩
    · cases h
    · cases h

theorem entrance_eq_leave_iff {f : Fragment} :
    f.entrance = .leave ↔ f.code = [] ∧ f.ending = .straight none := by
  constructor
  · intro h
    unfold Fragment.entrance at h
    split at h
    · cases h
    · rename_i hcode
      split at h
      · cases h
      · cases h
      · rename_i hending
        exact ⟨hcode, hending⟩
  · rintro ⟨hcode, hending⟩
    rw [Fragment.entrance, hcode, hending]

theorem not_mem_erase_self (unplaced : Std.TreeSet BlockId) (n : BlockId) :
    n ∉ unplaced.erase n := by
  rw [Std.TreeSet.mem_erase]
  exact fun h => h.1 Std.ReflCmp.compare_self

theorem eq_of_not_mem_erase {unplaced : Std.TreeSet BlockId} {n m : BlockId} (hm : m ∈ unplaced)
    (hn : m ∉ unplaced.erase n) : n = m :=
  Classical.byContradiction fun hne =>
    hn (Std.TreeSet.mem_erase.2 ⟨fun h => hne (Std.LawfulEqCmp.eq_of_compare h), hm⟩)

theorem sourced_nil : Sourced plan [] := fun _ he => nomatch he

theorem sourced_code {n : BlockId} {f : Fragment} (hf : plan.fragments.get? n = some f) :
    Sourced plan f.code :=
  fun _ he => .inr ⟨n, f, hf, List.mem_append_left _ he⟩

/-- What laying out a fragment does, however the fragment ends. -/
structure LaysOut (plan : Plan) (s t : State) (task : Task) (f : Fragment) : Prop where
  fragment : plan.fragments.get? task.block = some f
  unplaced : t.unplaced = s.unplaced.erase task.block
  output : ∃ new, t.output = s.output ++ (f.code ++ new) ∧ Sourced plan new
  kept : ∀ u ∈ s.work, u ∈ t.work
  leaves : Leaves plan t (s.output.length + f.code.length) f

namespace LaysOut

variable {task : Task} {f : Fragment}

theorem laid (h : LaysOut plan s t task f) : Laid plan t s.output.length f := by
  obtain ⟨new, hnew, _⟩ := h.output
  refine ⟨?_, ?_, h.leaves⟩
  · rw [hnew, List.length_append, List.length_append]
    omega
  · rw [hnew, List.drop_left, ← List.append_assoc, ← List.length_append, List.drop_left]

/-- Control at the old end of the output enters the block. -/
theorem enters (h : LaysOut plan s t task f)
    (hlands : ∃ k a, Lands plan.fragments k task.block a) :
    Enters plan t s.output.length task.block := by
  obtain ⟨k, a, hl⟩ := hlands
  obtain ⟨new, hnew, _⟩ := h.output
  have hplaced : task.block ∉ t.unplaced := by
    rw [h.unplaced]
    exact not_mem_erase_self _ _
  have hleaves := h.leaves
  cases he : f.entrance with
  | leave => exact absurd he (entrance_of_lands h.fragment hl)
  | pass m =>
    obtain ⟨hcode, hending⟩ := entrance_eq_pass he
    rw [Leaves, hending, hcode] at hleaves
    exact .pass h.fragment he hplaced hleaves
  | stop b =>
    refine .stop h.fragment he hplaced ?_
    rcases entrance_eq_stop he with ⟨i, rest, hcode, rfl⟩ | ⟨hcode, clauses, yes, skip, merge, hending⟩
    · rw [hnew, hcode, List.cons_append, List.getElem?_append_right (Nat.le_refl _)]
      simp
    · rw [Leaves, hending, hcode] at hleaves
      obtain ⟨u, j, hcond, _⟩ := hleaves
      rw [List.length_nil, Nat.add_zero] at hcond
      rw [hcond]
      rfl

theorem advances {rest : List Task} (h : LaysOut plan { s with work := rest } t task f)
    (hw : s.work = task :: rest) (hlands : ∃ k a, Lands plan.fragments k task.block a) :
    Advances plan s t task rest where
  work := hw
  output := by
    obtain ⟨new, hnew, hsourced⟩ := h.output
    exact ⟨f.code ++ new, hnew, (sourced_code h.fragment).append hsourced⟩
  placed n hn hnt := by
    rw [h.unplaced] at hnt
    exact hn (Std.TreeSet.mem_of_mem_erase hnt)
  kept := h.kept
  scheduled := by
    refine .inl ?_
    rw [h.unplaced]
    exact not_mem_erase_self _ _
  enters := h.enters hlands

end LaysOut

/-- A branch leaves its tasks in order: the one for the skipped block is there, and the first one is
for the block entered next. -/
theorem stacked_ofBranch {task : Task} {rest : List Task} (yes skip : BlockId)
    (merge : Option BlockId) (h : Stacked (task :: rest)) :
    Stacked (task.ofBranch yes skip merge ++ rest) := by
  obtain ⟨hstop, hrest⟩ := h
  unfold Task.ofBranch
  split
  · split
    · exact ⟨fun m hm => by cases hm; simp, hstop, hrest⟩
    · refine ⟨fun m hm => ?_, fun m hm => ?_, hstop, hrest⟩
      · cases hm
        simp
      · cases hm
        simp
  · exact ⟨fun m hm => by cases hm; simp, hstop, hrest⟩

theorem ofBranch_eq (task : Task) (yes skip : BlockId) (merge : Option BlockId) :
    ∃ first more, task.ofBranch yes skip merge = first :: more ∧ first.block = yes ∧
      ∃ u ∈ more, u.block = skip := by
  unfold Task.ofBranch
  split
  · split
    · exact ⟨_, _, rfl, rfl, _, List.mem_cons_self, rfl⟩
    · exact ⟨_, _, rfl, rfl, _, List.mem_cons_self, rfl⟩
  · exact ⟨_, _, rfl, rfl, _, List.mem_cons_self, rfl⟩

section Lay

variable {task : Task} {f : Fragment}

theorem laysOut_straight {next : BlockId} (hf : plan.fragments.get? task.block = some f)
    (hending : f.ending = .straight (some next))
    (hwork : t.work = { task with block := next } :: s.work)
    (hunplaced : t.unplaced = s.unplaced.erase task.block)
    (hout : t.output = s.output ++ f.code) : LaysOut plan s t task f := by
  refine ⟨hf, hunplaced, ⟨[], by rw [hout, List.append_nil], sourced_nil⟩, fun u hu => ?_, ?_⟩
  · rw [hwork]
    exact List.mem_cons_of_mem _ hu
  · rw [Leaves, hending, ← List.length_append, ← hout]
    exact .next hwork

theorem laysOut_leave (hf : plan.fragments.get? task.block = some f) (hcode : f.code ≠ [])
    (hending : f.ending = .straight none) (hwork : t.work = s.work)
    (hunplaced : t.unplaced = s.unplaced.erase task.block) (hout : t.output = s.output ++ f.code)
    (hend : s.work = [] ∨ ∃ i, (s.output ++ f.code).getLast? = some i ∧ i.isReturn) :
    LaysOut plan s t task f := by
  refine ⟨hf, hunplaced, ⟨[], by rw [hout, List.append_nil], sourced_nil⟩, fun u hu => hwork ▸ hu, ?_⟩
  rw [Leaves, hending]
  rcases hend with hnil | ⟨i, hi, hr⟩
  · exact .inr (.inr ⟨by rw [hout, List.length_append], hwork.trans hnil⟩)
  · rw [List.getLast?_append, List.getLast?_eq_some_getLast hcode, Option.some_or] at hi
    exact .inr (.inl ⟨i, (List.getLast?_eq_some_getLast hcode).trans hi, hr⟩)

theorem laysOut_ret {a : Address} (hf : plan.fragments.get? task.block = some f)
    (hending : f.ending = .straight none) (hwork : t.work = s.work)
    (hunplaced : t.unplaced = s.unplaced.erase task.block)
    (hout : t.output = s.output ++ (f.code ++ [.command a Command.ret])) :
    LaysOut plan s t task f := by
  refine ⟨hf, hunplaced, ⟨_, hout, fun e he => .inl (List.mem_singleton.1 he)⟩,
    fun u hu => hwork ▸ hu, ?_⟩
  rw [Leaves, hending]
  refine .inl ⟨a, ?_⟩
  rw [hout, ← List.append_assoc, ← List.length_append, List.getElem?_concat_length]

theorem laysOut_branch {clauses : List Clause} {a target : Address} {yes skip : BlockId}
    {merge : Option BlockId} {k : Nat}
    (hf : plan.fragments.get? task.block = some f)
    (hending : f.ending = .branch clauses a yes skip merge)
    (hk : Lands plan.fragments k skip target)
    (hwork : t.work = task.ofBranch yes skip merge ++ s.work)
    (hunplaced : t.unplaced = s.unplaced.erase task.block)
    (hout : t.output = s.output ++ (f.code ++ [.condition a clauses (some target)])) :
    LaysOut plan s t task f := by
  obtain ⟨first, more, hbranch, rfl, u, hu, hskip⟩ := ofBranch_eq task yes skip merge
  rw [hbranch] at hwork
  refine ⟨hf, hunplaced, ⟨_, hout, ?_⟩, fun u hu => ?_, ?_⟩
  · intro e he
    refine .inr ⟨task.block, f, hf, List.mem_append_right _ ?_⟩
    rw [hending]
    exact he
  · rw [hwork]
    exact List.mem_append_right _ hu
  · have hlen : s.output.length + f.code.length + 1 = t.output.length := by
      rw [hout, List.length_append, List.length_append]
      rfl
    rw [Leaves, hending]
    refine ⟨target, k, ?_, hk, .inr ⟨u, ?_, hskip⟩, ?_⟩
    · rw [hout, ← List.append_assoc, ← List.length_append, List.getElem?_concat_length]
    · rw [hwork]
      exact List.mem_append_left _ (List.mem_cons_of_mem _ hu)
    · rw [hlen]
      exact .next hwork

theorem stacked_of_lay {rest : List Task} (hstack : Stacked (task :: rest)) (hw : s.work = rest)
    (h : (plan.lay s task f).result = .ok t) : Stacked t.work := by
  subst hw
  cases (lays_of_lay h).2 with
  | straight _ hwork _ _ =>
    rw [hwork]
    exact hstack
  | leave _ hwork _ _ _ | ret _ hwork _ _ =>
    rw [hwork]
    exact hstack.2
  | branch _ _ hwork _ _ =>
    rw [hwork]
    exact stacked_ofBranch _ _ _ hstack

theorem laysOut_of_lay (hf : plan.fragments.get? task.block = some f)
    (hlands : ∃ k a, Lands plan.fragments k task.block a)
    (h : (plan.lay s task f).result = .ok t) : LaysOut plan s t task f := by
  obtain ⟨hunplaced, hlays⟩ := lays_of_lay h
  cases hlays with
  | straight hending hwork hout _ => exact laysOut_straight hf hending hwork hunplaced hout
  | leave hending hwork hout _ hend =>
    refine laysOut_leave hf (fun hnil => ?_) hending hwork hunplaced hout hend
    obtain ⟨k, a, hl⟩ := hlands
    exact entrance_of_lands hf hl (entrance_eq_leave_iff.2 ⟨hnil, hending⟩)
  | ret hending hwork hout _ => exact laysOut_ret hf hending hwork hunplaced hout
  | branch hending hk hwork hout _ => exact laysOut_branch hf hending hk hwork hunplaced hout

end Lay

/-- A step keeps the promises: it advances, and the tasks stay in order. -/
theorem advances_step {task : Task} {rest : List Task} (hstack : Stacked s.work)
    (hw : s.work = task :: rest) (h : (plan.next s task rest).result = .ok t) :
    Advances plan s t task rest ∧ Stacked t.work := by
  rw [hw] at hstack
  rcases stepped_of_step h with ⟨hstop, hjump, rfl⟩ | ⟨hwhere, h⟩ | ⟨f, hf, hn, hlands, h⟩
  · -- the next task is for the same block
    obtain ⟨⟨u, hu, hblock⟩, hnext⟩ := hstack.1 _ hstop
    refine ⟨⟨hw, ⟨[], (List.append_nil _).symm, sourced_nil⟩, fun _ hn => hn, fun _ hu => hu,
      .inr ⟨u, hu, hblock⟩, ?_⟩, hstack.2⟩
    obtain ⟨v, hv, hblock⟩ := Option.map_eq_some_iff.1 (hnext hjump)
    obtain ⟨more, hmore⟩ := List.head?_eq_some_iff.1 hv
    rw [← hblock]
    exact .next hmore
  · obtain ⟨hwork, hunplaced, a, target, k, hout, hk, _⟩ := jumpTo_eq_ok h
    have hscheduled : Scheduled t task.block := by
      rcases hwhere with hstop | hplaced
      · obtain ⟨⟨u, hu, hblock⟩, _⟩ := hstack.1 _ hstop
        exact .inr ⟨u, hwork ▸ hu, hblock⟩
      · exact .inl (hunplaced ▸ hplaced)
    refine ⟨⟨hw, ⟨_, hout, fun _ he => nomatch he⟩, fun n hn => hunplaced ▸ hn,
      fun u hu => hwork ▸ hu, hscheduled, ?_⟩, hwork ▸ hstack.2⟩
    have hgoto : t.output[s.output.length]? = some (.goto a target) := by
      rw [hout]
      exact List.getElem?_concat_length
    exact .jump hgoto hk hscheduled
  · exact ⟨(laysOut_of_lay hf hlands h).advances hw hlands, stacked_of_lay hstack rfl h⟩

/-- **A step keeps the invariant.** -/
theorem invariant_step {task : Task} {rest : List Task} (hs : Invariant plan s)
    (hw : s.work = task :: rest) (h : (plan.next s task rest).result = .ok t) :
    Invariant plan t := by
  obtain ⟨hadv, hstack⟩ := advances_step hs.stacked hw h
  refine hadv.invariant hs hstack fun n f hf hold hnew => ?_
  rcases stepped_of_step h with ⟨_, _, rfl⟩ | ⟨_, h⟩ | ⟨f', hf', _, hlands, h⟩
  · exact absurd hold hnew
  · obtain ⟨_, hunplaced, _⟩ := jumpTo_eq_ok h
    rw [hunplaced] at hnew
    exact absurd hold hnew
  · have hlays := laysOut_of_lay hf' hlands h
    rw [hlays.unplaced] at hnew
    obtain rfl := eq_of_not_mem_erase hold hnew
    rw [hf] at hf'
    cases hf'
    exact ⟨_, hlays.laid⟩

/-- **A run keeps the invariant**, and ends when no task is left. -/
theorem invariant_run (hs : Invariant plan s) (h : (plan.run s).result = .ok t) :
    Invariant plan t ∧ t.work = [] := by
  fun_induction run plan s with
  | case1 s hw =>
    cases h
    exact ⟨hs, hw⟩
  | case2 => cases h
  | case3 s task rest hw u events hu final ih =>
    refine ih (invariant_step hs hw ?_) h
    rw [hu]

theorem mem_blocks_of_get? {n : BlockId} {f : Fragment} (hf : plan.fragments.get? n = some f) :
    n ∈ plan.blocks := by
  rw [plan.blocks_eq, Std.TreeSet.mem_ofList, List.contains_iff_mem]
  exact List.mem_map.2 ⟨(n, f), (OrderedMap.get?_eq_some_iff _ _ _).1 hf, rfl⟩

theorem invariant_start (pool : AddressPool) : Invariant plan (plan.start pool) where
  laid _ _ hf hn := absurd (mem_blocks_of_get? hf) hn
  root := by
    show Enters plan (plan.start pool) (plan.start pool).output.length
      (⟨plan.graph.root, none, false⟩ : Task).block
    exact .next rfl
  sourced := sourced_nil
  stacked := by
    refine ⟨fun m hm => ?_, trivial⟩
    cases hm

end Plan
end Layout
end AdventureLogic
