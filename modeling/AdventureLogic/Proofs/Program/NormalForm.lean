import AdventureLogic.Proofs.Program.Detours
import AdventureLogic.Proofs.Program.Nesting

/-!
# When a program has a normal form

Dropping instructions does not fail: every jump of a sound program leads to one
of its instructions, and so does every jump of what is left, so the labels can
be computed anew. Making conditions self-contained fails only if the addresses
run out. So does bringing a program into normal form, and not if there is room
for two addresses for each instruction. What holds of every instruction, wherever
its jumps lead, and of the gotos and returns that are put in, holds in normal
form; so a condition with a skip target keeps one.

Key definitions: `Pass.Keeps`, `Program.Persists`, `Program.Targeted`. Key
theorems: `Pass.exists_settle`, `Program.normalize_eq_error`,
`Program.normalize_staged`, `Program.Persists.normalize`.
-/

namespace AdventureLogic

namespace Pass

/-- A pass that never fails comes to its end. -/
theorem exists_settle {pass : Pass} (hrun : ∀ p e, (pass.run p).result ≠ .error e) (name : String)
    (changes : Nat) {p : Program} (hp : p.Sound) :
    ∃ n, (pass.settle name changes p).result = .ok n := by
  fun_induction settle pass name changes p with
  | case1 changes p q e events h => exact absurd (by rw [h]) (hrun p e)
  | case2 changes p q events h => exact ⟨changes, rfl⟩
  | case3 changes p q events h e hl =>
    have hclosed : Closed (pass.run p).program.code := closed_run hp (by rw [h])
    rw [h] at hclosed
    obtain ⟨r, hr⟩ := Program.exists_relabel hclosed
    cases hl.symm.trans hr
  | case4 changes p q events h r hl ih =>
    have haddressed : (pass.run p).program.Addressed := addressed_run hp (by rw [h])
    rw [h] at haddressed
    exact ih (Program.sound_relabel haddressed.nodup haddressed.used hl)

theorem run_unreachable_ne_error (p : Program) (e : Error) :
    (unreachable.run p).result ≠ .error e := by
  intro h
  cases h

theorem run_redundantGotos_ne_error (p : Program) (e : Error) :
    (redundantGotos.run p).result ≠ .error e := by
  intro h
  have hresult : p.dropRedundantGotos.result = .error e := h
  unfold Program.dropRedundantGotos at hresult
  dsimp only at hresult
  split at hresult <;> cases hresult

/-- Dropping unreachable instructions takes no address and makes no program longer. -/
theorem settle_unreachable {name : String} {changes : Nat} {p : Program} :
    (unreachable.settle name changes p).program.pool = p.pool ∧
      (unreachable.settle name changes p).program.code.length ≤ p.code.length := by
  have hstep : ∀ p : Program, (unreachable.run p).program.pool = p.pool ∧
      (unreachable.run p).program.code.length ≤ p.code.length := fun p =>
    ⟨rfl, (Program.reachable_sublist p.labels false p.code).length_le⟩
  fun_induction settle Pass.unreachable name changes p with
  | case1 changes p q e events h | case2 changes p q events h | case3 changes p q events h e hl =>
    have hq := hstep p
    rw [h] at hq
    exact hq
  | case4 changes p q events h r hl ih =>
    obtain ⟨hpool, hlength⟩ := hstep p
    rw [h] at hpool hlength
    obtain ⟨ihpool, ihlength⟩ := ih
    rw [Program.pool_relabel hl] at ihpool
    rw [Program.code_relabel hl] at ihlength
    exact ⟨ihpool.trans hpool, Nat.le_trans ihlength hlength⟩

/-- Every change that the pass makes to a sound program keeps a property of the code. -/
def Keeps (pass : Pass) (I : List Instruction → Prop) : Prop :=
  ∀ p : Program, p.Sound → I p.code → (pass.run p).result = .ok true →
    I (pass.run p).program.code

theorem Keeps.toFixpoint {pass : Pass} {I : List Instruction → Prop} (h : pass.Keeps I)
    {name : String} {p : Program} {n : Nat} (hp : p.Sound) (hI : I p.code)
    (hok : (pass.toFixpoint name p).result = .ok n) :
    (pass.toFixpoint name p).program.Sound ∧ I (pass.toFixpoint name p).program.code :=
  ⟨(refined_settle hp hok).2, settle_invariant h hp hI hok⟩

end Pass

namespace Program

theorem Outcome.andThen_eq_error {α β : Type} {o : Outcome α} {next : α → Program → Outcome β}
    {e : Error} (h : (o.andThen next).result = .error e) :
    o.result = .error e ∨ ∃ a, o.result = .ok a ∧ (next a o.program).result = .error e := by
  unfold Outcome.andThen at h
  cases ho : o.result with
  | error e' =>
    rw [ho] at h
    cases h
    exact .inl rfl
  | ok a =>
    rw [ho] at h
    exact .inr ⟨a, rfl, h⟩

/-- **Bringing a program into normal form fails only if the addresses run out.** -/
theorem normalize_eq_error {p : Program} {selfContained : Bool} (hp : p.Sound)
    (ha : p.pool.Ascending) {e : Error} (h : (p.normalize selfContained).result = .error e) :
    e = .conflictingAddress Address.last ∧ p.pool.room < 2 * p.code.length := by
  unfold normalize at h
  rcases Outcome.andThen_eq_error h with h | ⟨_, _, h⟩
  · obtain ⟨n, hn⟩ := Pass.exists_settle Pass.run_unreachable_ne_error Pass.unreachable.name 0 hp
    cases hn.symm.trans h
  -- what dropping unreachable instructions leaves
  have hsound : (Pass.unreachable.toFixpoint Pass.unreachable.name p).program.Sound :=
    Pass.sound_settle hp
  obtain ⟨hpool, hlength⟩ :
      (Pass.unreachable.toFixpoint Pass.unreachable.name p).program.pool = p.pool ∧
        (Pass.unreachable.toFixpoint Pass.unreachable.name p).program.code.length ≤ p.code.length :=
    Pass.settle_unreachable
  generalize (Pass.unreachable.toFixpoint Pass.unreachable.name p).program = q
    at h hsound hpool hlength
  rcases Outcome.andThen_eq_error h with h | ⟨_, _, h⟩
  · cases selfContained with
    | false => cases h
    | true =>
      obtain ⟨he, hroom⟩ := Pass.settle_selfContained_eq_error hsound (hpool ▸ ha)
        (Opened.start q.code).contained h
      have hcount := conditionsFrom_le_length q.code 0
      rw [hpool] at hroom
      exact ⟨he, by omega⟩
  have hsound' : (if selfContained then Pass.selfContained.toFixpoint Pass.selfContained.name q
      else ⟨q, .ok 0, []⟩).program.Sound := by
    cases selfContained with
    | false => exact hsound
    | true => exact Pass.sound_settle hsound
  rcases Outcome.andThen_eq_error h with h | ⟨_, _, h⟩
  · obtain ⟨n, hn⟩ := Pass.exists_settle Pass.run_redundantGotos_ne_error Pass.redundantGotos.name 0
      hsound'
    cases hn.symm.trans h
  · cases h

/-! ## What normal form keeps -/

/-- **What the passes keep, one after the other.** Each has its own invariant, and gives the next
one what it needs. -/
theorem normalize_staged {I J K : List Instruction → Prop} (hdrop : Pass.unreachable.Keeps I)
    (hdetour : Pass.selfContained.Keeps J) (htidy : Pass.redundantGotos.Keeps K)
    (hIJ : ∀ code, I code → J code) (hJK : ∀ code, J code → K code) {p : Program}
    {selfContained : Bool} (hp : p.Sound) (hI : I p.code)
    (h : (p.normalize selfContained).result = .ok ()) :
    K (p.normalize selfContained).program.code := by
  unfold normalize at h ⊢
  obtain ⟨n₁, h₁, h, hp₁⟩ := Outcome.andThen_eq_ok h
  obtain ⟨n₂, h₂, h, hp₂⟩ := Outcome.andThen_eq_ok h
  obtain ⟨n₃, h₃, h, hp₃⟩ := Outcome.andThen_eq_ok h
  rw [hp₁, hp₂, hp₃]
  obtain ⟨hs₁, hI₁⟩ := hdrop.toFixpoint hp hI h₁
  have hJ₁ := hIJ _ hI₁
  cases selfContained with
  | false => exact (htidy.toFixpoint hs₁ (hJK _ hJ₁) h₃).2
  | true =>
    obtain ⟨hs₂, hJ₂⟩ := hdetour.toFixpoint hs₁ hJ₁ h₂
    exact (htidy.toFixpoint hs₂ (hJK _ hJ₂) h₃).2

/-- What each change of each pass keeps holds in normal form. -/
theorem normalize_invariant {I : List Instruction → Prop} (hstep : ∀ pass : Pass, pass.Keeps I)
    {p : Program} {selfContained : Bool} (hp : p.Sound) (hI : I p.code)
    (h : (p.normalize selfContained).result = .ok ()) :
    I (p.normalize selfContained).program.code :=
  normalize_staged (hstep .unreachable) (hstep .selfContained) (hstep .redundantGotos)
    (fun _ => id) (fun _ => id) hp hI h

/-- A property of instructions that stays when their jumps are sent elsewhere, and that gotos and
returns have. -/
structure Persists (P : Instruction → Prop) : Prop where
  retarget : ∀ (t : Address) (i : Instruction), P i → P (i.retarget t)
  goto : ∀ a t, P (.goto a t)
  ret : ∀ a, P (.command a Command.ret)

namespace Persists

variable {P : Instruction → Prop}

theorem detour (h : Persists P) {d : Detour} (hd : d.Valid) (hP : ∀ i ∈ d.before, P i) :
    ∀ i ∈ d.after, P i := by
  have hinserted : ∀ i ∈ d.inserted, P i := by
    rw [Detour.inserted]
    rcases hd.bypass with (⟨a, next, rest, _, hb⟩ | ⟨a, _, hb⟩) | ⟨hb, _⟩
    all_goals rw [hb]; simp [h.goto, h.ret]
  refine List.forall_mem_append.2
    ⟨fun i hi => ?_, List.forall_mem_append.2 ⟨hinserted, fun i hi => ?_⟩⟩
  · obtain ⟨j, hj, rfl⟩ := List.mem_map.1 hi
    have hj' := hP j (List.mem_append_left _ hj)
    unfold Detour.reroute
    split
    · exact h.retarget d.via j hj'
    · exact hj'
  · exact hP i (List.mem_append_right _ hi)

theorem tidy (h : Persists P) {code : List Instruction} (sent : OrderedMap Address Address)
    (hP : ∀ i ∈ code, P i) : ∀ i ∈ tidy sent code, P i := by
  intro i hi
  obtain ⟨x, hx, rfl⟩ := List.mem_map.1 hi
  have hx' := hP x (mem_of_mem_kept hx)
  unfold redirect
  split
  · exact hx'
  · exact h.retarget _ x hx'

theorem keeps (h : Persists P) (pass : Pass) : pass.Keeps fun code => ∀ i ∈ code, P i := by
  intro p hp hP hrun
  cases pass with
  | unreachable =>
    exact fun i hi => hP i ((reachable_sublist p.labels false p.code).subset hi)
  | selfContained =>
    show ∀ i ∈ p.selfContain.program.code, P i
    obtain ⟨d, hd, hbefore, hafter, _⟩ := exists_detour hp hrun
    rw [hafter]
    exact h.detour hd (hbefore ▸ hP)
  | redundantGotos =>
    show ∀ i ∈ p.dropRedundantGotos.program.code, P i
    rcases dropRedundantGotos_cases p with hcase | ⟨hcase, _⟩
    · rwa [hcase]
    · rw [hcase]
      exact h.tidy _ hP

/-- **What persists holds of every instruction in normal form.** -/
theorem normalize (h : Persists P) {p : Program} {selfContained : Bool} (hp : p.Sound)
    (hP : ∀ i ∈ p.code, P i) (hok : (p.normalize selfContained).result = .ok ()) :
    ∀ i ∈ (p.normalize selfContained).program.code, P i :=
  normalize_invariant h.keeps hp hP hok

end Persists

/-- Every condition has a skip target. -/
def Targeted (code : List Instruction) : Prop :=
  ∀ i ∈ code, ∀ a clauses, i ≠ .condition a clauses none

theorem persists_targeted : Persists fun i => ∀ a clauses, i ≠ .condition a clauses none := by
  refine ⟨fun t i _ a clauses => ?_, by simp, by simp⟩
  cases i <;> simp [Instruction.retarget]

/-- **In normal form conditions still have skip targets.** -/
theorem targeted_normalize {p : Program} {selfContained : Bool} (hp : p.Sound)
    (ht : Targeted p.code) (h : (p.normalize selfContained).result = .ok ()) :
    Targeted (p.normalize selfContained).program.code :=
  persists_targeted.normalize hp ht h

end Program
end AdventureLogic
