import AdventureLogic.Proofs.Program.RedundantGotos
import AdventureLogic.Proofs.Program.SelfContained
import AdventureLogic.Proofs.Program.Unreachable

/-!
# Normal form changes no run

Each pass changes no run of a sound program, and it makes up nothing but
returns. Computing the labels anew makes the program sound again, so this goes
on through all runs of a pass and through all passes.

Key definition: `Program.Refined`. Key theorems: `Pass.refined_run`,
`Pass.refined_settle`, `Program.refined_normalize`.
-/

namespace AdventureLogic
namespace Program

/-- The program `q` runs like `p`, and shows nothing that `p` does not, returns apart. -/
structure Refined (p q : Program) : Prop where
  equivalent : (Machine.ofCode p.code).Equivalent (Machine.ofCode q.code)
  effects : effectsOf q.code ⊆ .command Command.ret :: effectsOf p.code

namespace Refined

theorem refl (p : Program) : Refined p p := ⟨.refl _, List.subset_cons_self _ _⟩

theorem trans {p q r : Program} (h : Refined p q) (h' : Refined q r) : Refined p r where
  equivalent := h.equivalent.trans h'.equivalent
  effects e he := by
    rcases List.mem_cons.1 (h'.effects he) with rfl | he
    · exact List.mem_cons_self
    · exact h.effects he

end Refined

/-- The program has distinct addresses, all of them taken. -/
structure Addressed (p : Program) : Prop where
  nodup : (addresses p.code).Nodup
  used : ∀ a ∈ addresses p.code, p.pool.isUsed a

theorem Sound.addressed {p : Program} (hp : p.Sound) : p.Addressed := ⟨hp.closed.nodup, hp.used⟩

theorem Addressed.of_sublist {p q : Program} (hp : p.Addressed)
    (hs : (addresses q.code).Sublist (addresses p.code)) (hpool : q.pool = p.pool) :
    q.Addressed where
  nodup := hp.nodup.sublist hs
  used a ha := hpool ▸ hp.used a (hs.subset ha)

theorem refined_dropUnreachable {p : Program} (hp : p.Sound) :
    p.Refined p.dropUnreachable.program where
  equivalent := equivalent_dropUnreachable hp
  effects e he := by
    rw [code_dropUnreachable] at he
    exact List.mem_cons_of_mem _ (((reachable_sublist _ _ _).filterMap _).subset he)

theorem addressed_dropUnreachable {p : Program} (hp : p.Sound) :
    p.dropUnreachable.program.Addressed :=
  hp.addressed.of_sublist ((reachable_sublist _ _ _).map _) rfl

theorem effectsOf_tidy (sent : OrderedMap Address Address) (code : List Instruction) :
    (effectsOf (tidy sent code)).Sublist (effectsOf code) := by
  have heffect : ∀ i, (redirect sent i).effect? = i.effect? := by
    intro i
    unfold redirect
    cases i.target? <;> simp
  have hsub := (List.filter_sublist (p := fun e : Instruction × Verdict => e.2 = .keep)
    (l := judge none none code)).map Prod.fst
  rw [map_fst_judge] at hsub
  rw [tidy, cleaned, effectsOf_map heffect]
  exact hsub.filterMap _

/-- Either nothing is dropped, or the code is tidied. -/
theorem dropRedundantGotos_cases (p : Program) :
    p.dropRedundantGotos.program = p ∨
      p.dropRedundantGotos.program.code = tidy (sentOf p.code) p.code ∧
        p.dropRedundantGotos.program.pool = p.pool := by
  cases h : (judge none none p.code).all fun e => e.2 = .keep with
  | true =>
    left
    unfold dropRedundantGotos
    dsimp only
    rw [if_pos (by simpa using h)]
  | false =>
    right
    refine ⟨code_dropRedundantGotos p h, ?_⟩
    unfold dropRedundantGotos
    dsimp only
    rw [if_neg (by simp [h])]

theorem refined_dropRedundantGotos {p : Program} (hp : p.Sound) :
    p.Refined p.dropRedundantGotos.program where
  equivalent := equivalent_dropRedundantGotos hp
  effects e he := by
    rcases dropRedundantGotos_cases p with h | ⟨h, _⟩
    · exact List.mem_cons_of_mem _ (h ▸ he)
    · exact List.mem_cons_of_mem _ ((effectsOf_tidy _ _).subset (h ▸ he))

theorem addressed_dropRedundantGotos {p : Program} (hp : p.Sound) :
    p.dropRedundantGotos.program.Addressed := by
  rcases dropRedundantGotos_cases p with h | ⟨h, hpool⟩
  · rw [h]
    exact hp.addressed
  · exact hp.addressed.of_sublist (h ▸ addresses_tidy_sublist _ _) hpool

theorem Detour.effectsOf_after {d : Detour} (hd : d.Valid) :
    effectsOf d.after ⊆ .command Command.ret :: effectsOf d.before := by
  have heffect : ∀ i, (d.reroute i).effect? = i.effect? := by
    intro i
    unfold Detour.reroute
    split <;> simp
  have hinserted : ∀ e ∈ effectsOf d.inserted, e = .command Command.ret := by
    rw [Detour.inserted, effectsOf_append]
    rcases hd.bypass with (⟨a, next, rest, _, hb⟩ | ⟨a, _, hb⟩) | ⟨hb, _⟩
    all_goals rw [hb]; simp [effectsOf, Instruction.effect?]
  intro e he
  rw [Detour.after, effectsOf_append, effectsOf_map heffect, effectsOf_append] at he
  rw [Detour.before, effectsOf_append]
  rcases List.mem_append.1 he with he | he
  · exact List.mem_cons_of_mem _ (List.mem_append_left _ he)
  · rcases List.mem_append.1 he with he | he
    · exact hinserted e he ▸ List.mem_cons_self
    · exact List.mem_cons_of_mem _ (List.mem_append_right _ he)

theorem refined_selfContain {p : Program} (hp : p.Sound) (h : p.selfContain.result = .ok true) :
    p.Refined p.selfContain.program where
  equivalent := equivalent_selfContain hp h
  effects := by
    obtain ⟨d, hd, hbefore, hafter, _⟩ := exists_detour hp h
    rw [hbefore, hafter]
    exact Detour.effectsOf_after hd

theorem addressed_selfContain {p : Program} (hp : p.Sound) (h : p.selfContain.result = .ok true) :
    p.selfContain.program.Addressed := by
  obtain ⟨d, hd, hbefore, hafter, hused, _⟩ := exists_detour hp h
  constructor
  · rw [hafter]
    exact hd.nodup_after
  · intro a ha
    rw [hafter, d.perm_addresses_after.mem_iff, List.mem_append, ← hbefore] at ha
    exact (hused a).2 (ha.imp_right (hp.used a))

theorem map_fst_markReachable (labels : LabelTable) :
    ∀ (afterGoto : Bool) (code : List Instruction),
      (markReachable labels afterGoto code).map Prod.fst = code
  | _, [] => rfl
  | _, i :: rest => by rw [markReachable, List.map_cons, map_fst_markReachable labels i.isGoto rest]

theorem dropUnreachable_of_unchanged {p : Program} (h : p.dropUnreachable.result = .ok false) :
    p.dropUnreachable.program = p := by
  have hall : (markReachable p.labels false p.code).filter (·.2) =
      markReachable p.labels false p.code := by
    have hany : (markReachable p.labels false p.code).any (!·.2) = false := by
      simpa [dropUnreachable] using h
    rw [List.filter_eq_self]
    intro e he
    simpa using List.any_eq_false.1 hany e he
  have hcode : reachable p.labels false p.code = p.code := by
    rw [reachable, hall, map_fst_markReachable]
  show { p with code := reachable p.labels false p.code } = p
  rw [hcode]

theorem crossing?_of_unchanged {p : Program} (h : p.selfContain.result = .ok false) :
    p.crossing? = .ok none := by
  unfold selfContain at h
  cases hc : p.crossing? with
  | error e =>
    rw [hc] at h
    cases h
  | ok found =>
    rw [hc] at h
    cases found with
    | none => rfl
    | some c =>
      dsimp only [Outcome.andThen] at h
      split at h
      · cases h
      · dsimp only [Outcome.after] at h
        unfold detour at h
        split at h
        · cases h
        · cases h

theorem selfContain_of_unchanged {p : Program} (h : p.selfContain.result = .ok false) :
    p.selfContain.program = p := by
  rw [selfContain, crossing?_of_unchanged h]

theorem dropRedundantGotos_of_unchanged {p : Program}
    (h : p.dropRedundantGotos.result = .ok false) : p.dropRedundantGotos.program = p := by
  unfold dropRedundantGotos at h ⊢
  dsimp only at h ⊢
  split at h
  · rename_i hall
    rw [if_pos hall]
  · cases h

end Program

namespace Pass

/-- A pass that finds nothing to change leaves the program as it is. -/
theorem program_of_unchanged {pass : Pass} {p : Program} (h : (pass.run p).result = .ok false) :
    (pass.run p).program = p := by
  cases pass with
  | unreachable => exact Program.dropUnreachable_of_unchanged h
  | selfContained => exact Program.selfContain_of_unchanged h
  | redundantGotos => exact Program.dropRedundantGotos_of_unchanged h

/-- **A pass changes no run.** -/
theorem refined_run {pass : Pass} {p : Program} {changed : Bool} (hp : p.Sound)
    (h : (pass.run p).result = .ok changed) : p.Refined (pass.run p).program := by
  cases changed with
  | false =>
    rw [program_of_unchanged h]
    exact .refl p
  | true =>
    cases pass with
    | unreachable => exact Program.refined_dropUnreachable hp
    | selfContained => exact Program.refined_selfContain hp h
    | redundantGotos => exact Program.refined_dropRedundantGotos hp

theorem addressed_run {pass : Pass} {p : Program} (hp : p.Sound)
    (h : (pass.run p).result = .ok true) : (pass.run p).program.Addressed := by
  cases pass with
  | unreachable => exact Program.addressed_dropUnreachable hp
  | selfContained => exact Program.addressed_selfContain hp h
  | redundantGotos => exact Program.addressed_dropRedundantGotos hp

/-- A pass that is run until it finds nothing to change leaves a sound program that runs as before.
-/
theorem refined_settle {pass : Pass} {name : String} {changes n : Nat} {p : Program} (hp : p.Sound)
    (h : (pass.settle name changes p).result = .ok n) :
    p.Refined (pass.settle name changes p).program ∧ (pass.settle name changes p).program.Sound := by
  fun_induction settle pass name changes p with
  | case1 => cases h
  | case2 changes p q events hrun =>
    have hfalse : (pass.run p).result = .ok false := by rw [hrun]
    have hq : q = p := by
      have hprogram := program_of_unchanged hfalse
      rwa [hrun] at hprogram
    subst hq
    exact ⟨.refl _, hp⟩
  | case3 => cases h
  | case4 changes p q events hrun r hr ih =>
    have htrue : (pass.run p).result = .ok true := by rw [hrun]
    have hrefined := refined_run hp htrue
    have haddressed := addressed_run hp htrue
    rw [hrun] at hrefined haddressed
    obtain ⟨hr', hsound⟩ := ih (Program.sound_relabel haddressed.nodup haddressed.used hr) h
    refine ⟨hrefined.trans (.trans ?_ hr'), hsound⟩
    have hcode := Program.code_relabel hr
    exact ⟨hcode ▸ .refl _, hcode ▸ List.subset_cons_self _ _⟩

end Pass

namespace Program

theorem Outcome.andThen_eq_ok {α β : Type} {o : Outcome α} {next : α → Program → Outcome β} {b : β}
    (h : (o.andThen next).result = .ok b) :
    ∃ a, o.result = .ok a ∧ (next a o.program).result = .ok b ∧
      (o.andThen next).program = (next a o.program).program := by
  unfold Outcome.andThen at h ⊢
  cases ho : o.result with
  | error e =>
    rw [ho] at h
    cases h
  | ok a =>
    rw [ho] at h
    exact ⟨a, rfl, h, rfl⟩

/-- **Bringing a program into normal form changes no run.** -/
theorem refined_normalize {p : Program} {selfContained : Bool} (hp : p.Sound)
    (h : (p.normalize selfContained).result = .ok ()) :
    p.Refined (p.normalize selfContained).program ∧
      (p.normalize selfContained).program.Sound := by
  unfold normalize at h ⊢
  obtain ⟨n₁, h₁, h, hp₁⟩ := Outcome.andThen_eq_ok h
  obtain ⟨n₂, h₂, h, hp₂⟩ := Outcome.andThen_eq_ok h
  obtain ⟨n₃, h₃, h, hp₃⟩ := Outcome.andThen_eq_ok h
  rw [hp₁, hp₂, hp₃]
  obtain ⟨hr₁, hs₁⟩ := Pass.refined_settle hp h₁
  have hmid : ∀ {q : Program}, q.Sound →
      (if selfContained then Pass.selfContained.toFixpoint Pass.selfContained.name q
        else ⟨q, .ok 0, []⟩).result = .ok n₂ →
      q.Refined (if selfContained then Pass.selfContained.toFixpoint Pass.selfContained.name q
        else ⟨q, .ok 0, []⟩).program ∧
      (if selfContained then Pass.selfContained.toFixpoint Pass.selfContained.name q
        else ⟨q, .ok 0, []⟩).program.Sound := by
    intro q hq hok
    cases selfContained with
    | false => exact ⟨.refl q, hq⟩
    | true => exact Pass.refined_settle hq hok
  obtain ⟨hr₂, hs₂⟩ := hmid hs₁ h₂
  obtain ⟨hr₃, hs₃⟩ := Pass.refined_settle hs₂ h₃
  exact ⟨hr₁.trans (hr₂.trans hr₃), hs₃⟩

end Program
end AdventureLogic
