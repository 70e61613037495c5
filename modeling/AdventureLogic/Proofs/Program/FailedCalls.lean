import AdventureLogic.Program.Calls
import AdventureLogic.Proofs.Program.Detours
import AdventureLogic.Proofs.Result

/-!
# What a failed call leaves behind

Computing labels anew decides whether it can be done before it changes anything,
and two of the passes never fail. Making a condition self-contained takes up to
two addresses, and the first goes into the code before the second is asked for.
So there is one way to be stranded half way: control runs into the end of the
region around the first crossing condition, and one address is left
(`Program.Stranded`). Then the bridge stays in the code and the condition stays
as it was. Every other failure leaves the program as it was.

That the second address fails only where the first was the last one rests on the
order in which a pool hands addresses out (`AddressPool.Ascending`); no call
disturbs it, whatever is done to the code by hand (`Program.ascending_perform`).

Key definitions: `AddressPool.OneLeft`, `Program.Stranded`, `Program.FailuresOf`.
Key theorems: `Program.ascending_performAll`, `Program.selfContain_of_stranded`,
`Program.selfContain_failed`, `Program.failures_performAll`.
-/

namespace AdventureLogic

/-! ## The last address -/

namespace AddressPool

/-- One address is left, the largest. -/
structure OneLeft (pool : AddressPool) : Prop where
  next_eq : pool.next = Address.last
  free : pool.isUsed Address.last = false

variable {pool taken : AddressPool} {a : Address}

/-- The last address can be had once. -/
theorem OneLeft.fresh (h : pool.OneLeft) :
    ∃ taken, pool.fresh = .ok (Address.last, taken) ∧
      taken.fresh = .error (.conflictingAddress Address.last) := by
  have hsucc : Address.succ Address.last = Address.last := if_pos rfl
  refine ⟨⟨pool.used.insert Address.last, Address.last⟩, ?_, ?_⟩
  · simp [AddressPool.fresh, take, h.next_eq, h.free, hsucc, Except.map]
  · have hused : isUsed ⟨pool.used.insert Address.last, Address.last⟩ Address.last = true :=
      (isUsed_insert _ _ _ _).2 (.inl rfl)
    simp [AddressPool.fresh, take, hused, Except.map]

/-- Where a second address cannot be had, the first was the last. -/
theorem oneLeft_of_fresh {e : Error} (hp : pool.Ascending) (h : pool.fresh = .ok (a, taken))
    (h' : taken.fresh = .error e) : pool.OneLeft := by
  have hroom : pool.room = 1 := by
    have hnone := (fresh_eq_error (ascending_fresh hp h) h').2
    have hone := room_of_fresh h
    omega
  by_cases hused : pool.isUsed Address.last = true
  · -- the largest address is taken, so no address could have been had
    have hlast : pool.next = Address.last :=
      (hp _ hused).resolve_left fun hlt => UInt32.not_lt.2 (le_last _) hlt
    rw [room, hlast, if_pos hused] at hroom
    omega
  · refine ⟨?_, by simpa using hused⟩
    rw [room, if_neg hused] at hroom
    have hle := UInt32.le_iff_toNat_le.1 (le_last pool.next)
    exact UInt32.toNat_inj.1 (by omega)

end AddressPool

namespace Program

/-! ## Pools after calls -/

variable {p : Program} {c : Crossing} {n : Nat} {a : Address} {e : Error}

theorem ascending_detour (hp : p.pool.Ascending) (c : Crossing) (n : Nat) :
    (p.detour c n).program.pool.Ascending := by
  unfold detour
  split
  · exact hp
  · rename_i hfresh
    exact AddressPool.ascending_fresh hp hfresh

theorem Outcome.ascending_andThen {α β : Type} {o : Outcome α} {next : α → Program → Outcome β}
    (ho : o.program.pool.Ascending)
    (hnext : ∀ a q, q.pool.Ascending → (next a q).program.pool.Ascending) :
    (o.andThen next).program.pool.Ascending := by
  unfold Outcome.andThen
  cases o.result with
  | error e => exact ho
  | ok a => exact hnext a _ ho

theorem ascending_selfContain (hp : p.pool.Ascending) : p.selfContain.program.pool.Ascending := by
  unfold selfContain
  split
  · exact hp
  · exact hp
  · rename_i c _
    exact Outcome.ascending_andThen (pool_bridge hp c.limit).1
      fun n q hq => ascending_detour hq c n

end Program

namespace Pass

theorem ascending_run {p : Program} (hp : p.pool.Ascending) (pass : Pass) :
    (pass.run p).program.pool.Ascending := by
  cases pass with
  | unreachable => exact hp
  | selfContained => exact Program.ascending_selfContain hp
  | redundantGotos =>
    show p.dropRedundantGotos.program.pool.Ascending
    unfold Program.dropRedundantGotos
    dsimp only
    split
    · exact hp
    · exact hp

theorem ascending_settle {p : Program} (hp : p.pool.Ascending) (pass : Pass) (name : String)
    (changes : Nat) : (pass.settle name changes p).program.pool.Ascending := by
  fun_induction settle pass name changes p with
  | case1 changes p q e events hrun =>
    have hq := ascending_run hp pass
    rwa [hrun] at hq
  | case2 changes p q events hrun =>
    have hq := ascending_run hp pass
    rwa [hrun] at hq
  | case3 changes p q events hrun e hl =>
    have hq := ascending_run hp pass
    rwa [hrun] at hq
  | case4 changes p q events hrun r hl ih =>
    have hq := ascending_run hp pass
    rw [hrun] at hq
    exact ih ((Program.pool_relabel hl).symm ▸ hq)

end Pass

namespace Program

variable {p : Program} {c : Crossing} {n : Nat} {a : Address} {e : Error}

theorem ascending_normalize (hp : p.pool.Ascending) (selfContained : Bool) :
    (p.normalize selfContained).program.pool.Ascending := by
  unfold normalize
  refine Outcome.ascending_andThen (Pass.ascending_settle hp _ _ _) fun _ q hq => ?_
  refine Outcome.ascending_andThen ?_ fun _ q hq => ?_
  · split
    · exact Pass.ascending_settle hq _ _ _
    · exact hq
  · exact Outcome.ascending_andThen (Pass.ascending_settle hq _ _ _) fun _ q hq => hq

/-- **One call.** The pool stays in order, also if the call fails. -/
theorem ascending_perform (hp : p.pool.Ascending) (call : Call) :
    (p.perform call).program.pool.Ascending := by
  cases call with
  | relabel =>
    unfold perform
    cases hl : p.relabel with
    | error e => exact hp
    | ok q => exact (pool_relabel hl).symm ▸ hp
  | pass pass => exact Pass.ascending_run hp pass
  | settle pass name => exact Pass.ascending_settle hp pass name 0
  | normalize selfContained => exact ascending_normalize hp selfContained
  | fresh =>
    unfold perform
    cases hf : p.pool.fresh with
    | error e => exact hp
    | ok r => exact AddressPool.ascending_fresh hp hf
  | edit code => exact hp

/-- **A run.** So it does after any number of calls. -/
theorem ascending_performAll (hp : p.pool.Ascending) (calls : List Call) :
    (p.performAll calls).pool.Ascending := by
  induction calls generalizing p with
  | nil => exact hp
  | cons call calls ih => exact ih (ascending_perform hp call)

/-! ## Half a change -/

/-- What leads control past an instruction that is going to be put at a position: a goto to the
instruction that stands there, or a return at the end of the code. -/
def bypassAt (code : List Instruction) (position : Nat) (a : Address) : Instruction :=
  match code[position]? with
  | some next => .goto a next.address
  | none => .command a Command.ret

/-- The first crossing condition of a program takes two addresses, because control runs into the end
of the region around it, and only one is left. -/
structure Stranded (p : Program) (c : Crossing) : Prop where
  crossing : p.crossing? = .ok (some c)
  falls : fallsInto p.code c.limit = true
  oneLeft : p.pool.OneLeft

theorem bridge_of_fallsInto {pool : AddressPool} (h : fallsInto p.code n = true)
    (hfresh : p.pool.fresh = .ok (a, pool)) :
    p.bridge n = ⟨{ p with code := p.code.insertIdx n (bypassAt p.code n a), pool := pool },
      .ok (n + 1), [.bridged (bypassAt p.code n a)]⟩ := by
  rw [bridge, if_pos h, hfresh]
  rfl

theorem bridge_of_exhausted (h : fallsInto p.code n = true) (hfresh : p.pool.fresh = .error e) :
    p.bridge n = ⟨p, .error e, []⟩ := by
  rw [bridge, if_pos h, hfresh]

/-- A detour that fails changes nothing itself. -/
theorem detour_failed (h : (p.detour c n).result = .error e) :
    (p.detour c n).program = p ∧ p.pool.fresh = .error e := by
  unfold detour at h ⊢
  cases hfresh : p.pool.fresh with
  | error e' =>
    rw [hfresh] at h
    exact ⟨rfl, congrArg _ (Except.error.inj h)⟩
  | ok r =>
    rw [hfresh] at h
    cases h

/-- **A stranded program gets its bridge and nothing else.** -/
theorem selfContain_of_stranded (h : p.Stranded c) :
    p.selfContain.result = .error (.conflictingAddress Address.last) ∧
      p.selfContain.program.labels = p.labels ∧
      p.selfContain.program.code =
        p.code.insertIdx c.limit (bypassAt p.code c.limit Address.last) := by
  obtain ⟨pool, hfirst, hsecond⟩ := h.oneLeft.fresh
  rw [selfContain, h.crossing]
  dsimp only
  rw [bridge_of_fallsInto h.falls hfirst, Outcome.andThen]
  dsimp only
  rw [detour, hsecond]
  exact ⟨rfl, rfl, rfl⟩

/-- **An attempt that fails changes nothing, unless the program is stranded.** -/
theorem selfContain_failed (hp : p.pool.Ascending) (h : p.selfContain.result = .error e) :
    p.selfContain.program = p ∨ ∃ c, p.Stranded c := by
  unfold selfContain at h ⊢
  cases hc : p.crossing? with
  | error e' => exact .inl rfl
  | ok found =>
    rw [hc] at h
    cases found with
    | none => cases h
    | some c =>
      dsimp only at h ⊢
      cases hfalls : fallsInto p.code c.limit with
      | false =>
        rw [bridge_of_not_fallsInto hfalls] at h ⊢
        exact .inl (detour_failed h).1
      | true =>
        cases hfresh : p.pool.fresh with
        | error e' =>
          rw [bridge_of_exhausted hfalls hfresh]
          exact .inl rfl
        | ok r =>
          obtain ⟨a, pool⟩ := r
          rw [bridge_of_fallsInto hfalls hfresh] at h
          have hnext := (detour_failed h).2
          exact .inr ⟨c, hc, hfalls, AddressPool.oneLeft_of_fresh hp hfresh hnext⟩

/-! ## Failures -/

/-- What the failures of single steps leave of a program. -/
structure FailuresOf (p : Program) : Prop where
  relabel : ∀ e, (p.perform .relabel).result = .error e → (p.perform .relabel).program = p
  pass : ∀ pass e, (p.perform (.pass pass)).result = .error e →
    (p.perform (.pass pass)).program = p ∨ pass = .selfContained ∧ ∃ c, p.Stranded c
  stranded : ∀ c, p.Stranded c →
    (p.perform (.pass .selfContained)).result = .error (.conflictingAddress Address.last) ∧
    (p.perform (.pass .selfContained)).program.labels = p.labels ∧
    (p.perform (.pass .selfContained)).program.code =
      p.code.insertIdx c.limit (bypassAt p.code c.limit Address.last)

theorem relabel_failed (h : (p.perform .relabel).result = .error e) :
    (p.perform .relabel).program = p := by
  unfold perform at h ⊢
  cases hl : p.relabel with
  | error e' => rfl
  | ok q =>
    rw [hl] at h
    cases h

theorem pass_failed (hp : p.pool.Ascending) {pass : Pass}
    (h : (p.perform (.pass pass)).result = .error e) :
    (p.perform (.pass pass)).program = p ∨ pass = .selfContained ∧ ∃ c, p.Stranded c := by
  have h : (pass.run p).result = .error e := Result.map_eq_error.1 h
  cases pass with
  | unreachable => cases h
  | selfContained => exact (selfContain_failed hp h).imp_right fun hc => ⟨rfl, hc⟩
  | redundantGotos =>
    have h : p.dropRedundantGotos.result = .error e := h
    unfold dropRedundantGotos at h
    dsimp only at h
    split at h
    · cases h
    · cases h

/-- **What failed calls leave behind.** A program is made from code and worked on by any calls,
failed ones and changes by hand included. If then its labels cannot be computed anew or a pass
fails, it stays as it was, with one exception: if the first crossing condition takes two addresses
and one is left, the bridge is put in before the pass fails. -/
theorem failures_performAll {code : List Instruction} {labels : LabelTable} {p : Program}
    (h : ofCode code labels = .ok p) (calls : List Call) : FailuresOf (p.performAll calls) := by
  obtain ⟨pool, hpool, hlabels⟩ := Result.bind_eq_ok.1 h
  have hstart : p.pool.Ascending := by
    rw [pool_relabel hlabels]
    exact AddressPool.ascending_ofInstructions hpool
  have hp := ascending_performAll hstart calls
  constructor
  case relabel => exact fun e he => relabel_failed he
  case pass => exact fun pass e he => pass_failed hp he
  case stranded =>
    intro c hc
    obtain ⟨hresult, hleft⟩ := selfContain_of_stranded hc
    exact ⟨congrArg (Except.map Answer.changed) hresult, hleft⟩

/-- A condition that skips to itself, two addresses before the last. -/
def lateLoop : List Instruction := [.condition 0xFFFFFFFD [] (some 0xFFFFFFFD)]

/-- One address is handed out, and the instruction that gets it is put in by hand. -/
def lateCalls : List Call := [.fresh, .edit (lateLoop ++ [.command 0xFFFFFFFE ⟨12, [1]⟩])]

theorem failures_lateLoop :
    ∃ p c, ofCode lateLoop ∅ = .ok p ∧ (p.performAll lateCalls).Stranded c ∧
      FailuresOf (p.performAll lateCalls) := by
  have hrun : (ofCode lateLoop ∅).map (fun p =>
      ((p.performAll lateCalls).crossing?, (p.performAll lateCalls).code,
        (p.performAll lateCalls).pool.next, (p.performAll lateCalls).pool.isUsed Address.last)) =
      .ok (.ok (some ⟨0, 2, 0xFFFFFFFD, 0xFFFFFFFD⟩),
        lateLoop ++ [.command 0xFFFFFFFE ⟨12, [1]⟩], Address.last, false) := by cbv
  obtain ⟨p, hp, hrun⟩ := Result.map_eq_ok.1 hrun
  simp only [Prod.mk.injEq] at hrun
  obtain ⟨hcrossing, hcode, hnext, hfree⟩ := hrun
  have hfalls : fallsInto (p.performAll lateCalls).code 2 = true := by
    rw [hcode]
    decide
  exact ⟨p, _, hp, ⟨hcrossing, hfalls, hnext, hfree⟩, failures_performAll hp lateCalls⟩

/-- Half a change stays behind: the code has got a return at the last address, but no goto. -/
theorem failed_selfContained_changes_code :
    ∃ p e, ofCode [.condition 0xFFFFFFFE [] (some 0xFFFFFFFE)] ∅ = .ok p ∧
      (p.perform (.pass .selfContained)).result = .error e ∧
      (p.perform (.pass .selfContained)).program.code ≠ p.code := by
  have hrun : (ofCode [.condition 0xFFFFFFFE [] (some 0xFFFFFFFE)] ∅).map (fun p =>
      (p.code, (p.perform (.pass .selfContained)).result,
        (p.perform (.pass .selfContained)).program.code)) =
      .ok ([.condition 0xFFFFFFFE [] (some 0xFFFFFFFE)],
        .error (.conflictingAddress Address.last),
        [.condition 0xFFFFFFFE [] (some 0xFFFFFFFE), .command Address.last Command.ret]) := by
    cbv
  obtain ⟨p, hp, hrun⟩ := Result.map_eq_ok.1 hrun
  simp only [Prod.mk.injEq] at hrun
  obtain ⟨hbefore, hfailed, hafter⟩ := hrun
  refine ⟨p, _, hp, hfailed, ?_⟩
  rw [hbefore, hafter]
  decide

end Program
end AdventureLogic
