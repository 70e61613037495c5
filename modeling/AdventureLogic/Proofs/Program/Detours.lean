import AdventureLogic.Proofs.Program.Containment

/-!
# Each condition gets one detour at most

Making conditions self-contained makes the code longer with every change, and a
detour may turn a condition further down into a crossing one, because it ends a
region where none ended before. What gets less are the conditions from the first
crossing on: the next crossing comes after the condition that has just got its
detour. So the conditions that get one are taken in code order, none of them
twice, and there are as many changes as there are such conditions. Each change
takes two fresh addresses at most.

Key definitions: `Program.Redirects`, `Program.Detours`. Key theorems:
`Program.redirects_selfContain`, `Pass.exists_detours`,
`Pass.settle_selfContained_eq_error`, `Program.selfContained_once`.
-/

namespace AdventureLogic
namespace Program

/-- One condition, at the address `source`, is sent to a goto to its old target. The goto has a new
address and stands further down; one more instruction may be put in before it. All else stays as it
is. -/
inductive Redirects (source : Address) : List Instruction → List Instruction → Prop where
  | mk {front back below inserted : List Instruction} {clauses : List Clause} {target via : Address}
    (hlength : inserted.length ≤ 2) (hgoto : .goto via target ∈ inserted)
    (hplain : ∀ i ∈ inserted, i.isCondition = false)
    (hvia : via ∉ addresses (front ++ .condition source clauses (some target) :: back ++ below)) :
    Redirects source (front ++ .condition source clauses (some target) :: back ++ below)
      (front ++ .condition source clauses (some via) :: back ++ inserted ++ below)

/-- The changes that making conditions self-contained makes to a program, one after the other, with
the addresses of the conditions that are sent elsewhere. After each change the labels are computed
anew. -/
inductive Detours : Program → List Address → Program → Prop where
  | nil (p : Program) : Detours p [] p
  | cons {p q r : Program} {a : Address} {as : List Address}
    (hrun : (Pass.selfContained.run p).result = .ok true)
    (hredirects : Redirects a p.code (Pass.selfContained.run p).program.code)
    (hlabels : (Pass.selfContained.run p).program.relabel = .ok q) (h : Detours q as r) :
    Detours p (a :: as) r

theorem Redirects.length_le {source : Address} {before after : List Instruction}
    (h : Redirects source before after) : after.length ≤ before.length + 2 := by
  cases h with
  | mk hlength =>
    simp only [List.length_append, List.length_cons]
    omega

theorem Detours.length_le {p q : Program} {sources : List Address} (h : Detours p sources q) :
    q.code.length ≤ p.code.length + 2 * sources.length := by
  induction h with
  | nil => simp
  | cons hrun hredirects hlabels h ih =>
    have hstep := hredirects.length_le
    rw [code_relabel hlabels] at ih
    rw [List.length_cons]
    omega

/-! ## One change -/

theorem Detour.Valid.length_inserted {d : Detour} (h : d.Valid) : d.inserted.length ≤ 2 := by
  rw [Detour.inserted, List.length_append]
  rcases h.bypass with (⟨a, next, rest, _, hb⟩ | ⟨a, _, hb⟩) | ⟨hb, _⟩
  all_goals simp [hb]

/-- A detour redirects the condition that it is made for, and no other. -/
theorem Detour.Valid.redirects {d : Detour} (h : d.Valid) {n : Nat} {clauses : List Clause}
    (hsource : d.above[n]? = some (.condition d.source clauses (some d.target))) :
    Redirects d.source d.before d.after := by
  obtain ⟨hlt, hget⟩ := List.getElem?_eq_some_iff.1 hsource
  have hnodup : (addresses d.above).Nodup :=
    h.closed.nodup.sublist ((List.sublist_append_left d.above d.below).map _)
  have habove : d.above =
      d.above.take n ++ .condition d.source clauses (some d.target) :: d.above.drop (n + 1) := by
    rw [← hget, List.getElem_cons_drop, List.take_append_drop]
  have hrerouted : d.above.map d.reroute =
      d.above.take n ++ .condition d.source clauses (some d.via) :: d.above.drop (n + 1) := by
    have hmodify := modify_eq_map hnodup hsource (·.retarget d.via)
    rw [List.modify_eq_take_cons_drop hlt, hget] at hmodify
    exact hmodify.symm
  have hvia : d.via ∉ addresses d.before :=
    h.fresh d.via (List.mem_map.2 ⟨.goto d.via d.target, List.mem_append_right _
      (List.mem_singleton_self _), rfl⟩)
  rw [Detour.after, hrerouted, ← List.append_assoc]
  rw [Detour.before] at hvia ⊢
  generalize d.above.take n = front at habove
  generalize d.above.drop (n + 1) = back at habove
  rw [habove] at hvia ⊢
  exact .mk h.length_inserted (List.mem_append_right _ (List.mem_singleton_self _))
    h.isCondition_inserted hvia

/-- **A change redirects one condition,** which comes after those that are known to be
self-contained and before those that are left. -/
theorem redirects_selfContain {p : Program} (hp : p.Sound)
    (h : (Pass.selfContained.run p).result = .ok true) {k : Nat} (hk : ContainedBefore p.code k) :
    ∃ a m, Redirects a p.code (Pass.selfContained.run p).program.code ∧
      ContainedBefore (Pass.selfContained.run p).program.code m ∧
      (a :: conditions ((Pass.selfContained.run p).program.code.drop m)).Sublist
        (conditions (p.code.drop k)) := by
  obtain ⟨d, n, clauses, hd, hbefore, hafter, hsource, hcontained, hsub⟩ :=
    contained_selfContain hp h hk
  have hafter : (Pass.selfContained.run p).program.code = d.after := hafter
  have hredirects := hd.redirects hsource
  rw [← hbefore, ← hafter] at hredirects
  rw [← hafter] at hcontained hsub
  exact ⟨d.source, n + 1, hredirects, hcontained, hsub⟩

/-! ## Addresses -/

/-- A bridge takes an address at most. -/
theorem pool_bridge {p : Program} (hp : p.pool.Ascending) (n : Nat) :
    (p.bridge n).program.pool.Ascending ∧
      p.pool.room ≤ (p.bridge n).program.pool.room + 1 := by
  unfold bridge
  split
  · split
    · exact ⟨hp, Nat.le_succ _⟩
    · rename_i hfresh
      exact ⟨AddressPool.ascending_fresh hp hfresh,
      Nat.le_of_eq (AddressPool.room_of_fresh hfresh).symm⟩
  · exact ⟨hp, Nat.le_succ _⟩

/-- A change takes two addresses at most. -/
theorem pool_selfContain {p : Program} (hp : p.pool.Ascending)
    (h : p.selfContain.result = .ok true) :
    p.selfContain.program.pool.Ascending ∧ p.pool.room ≤ p.selfContain.program.pool.room + 2 := by
  obtain ⟨c, n, a, pool, _, _, hfresh, hprogram⟩ := selfContain_eq_ok_true h
  obtain ⟨hbridge, hroom⟩ := pool_bridge hp c.limit
  have hpool := AddressPool.room_of_fresh hfresh
  rw [hprogram]
  exact ⟨AddressPool.ascending_fresh hbridge hfresh, by dsimp only; omega⟩

/-- An attempt fails only if there is no room for two addresses. -/
theorem room_of_selfContain_error {p : Program} (hp : p.Sound) (ha : p.pool.Ascending) {e : Error}
    (h : p.selfContain.result = .error e) :
    e = .conflictingAddress Address.last ∧ p.pool.room < 2 := by
  obtain ⟨c, _, ⟨_, hfresh⟩ | ⟨n, _, _, hfresh⟩⟩ := selfContain_eq_error hp h
  · obtain ⟨he, hroom⟩ := AddressPool.fresh_eq_error ha hfresh
    exact ⟨he, by omega⟩
  · obtain ⟨hbridge, hle⟩ := pool_bridge ha c.limit
    obtain ⟨he, hroom⟩ := AddressPool.fresh_eq_error hbridge hfresh
    exact ⟨he, by omega⟩

/-- Each of the changes takes two addresses at most. -/
theorem Detours.pool {p q : Program} {sources : List Address} (h : Detours p sources q)
    (hp : p.pool.Ascending) :
    q.pool.Ascending ∧ p.pool.room ≤ q.pool.room + 2 * sources.length := by
  induction h with
  | nil => exact ⟨hp, Nat.le_refl _⟩
  | @cons p q r a as hrun _ hlabels _ ih =>
    obtain ⟨hascending, hstep⟩ := pool_selfContain hp hrun
    have hpool : q.pool = p.selfContain.program.pool := pool_relabel hlabels
    rw [← hpool] at hascending hstep
    obtain ⟨hlast, hrest⟩ := ih hascending
    rw [List.length_cons]
    exact ⟨hlast, by omega⟩

end Program

/-! ## All changes -/

namespace Pass

open Program (Detours ContainedBefore conditions)

/-- **The conditions that are redirected are taken in code order,** until none crosses or no address
is left. They come before those that are left at the end. -/
theorem exists_detours (name : String) (changes : Nat) {k : Nat} {p : Program} (hp : p.Sound)
    (hk : ContainedBefore p.code k) :
    ∃ sources q m, Detours p sources q ∧ q.Sound ∧ ContainedBefore q.code m ∧
      (sources ++ conditions (q.code.drop m)).Sublist (conditions (p.code.drop k)) ∧
      ((selfContained.settle name changes p).result = .ok (changes + sources.length) ∧
          (selfContained.settle name changes p).program = q ∨
        ∃ e, (selfContained.settle name changes p).result = .error e ∧
          (selfContained.run q).result = .error e) := by
  fun_induction settle Pass.selfContained name changes p generalizing k with
  | case1 changes p q e events hrun =>
    refine ⟨[], p, k, .nil p, hp, hk, List.Sublist.refl _, .inr ⟨e, rfl, ?_⟩⟩
    rw [hrun]
  | case2 changes p q events hrun =>
    have hq : (selfContained.run p).program = p := program_of_unchanged (by rw [hrun])
    rw [hrun] at hq
    exact ⟨[], p, k, .nil p, hp, hk, List.Sublist.refl _, .inl ⟨rfl, hq⟩⟩
  | case3 changes p q events hrun e hl =>
    -- The labels could have been computed anew.
    have hclosed : Closed (selfContained.run p).program.code := closed_run hp (by rw [hrun])
    rw [hrun] at hclosed
    obtain ⟨r, hr⟩ := Program.exists_relabel hclosed
    cases hl.symm.trans hr
  | case4 changes p q events hrun r hl ih =>
    have hchanged : (selfContained.run p).result = .ok true := by rw [hrun]
    have hlabels : (selfContained.run p).program.relabel = .ok r := by rw [hrun, hl]
    have haddressed := addressed_run hp hchanged
    have hsound := Program.sound_relabel haddressed.nodup haddressed.used hlabels
    obtain ⟨a, m, hredirects, hm, hsub⟩ := Program.redirects_selfContain hp hchanged hk
    rw [← Program.code_relabel hlabels] at hm hsub
    obtain ⟨sources, last, m', hdetours, hlast, hm', hsub', hend⟩ := ih hsound hm
    refine ⟨a :: sources, last, m', .cons hchanged hredirects hlabels hdetours, hlast, hm',
      (hsub'.cons_cons a).trans hsub, hend.imp_left fun hend => ?_⟩
    rw [List.length_cons, Nat.add_comm sources.length, ← Nat.add_assoc]
    exact hend

/-- **Making conditions self-contained fails only if the addresses run out**: if there is no room
for two of them for each condition that may cross. -/
theorem settle_selfContained_eq_error {name : String} {changes k : Nat} {p : Program} {e : Error}
    (hp : p.Sound) (ha : p.pool.Ascending) (hk : ContainedBefore p.code k)
    (h : (selfContained.settle name changes p).result = .error e) :
    e = .conflictingAddress Address.last ∧
      p.pool.room < 2 * Program.conditionsFrom p.code k := by
  obtain ⟨sources, q, m, hdetours, hq, hm, hsub, ⟨hok, _⟩ | ⟨e', herror, hrun⟩⟩ :=
    exists_detours name changes hp hk
  · rw [hok] at h
    cases h
  · cases herror.symm.trans h
    obtain ⟨hascending, hroom⟩ := hdetours.pool ha
    obtain ⟨he, hlast⟩ := Program.room_of_selfContain_error hq hascending hrun
    -- one more condition crosses, and it is left
    obtain ⟨c, hc, _⟩ := Program.selfContain_eq_error hq hrun
    have hpos := Program.conditionsFrom_pos hq.closed.nodup hc hm
    have hcount := hsub.length_le
    rw [List.length_append, Program.length_conditions, Program.length_conditions] at hcount
    unfold Program.conditionsFrom at hpos ⊢
    exact ⟨he, by omega⟩

end Pass

namespace Program

/-- **Making conditions self-contained comes to an end soon.** In a program made from code, the
conditions that are redirected are taken in code order, and none of them twice, so there are at most
as many changes as there are conditions. Each change redirects one condition and puts in two
instructions at most. The number of changes is what is returned, unless the addresses run out:
there is no room for two of them for each condition. -/
theorem selfContained_once (code : List Instruction) (labels : LabelTable) (p : Program)
    (name : String) (hp : ofCode code labels = .ok p) :
    ∃ sources q, Detours p sources q ∧ sources.Sublist (conditions code) ∧ sources.Nodup ∧
      sources.length ≤ code.countP Instruction.isCondition ∧
      q.code.length ≤ code.length + 2 * sources.length ∧
      ((Pass.selfContained.toFixpoint name p).result = .ok sources.length ∧
          (Pass.selfContained.toFixpoint name p).program = q ∨
        (Pass.selfContained.toFixpoint name p).result =
            .error (.conflictingAddress Address.last) ∧
          (Pass.selfContained.run q).result = .error (.conflictingAddress Address.last) ∧
          p.pool.room < 2 * code.countP Instruction.isCondition) := by
  obtain ⟨hsound, rfl⟩ := sound_ofCode hp
  have hstart := (Opened.start p.code).contained
  obtain ⟨sources, q, m, hdetours, _, _, hleft, hend⟩ := Pass.exists_detours name 0 hsound hstart
  have hsub : sources.Sublist (conditions p.code) := (List.sublist_append_left _ _).trans hleft
  have hnodup : (conditions p.code).Nodup :=
    hsound.closed.nodup.sublist (List.filter_sublist.map _)
  refine ⟨sources, q, hdetours, hsub, hnodup.sublist hsub, ?_, hdetours.length_le, ?_⟩
  · rw [← length_conditions]
    exact hsub.length_le
  · rcases hend with ⟨hok, hq⟩ | ⟨e, herror, hrun⟩
    · rw [Nat.zero_add] at hok
      exact .inl ⟨hok, hq⟩
    · obtain ⟨pool, hpool, hlabels⟩ := Result.bind_eq_ok.1 hp
      have hascending : p.pool.Ascending := by
        rw [pool_relabel hlabels]
        exact AddressPool.ascending_ofInstructions hpool
      obtain ⟨rfl, hroom⟩ := Pass.settle_selfContained_eq_error hsound hascending hstart herror
      exact .inr ⟨herror, hrun, hroom⟩

/-- The second condition crosses the end of the first. The third crosses nothing, until the second
one gets its detour. -/
def crossingTwice : List Instruction :=
  [.condition 0 [.test ⟨7, [5], false⟩] (some 5), .condition 1 [.test ⟨7, [6], false⟩] (some 7),
    .condition 2 [.test ⟨7, [7], false⟩] (some 5), .command 3 ⟨12, [3]⟩, .command 4 ⟨12, [4]⟩,
    .command 5 ⟨12, [5]⟩, .command 6 ⟨12, [6]⟩, .command 7 Command.ret]

theorem selfContained_once_crossingTwice :
    ∃ p sources q, ofCode crossingTwice ∅ = .ok p ∧ Detours p sources q ∧
      sources.Sublist [0, 1, 2] ∧ sources.Nodup ∧ sources.length = 2 ∧ q.code.length ≤ 12 ∧
      (Pass.selfContained.toFixpoint Pass.selfContained.name p).result = .ok 2 ∧
      (Pass.selfContained.toFixpoint Pass.selfContained.name p).program = q := by
  have hrun : (ofCode crossingTwice ∅ >>= fun p =>
      (Pass.selfContained.run p).program.relabel >>= fun q =>
      (Pass.selfContained.run q).program.relabel.map fun r =>
        ((Pass.selfContained.run p).result, (Pass.selfContained.run q).result,
          (Pass.selfContained.run r).result)) =
      .ok (.ok true, .ok true, .ok false) := by cbv
  obtain ⟨p, hp, hrun⟩ := Result.bind_eq_ok.1 hrun
  obtain ⟨q, hq, hrun⟩ := Result.bind_eq_ok.1 hrun
  obtain ⟨r, hr, hrun⟩ := Result.map_eq_ok.1 hrun
  simp only [Prod.mk.injEq] at hrun
  obtain ⟨hfirst, hsecond, hsettled⟩ := hrun
  have htwo : (Pass.selfContained.toFixpoint Pass.selfContained.name p).result = .ok 2 := calc
    (Pass.selfContained.settle Pass.selfContained.name 0 p).result
    _ = (Pass.selfContained.settle Pass.selfContained.name 1 q).result :=
      (Pass.settle_of_changed hfirst hq).2
    _ = (Pass.selfContained.settle Pass.selfContained.name 2 r).result :=
      (Pass.settle_of_changed hsecond hr).2
    _ = .ok 2 := (Pass.settle_of_unchanged hsettled).2
  obtain ⟨sources, last, hdetours, hsub, hnodup, _, hlength, ⟨hok, hlast⟩ | ⟨herror, _⟩⟩ :=
    selfContained_once crossingTwice ∅ p Pass.selfContained.name hp
  · have hcount : sources.length = 2 := Except.ok.inj (hok.symm.trans htwo)
    rw [hcount] at hlength
    exact ⟨p, sources, last, hp, hdetours, hsub, hnodup, hcount, hlength, htwo, hlast⟩
  · rw [htwo] at herror
    cases herror

end Program
end AdventureLogic
