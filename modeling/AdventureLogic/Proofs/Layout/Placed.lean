import AdventureLogic.Proofs.Layout.Once

/-!
# When a graph can be recompiled

A graph whose exits lead to blocks has a fragment for every block, and a layout
that succeeds has laid out every one of them, because control can go to it from
the root. So all its jumps lead to its instructions, and the code has a normal
form. Recompiling fails exactly if control can go round in a circle through
blocks without commands, unless the addresses run out before.

Key definitions: `BlockGraph.Circular`, `BlockGraph.LaidOut`. Key theorems:
`Layout.Complete.closed`, `BlockGraph.laidOut_layOut`,
`BlockGraph.layOut_eq_error`, `BlockGraph.recompile_eq_error`.
-/

namespace AdventureLogic

open Program (addresses)

/-- A set of numbers below a bound is no larger than the bound. -/
theorem FiniteSet.size_le_of_forall_lt {s : Std.TreeSet Nat} {bound : Nat}
    (h : ∀ n ∈ s, n < bound) : s.size ≤ bound := by
  have hnodup : s.toList.Nodup := by
    refine s.distinct_toList.imp fun {m n} hne heq => hne ?_
    rw [heq]
    exact Std.ReflCmp.compare_self
  rw [← Std.TreeSet.length_toList]
  exact length_le_of_forall_lt hnodup fun n hn => h n (Std.TreeSet.mem_toList.1 hn)

namespace Layout

variable {plan : Plan} {s : State}

namespace Complete

/-- **The jumps of a complete layout lead to its instructions.** -/
theorem closed (h : Complete plan s) (hs : Stocked plan s) : Closed s.output where
  nodup := hs.nodup
  target_mem i hi _ := (hs.sent i hi).target_mem h.invariant h.work

end Complete
end Layout

namespace BlockGraph

open Layout

variable {g : BlockGraph}

/-- The fragments of a graph whose exits lead to blocks are what a layout needs. -/
theorem furnished_compile (hg : g.Resolved) {plan : Plan} {pool : AddressPool}
    (h : g.compile.result = .ok (plan.fragments, pool)) :
    plan.Furnished ∧ ∀ n < g.size, plan.Has n := by
  have hcompiled := compiled_compile h
  have hhas : ∀ n < g.size, plan.Has n := fun n hn =>
    hcompiled.found n (Graph.mem_preorder_iff.2 (hg.reachable n hn))
  have hof : ∀ {n f}, plan.fragments.get? n = some f → ∃ b, FragmentOf g n b f :=
    fun hf => fragmentOf_compile h hf
  refine ⟨⟨fun n f hf i hi => ?_, fun n f m hf hending => ?_, fun n f hf hending hnil => ?_,
    fun n f clauses a yes skip merge hf hending => ?_, hcompiled.apart.nodup,
    hcompiled.apart.apart⟩, hhas⟩
  · obtain ⟨b, hb⟩ := hof hf
    exact hb.eq_command hi
  · obtain ⟨b, hb⟩ := hof hf
    exact hhas m (hg.leadsTo n m (.next hb.block (hb.exit_straight hending)))
  · obtain ⟨b, hb⟩ := hof hf
    exact hg.leave n b hb.block (hb.exit_straight hending) (hb.commands_of_nil hnil)
  · obtain ⟨b, hb⟩ := hof hf
    obtain ⟨rfl, yes', no', hexit, hyes, hno⟩ := hb.exit_branch hending
    exact ⟨hhas yes (hg.leadsTo n yes (.yes hb.block hexit hyes)),
      hhas skip (hg.leadsTo n skip (.no hb.block hexit hno)), fun m hm => hhas m (hg.merge n m hm)⟩

theorem stocked_start (hg : g.Resolved) {plan : Plan} {pool : AddressPool}
    (hplan : plan.graph = g) (h : g.compile.result = .ok (plan.fragments, pool)) :
    Stocked plan (plan.start pool) := by
  have hcompiled := compiled_compile h
  obtain ⟨_, hhas⟩ := furnished_compile hg h
  refine ⟨fun u hu => ?_, hcompiled.ascending, .nil, ?_, hcompiled.apart.used, ?_, ?_, ?_⟩
  · rw [List.mem_singleton.1 hu]
    exact hhas _ (hplan ▸ hg.root)
  · intro a ha
    cases ha
  · intro n f _ _ a _ ha
    cases ha
  · intro i hi
    cases hi
  · rintro n ⟨f, hf⟩ hn
    exact absurd (Plan.mem_blocks_of_get? hf) hn

/-- Blocks without commands pass control on as their fragments do. -/
theorem passesOn_eq (hg : g.Resolved) {plan : Plan} {pool : AddressPool}
    (h : g.compile.result = .ok (plan.fragments, pool)) :
    PassesOn plan.fragments = g.Passes := by
  funext n m
  refine propext ⟨?_, ?_⟩
  · rintro ⟨f, hf, he⟩
    obtain ⟨b, hb⟩ := fragmentOf_compile h hf
    obtain ⟨hcode, hending⟩ := Plan.entrance_eq_pass he
    exact ⟨b, hb.block, hb.commands_of_nil hcode, hb.exit_straight hending⟩
  · rintro ⟨b, hb, hnil, hexit⟩
    obtain ⟨f, hf⟩ := (furnished_compile hg h).2 n (lt_size_of_block? hb)
    obtain ⟨b', hb'⟩ := fragmentOf_compile h hf
    obtain rfl := Option.some.inj (hb.symm.trans hb'.block)
    refine ⟨f, hf, ?_⟩
    have hcode : f.code = [] := by
      have hcommands := hb'.commands
      rw [hnil] at hcommands
      exact List.map_eq_nil_iff.1 hcommands
    rw [Fragment.entrance, hcode, hb'.straight _ hexit]

/-- Control can go round in a circle through blocks without commands. -/
def Circular (g : BlockGraph) : Prop := ∃ n, Relation.TransGen g.Passes n n

/-- The number of addresses that a layout needs at most. -/
def layoutBound (g : BlockGraph) : Nat :=
  (g.toGraph.preorder.map (addressBound g)).sum + 3 * g.size + 1

/-- There are no more steps to be made than the blocks are worth. -/
theorem load_start {plan : Plan} {pool : AddressPool}
    (h : g.compile.result = .ok (plan.fragments, pool)) :
    (plan.start pool).load ≤ 3 * g.size + 1 := by
  have hblocks : plan.blocks.size ≤ g.size := by
    refine FiniteSet.size_le_of_forall_lt fun n hn => ?_
    rw [plan.blocks_eq, Std.TreeSet.mem_ofList, List.contains_iff_mem] at hn
    obtain ⟨⟨_, f⟩, hmem, rfl⟩ := List.mem_map.1 hn
    obtain ⟨b, hb⟩ := fragmentOf_compile h ((OrderedMap.get?_eq_some_iff _ _ _).2 hmem)
    exact lt_size_of_block? hb.block
  have hload : (plan.start pool).load = 3 * plan.blocks.size + 1 := rfl
  omega

/-- What holds of a layout that succeeds: its jumps lead to its instructions, its addresses are
taken, and control does not go round in circles. -/
structure LaidOut (g : BlockGraph) (final : State) : Prop where
  closed : Closed final.output
  targeted : Program.Targeted final.output
  ascending : final.pool.Ascending
  used : ∀ a ∈ addresses final.output, final.pool.isUsed a
  room : AddressPool.empty.room ≤ final.pool.room + layoutBound g
  not_circular : ¬g.Circular

/-- **Laying out a graph gives closed code.** -/
theorem laidOut_layOut (hg : g.Resolved) {final : State} (h : g.layOut.result = .ok final) :
    LaidOut g final := by
  obtain ⟨plan, pool, hplan, hcompile, hrun⟩ := exists_plan h
  obtain ⟨hfurnished, hhas⟩ := furnished_compile hg hcompile
  have hinvariant : Invariant plan (plan.start pool) := Plan.invariant_start pool
  obtain ⟨hstocked, hroom⟩ := Plan.stocked_run hfurnished (stocked_start hg hplan hcompile)
    hinvariant.stacked hrun
  obtain ⟨hinv, hwork⟩ := Plan.invariant_run hinvariant hrun
  have hcomplete : Complete plan final :=
    ⟨hinv, hwork, hstocked.nodup, fun n f hf => hplan ▸ fragmentOf_compile hcompile hf⟩
  refine ⟨hcomplete.closed hstocked, fun i hi => (hstocked.sent i hi).skip, hstocked.ascending,
    hstocked.used, ?_, ?_⟩
  · have hcompiled := (compiled_compile hcompile).room
    have hload := load_start hcompile
    have hpool : (plan.start pool).pool.room = pool.room := rfl
    rw [layoutBound]
    omega
  · -- Every block has been laid out, so control lands that enters it.
    rintro ⟨n, hcircle⟩
    obtain ⟨m, ⟨b, hb, _⟩, _⟩ := Relation.TransGen.head'_iff.1 hcircle
    have hlt := lt_size_of_block? hb
    have hplaced := (hcomplete.met_of_live (hplan ▸ hg.live n hlt)).placed
    obtain ⟨k, a, hl⟩ := hstocked.landed n (hhas n hlt) hplaced
    rw [← passesOn_eq hg hcompile] at hcircle
    exact hl.not_circular hcircle

/-- **Laying out a graph fails only if** the addresses run out or control can go round in a circle
through blocks without commands. -/
theorem layOut_eq_error (hg : g.Resolved) {e : Error} (h : g.layOut.result = .error e) :
    e = .conflictingAddress Address.last ∧ AddressPool.empty.room < layoutBound g ∨
      (∃ d, e = .unresolvedExit d) ∧ g.Circular := by
  rw [layoutBound]
  rcases Logged.result_bind_eq_error.1 h with h | ⟨_, _, h⟩
  · cases h
  rcases Logged.result_bind_eq_error.1 h with h | ⟨⟨fragments, pool⟩, hcompile, h⟩
  · obtain ⟨he, hroom⟩ := compile_eq_error hg h
    exact .inl ⟨he, by omega⟩
  rcases Logged.result_bind_eq_error.1 h with h | ⟨_, _, h⟩
  · cases h
  rcases Logged.result_bind_eq_error.1 h with h | ⟨final, _, h⟩
  · let plan : Plan := { graph := g, fragments := fragments }
    have hplan : g.compile.result = .ok (plan.fragments, pool) := hcompile
    obtain ⟨hfurnished, _⟩ := furnished_compile hg hplan
    have hstart := stocked_start hg rfl hplan
    have hinvariant : Invariant plan (plan.start pool) := Plan.invariant_start pool
    rcases Plan.run_eq_error hfurnished hstart hinvariant.stacked h with ⟨he, hroom⟩ | ⟨he, hcircle⟩
    · have hcompiled := (compiled_compile hplan).room
      have hload := load_start hplan
      have hpool : (plan.start pool).pool.room = pool.room := rfl
      exact .inl ⟨he, by omega⟩
    · rw [passesOn_eq hg hplan] at hcircle
      exact .inr ⟨he, hcircle⟩
  · cases h

/-- A layout has no more instructions than addresses were needed. -/
theorem LaidOut.length_output_le {final : State} (h : LaidOut g final) :
    final.output.length ≤ layoutBound g := by
  have hcount := AddressPool.length_add_room_le h.ascending h.closed.nodup h.used
  have hroom := h.room
  rw [AddressPool.room_empty] at hroom
  rw [addresses, List.length_map] at hcount
  omega

/-- The program of a layout exists, and there is room for its normal form unless the addresses run
out. -/
theorem LaidOut.exists_program {final : State} (h : LaidOut g final) :
    ∃ p, Program.ofCode final.output final.labels = .ok p ∧ p.Sound ∧ p.code = final.output ∧
      p.pool.Ascending ∧ AddressPool.empty.room ≤ p.pool.room + layoutBound g := by
  obtain ⟨p, hp⟩ := (Program.exists_ofCode_iff final.labels).2 h.closed
  obtain ⟨hsound, hcode⟩ := Program.sound_ofCode hp
  obtain ⟨pool, hpool, hrelabel⟩ := Result.bind_eq_ok.1 hp
  have hroom := AddressPool.room_le_ofInstructions h.ascending h.used hpool
  have hbound := h.room
  obtain rfl : p.pool = pool := Program.pool_relabel hrelabel
  exact ⟨p, hp, hsound, hcode, AddressPool.ascending_ofInstructions hpool, by omega⟩

/-- **Recompiling a graph whose exits lead to blocks** fails only if the addresses run out or
control can go round in a circle through blocks without commands. -/
theorem recompile_eq_error (hg : g.Resolved) {selfContained : Bool} {e : Error}
    (h : (g.recompile selfContained).result = .error e) :
    e = .conflictingAddress Address.last ∧ AddressPool.empty.room < 3 * layoutBound g ∨
      (∃ d, e = .unresolvedExit d) ∧ g.Circular := by
  rcases Logged.result_bind_eq_error.1 h with h | ⟨final, hfinal, h⟩
  · refine (layOut_eq_error hg h).imp_left fun ⟨he, hroom⟩ => ⟨he, ?_⟩
    omega
  have hlaid := laidOut_layOut hg hfinal
  obtain ⟨p, hp, hsound, hcode, hascending, hroom⟩ := hlaid.exists_program
  rcases Logged.result_bind_eq_error.1 h with h | ⟨p', hp', h⟩
  · cases hp.symm.trans h
  obtain rfl : p = p' := Except.ok.inj (hp.symm.trans hp')
  rcases Logged.result_bind_eq_error.1 h with h | ⟨normal, _, h⟩
  · obtain ⟨he, hshort⟩ := Program.normalize_eq_error hsound hascending (Result.map_eq_error.1 h)
    have hlength := hlaid.length_output_le
    rw [hcode] at hshort
    exact .inl ⟨he, by omega⟩
  · rcases Logged.result_bind_eq_error.1 h with h | ⟨_, _, h⟩ <;> cases h

/-- What holds of a graph that has been recompiled. -/
theorem targeted_recompile (hg : g.Resolved) {selfContained : Bool} {listing : Listing}
    (h : (g.recompile selfContained).result = .ok listing) :
    Program.Targeted listing.code ∧ ¬g.Circular := by
  obtain ⟨final, p, hfinal, hp, hok, rfl⟩ := recompile_eq_ok_iff.1 h
  have hlaid := laidOut_layOut hg hfinal
  obtain ⟨hsound, hcode⟩ := Program.sound_ofCode hp
  exact ⟨Program.targeted_normalize hsound (hcode ▸ hlaid.targeted) hok, hlaid.not_circular⟩

end BlockGraph
end AdventureLogic
