import Mathlib
import AdventureLogic.Proofs.Program.Closed

/-!
# However a pass ends

A pass may fail, and then it may leave a changed program behind. It fails only
if the addresses run out: all jumps of a sound program lead to its instructions,
and a pass keeps them inside the code, so computing the labels anew succeeds.
What a failed pass leaves is sound all the same. It may have put in the bypass
of a detour, but a bypass leads to the end of a region, and that has a label
already.

So every program that comes up is sound, whether passes before succeeded or not,
and no pass changes its runs.

Key definition: `Program.Reached`. Key theorems: `Pass.sound_settle`,
`Program.passes_equivalent`.
-/

namespace AdventureLogic
namespace Program

/-- Some instruction of the code jumps to the position. -/
def IsTarget (code : List Instruction) (n : Nat) : Prop :=
  ∃ t, some t ∈ code.map Instruction.target? ∧ code[n]?.map Instruction.address = some t

theorem headD_dropWhile {p : Nat → Bool} (l : List Nat) (default : Nat) :
    (l.dropWhile p).headD default = default ∨ (l.dropWhile p).headD default ∈ l := by
  cases h : l.dropWhile p with
  | nil => exact .inl rfl
  | cons x rest =>
    refine .inr ((List.dropWhile_suffix p).subset ?_)
    rw [h]
    exact List.mem_cons_self

/-- The region around a crossing ends where some condition skips to, or with the code. -/
theorem limit_crossingFrom {whole : List Instruction} {size : Nat} {regions : List Nat}
    {position : Nat} {code : List Instruction} {c : Crossing}
    (hregions : ∀ r ∈ regions, IsTarget whole r) (hcode : code ⊆ whole)
    (h : crossingFrom (positionsOf whole) size regions position code = .ok (some c)) :
    c.limit = size ∨ IsTarget whole c.limit := by
  have hopen : ∀ {regions : List Nat} (position : Nat), (∀ r ∈ regions, IsTarget whole r) →
      ∀ r ∈ regions.dropWhile (· ≤ position), IsTarget whole r := fun position h r hr =>
    h r ((List.dropWhile_suffix _).subset hr)
  fun_induction crossingFrom (positionsOf whole) size regions position code with
  | case1 => cases h
  | case2 => cases h
  | case3 regions position rest open_ a clauses t s hs _ ih =>
    refine ih ?_ (List.subset_of_cons_subset hcode) h
    have hmem : some t ∈ whole.map Instruction.target? :=
      List.mem_map.2 ⟨_, hcode List.mem_cons_self, rfl⟩
    have hs := ((get?_positionsOf_eq_some_iff whole t s).1 hs).1
    exact List.forall_mem_cons.2 ⟨⟨t, hmem, hs⟩, hopen position hregions⟩
  | case4 regions position rest open_ a clauses t s hs _ =>
    cases h
    exact (headD_dropWhile regions size).imp_right (hregions _)
  | case5 regions position i rest open_ _ ih =>
    exact ih (hopen position hregions) (List.subset_of_cons_subset hcode) h

/-- In closed code the search for a crossing finds all targets. -/
theorem crossingFrom_ne_error {whole : List Instruction} (hc : Closed whole) {size : Nat}
    {regions : List Nat} {position : Nat} {code : List Instruction} (hcode : code ⊆ whole)
    {e : Error} : crossingFrom (positionsOf whole) size regions position code ≠ .error e := by
  fun_induction crossingFrom (positionsOf whole) size regions position code with
  | case1 => simp
  | case2 regions position rest a clauses t hnone =>
    have ht := hc.target_mem _ (hcode List.mem_cons_self) t rfl
    have hfound := (contains_positionsOf whole t).2 ht
    rw [NatMap.contains, hnone] at hfound
    cases hfound
  | case3 regions position rest open_ a clauses t s _ _ ih =>
    exact ih (List.subset_of_cons_subset hcode)
  | case4 => simp
  | case5 regions position i rest open_ _ ih => exact ih (List.subset_of_cons_subset hcode)

/-- What stands at the end of the region around a crossing is the target of some jump. -/
theorem target_at_limit {p : Program} {c : Crossing} (hc : p.crossing? = .ok (some c))
    {i : Instruction} (hi : p.code[c.limit]? = some i) :
    some i.address ∈ p.code.map Instruction.target? := by
  rcases limit_crossingFrom (by simp) (List.Subset.refl _) hc with hsize | ⟨t, ht, hat⟩
  · rw [hsize, List.getElem?_eq_none (Nat.le_refl _)] at hi
    cases hi
  · rw [hi] at hat
    exact Option.some.inj hat ▸ ht

/-- What stands below a detour is the target of some jump. -/
theorem target_below {p : Program} {d : Detour} {c : Crossing} (hbefore : p.code = d.before)
    (hc : p.crossing? = .ok (some c)) (hlimit : d.above.length = c.limit) :
    ∀ i ∈ d.below.head?, some i.address ∈ d.before.map Instruction.target? := by
  intro i hi
  rw [← hbefore]
  refine target_at_limit hc ?_
  rw [hbefore, Detour.before, ← hlimit, List.getElem?_append_right (Nat.le_refl _), Nat.sub_self,
    ← List.head?_eq_getElem?]
  exact hi

theorem labels_bridge (p : Program) (n : Nat) : (p.bridge n).program.labels = p.labels := by
  unfold bridge
  split
  · split <;> rfl
  · rfl

/-- Where control does not run into a position, no bypass is put in. -/
theorem bridge_of_not_fallsInto {p : Program} {n : Nat} (h : fallsInto p.code n = false) :
    p.bridge n = ⟨p, .ok n, []⟩ := by
  rw [bridge, h]
  rfl

theorem bridge_of_error {p : Program} {n : Nat} {e : Error} (h : (p.bridge n).result = .error e) :
    (p.bridge n).program = p ∧ p.pool.fresh = .error e := by
  unfold bridge at h ⊢
  split
  · rename_i hf
    rw [if_pos hf] at h
    cases hfresh : p.pool.fresh with
    | error e' =>
      rw [hfresh] at h
      cases h
      exact ⟨rfl, rfl⟩
    | ok r =>
      rw [hfresh] at h
      cases h
  · rename_i hf
    rw [if_neg hf] at h
    cases h

/-- A bypass leads to where some condition skips to, so no label is missing after it is put in. -/
theorem sound_bridge {p : Program} (hp : p.Sound) {c : Crossing}
    (hc : p.crossing? = .ok (some c)) {n : Nat} (h : (p.bridge c.limit).result = .ok n) :
    (p.bridge c.limit).program.Sound := by
  obtain ⟨_, _, hle, _⟩ := crossingFrom_eq_some p.code (by simp) (Nat.zero_add _) hc
  have hlabels := labels_bridge p c.limit
  have hcode : p.code = p.code.take c.limit ++ p.code.drop c.limit :=
    (List.take_append_drop _ _).symm
  have hlen : (p.code.take c.limit).length = c.limit := List.length_take_of_le hle
  have hnext : ∀ next rest, p.code.drop c.limit = next :: rest →
      some next.address ∈ p.code.map Instruction.target? := by
    intro next rest hdrop
    exact target_at_limit hc (by rw [← List.head?_drop, hdrop]; rfl)
  generalize p.code.take c.limit = above at hcode hlen
  generalize p.code.drop c.limit = below at hcode hnext
  rw [← hlen] at h hlabels ⊢
  obtain ⟨bypass, hbcode, _, hbypass, hbnodup, hbfree, hbused⟩ := bridge_eq_ok hcode h
  have htarget : ∀ i ∈ bypass, ∀ t, i.target? = some t →
      t ∈ addresses p.code ∧ some t ∈ p.code.map Instruction.target? := by
    intro i hi t ht
    rcases hbypass with (⟨a, next, rest, rfl, rfl⟩ | ⟨a, rfl, rfl⟩) | ⟨rfl, _⟩
    · rw [List.mem_singleton.1 hi] at ht
      cases ht
      refine ⟨?_, hnext next rest rfl⟩
      rw [hcode]
      exact List.mem_map_of_mem (List.mem_append_right _ List.mem_cons_self)
    · rw [List.mem_singleton.1 hi] at ht
      cases ht
    · cases hi
  have hperm : (above ++ (bypass ++ below)).Perm (bypass ++ p.code) := by
    rw [hcode]
    exact List.perm_append_comm_assoc _ _ _
  have haddresses : ∀ a, a ∈ addresses (above ++ (bypass ++ below)) ↔
      a ∈ addresses bypass ∨ a ∈ addresses p.code := by
    intro a
    rw [addresses, (hperm.map _).mem_iff, List.map_append, List.mem_append]
    rfl
  refine ⟨⟨?_, ?_⟩, fun a => ?_, fun a ha => ?_⟩
  · rw [hbcode, addresses, (hperm.map _).nodup_iff, List.map_append, List.nodup_append]
    refine ⟨hbnodup, hp.closed.nodup, fun a ha b hb e => ?_⟩
    have hfree := hbfree a ha
    rw [hp.used a (e ▸ hb)] at hfree
    cases hfree
  · intro i hi t ht
    rw [hbcode] at hi ⊢
    rw [haddresses]
    rcases List.mem_append.1 (hperm.mem_iff.1 hi) with hi | hi
    · exact .inr (htarget i hi t ht).1
    · exact .inr (hp.closed.target_mem i hi t ht)
  · rw [hlabels, hp.labelled, hbcode, (hperm.map _).mem_iff, List.map_append, List.mem_append]
    refine ⟨.inr, fun h => h.elim (fun hb => ?_) id⟩
    obtain ⟨i, hi, ht⟩ := List.mem_map.1 hb
    exact (htarget i hi a ht).2
  · rw [hbcode, haddresses] at ha
    exact (hbused a).2 (ha.imp_right (hp.used a))

/-- What a failed attempt to make a crossing condition self-contained has done: nothing, or it has
put in a bypass. In both cases no fresh address was left. -/
theorem selfContain_eq_error {p : Program} (hp : p.Sound) {e : Error}
    (h : p.selfContain.result = .error e) :
    ∃ c, p.crossing? = .ok (some c) ∧
      (p.selfContain.program = p ∧ p.pool.fresh = .error e ∨
        ∃ n, (p.bridge c.limit).result = .ok n ∧
          p.selfContain.program = (p.bridge c.limit).program ∧
          (p.bridge c.limit).program.pool.fresh = .error e) := by
  unfold selfContain at h ⊢
  cases hc : p.crossing? with
  | error e' => exact absurd hc (crossingFrom_ne_error hp.closed (List.Subset.refl _))
  | ok found =>
    rw [hc] at h
    cases found with
    | none => cases h
    | some c =>
      refine ⟨c, rfl, ?_⟩
      dsimp only [Outcome.andThen] at h ⊢
      cases hb : (p.bridge c.limit).result with
      | error e' =>
        rw [hb] at h
        cases h
        exact .inl (bridge_of_error hb)
      | ok n =>
        rw [hb] at h
        dsimp only [Outcome.after] at h ⊢
        unfold detour at h ⊢
        cases hf : (p.bridge c.limit).program.pool.fresh with
        | error e' =>
          rw [hf] at h
          cases h
          exact .inr ⟨n, rfl, rfl, rfl⟩
        | ok r =>
          rw [hf] at h
          cases h

/-- Closed code can be labelled anew. -/
theorem exists_relabel {p : Program} (hc : Closed p.code) : ∃ q, p.relabel = .ok q := by
  obtain ⟨groups, hgroups⟩ := exists_groupJumps_iff.2 hc.target_mem
  exact ⟨_, relabel_eq_ok.2 ⟨groups, hgroups, rfl⟩⟩

/-- **A program can be made from code exactly if the code is closed.** -/
theorem exists_ofCode_iff {code : List Instruction} (labels : LabelTable) :
    (∃ p, ofCode code labels = .ok p) ↔ Closed code := by
  constructor
  · rintro ⟨p, h⟩
    obtain ⟨hs, rfl⟩ := sound_ofCode h
    exact hs.closed
  · intro hc
    obtain ⟨pool, hpool⟩ := AddressPool.exists_ofInstructions_iff.2 hc.nodup
    obtain ⟨q, hq⟩ := exists_relabel (p := ⟨code, labels, pool⟩) hc
    exact ⟨q, Result.bind_eq_ok.2 ⟨pool, hpool, hq⟩⟩

end Program

namespace Pass

/-- A pass that fails leaves a sound program. -/
theorem sound_of_error {pass : Pass} {p : Program} (hp : p.Sound) {e : Error}
    (h : (pass.run p).result = .error e) : (pass.run p).program.Sound := by
  cases pass with
  | unreachable => cases h
  | selfContained =>
    show p.selfContain.program.Sound
    obtain ⟨c, hc, ⟨hq, _⟩ | ⟨n, hb, hq, _⟩⟩ := Program.selfContain_eq_error hp h
    · rw [hq]
      exact hp
    · rw [hq]
      exact Program.sound_bridge hp hc hb
  | redundantGotos =>
    have hok : p.dropRedundantGotos.result = .error e := h
    unfold Program.dropRedundantGotos at hok
    dsimp only at hok
    split at hok <;> cases hok

theorem settle_of_error {pass : Pass} {name : String} {changes : Nat} {p : Program} {e : Error}
    (h : (pass.run p).result = .error e) :
    (pass.settle name changes p).program = (pass.run p).program ∧
      (pass.settle name changes p).result = .error e := by
  rw [settle]
  split
  · rename_i hrun
    rw [hrun] at h ⊢
    cases h
    exact ⟨rfl, rfl⟩
  · rename_i hrun
    rw [hrun] at h
    cases h
  · rename_i hrun
    rw [hrun] at h
    cases h

theorem settle_of_unchanged {pass : Pass} {name : String} {changes : Nat} {p : Program}
    (h : (pass.run p).result = .ok false) :
    (pass.settle name changes p).program = p ∧
      (pass.settle name changes p).result = .ok changes := by
  have hp := program_of_unchanged h
  rw [settle]
  split
  · rename_i hrun
    rw [hrun] at h
    cases h
  · rename_i hrun
    rw [hrun] at hp
    exact ⟨hp, rfl⟩
  · rename_i hrun
    rw [hrun] at h
    cases h

theorem settle_of_changed {pass : Pass} {name : String} {changes : Nat} {p q : Program}
    (h : (pass.run p).result = .ok true) (hq : (pass.run p).program.relabel = .ok q) :
    (pass.settle name changes p).program = (pass.settle name (changes + 1) q).program ∧
      (pass.settle name changes p).result = (pass.settle name (changes + 1) q).result := by
  rw [settle]
  split
  · rename_i hrun
    rw [hrun] at h
    cases h
  · rename_i hrun
    rw [hrun] at h
    cases h
  · rename_i hrun
    rw [hrun] at hq
    split
    · rename_i hl
      cases hq.symm.trans hl
    · rename_i hl
      cases hq.symm.trans hl
      exact ⟨rfl, rfl⟩

/-- **Sound programs stay sound,** however a pass that is run to its end ends. -/
theorem sound_settle {pass : Pass} {name : String} {changes : Nat} {p : Program} (hp : p.Sound) :
    (pass.settle name changes p).program.Sound := by
  fun_induction settle pass name changes p with
  | case1 changes p q e events hrun =>
    have hsound : (pass.run p).program.Sound := sound_of_error hp (by rw [hrun])
    rwa [hrun] at hsound
  | case2 changes p q events hrun =>
    have hq : (pass.run p).program = p := program_of_unchanged (by rw [hrun])
    rw [hrun] at hq
    exact hq ▸ hp
  | case3 changes p q events hrun e hl =>
    -- The labels could have been computed anew.
    have hclosed : Closed (pass.run p).program.code := closed_run hp (by rw [hrun])
    rw [hrun] at hclosed
    obtain ⟨r, hr⟩ := Program.exists_relabel hclosed
    rw [hl] at hr
    cases hr
  | case4 changes p q events hrun r hl ih =>
    have haddressed : (pass.run p).program.Addressed := addressed_run hp (by rw [hrun])
    rw [hrun] at haddressed
    exact ih (Program.sound_relabel haddressed.nodup haddressed.used hl)

end Pass

namespace Program

/-- The programs that come up: those made from code, and those that a pass leaves when it has been
run to its end, whether it succeeded or not. -/
inductive Reached : Program → Prop where
  | ofCode {code : List Instruction} {labels : LabelTable} {p : Program}
    (h : ofCode code labels = .ok p) : Reached p
  | toFixpoint {p : Program} (pass : Pass) (name : String) (h : Reached p) :
    Reached (pass.toFixpoint name p).program

theorem Reached.sound {p : Program} (h : p.Reached) : p.Sound := by
  induction h with
  | ofCode h => exact (sound_ofCode h).1
  | toFixpoint pass name _ ih => exact Pass.sound_settle ih

/-- **No pass changes a run.** For every program that comes up, one more run of any pass that
succeeds leaves a program that runs alike: for every sequence of decisions the same commands and
tests in the same order, and it halts or goes on without effects where the program before did. So
does bringing the program into normal form. -/
theorem passes_equivalent (p : Program) (hp : p.Reached) :
    (∀ (pass : Pass) (changed : Bool), (pass.run p).result = .ok changed →
      (Machine.ofCode p.code).Equivalent (Machine.ofCode (pass.run p).program.code)) ∧
    ∀ selfContained : Bool, (p.normalize selfContained).result = .ok () →
      (Machine.ofCode p.code).Equivalent
        (Machine.ofCode (p.normalize selfContained).program.code) := by
  constructor
  · intro pass changed h
    exact (Pass.refined_run hp.sound h).equivalent
  · intro selfContained h
    exact (refined_normalize hp.sound h).1.equivalent

/-- A loop that ends at the last address but one: its condition skips backward, and there is an
address left for a return at its end, but none for a detour. -/
def lastAddressLoop : List Instruction :=
  [.command 0 ⟨12, [5]⟩, .condition 1 [.test ⟨7, [5], false⟩] (some 0), .goto 2 4294967294,
    .goto 3 4294967294, .command 4294967294 ⟨12, [6]⟩]

theorem passes_equivalent_lastAddressLoop :
    ∃ p left, ofCode lastAddressLoop ∅ = .ok p ∧
      left = (Pass.selfContained.toFixpoint Pass.selfContained.name p).program ∧
      (Pass.selfContained.toFixpoint Pass.selfContained.name p).result =
        .error (.conflictingAddress Address.last) ∧
      left.code = lastAddressLoop ++ [.command 4294967295 Command.ret] ∧
      (Pass.redundantGotos.run left).result = .ok true ∧
      (Machine.ofCode left.code).Equivalent
        (Machine.ofCode (Pass.redundantGotos.run left).program.code) := by
  have hrun : (ofCode lastAddressLoop ∅).map (fun p =>
      (p.selfContain.result, p.selfContain.program.code,
        (Pass.redundantGotos.run p.selfContain.program).result)) =
      .ok (.error (.conflictingAddress Address.last),
        lastAddressLoop ++ [.command 4294967295 Command.ret], .ok true) := by cbv
  obtain ⟨p, hp, hresults⟩ := Result.map_eq_ok.1 hrun
  obtain ⟨hfailed, hrest⟩ := Prod.mk.inj hresults
  obtain ⟨hcode, hchanged⟩ := Prod.mk.inj hrest
  obtain ⟨hprogram, hresult⟩ :
      (Pass.selfContained.toFixpoint Pass.selfContained.name p).program = p.selfContain.program ∧
        (Pass.selfContained.toFixpoint Pass.selfContained.name p).result =
          .error (.conflictingAddress Address.last) := Pass.settle_of_error hfailed
  have hleft : Reached (Pass.selfContained.toFixpoint Pass.selfContained.name p).program :=
    .toFixpoint _ _ (.ofCode hp)
  rw [← hprogram] at hcode hchanged
  exact ⟨p, _, hp, rfl, hresult, hcode, hchanged,
    (passes_equivalent _ hleft).1 .redundantGotos true hchanged⟩

end Program
end AdventureLogic
